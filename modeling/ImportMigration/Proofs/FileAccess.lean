import ImportMigration.Proofs.Itinerary

/-!
What a session reads and writes through a path. A path edits the file that it leads to when the
file can be both read and written through it.
-/

namespace ImportMigration

/-- Whether a node can be both read and written once a path leads to it. -/
def Node.isOpen : Node → Bool
  | .file access _ => access.read && access.write
  | .sink => true
  | _ => false

namespace Session

variable {s s' : Session} {p : Path} {place : Place}

theorem read_of_file {access : Access} {content : Bytes} (hp : s.resolve p = .ok place)
    (hn : s.disk.node? place = some (.file access content)) :
    s.read p = if access.read then .ok content else .error .notPermitted := by
  simp [read, node, hp, hn, Except.bind]

theorem write_of_file {access : Access} {old : Bytes} (hp : s.resolve p = .ok place)
    (hn : s.disk.node? place = some (.file access old)) (content : Bytes) :
    s.write p content =
      if access.write then (.ok (), s.writeAt place access content)
      else (.error .notPermitted, s) := by
  simp [write, hp, hn]

/-- A write replaces the content of a file that may be written, or changes nothing. -/
theorem write_cases (s : Session) (p : Path) (content : Bytes) :
    (∃ place access old, s.resolve p = .ok place ∧
      s.disk.node? place = some (.file access old) ∧ access.write = true ∧
      s.write p content = (.ok (), s.writeAt place access content)) ∨
    (s.write p content).2 = s ∧ ∀ place access old, s.resolve p = .ok place →
      s.disk.node? place = some (.file access old) → access.write = false := by
  cases hp : s.resolve p with
  | error cause => simp [write, hp]
  | ok place =>
    by_cases hf : ∃ access old, s.disk.node? place = some (.file access old) ∧ access.write = true
    · obtain ⟨access, old, hn, hw⟩ := hf
      exact .inl ⟨place, access, old, rfl, hn, hw, by rw [write_of_file hp hn, if_pos hw]⟩
    · right
      constructor
      · cases hn : s.disk.node? place with
        | none => simp only [write, hp, hn]
        | some n =>
          cases n with
          | file access old =>
            have hw : ¬ access.write = true := fun hw => hf ⟨access, old, hn, hw⟩
            rw [write_of_file hp hn, if_neg hw]
          | _ => simp only [write, hp, hn]
      · intro q access old hq hn
        obtain rfl := Except.ok.inj hq
        exact Bool.eq_false_iff.mpr fun hw => hf ⟨access, old, hn, hw⟩

theorem alike_write (s : Session) (p : Path) (content : Bytes) :
    (s.write p content).2.Alike s := by
  rcases s.write_cases p content with ⟨place, access, old, _, hn, _, hw⟩ | ⟨hw, _⟩
  · rw [hw]
    exact ⟨.put_file hn, rfl⟩
  · rw [hw]
    exact .refl s

/-- Whether a path leads to a place, and what is there can be read and written through the path. -/
def editable (s : Session) (place : Place) (p : Path) : Bool :=
  s.resolve p = .ok place && (s.read p).isOk && (s.write p []).1.isOk

theorem editable_eq (s : Session) (place : Place) (p : Path) :
    s.editable place p =
      (s.resolve p = .ok place && (s.disk.node? place).any Node.isOpen) := by
  by_cases hp : s.resolve p = .ok place
  · simp only [editable, read, write, node, hp, Except.bind]
    cases s.disk.node? place with
    | none => rfl
    | some n =>
      cases n with
      | file access content =>
        obtain ⟨read, write, execute⟩ := access
        cases read <;> cases write <;> rfl
      | _ => rfl
  · simp [editable, hp]

theorem editable_file_iff {access : Access} {content : Bytes}
    (hn : s.disk.node? place = some (.file access content)) :
    s.editable place p = true ↔
      s.resolve p = .ok place ∧ access.read = true ∧ access.write = true := by
  simp [editable_eq, hn, Node.isOpen]

theorem Alike.editable_eq (h : s'.Alike s) (place : Place) (p : Path) :
    s'.editable place p = s.editable place p := by
  rw [Session.editable_eq, Session.editable_eq, h.resolve_eq]
  rcases h.disk.cases place with ⟨access, content, content', hn, hn'⟩ | hn
  · rw [hn, hn']
    rfl
  · rw [hn]

end Session

end ImportMigration
