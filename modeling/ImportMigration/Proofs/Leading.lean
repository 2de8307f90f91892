import ImportMigration.Disk.Session
import ImportMigration.Proofs.Below

/-!
Where a path below a directory leads. Once its first steps have been taken, the others are taken
from where these have led, with as many links as are left (`Disk.follow_append`). So a name in a
directory leads to what bears it there, or through the link that does, and nowhere else.
-/

namespace ImportMigration

namespace Disk

variable {d : Disk} {authority : Bool}

/-- The arrival when further steps are taken from an arrival on. -/
def Arrival.andThen (d : Disk) (authority : Bool) (b : List Step) : Arrival → Except Cause Arrival
  | .reached q => d.advance authority q b
  | .link directory target rest => .ok (.link directory target (rest ++ b))

theorem advance_append (d : Disk) (authority : Bool) (p : Place) (a b : List Step) :
    d.advance authority p (a ++ b) =
      (d.advance authority p a).bind (Arrival.andThen d authority b) := by
  induction a generalizing p with
  | nil => rfl
  | cons step a ih =>
    rw [List.cons_append]
    unfold advance
    cases d.node? p with
    | none => rfl
    | some node =>
      cases node with
      | directory access =>
        dsimp only
        split
        · exact ih p
        · split
          · rfl
          · cases step with
            | name n =>
              dsimp only
              split
              · rfl
              · cases d.node? (p ++ [n]) with
                | none => rfl
                | some node =>
                  cases node with
                  | link target => rfl
                  | _ => exact ih (p ++ [n])
            | up => exact ih p.dropLast
            | stay => exact ih p
            | directory => exact ih p
      | _ => rfl

theorem follow_of_link {p directory : Place} {steps rest : List Step} {target : Path}
    (h : d.advance authority p steps = .ok (.link directory target rest)) (links : Nat) :
    d.follow authority (links + 1) p steps =
      if target.bytes = [] then .error .notFound
      else
        match target.steps with
        | .error cause => .error cause
        | .ok steps =>
          d.follow authority links (if target.isAbsolute then [] else directory) (steps ++ rest) := by
  rw [follow]
  cases hs : target.steps with
  | error cause => simp only [h, hs]
  | ok steps => simp only [h, hs]

/-- Steps that lead nowhere do so whatever follows; others leave the rest to be taken from where
they have led. -/
theorem follow_append (d : Disk) (authority : Bool) (links : Nat) (p : Place) (a : List Step) :
    (∃ cause, d.follow authority links p a = .error cause ∧
      ∀ b, d.follow authority links p (a ++ b) = .error cause) ∨
    ∃ q left, d.follow authority links p a = .ok q ∧
      ∀ b, d.follow authority links p (a ++ b) = d.follow authority left q b := by
  cases ha : d.advance authority p a with
  | error cause =>
    left
    refine ⟨cause, ?_, fun b => ?_⟩ <;> unfold follow
    · rw [ha]
    · rw [advance_append, ha]
      rfl
  | ok arrival =>
    cases arrival with
    | reached q =>
      right
      refine ⟨q, links, ?_, fun b => ?_⟩
      · unfold follow
        rw [ha]
      · unfold follow
        rw [advance_append, ha]
        rfl
    | link directory target rest =>
      have hb (b : List Step) : d.advance authority p (a ++ b) =
          .ok (.link directory target (rest ++ b)) := by
        rw [advance_append, ha]
        rfl
      cases links with
      | zero =>
        left
        refine ⟨.tooManyLinks, ?_, fun b => ?_⟩ <;> unfold follow
        · rw [ha]
        · rw [hb]
      | succ links =>
        simp only [follow_of_link ha, fun b => follow_of_link (hb b)]
        split
        · exact .inl ⟨.notFound, rfl, fun _ => rfl⟩
        · cases target.steps with
          | error cause => exact .inl ⟨cause, rfl, fun _ => rfl⟩
          | ok steps =>
            simp only [← List.append_assoc]
            exact follow_append d authority links _ _

/-- A slash at the end asks for a directory, and leads no further. -/
theorem follow_directory {links : Nat} {p q : Place}
    (h : d.follow authority links p [.directory] = .ok q) : q = p := by
  unfold follow advance at h
  cases hn : d.node? p with
  | none => simp [hn] at h
  | some node =>
    cases node with
    | directory access => simpa [hn, advance, eq_comm] using h
    | _ => simp [hn] at h

theorem advance_name (authority : Bool) {p : Place} {n : FileName} {node : Node}
    (hn : d.node? (p ++ [n]) = some node) (hl : ∀ target, node ≠ .link target) :
    (∃ cause, d.advance authority p [.name n] = .error cause) ∨
      d.advance authority p [.name n] = .ok (.reached (p ++ [n])) := by
  unfold advance
  cases d.node? p with
  | none => exact .inl ⟨_, rfl⟩
  | some parent =>
    cases parent with
    | directory access =>
      simp only [hn, reduceCtorEq, if_false]
      split
      · exact .inl ⟨_, rfl⟩
      · split
        · exact .inl ⟨_, rfl⟩
        · exact .inr (by rw [advance])
    | _ => exact .inl ⟨_, rfl⟩

/-- A name that is borne by no link leads to its own place. -/
theorem follow_name {links : Nat} {p q : Place} {n : FileName} {node : Node}
    (hn : d.node? (p ++ [n]) = some node) (hl : ∀ target, node ≠ .link target)
    (h : d.follow authority links p [.name n] = .ok q) : q = p ++ [n] := by
  unfold follow at h
  rcases advance_name authority hn hl with ⟨cause, ha⟩ | ha
  · simp [ha] at h
  · simpa [ha, eq_comm] using h

/-- From a path to that of a name in it: the name is taken from the place that the path leads to. -/
theorem resolve_child {start place : Place} {p : Path} (h : d.resolve authority start p = .ok place)
    (n : FileName) :
    ∃ links, d.resolve authority start (p.child n) =
      if pathLimit < (p.child n).bytes.length then .error .nameTooLong
      else d.follow authority links place [.name n] := by
  unfold resolve at h
  split at h
  · contradiction
  rename_i hp
  cases hs : p.steps with
  | error cause => simp [hs] at h
  | ok steps =>
    simp only [hs] at h
    split at h
    · contradiction
    obtain ⟨a, ha, hchild⟩ := Path.steps_child hs n
    have hne : (p.child n).bytes ≠ [] := by
      rcases Path.bytes_child p n with ⟨_, hnil⟩ | ⟨w, hb, _⟩
      · exact absurd hnil hp
      · simp [hb]
    rw [resolve, if_neg hne, hchild, Path.isAbsolute_child hp]
    -- A slash at the end of the directory's path makes no difference to where it leads.
    rcases follow_append d authority linkLimit (if p.isAbsolute then [] else start) a with
      ⟨cause, hnone, hrest⟩ | ⟨q, left, hq, hrest⟩
    · rcases ha with rfl | rfl
      · simp [hnone] at h
      · simp [hrest] at h
    · have hplace : q = place := by
        rcases ha with rfl | rfl
        · simpa [hq] using h
        · rw [hrest] at h
          exact (follow_directory h).symm
      subst hplace
      exact ⟨left, by simp only [hrest]⟩

end Disk

end ImportMigration
