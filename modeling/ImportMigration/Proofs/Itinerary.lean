import ImportMigration.Proofs.Shape

/-!
What a walk meets is settled before its first visit, as long as the visits keep the shape of the
disk: the walk then is its itinerary, taken one encounter after the other.
-/

namespace ImportMigration

/-- Two sessions in one directory, whose disks differ at most in the contents of files. -/
structure Session.Alike (s s' : Session) : Prop where
  disk : s.disk.SameShape s'.disk
  directory : s.directory = s'.directory

namespace Session.Alike

variable {s s' s'' : Session}

theorem refl (s : Session) : s.Alike s :=
  ⟨.refl _, rfl⟩

theorem trans (h : s.Alike s') (h' : s'.Alike s'') : s.Alike s'' :=
  ⟨h.disk.trans h'.disk, h.directory.trans h'.directory⟩

theorem tell (s : Session) (n : Notice) : (s.tell n).Alike s :=
  ⟨.refl _, rfl⟩

theorem resolve_eq (h : s.Alike s') (p : Path) : s.resolve p = s'.resolve p := by
  simp only [Session.resolve, h.disk.resolve_eq, h.directory]

theorem kind_eq (h : s.Alike s') (p : Path) :
    (s.node p).map Node.kind = (s'.node p).map Node.kind := by
  unfold Session.node
  rw [h.resolve_eq]
  cases s'.resolve p with
  | error cause => rfl
  | ok place =>
    have hk := h.disk.kind_eq place
    simp only [Except.bind]
    cases hn : s.disk.node? place <;> cases hn' : s'.disk.node? place <;>
      simp_all [Except.map]

/-- Both sessions list a directory alike, up to the order of its entries. -/
theorem list_eq (h : s.Alike s') (p : Path) :
    (s.list p).map (·.mergeSort Source.entryLE) = (s'.list p).map (·.mergeSort Source.entryLE) := by
  unfold Session.list
  rw [h.resolve_eq]
  cases s'.resolve p with
  | error cause => rfl
  | ok place =>
    rcases h.disk.cases place with ⟨access, content, content', hp, hp'⟩ | hp
    · simp only [hp, hp']
    · simp only [hp]
      cases s'.disk.node? place with
      | none => rfl
      | some n =>
        cases n with
        | directory access =>
          cases hr : access.read with
          | false => simp only [hr, Bool.false_eq_true, if_false, Except.map]
          | true => simp only [hr, if_true, Except.map, h.disk.mergeSort_entries_eq place]
        | _ => rfl

end Session.Alike

theorem bind_run {β γ : Type} (x : StateM Session β) (f : β → StateM Session γ) (s : Session) :
    (x >>= f) s = f (x s).1 (x s).2 :=
  rfl

theorem kind_run (s : Session) (p : Path) :
    (Machine.kind p : StateM Session (Except Cause Kind)) s = ((s.node p).map Node.kind, s) :=
  rfl

theorem list_run (s : Session) (p : Path) :
    (Machine.list p : StateM Session (Except Cause (List Entry))) s = (s.list p, s) :=
  rfl

theorem read_run (s : Session) (p : Path) :
    (Machine.read p : StateM Session (Except Cause Bytes)) s = (s.read p, s) :=
  rfl

theorem write_run (s : Session) (p : Path) (content : Bytes) :
    (Machine.write p content : StateM Session (Except Cause Unit)) s = s.write p content :=
  rfl

namespace Source

variable {α : Type} {filter : Filter} {visit : Path → StateM Session α}

/-- What a walk meets: a file to visit, or a directory that cannot be listed. -/
inductive Encounter where
  | file (p : Path)
  | unreadable (directory : Path) (cause : Cause)
  deriving DecidableEq, Repr

def Encounter.path? : Encounter → Option Path
  | file p => some p
  | unreadable _ _ => none

theorem Encounter.path?_eq_some_iff {e : Encounter} {p : Path} :
    e.path? = some p ↔ e = .file p := by
  cases e <;> simp [path?]

/-- The path of what is met. -/
def Encounter.path : Encounter → Path
  | file p => p
  | unreadable directory _ => directory

/-- Takes encounters one after the other: visits the files, and reports the directories. -/
def meet (visit : Path → StateM Session α) : List Encounter → StateM Session (List α)
  | [] => return []
  | .file p :: rest => return (← visit p) :: (← meet visit rest)
  | .unreadable directory cause :: rest => do
    Machine.tell (.unreadableDirectory directory cause)
    meet visit rest

/-- Whether an entry is a file in a session, itself or through a link. -/
def leadsToFile (s : Session) (p : Path) : Kind → Bool
  | .file => true
  | .link => ((s.node p).map Node.kind).toOption == some .file
  | _ => false

/-- What a walk below a directory meets on a disk that keeps its shape, in order. -/
def itinerary (filter : Filter) (s : Session) : Nat → Path → List Encounter
  | 0, _ => []
  | depth + 1, directory =>
    match s.list directory with
    | .error cause => [.unreadable directory cause]
    | .ok entries =>
      (entries.mergeSort entryLE).flatMap fun entry =>
        let p := directory.child entry.name
        if entry.kind = .directory then itinerary filter s depth p
        else if leadsToFile s p entry.kind && filter.accepts p then [.file p]
        else []

/-- What a walk meets with one entry of a directory. -/
def encounters (filter : Filter) (s : Session) (depth : Nat) (directory : Path) (entry : Entry) :
    List Encounter :=
  let p := directory.child entry.name
  if entry.kind = .directory then itinerary filter s depth p
  else if leadsToFile s p entry.kind && filter.accepts p then [.file p]
  else []

theorem itinerary_of_error {s : Session} {directory : Path} {cause : Cause}
    (h : s.list directory = .error cause) (depth : Nat) :
    itinerary filter s (depth + 1) directory = [.unreadable directory cause] := by
  unfold itinerary
  rw [h]

theorem itinerary_of_ok {s : Session} {directory : Path} {entries : List Entry}
    (h : s.list directory = .ok entries) (depth : Nat) :
    itinerary filter s (depth + 1) directory =
      (entries.mergeSort entryLE).flatMap (encounters filter s depth directory) := by
  unfold itinerary
  rw [h]
  rfl

theorem mem_encounters_iff {s : Session} {depth : Nat} {directory : Path} {entry : Entry}
    {e : Encounter} : e ∈ encounters filter s depth directory entry ↔
      entry.kind = .directory ∧ e ∈ itinerary filter s depth (directory.child entry.name) ∨
        entry.kind ≠ .directory ∧ leadsToFile s (directory.child entry.name) entry.kind = true ∧
          filter.accepts (directory.child entry.name) = true ∧
          e = .file (directory.child entry.name) := by
  unfold encounters
  by_cases hk : entry.kind = .directory
  · simp [hk]
  · simp [hk, and_assoc]

/-- A visit that changes at most the contents of files. -/
def KeepsShape (visit : Path → StateM Session α) : Prop :=
  ∀ p s, (visit p s).2.Alike s

theorem meet_file (visit : Path → StateM Session α) (p : Path) (es : List Encounter)
    (s : Session) :
    meet visit (.file p :: es) s =
      ((visit p s).1 :: (meet visit es (visit p s).2).1, (meet visit es (visit p s).2).2) :=
  rfl

theorem meet_unreadable (visit : Path → StateM Session α) (directory : Path) (cause : Cause)
    (es : List Encounter) (s : Session) :
    meet visit (.unreadable directory cause :: es) s =
      meet visit es (s.tell (.unreadableDirectory directory cause)) :=
  rfl

theorem meet_append (visit : Path → StateM Session α) (es es' : List Encounter) (s : Session) :
    meet visit (es ++ es') s =
      ((meet visit es s).1 ++ (meet visit es' (meet visit es s).2).1,
        (meet visit es' (meet visit es s).2).2) := by
  induction es generalizing s with
  | nil => rfl
  | cons e es ih =>
    cases e with
    | file p => simp only [List.cons_append, meet_file, ih]
    | unreadable directory cause => simp only [List.cons_append, meet_unreadable, ih]

theorem KeepsShape.meet (hv : KeepsShape visit) (es : List Encounter) (s : Session) :
    (meet visit es s).2.Alike s := by
  induction es generalizing s with
  | nil => exact .refl s
  | cons e es ih =>
    cases e with
    | file p => exact (ih _).trans (hv p s)
    | unreadable directory cause => exact (ih _).trans (.tell s _)

theorem leadsToFile_eq {s s' : Session} (h : s.Alike s') (p : Path) (k : Kind) :
    leadsToFile s p k = leadsToFile s' p k := by
  cases k <;> simp only [leadsToFile, h.kind_eq]

theorem isFile_run (s : Session) (p : Path) (k : Kind) :
    (isFile p k : StateM Session Bool) s = (leadsToFile s p k, s) := by
  cases k <;> rfl

/-- Steps that each amount to some encounters, taken one after the other, amount to all of them. -/
theorem mapM_eq_meet (hv : KeepsShape visit) {s : Session}
    {step : Entry → StateM Session (List α)} {met : Entry → List Encounter}
    (hstep : ∀ e s', s'.Alike s → step e s' = meet visit (met e) s') (entries : List Entry)
    {s' : Session} (h : s'.Alike s) :
    (((entries.mapM step) s').1.flatten, ((entries.mapM step) s').2) =
      meet visit (entries.flatMap met) s' := by
  induction entries generalizing s' with
  | nil => rfl
  | cons e entries ih =>
    have he := hstep e s' h
    have hs : (step e s').2.Alike s := by
      rw [he]
      exact (hv.meet _ _).trans h
    rw [List.flatMap_cons, meet_append, ← he, ← ih hs, List.mapM_cons]
    rfl

/-- What a walk does with one entry of a directory. -/
def take (filter : Filter) (visit : Path → StateM Session α) (depth : Nat) (directory : Path)
    (e : Entry) : StateM Session (List α) := do
  let p := directory.child e.name
  if e.kind = .directory then descend filter visit depth p
  else if (← isFile p e.kind) && filter.accepts p then return [← visit p]
  else return []

theorem descend_of_error {s : Session} {directory : Path} {cause : Cause}
    (h : s.list directory = .error cause) (depth : Nat) :
    descend filter visit (depth + 1) directory s =
      ([], s.tell (.unreadableDirectory directory cause)) := by
  unfold descend
  rw [bind_run, list_run, h]
  rfl

theorem descend_of_ok {s : Session} {directory : Path} {entries : List Entry}
    (h : s.list directory = .ok entries) (depth : Nat) :
    descend filter visit (depth + 1) directory s =
      ((((entries.mergeSort entryLE).mapM (take filter visit depth directory)) s).1.flatten,
        (((entries.mergeSort entryLE).mapM (take filter visit depth directory)) s).2) := by
  unfold descend
  rw [bind_run, list_run, h]
  rfl

theorem take_run (s : Session) (depth : Nat) (directory : Path) (e : Entry) :
    take filter visit depth directory e s =
      if e.kind = .directory then descend filter visit depth (directory.child e.name) s
      else if leadsToFile s (directory.child e.name) e.kind &&
          filter.accepts (directory.child e.name) then
        ([(visit (directory.child e.name) s).1], (visit (directory.child e.name) s).2)
      else ([], s) := by
  unfold take
  by_cases hk : e.kind = .directory
  · simp only [hk, if_true]
  · simp only [hk, if_false]
    rw [bind_run, isFile_run]
    dsimp only
    split <;> rfl

theorem itinerary_eq {s s' : Session} (h : s'.Alike s) (depth : Nat) (directory : Path) :
    itinerary filter s' depth directory = itinerary filter s depth directory := by
  induction depth generalizing directory with
  | zero => rfl
  | succ depth ih =>
    have hl := h.list_eq directory
    cases hd : s'.list directory with
    | error cause =>
      cases hd' : s.list directory with
      | ok entries => simp [hd, hd', Except.map] at hl
      | error cause' =>
        obtain rfl : cause = cause' := by simpa [hd, hd', Except.map] using hl
        rw [itinerary_of_error hd, itinerary_of_error hd']
    | ok entries =>
      cases hd' : s.list directory with
      | error cause => simp [hd, hd', Except.map] at hl
      | ok entries' =>
        have hs : entries.mergeSort entryLE = entries'.mergeSort entryLE := by
          simpa [hd, hd', Except.map] using hl
        rw [itinerary_of_ok hd, itinerary_of_ok hd', hs]
        refine List.flatMap_congr fun e _ => ?_
        unfold encounters
        simp only [ih, leadsToFile_eq h]

/-- The walk below a directory takes its itinerary. -/
theorem descend_eq_meet (hv : KeepsShape visit) (s : Session) (depth : Nat) (directory : Path) :
    descend filter visit depth directory s =
      meet visit (itinerary filter s depth directory) s := by
  induction depth generalizing directory s with
  | zero => rfl
  | succ depth ih =>
    cases hd : s.list directory with
    | error cause =>
      rw [descend_of_error hd, itinerary_of_error hd]
      rfl
    | ok entries =>
      rw [descend_of_ok hd, itinerary_of_ok hd]
      refine mapM_eq_meet hv ?_ _ (.refl s)
      intro e s' h
      rw [take_run, encounters]
      by_cases hk : e.kind = .directory
      · simp only [hk, if_true, ih, itinerary_eq h]
      · simp only [hk, if_false, leadsToFile_eq h]
        split <;> rfl

/-- What a walk below a root that is a directory meets. -/
def itineraryOf (filter : Filter) (s : Session) (root : Path) : List Encounter :=
  itinerary filter s (s.disk.nodes.length + 1) root

/-- What a walk meets does not depend on the order in which the directories are listed, nor on the
contents of files. -/
theorem itineraryOf_eq {s s' : Session} (h : s'.Alike s) (root : Path) :
    itineraryOf filter s' root = itineraryOf filter s root := by
  rw [itineraryOf, itineraryOf, h.disk.length_nodes_eq]
  exact itinerary_eq h _ root

theorem walk_eq_meet (hv : KeepsShape visit) {s : Session} {root : Path} {access : Access}
    (h : s.node root = .ok (.directory access)) :
    walk filter visit root s =
      (.ok (meet visit (itineraryOf filter s root) s).1,
        (meet visit (itineraryOf filter s root) s).2) := by
  unfold walk
  rw [bind_run, kind_run, h]
  show (Except.ok (descend filter visit (s.disk.nodes.length + 1) root s).1,
    (descend filter visit (s.disk.nodes.length + 1) root s).2) = _
  rw [descend_eq_meet hv]
  rfl

theorem meet_pure (es : List Encounter) (s : Session) :
    (meet (pure : Path → StateM Session Path) es s).1 = es.filterMap Encounter.path? := by
  induction es generalizing s with
  | nil => rfl
  | cons e es ih =>
    cases e with
    | file p => exact congrArg (p :: ·) (ih s)
    | unreadable directory cause => exact ih _

theorem keepsShape_pure : KeepsShape (pure : Path → StateM Session Path) :=
  fun _ s => .refl s

end Source

end ImportMigration
