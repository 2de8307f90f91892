import ImportMigration.Proofs.Leading
import Mathlib.Data.List.Basic
import Mathlib.Data.List.Induction
import Mathlib.Data.List.TakeWhile

/-!
A path from the working directory, and the same path written from the top of the disk. Both lead to
the same if every directory above the working directory may be searched and the longer spelling is
within the limit for paths (`Session.resolve_fromTop`).
-/

namespace ImportMigration

namespace Path

variable {p : Path}

/-- The path is taken from the working directory. An empty one leads nowhere. -/
def IsRelative (p : Path) : Prop :=
  p.isAbsolute = false ∧ p.bytes ≠ []

instance (p : Path) : Decidable p.IsRelative :=
  inferInstanceAs (Decidable (_ ∧ _))

theorem IsRelative.child (h : p.IsRelative) (n : FileName) : (p.child n).IsRelative := by
  refine ⟨(isAbsolute_child h.2).trans h.1, ?_⟩
  rcases bytes_child p n with ⟨_, hp⟩ | ⟨w, hb, _⟩
  · exact absurd hp h.2
  · simp [hb]

theorem IsRelative.below (h : p.IsRelative) (names : List FileName) :
    (p.below names).IsRelative := by
  induction names generalizing p with
  | nil => exact h
  | cons n names ih => exact ih (h.child n)

theorem isRelative_name (n : FileName) : IsRelative ⟨n.bytes⟩ := by
  refine ⟨?_, n.isFileName.1⟩
  simp only [isAbsolute, beq_eq_false_iff_ne]
  exact fun h => n.isFileName.2.1 (List.mem_of_head? h)

theorem bytes_child_eq (p : Path) (n : FileName) : (p.child n).bytes =
    p.bytes ++ if p.bytes.getLast?.all (· == slash) then n.bytes else slash :: n.bytes := by
  unfold child join
  rw [(isRelative_name n).1, if_neg Bool.false_ne_true]
  split <;> rfl

theorem length_le_child (p : Path) (n : FileName) :
    p.bytes.length ≤ (p.child n).bytes.length := by
  rw [bytes_child_eq, List.length_append]
  exact Nat.le_add_right _ _

theorem glue_cut (x : Bytes) : glue (cut x) = x := by
  induction x with
  | nil => rfl
  | cons b x ih =>
    obtain ⟨piece, pieces, hx⟩ := List.exists_cons_of_ne_nil (cut_ne_nil x)
    by_cases hb : b = slash
    · rw [cut, if_pos hb, hx, glue, ← hx, ih, hb]
      · rfl
      · simp
    · rw [hx] at ih
      rw [cut, if_neg hb, hx, List.modifyHead_cons, ← ih]
      cases pieces <;> rfl

/-- The names of a place, each with a slash before it. -/
def spelled (place : Place) : Bytes :=
  place.flatMap (slash :: ·.bytes)

theorem spelled_concat (place : Place) (n : FileName) :
    spelled (place ++ [n]) = spelled place ++ slash :: n.bytes := by
  simp [spelled]

theorem getLast?_append_slash (x : Bytes) {y : Bytes} (h : y ≠ []) :
    (x ++ slash :: y).getLast? = y.getLast? := by
  obtain ⟨b, t, rfl⟩ := List.exists_cons_of_ne_nil h
  rw [List.getLast?_append_of_ne_nil _ (List.cons_ne_nil _ _), List.getLast?_cons_cons]

theorem getLast?_spelled (place : Place) : (spelled place).getLast? ≠ some slash := by
  induction place using List.reverseRecOn with
  | nil => nofun
  | append_singleton place n =>
    rw [spelled_concat, getLast?_append_slash _ n.isFileName.1]
    exact getLast?_ne_slash n

theorem cut_spelled (place : Place) : cut (spelled place) = [] :: place.map FileName.bytes := by
  induction place using List.reverseRecOn with
  | nil => rfl
  | append_singleton place n ih =>
    rw [spelled_concat, cut_append_slash, ih, cut_of_not_mem n.isFileName.2.1, List.map_append]
    rfl

theorem mapM_ofPiece (place : Place) :
    (place.map FileName.bytes).mapM Step.ofPiece = .ok (place.map Step.name) := by
  induction place with
  | nil => rfl
  | cons n place ih =>
    rw [List.map_cons, List.mapM_cons, ofPiece_name, ih]
    rfl

theorem spelled_eq {place : Place} (h : place ≠ []) :
    spelled place = slash :: glue (place.map FileName.bytes) := by
  obtain ⟨n, place, rfl⟩ := List.exists_cons_of_ne_nil h
  rw [← glue_cut (spelled (n :: place)), cut_spelled]
  rfl

end Path

namespace Session

open ImportMigration.Path

variable {s : Session} {p : Path} {n : FileName}

/-- The path from the working directory, written from the top. -/
def fromTop (s : Session) (p : Path) : Path :=
  s.directoryPath.join p

theorem bytes_fromTop (h : p.isAbsolute = false) :
    (s.fromTop p).bytes = spelled s.directory ++ slash :: p.bytes := by
  unfold fromTop join directoryPath
  rw [h]
  cases hd : s.directory with
  | nil => rfl
  | cons n place =>
    have hlast : ¬ (spelled (n :: place)).getLast?.all (· == slash) = true := by
      have hne := getLast?_spelled (n :: place)
      cases hb : (spelled (n :: place)).getLast? with
      | none => simp [spelled] at hb
      | some b => simpa [hb] using hne
    rw [if_neg (List.cons_ne_nil n place), if_neg Bool.false_ne_true, ← spelled, if_neg hlast]

theorem fromTop_ne_nil (h : p.isAbsolute = false) : (s.fromTop p).bytes ≠ [] := by
  simp [bytes_fromTop h]

theorem isAbsolute_fromTop (h : p.isAbsolute = false) : (s.fromTop p).isAbsolute = true := by
  unfold isAbsolute
  rw [bytes_fromTop h]
  cases s.directory <;> rfl

theorem pieces_fromTop (h : p.isAbsolute = false) :
    (s.fromTop p).pieces = s.directory.map FileName.bytes ++ cut p.bytes := by
  have hcut : cut (s.fromTop p).bytes = [] :: (s.directory.map FileName.bytes ++ cut p.bytes) := by
    rw [bytes_fromTop h, cut_append_slash, cut_spelled]
    rfl
  have habs := isAbsolute_fromTop (s := s) h
  unfold pieces anchor
  rw [if_pos habs]
  unfold isAbsolute at habs
  cases hb : (s.fromTop p).bytes with
  | nil => simp [hb] at habs
  | cons b t =>
    obtain rfl : b = slash := by simpa [hb] using habs
    rw [hb] at hcut
    exact (List.cons.inj hcut).2

/-- A name in the working directory, written from the top, has the working directory's path as its
parent. -/
theorem parent?_fromTop (s : Session) (n : FileName) :
    (s.fromTop ⟨n.bytes⟩).parent? = some s.directoryPath := by
  have hrel := (isRelative_name n).1
  have hnames : ∀ piece ∈ (s.directory.map FileName.bytes).reverse, ¬ isVacant piece = true := by
    intro piece hp
    obtain ⟨m, _, rfl⟩ := List.mem_map.mp (List.mem_reverse.mp hp)
    simp [isVacant_name]
  have hdrop : (s.directory.map FileName.bytes).reverse.dropWhile isVacant =
      (s.directory.map FileName.bytes).reverse := by
    rw [List.dropWhile_eq_self_iff]
    exact fun h => hnames _ (List.getElem_mem h)
  unfold parent? anchor
  rw [pieces_fromTop hrel, cut_of_not_mem n.isFileName.2.1, List.reverse_append,
    if_pos (isAbsolute_fromTop hrel)]
  simp only [List.reverse_singleton, List.singleton_append, List.dropWhile_cons, isVacant_name,
    Bool.false_eq_true, if_false]
  rw [hdrop, List.reverse_reverse]
  unfold directoryPath
  by_cases hd : s.directory = []
  · simp [hd, glue]
  · rw [if_neg hd, ← spelled, spelled_eq hd]

/-- A name in a directory, written from the top, is the name in the directory written so. -/
theorem child_fromTop (h : p.IsRelative) (n : FileName) :
    (s.fromTop p).child n = s.fromTop (p.child n) := by
  have hlast : (s.fromTop p).bytes.getLast? = p.bytes.getLast? := by
    rw [bytes_fromTop h.1, getLast?_append_slash _ h.2]
  have hbytes : ((s.fromTop p).child n).bytes = (s.fromTop (p.child n)).bytes := by
    rw [bytes_child_eq, hlast, bytes_fromTop h.1, bytes_fromTop (h.child n).1, bytes_child_eq,
      List.append_assoc, List.cons_append]
  exact congrArg Path.mk hbytes

theorem named_fromTop (h : p.isAbsolute = false) :
    (s.fromTop p).named = s.directory.map FileName.bytes ++ p.named := by
  have hnames : (s.directory.map FileName.bytes).filter (· != []) =
      s.directory.map FileName.bytes := by
    rw [List.filter_eq_self]
    intro piece hp
    obtain ⟨m, _, rfl⟩ := List.mem_map.mp hp
    simp [m.isFileName.1]
  unfold named
  rw [bytes_fromTop h, cut_append_slash, cut_spelled, List.filter_append,
    List.filter_cons_of_neg (by simp), hnames]

/-- The longer spelling takes the steps to the working directory first. -/
theorem steps_fromTop (h : p.IsRelative) :
    (s.fromTop p).steps = p.steps.map (s.directory.map Step.name ++ ·) := by
  rw [steps_eq, steps_eq, named_fromTop h.1, List.mapM_append, mapM_ofPiece, bytes_fromTop h.1,
    getLast?_append_slash _ h.2]
  cases p.named.mapM Step.ofPiece with
  | error cause => rfl
  | ok steps => exact congrArg Except.ok (List.append_assoc _ _ _)

/-- Of an empty path the longer spelling leads somewhere: to the working directory. -/
theorem steps_fromTop_empty (s : Session) :
    (s.fromTop ⟨[]⟩).steps = .ok (s.directory.map Step.name ++ [.directory]) := by
  rw [steps_eq, named_fromTop rfl, List.mapM_append, mapM_ofPiece, bytes_fromTop rfl,
    List.getLast?_concat, if_pos rfl]
  exact congrArg (fun names => Except.ok (names ++ [Step.directory])) (List.append_nil _)

/-- Every directory above the working directory may be searched, and no name on the way to it is too
long for a path. -/
structure InPlace (s : Session) : Prop where
  directory : ∃ access, s.disk.node? s.directory = some (.directory access)
  above : ∀ place n, place ++ [n] <+: s.directory →
    (∃ access, s.disk.node? place = some (.directory access) ∧ access.execute = true) ∧
      n.bytes.length ≤ Disk.nameLimit

/-- The path is within the limit for paths when it is written from the top. -/
def Fits (s : Session) (p : Path) : Prop :=
  (s.fromTop p).bytes.length ≤ Disk.pathLimit

instance (s : Session) (p : Path) : Decidable (s.Fits p) :=
  inferInstanceAs (Decidable (_ ≤ _))

theorem InPlace.directory_of_isPrefix (h : s.InPlace) {place : Place} (hp : place <+: s.directory) :
    ∃ access, s.disk.node? place = some (.directory access) := by
  obtain ⟨rest, hd⟩ := hp
  cases rest with
  | nil =>
    rw [List.append_nil] at hd
    exact hd ▸ h.directory
  | cons n rest =>
    obtain ⟨⟨access, hn, _⟩, _⟩ := h.above place n ⟨rest, by simpa using hd⟩
    exact ⟨access, hn⟩

/-- From any directory above it, the remaining names of the working directory lead to it. -/
theorem InPlace.advance (h : s.InPlace) (steps : List Step) {place rest : Place}
    (hd : place ++ rest = s.directory) :
    s.disk.advance false place (rest.map Step.name ++ steps) =
      s.disk.advance false s.directory steps := by
  induction rest generalizing place with
  | nil =>
    rw [List.append_nil] at hd
    rw [hd]
    rfl
  | cons n rest ih =>
    have hd' : (place ++ [n]) ++ rest = s.directory := by simpa using hd
    obtain ⟨⟨access, hn, hx⟩, hlen⟩ := h.above place n ⟨rest, hd'⟩
    obtain ⟨access', hn'⟩ := h.directory_of_isPrefix ⟨rest, hd'⟩
    rw [← ih hd', List.map_cons, List.cons_append]
    conv => lhs; unfold Disk.advance
    simp [hn, hx, hn', Nat.not_lt.mpr hlen]

theorem InPlace.follow (h : s.InPlace) (links : Nat) (steps : List Step) :
    s.disk.follow false links [] (s.directory.map Step.name ++ steps) =
      s.disk.follow false links s.directory steps := by
  unfold Disk.follow
  rw [h.advance steps (List.nil_append _)]

/-- Both spellings of a path lead to the same. -/
theorem resolve_fromTop (hs : s.InPlace) (h : p.IsRelative) (hp : s.Fits p) :
    s.resolve (s.fromTop p) = s.resolve p := by
  unfold Fits at hp
  have hlen : p.bytes.length ≤ Disk.pathLimit := by
    rw [bytes_fromTop h.1] at hp
    simp only [List.length_append, List.length_cons] at hp
    omega
  unfold resolve Disk.resolve
  rw [if_neg (fromTop_ne_nil h.1), if_neg h.2, steps_fromTop h, isAbsolute_fromTop h.1, h.1,
    if_pos rfl, if_neg Bool.false_ne_true]
  cases p.steps with
  | error cause => rfl
  | ok steps =>
    dsimp only [Except.map]
    rw [if_neg (Nat.not_lt.mpr hp), if_neg (Nat.not_lt.mpr hlen), hs.follow]

/-- The longer spelling of the empty path, which itself leads nowhere, leads to the working
directory. -/
theorem resolve_fromTop_empty (hs : s.InPlace) (hp : s.Fits ⟨[]⟩) :
    s.resolve (s.fromTop ⟨[]⟩) = .ok s.directory := by
  obtain ⟨access, hd⟩ := hs.directory
  unfold resolve Disk.resolve
  rw [if_neg (fromTop_ne_nil rfl), steps_fromTop_empty, isAbsolute_fromTop rfl, if_pos rfl]
  dsimp only
  rw [if_neg (Nat.not_lt.mpr hp), hs.follow]
  unfold Disk.follow Disk.advance
  simp [hd, Disk.advance]

/-- A path that is too long when it is written from the top leads nowhere then. -/
theorem resolve_fromTop_of_not_fits (h : p.isAbsolute = false) (hp : ¬ s.Fits p) :
    ∃ cause, s.resolve (s.fromTop p) = .error cause := by
  unfold resolve Disk.resolve
  rw [if_neg (fromTop_ne_nil h)]
  cases (s.fromTop p).steps with
  | error cause => exact ⟨cause, rfl⟩
  | ok steps => exact ⟨_, if_pos (Nat.not_le.mp hp)⟩

end Session

end ImportMigration
