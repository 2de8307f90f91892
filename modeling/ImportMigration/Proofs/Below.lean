import ImportMigration.Disk.Resolve

/-!
The paths of what lies below a directory. Whatever the directory's path looks like, the path of a
name in it ends with a piece that is the name; so the name can be read off it as the file name, and
two lists of names give two paths.
-/

namespace ImportMigration

namespace Path

variable {p : Path} {n : FileName}

/-- The path of what a list of names leads to, each a name in the directory before it. -/
def below (p : Path) (names : List FileName) : Path := names.foldl child p

@[simp] theorem below_nil (p : Path) : p.below [] = p := rfl

@[simp] theorem below_cons (p : Path) (n : FileName) (names : List FileName) :
    p.below (n :: names) = (p.child n).below names := rfl

theorem below_append (p : Path) (names names' : List FileName) :
    p.below (names ++ names') = (p.below names).below names' :=
  List.foldl_append

theorem cut_ne_nil (x : Bytes) : cut x ≠ [] := by
  cases x with
  | nil => simp [cut]
  | cons b x =>
    have := cut_ne_nil x
    rw [cut]
    split <;> simp [this]

theorem cut_append_slash (x y : Bytes) : cut (x ++ slash :: y) = cut x ++ cut y := by
  induction x with
  | nil => simp [cut]
  | cons b x ih =>
    by_cases hb : b = slash
    · simp [cut, hb, ih]
    · obtain ⟨piece, pieces, hx⟩ := List.exists_cons_of_ne_nil (cut_ne_nil x)
      simp [cut, hb, ih, hx]

theorem cut_of_not_mem {x : Bytes} (h : slash ∉ x) : cut x = [x] := by
  induction x with
  | nil => rfl
  | cons b x ih =>
    obtain ⟨hb, hx⟩ := List.ne_and_not_mem_of_not_mem_cons h
    simp [cut, hb.symm, ih hx]

theorem getLast?_ne_slash (n : FileName) : n.bytes.getLast? ≠ some slash :=
  fun h => n.isFileName.2.1 (List.mem_of_getLast? h)

/-- A separator is put before a name in a directory unless the directory's path ends with one. -/
theorem bytes_child (p : Path) (n : FileName) :
    (p.child n).bytes = n.bytes ∧ p.bytes = [] ∨
      ∃ w, (p.child n).bytes = w ++ slash :: n.bytes ∧ (p.bytes = w ∧ w ≠ [] ∨ p.bytes = w ++ [slash]) := by
  have hrel : isAbsolute ⟨n.bytes⟩ = false := by
    simp only [isAbsolute, beq_eq_false_iff_ne]
    exact fun h => n.isFileName.2.1 (List.mem_of_head? h)
  simp only [child, join, hrel, Bool.false_eq_true, if_false]
  rcases List.eq_nil_or_concat p.bytes with hp | ⟨w, b, hp⟩
  · left
    simp [hp]
  · right
    by_cases hb : b = slash
    · exact ⟨w, by simp [hp, hb], .inr (by simp [hp, hb])⟩
    · exact ⟨w ++ [b], by simp [hp, hb], .inl (by simp [hp])⟩

theorem isAbsolute_child (h : p.bytes ≠ []) {n : FileName} :
    (p.child n).isAbsolute = p.isAbsolute := by
  rcases bytes_child p n with ⟨_, hp⟩ | ⟨w, hb, ⟨hp, hw⟩ | hp⟩
  · exact absurd hp h
  · obtain ⟨b, w, rfl⟩ := List.exists_cons_of_ne_nil hw
    simp [isAbsolute, hb, hp]
  · cases w <;> simp [isAbsolute, hb, hp]

/-- The pieces of a path that hold something. -/
def named (p : Path) : List Bytes := (cut p.bytes).filter (· != [])

theorem named_child (p : Path) (n : FileName) : (p.child n).named = p.named ++ [n.bytes] := by
  obtain ⟨hne, hslash, _⟩ := n.isFileName
  have hn : (cut n.bytes).filter (· != []) = [n.bytes] := by
    simp [cut_of_not_mem hslash, hne]
  rcases bytes_child p n with ⟨hb, hp⟩ | ⟨w, hb, ⟨hp, _⟩ | hp⟩
  · simp [named, hb, hp, hn, cut]
  · simp [named, hb, hp, cut_append_slash, hn]
  · simp [named, hb, hp, cut_append_slash, hn, cut]

theorem named_below (p : Path) (names : List FileName) :
    (p.below names).named = p.named ++ names.map FileName.bytes := by
  induction names generalizing p with
  | nil => simp
  | cons n names ih => simp [ih, named_child]

theorem below_inj {names names' : List FileName} (h : p.below names = p.below names') :
    names = names' := by
  have hn := congrArg named h
  rw [named_below, named_below, List.append_cancel_left_eq] at hn
  refine List.map_inj_right ?_ |>.mp hn
  intro n n' hb
  cases n
  cases n'
  simp_all

theorem length_anchor_le (p : Path) : p.anchor.length ≤ 1 := by
  unfold anchor
  split
  · simp
  · split <;> simp

theorem anchor_name (n : FileName) : anchor ⟨n.bytes⟩ = [] := by
  obtain ⟨hne, hslash, _, hdot, _⟩ := n.isFileName
  obtain ⟨b, t, hb⟩ := List.exists_cons_of_ne_nil hne
  rw [hb] at hslash hdot ⊢
  cases t with
  | nil =>
    have hs : b ≠ slash := fun h => hslash (by simp [h])
    have hd : b ≠ dot := fun h => hdot (by rw [h])
    simp [anchor, isAbsolute, startsHere, hs, hd]
  | cons c t =>
    simp only [List.mem_cons, not_or] at hslash
    simp [anchor, isAbsolute, startsHere, Ne.symm hslash.1, Ne.symm hslash.2.1]

/-- The name of what is in a directory is the last piece of its path: the anchor, which is one byte
at most, takes nothing from it. -/
theorem exists_pieces_child (p : Path) (n : FileName) :
    ∃ pieces, (p.child n).pieces = pieces ++ [n.bytes] := by
  have hn := cut_of_not_mem n.isFileName.2.1
  rcases bytes_child p n with ⟨hb, _⟩ | ⟨w, hb, _⟩
  · have hc : p.child n = ⟨n.bytes⟩ := by rw [← hb]
    exact ⟨[], by simp [hc, pieces, anchor_name, hn]⟩
  · have hdrop : (p.child n).pieces = cut ((w ++ slash :: n.bytes).drop (p.child n).anchor.length) := by
      rw [pieces, hb]
    cases w with
    | nil =>
      have ha : (p.child n).anchor = [slash] := by simp [anchor, isAbsolute, hb]
      exact ⟨[], by simp [hdrop, ha, hn]⟩
    | cons c w =>
      have hl : (p.child n).anchor.length ≤ (c :: w).length :=
        Nat.le_trans (length_anchor_le _) (by simp)
      rw [List.drop_append_of_le_length hl, cut_append_slash, hn] at hdrop
      exact ⟨_, hdrop⟩

theorem isVacant_name (n : FileName) : isVacant n.bytes = false := by
  obtain ⟨hne, _, _, hdot, _⟩ := n.isFileName
  simp [isVacant, hne, hdot]

/-- What bears a name in a directory has that name as its file name. -/
theorem fileName?_child (p : Path) (n : FileName) : (p.child n).fileName? = some n.bytes := by
  have hdots : n.bytes ≠ [dot, dot] := n.isFileName.2.2.2.2
  obtain ⟨pieces, hp⟩ := exists_pieces_child p n
  simp [fileName?, components, hp, isVacant_name, Component.ofPiece, hdots]

theorem steps_eq (p : Path) : p.steps =
    (p.named.mapM Step.ofPiece).map
      (· ++ if p.bytes.getLast? = some slash then [.directory] else []) := by
  unfold steps named
  cases ((cut p.bytes).filter (· != [])).mapM Step.ofPiece <;> rfl

theorem getLast?_bytes_child (p : Path) (n : FileName) :
    (p.child n).bytes.getLast? = n.bytes.getLast? := by
  obtain ⟨c, t, hn⟩ := List.exists_cons_of_ne_nil n.isFileName.1
  rcases bytes_child p n with ⟨hb, _⟩ | ⟨w, hb, _⟩
  · rw [hb]
  · rw [hb, hn, List.getLast?_append, List.getLast?_cons_cons]
    simp [List.getLast?_cons]

theorem ofPiece_name (n : FileName) : Step.ofPiece n.bytes = .ok (.name n) := by
  obtain ⟨b, h⟩ := n
  simp [Step.ofPiece, h.2.2.2.1, h.2.2.2.2, FileName.ofBytes?, h]

/-- The steps to a name in a directory are those to the directory, but for a slash at its end, and
the name. -/
theorem steps_child {steps : List Step} (h : p.steps = .ok steps) (n : FileName) :
    ∃ a, (steps = a ∨ steps = a ++ [.directory]) ∧ (p.child n).steps = .ok (a ++ [.name n]) := by
  rw [steps_eq] at h
  cases ha : p.named.mapM Step.ofPiece with
  | error cause => simp [ha, Except.map] at h
  | ok a =>
    have hs : a ++ (if p.bytes.getLast? = some slash then [.directory] else []) = steps := by
      simpa [ha, Except.map] using h
    refine ⟨a, ?_, ?_⟩
    · split at hs
      · exact .inr hs.symm
      · exact .inl (by simpa using hs.symm)
    · rw [steps_eq, named_child, getLast?_bytes_child, if_neg (getLast?_ne_slash n),
        List.mapM_append, ha, List.mapM_cons, ofPiece_name]
      exact congrArg Except.ok (List.append_nil _)

end Path

end ImportMigration
