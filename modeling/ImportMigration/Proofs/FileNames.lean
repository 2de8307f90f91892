import ImportMigration.Proofs.Joining

/-!
File names, read off the bytes of a path. What stands for nothing at the end of a path are slashes,
with or without a dot behind each; before these stands the path's file name, unless nothing is left
there but the root or `.`, or the path ends with `..`. A path is that of a source file if its file
name, as it stands in the bytes, ends with `.js` or `.jsx` (`Source.accepts_by_bytes`).
-/

namespace ImportMigration

namespace Path

variable {p : Path} {x y trail piece name : Bytes} {pieces : List Bytes}

/-- Bytes that add no component to a path that they stand at the end of. -/
inductive IsTrail : Bytes → Prop where
  | nil : IsTrail []
  | slash {x : Bytes} (h : IsTrail x) : IsTrail (slash :: x)
  | slashDot {x : Bytes} (h : IsTrail x) : IsTrail (Path.slash :: dot :: x)

/-- The bytes end with the piece, but for a trail behind it. -/
def EndsIn (x piece : Bytes) : Prop :=
  ∃ front trail, x = front ++ piece ++ trail ∧ (front = [] ∨ front.getLast? = some slash) ∧
    slash ∉ piece ∧ IsTrail trail

/-- The path ends with a name, which is neither `.` nor `..`. -/
def HasFileName (p : Path) (name : Bytes) : Prop :=
  EndsIn p.bytes name ∧ name ≠ [] ∧ name ≠ [dot] ∧ name ≠ [dot, dot]

/-- The path is the empty one, the root or `.`, but for a trail behind it, or it ends with `..`. -/
def LacksFileName (p : Path) : Prop :=
  (∃ trail, IsTrail trail ∧ (p.bytes = trail ∨ p.bytes = dot :: trail)) ∨
    EndsIn p.bytes [dot, dot]

theorem isVacant_iff : isVacant piece = true ↔ piece = [] ∨ piece = [dot] := by
  simp [isVacant]

theorem cut_append_trail (hpiece : slash ∉ piece) (h : IsTrail trail) :
    ∃ vacant, cut (piece ++ trail) = piece :: vacant ∧ ∀ v ∈ vacant, isVacant v = true := by
  induction h generalizing piece with
  | nil => exact ⟨[], by rw [List.append_nil, cut_of_not_mem hpiece], by simp⟩
  | slash _ ih =>
    obtain ⟨vacant, hcut, hvacant⟩ := @ih [] List.not_mem_nil
    refine ⟨[] :: vacant, ?_, List.forall_mem_cons.mpr ⟨rfl, hvacant⟩⟩
    rw [cut_append_slash, cut_of_not_mem hpiece]
    exact congrArg (piece :: ·) hcut
  | slashDot _ ih =>
    obtain ⟨vacant, hcut, hvacant⟩ := @ih [dot] (by decide)
    refine ⟨[dot] :: vacant, ?_, List.forall_mem_cons.mpr ⟨rfl, hvacant⟩⟩
    rw [cut_append_slash, cut_of_not_mem hpiece]
    exact congrArg (piece :: ·) hcut

theorem exists_trail (piece : Bytes) (h : ∀ v ∈ pieces, isVacant v = true) :
    ∃ trail, IsTrail trail ∧ glue (piece :: pieces) = piece ++ trail := by
  induction pieces generalizing piece with
  | nil => exact ⟨[], .nil, by rw [glue, List.append_nil]⟩
  | cons v pieces ih =>
    obtain ⟨hv, h⟩ := List.forall_mem_cons.mp h
    obtain ⟨trail, htrail, hglue⟩ := ih v h
    refine ⟨slash :: (v ++ trail), ?_, ?_⟩
    · rcases isVacant_iff.mp hv with rfl | rfl
      · exact .slash htrail
      · exact .slashDot htrail
    · rw [glue, hglue]
      exact List.cons_ne_nil _ _

/-- Pieces in front of another one end with a slash. -/
theorem exists_glue_append (before : List Bytes) (piece : Bytes) (pieces : List Bytes) :
    ∃ front, glue (before ++ piece :: pieces) = front ++ glue (piece :: pieces) ∧
      (front = [] ∨ front.getLast? = some slash) := by
  induction before with
  | nil => exact ⟨[], rfl, .inl rfl⟩
  | cons first before ih =>
    obtain ⟨front, hglue, hfront⟩ := ih
    refine ⟨first ++ slash :: front, ?_, .inr ?_⟩
    · rw [List.cons_append, glue, hglue, List.append_assoc, List.cons_append]
      simp
    · rcases hfront with rfl | hfront
      · simp
      · rw [List.getLast?_append, List.getLast?_cons, hfront]
        rfl

/-- What the bytes end with is their last piece that is not vacant. -/
theorem getLast?_filter_cut_eq_some_iff :
    ((cut x).filter (!isVacant ·)).getLast? = some piece ↔
      EndsIn x piece ∧ piece ≠ [] ∧ piece ≠ [dot] := by
  rw [List.getLast?_filter, List.find?_eq_some_iff_append]
  constructor
  · rintro ⟨hpiece, vacant, before, hcut, hvacant⟩
    have hpieces : cut x = before.reverse ++ piece :: vacant.reverse := by
      rw [← List.reverse_inj, hcut]
      simp
    have hv : ∀ v ∈ vacant.reverse, isVacant v = true := by
      intro v hv
      simpa using hvacant v (List.mem_reverse.mp hv)
    obtain ⟨front, hfront, hends⟩ := exists_glue_append before.reverse piece vacant.reverse
    obtain ⟨trail, htrail, hglue⟩ := exists_trail piece hv
    have hmem : piece ∈ cut x := hpieces ▸ by simp
    refine ⟨⟨front, trail, ?_, hends, not_mem_of_mem_cut hmem, htrail⟩, ?_⟩
    · rw [← glue_cut x, hpieces, hfront, hglue, List.append_assoc]
    · simpa [isVacant] using hpiece
  · rintro ⟨⟨front, trail, rfl, hfront, hslash, htrail⟩, hne, hdot⟩
    obtain ⟨vacant, hcut, hvacant⟩ := cut_append_trail hslash htrail
    have hpieces : ∃ before, cut (front ++ piece ++ trail) = before ++ piece :: vacant := by
      rw [List.append_assoc]
      rcases hfront with rfl | hfront
      · exact ⟨[], hcut⟩
      · obtain ⟨w, rfl⟩ := List.getLast?_eq_some_iff.mp hfront
        exact ⟨cut w, by rw [List.append_assoc, List.singleton_append, cut_append_slash, hcut]⟩
    obtain ⟨before, hbefore⟩ := hpieces
    refine ⟨by simp [isVacant, hne, hdot], vacant.reverse, before.reverse, ?_, ?_⟩
    · rw [hbefore]
      simp
    · intro v hv
      simp [hvacant v (List.mem_reverse.mp hv)]

theorem getLast?_filter_cut_eq_none_iff :
    ((cut x).filter (!isVacant ·)).getLast? = none ↔
      ∃ trail, IsTrail trail ∧ (x = trail ∨ x = dot :: trail) := by
  rw [List.getLast?_eq_none_iff, List.filter_eq_nil_iff]
  simp only [Bool.not_eq_true', Bool.not_eq_false]
  constructor
  · intro h
    obtain ⟨piece, pieces, hcut⟩ := List.exists_cons_of_ne_nil (cut_ne_nil x)
    rw [hcut] at h
    obtain ⟨hpiece, h⟩ := List.forall_mem_cons.mp h
    obtain ⟨trail, htrail, hglue⟩ := exists_trail piece h
    rw [← hcut, glue_cut] at hglue
    refine ⟨trail, htrail, ?_⟩
    rcases isVacant_iff.mp hpiece with rfl | rfl
    · exact .inl hglue
    · exact .inr hglue
  · rintro ⟨trail, htrail, rfl | rfl⟩
    · obtain ⟨vacant, hcut, h⟩ := @cut_append_trail _ [] List.not_mem_nil htrail
      rw [List.nil_append] at hcut
      rw [hcut]
      exact List.forall_mem_cons.mpr ⟨rfl, h⟩
    · obtain ⟨vacant, hcut, h⟩ := @cut_append_trail _ [dot] (by decide) htrail
      rw [List.singleton_append] at hcut
      rw [hcut]
      exact List.forall_mem_cons.mpr ⟨rfl, h⟩

/-- A path's file name is its last piece that is not vacant, if that is not `..`. -/
theorem fileName?_eq (p : Path) : p.fileName? =
    ((cut p.bytes).filter (!isVacant ·)).getLast?.filter (· ≠ [dot, dot]) := by
  rw [fileName?, components_eq, later]
  cases h : ((cut p.bytes).filter (!isVacant ·)).getLast? with
  | none =>
    rw [List.getLast?_eq_none_iff.mp h, List.map_nil, List.append_nil, first]
    split_ifs <;> rfl
  | some piece =>
    rw [List.getLast?_append, List.getLast?_map, h, Option.map_some, Option.some_or]
    by_cases hup : piece = [dot, dot] <;> simp [Component.ofPiece, Option.filter, hup]

theorem fileName?_eq_some_iff : p.fileName? = some name ↔ p.HasFileName name := by
  rw [fileName?_eq, Option.filter_eq_some_iff, getLast?_filter_cut_eq_some_iff, HasFileName]
  simp [and_assoc]

theorem fileName?_eq_none_iff : p.fileName? = none ↔ p.LacksFileName := by
  have hup : EndsIn p.bytes [dot, dot] ↔
      ((cut p.bytes).filter (!isVacant ·)).getLast? = some [dot, dot] := by
    rw [getLast?_filter_cut_eq_some_iff]
    simp
  rw [fileName?_eq, LacksFileName, hup, ← getLast?_filter_cut_eq_none_iff]
  cases ((cut p.bytes).filter (!isVacant ·)).getLast? <;> simp [Option.filter]

end Path

namespace Source

/-- Whether a path is that of a source file is decided by raw bytes: those of its file name, which
stands at the end of the path but for a trail, are to end with the bytes of `.js` or `.jsx`. A path
has one file name at most, and none if it is empty, the root or `.` but for a trail, or ends with
`..`. Although names are compared as they are shown, what is shown for broken bytes neither makes
nor hides a suffix. -/
theorem accepts_by_bytes (p : Path) :
    (Filter.default.accepts p = true ↔ ∃ name, p.HasFileName name ∧
      (Utf8.encode ".js".toList <:+ name ∨ Utf8.encode ".jsx".toList <:+ name)) ∧
    (∀ name, p.HasFileName name ↔ p.fileName? = some name) ∧
    ((∃ name, p.HasFileName name) ↔ ¬ p.LacksFileName) ∧
    ∀ suffix ∈ Filter.default.suffixes, ∀ name : Bytes,
      suffix <:+ Utf8.lossy name ↔ Utf8.encode suffix <:+ name := by
  refine ⟨?_, fun name => Path.fileName?_eq_some_iff.symm, ?_, ?_⟩
  · simp only [accepts_iff, Path.fileName?_eq_some_iff]
  · rw [← Path.fileName?_eq_none_iff, ← ne_eq, Option.ne_none_iff_exists']
    simp only [Path.fileName?_eq_some_iff]
  · intro suffix hsuffix name
    exact Utf8.isSuffix_lossy_iff (toNat_lt_of_mem_suffixes hsuffix)

/-- A name with a broken character before its dot, and a trail behind it. -/
example : Filter.default.accepts ⟨[0xE2, 0x82, 0x2E, 0x6A, 0x73, 0x2F, 0x2E]⟩ = true := by
  cbv

end Source

end ImportMigration
