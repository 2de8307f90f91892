import ImportMigration.Proofs.Sweep

/-!
The grammar of what stands between `import` and a specifier. A clause is read from both ends; what
is accepted are the texts that consist of blanks, bindings, blanks, `from` and blanks
(`isClause_iff`), however the blanks are shared out.
-/

namespace ImportMigration.Import

open Text

/-- One blank or more. -/
def Blanks (t : Text) : Prop := t ≠ [] ∧ ∀ c ∈ t, isBlank c = true

theorem dropWhile_blank_append {a : Text} (ha : ∀ c ∈ a, isBlank c = true) (t : Text) :
    (a ++ t).dropWhile isBlank = t.dropWhile isBlank :=
  List.dropWhile_append_of_pos ha

/-- A text is its trimmed part between blanks. -/
theorem exists_eq_append_trim (t : Text) : ∃ a c, t = a ++ trim t ++ c ∧
    (∀ x ∈ a, isBlank x = true) ∧ (∀ x ∈ c, isBlank x = true) := by
  refine ⟨t.takeWhile isBlank, ((t.dropWhile isBlank).reverse.takeWhile isBlank).reverse, ?_, ?_, ?_⟩
  · rw [trim, List.append_assoc, ← List.reverse_append, List.takeWhile_append_dropWhile,
      List.reverse_reverse, List.takeWhile_append_dropWhile]
  · exact List.all_eq_true.mp List.all_takeWhile
  · intro x hx
    exact List.all_eq_true.mp List.all_takeWhile x (List.mem_reverse.mp hx)

theorem mem_of_mem_trim {t : Text} {x : Char} (h : x ∈ trim t) : x ∈ t := by
  obtain ⟨a, c, ht, _⟩ := exists_eq_append_trim t
  rw [ht]
  simp [h]

/-- Blanks at the ends do not count. -/
theorem trim_append {a b c : Text} (ha : ∀ x ∈ a, isBlank x = true)
    (hc : ∀ x ∈ c, isBlank x = true) : trim (a ++ b ++ c) = trim b := by
  have hc' : ∀ x ∈ c.reverse, isBlank x = true := fun x hx => hc x (List.mem_reverse.mp hx)
  rw [trim, List.append_assoc, dropWhile_blank_append ha, trim, List.dropWhile_append]
  split
  · rename_i hb
    rw [List.isEmpty_iff] at hb
    have hn : c.dropWhile isBlank = [] := by
      simpa using dropWhile_blank_append hc []
    rw [hb, hn]
  · rw [List.reverse_append, dropWhile_blank_append hc']

theorem isSpacedBindings_iff {t : Text} : isSpacedBindings t = true ↔
    ∃ a b c, t = a ++ b ++ c ∧ Blanks a ∧ (∀ x ∈ b, isBinding x = true) ∧ Blanks c := by
  constructor
  · intro h
    simp only [isSpacedBindings, Bool.and_eq_true, decide_eq_true_eq, Option.any_eq_true,
      List.all_eq_true] at h
    obtain ⟨⟨⟨hlen, x, hx, hxb⟩, y, hy, hyb⟩, hall⟩ := h
    -- The blanks at the two ends are two, so there is a text between them.
    obtain ⟨u, rfl⟩ := List.head?_eq_some_iff.mp hx
    obtain ⟨m, rfl⟩ : ∃ m, u = m ++ [y] := by
      obtain ⟨v, hv⟩ := List.getLast?_eq_some_iff.mp hy
      cases v with
      | nil =>
        rw [hv] at hlen
        simp at hlen
      | cons z v => exact ⟨v, (List.cons.inj hv).2⟩
    have htrim : trim (x :: (m ++ [y])) = trim m :=
      trim_append (a := [x]) (c := [y]) (by simpa using hxb) (by simpa using hyb)
    obtain ⟨a, c, hm, ha, hc⟩ := exists_eq_append_trim m
    refine ⟨x :: a, trim m, c ++ [y], ?_, ?_, ?_, ?_⟩
    · simp [← List.append_assoc, ← hm]
    · exact ⟨by simp, by simpa using ⟨hxb, ha⟩⟩
    · rwa [htrim] at hall
    · refine ⟨by simp, ?_⟩
      simpa [or_imp, forall_and] using ⟨hc, hyb⟩
  · intro he
    obtain ⟨a, b, c, rfl, ⟨hane, ha⟩, hb, hcne, hc⟩ := he
    have hall : ∀ x ∈ trim (a ++ b ++ c), isBinding x = true := by
      rw [trim_append ha hc]
      exact fun x hx => hb x (mem_of_mem_trim hx)
    obtain ⟨x, a, rfl⟩ := List.exists_cons_of_ne_nil hane
    obtain ⟨c, y, rfl⟩ := List.eq_nil_or_concat c |>.resolve_left hcne
    simp only [isSpacedBindings, Bool.and_eq_true, decide_eq_true_eq, Option.any_eq_true,
      List.all_eq_true]
    have hlast : (x :: a ++ b ++ c.concat y).getLast? = some y :=
      List.getLast?_eq_some_iff.mpr ⟨x :: a ++ b ++ c, by simp⟩
    have hlen : 2 ≤ (x :: a ++ b ++ c.concat y).length := by
      simp only [List.length_append, List.length_cons, List.length_concat]
      omega
    exact ⟨⟨⟨hlen, x, rfl, ha x (by simp)⟩, y, hlast, hc y (by simp)⟩, hall⟩

theorem isClause_iff {t : Text} : isClause t = true ↔
    ∃ a b c d, t = a ++ b ++ c ++ fromWord ++ d ∧
      Blanks a ∧ (∀ x ∈ b, isBinding x = true) ∧ Blanks c ∧ Blanks d := by
  constructor
  · intro h
    simp only [isClause, Bool.and_eq_true] at h
    obtain ⟨hlast, h⟩ := h
    split at h
    · contradiction
    · rename_i u hu
      obtain ⟨a, b, c, hu', ha, hb, hc⟩ := isSpacedBindings_iff.mp h
      refine ⟨a, b, c, (t.reverse.takeWhile isBlank).reverse, ?_, ha, hb, hc, ?_, ?_⟩
      · have ht := List.takeWhile_append_dropWhile (p := isBlank) (l := t.reverse)
        rw [dropFront?_eq_some_iff.mp hu] at ht
        rw [← hu']
        simpa using (congrArg List.reverse ht).symm
      · obtain ⟨y, hy, hyb⟩ := Option.any_eq_true _ _ |>.mp hlast
        obtain ⟨v, rfl⟩ := List.getLast?_eq_some_iff.mp hy
        simp [hyb]
      · intro x hx
        exact List.all_eq_true.mp List.all_takeWhile x (List.mem_reverse.mp hx)
  · intro he
    obtain ⟨a, b, c, d, rfl, ha, hb, hc, hdne, hd⟩ := he
    have hd' : ∀ x ∈ d.reverse, isBlank x = true := fun x hx => hd x (List.mem_reverse.mp hx)
    have hdrop : (a ++ b ++ c ++ fromWord ++ d).reverse.dropWhile isBlank =
        fromWord.reverse ++ (a ++ b ++ c).reverse := by
      rw [List.reverse_append, dropWhile_blank_append hd', List.reverse_append]
      rfl
    obtain ⟨d, y, rfl⟩ := List.eq_nil_or_concat d |>.resolve_left hdne
    simp only [isClause, Bool.and_eq_true]
    refine ⟨?_, ?_⟩
    · simp [hd y (by simp)]
    · rw [hdrop, dropFront?_eq_some_iff.mpr rfl]
      simpa using isSpacedBindings_iff.mpr ⟨a, b, c, rfl, ha, hb, hc⟩

/-- A text ends with `import`, blanks, characters other than `;` and line breaks, blanks, `from`
and blanks. -/
def EndsWithImport (s : Text) : Prop :=
  ∃ w a b c d, s = w ++ importWord ++ a ++ b ++ c ++ fromWord ++ d ∧
    Blanks a ∧ (∀ x ∈ b, x ≠ ';' ∧ x ≠ '\n') ∧ Blanks c ∧ Blanks d

theorem endsWithImport_of_opens {s : Text} (h : opens s = true) : EndsWithImport s := by
  obtain ⟨w, x, rfl, hx⟩ := opens_iff.mp h
  obtain ⟨clause, rfl, _, hcl⟩ := isOpening_iff.mp hx
  obtain ⟨a, b, c, d, rfl, ha, hb, hc, hd⟩ := isClause_iff.mp hcl
  refine ⟨w, a, b, c, d, by simp, ha, ?_, hc, hd⟩
  intro x hx
  have := hb x hx
  simp only [isBinding, Bool.and_eq_true, bne_iff_ne] at this
  exact ⟨this.1.2, this.2⟩

end ImportMigration.Import
