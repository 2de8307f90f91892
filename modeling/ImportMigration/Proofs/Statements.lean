import ImportMigration.Import.Rule
import ImportMigration.Proofs.Segments

/-!
What reading a statement accepts: exactly the texts that a well-formed statement stands in front of
(`Statement.read?_eq_some_iff`), whatever the package is. From this, a rule finds a statement in a
text as soon as one stands anywhere in it (`Rule.applies_iff_occurs`).
-/

namespace ImportMigration.Import

open Text

/-- The tails of each form: none, or a slash and a path that stays on its line. -/
def Form.isTail : Form → Text → Bool
  | .exact, t => t.isEmpty
  | .subpath, '/' :: t => !t.isEmpty && t.all isSubpath
  | .subpath, _ => false

structure Statement.WellFormed (form : Form) (s : Statement) : Prop where
  inClause : ∀ c ∈ s.clause, Import.inClause c = true
  clause : isClause s.clause = true
  quote : isQuote s.quote = true
  tail : form.isTail s.tail = true
  closing : isQuote s.closing = true

/-- A statement of the rule stands somewhere in the text. -/
def Rule.Occurs (r : Rule) (t : Text) : Prop :=
  ∃ u v, t = u ++ v ∧ (Statement.read? r.form r.old v).isSome

theorem Form.isTail_exact {t : Text} : Form.exact.isTail t = true ↔ t = [] := by
  simp [Form.isTail]

theorem Form.isTail_subpath {t : Text} : Form.subpath.isTail t = true ↔
    ∃ sub, t = '/' :: sub ∧ sub ≠ [] ∧ ∀ c ∈ sub, isSubpath c = true := by
  constructor
  · intro h
    unfold Form.isTail at h
    split at h
    · contradiction
    · rename_i sub _
      simp only [Bool.and_eq_true, Bool.not_eq_true', List.isEmpty_eq_false_iff,
        List.all_eq_true] at h
      exact ⟨sub, rfl, h.1, h.2⟩
    · simp at h
  · intro he
    obtain ⟨sub, rfl, hn, hs⟩ := he
    simp only [Form.isTail, Bool.and_eq_true, Bool.not_eq_true', List.isEmpty_eq_false_iff,
      List.all_eq_true]
    exact ⟨hn, hs⟩

theorem quoteFree_importWord : QuoteFree importWord := by
  decide

theorem quoteFree_of_isTail {form : Form} {tail : Text} (h : form.isTail tail = true) :
    QuoteFree tail := by
  cases form with
  | exact => simp [Form.isTail_exact.mp h]
  | subpath =>
    obtain ⟨sub, rfl, _, hs⟩ := Form.isTail_subpath.mp h
    refine quoteFree_cons.mpr ⟨by decide, ?_⟩
    intro c hc
    have := hs c hc
    simp only [isSubpath, Bool.and_eq_true, Bool.not_eq_true'] at this
    exact this.1

theorem not_isSubpath_of_isQuote {c : Char} (h : isQuote c = true) : isSubpath c = false := by
  simp [isSubpath, h]

theorem not_inClause_of_isQuote {c : Char} (h : isQuote c = true) : inClause c = false := by
  simp [inClause, h]

theorem quoteFree_of_inClause {t : Text} (h : ∀ c ∈ t, inClause c = true) : QuoteFree t := by
  intro c hc
  have := h c hc
  simp only [inClause, Bool.and_eq_true, Bool.not_eq_true'] at this
  exact this.1

/-- A tail is read as far as its closing quote. -/
theorem Form.readTail?_eq_some_iff {form : Form} {t tail rest : Text} {q : Char}
    (hq : isQuote q = true) :
    form.readTail? t = some (tail, q :: rest) ↔
      form.isTail tail = true ∧ t = tail ++ q :: rest := by
  constructor
  · intro h
    refine ⟨?_, append_of_readTail? h⟩
    unfold Form.readTail? at h
    split at h
    · simp only [Option.some.injEq, Prod.mk.injEq] at h
      exact isTail_exact.mpr h.1.symm
    · rename_i u
      split at h
      · rename_i hu
        simp only [Option.some.injEq, Prod.mk.injEq] at h
        refine isTail_subpath.mpr ⟨_, h.1.symm, ?_, fun c hc => ?_⟩
        · cases u with
          | nil => simp at hu
          | cons c u => simp_all
        · exact List.all_eq_true.mp List.all_takeWhile c hc
      · contradiction
    · contradiction
  · intro he
    obtain ⟨ht, rfl⟩ := he
    cases form with
    | exact => simp [isTail_exact.mp ht, Form.readTail?]
    | subpath =>
      obtain ⟨sub, rfl, hn, hs⟩ := isTail_subpath.mp ht
      have hq' := not_isSubpath_of_isQuote hq
      obtain ⟨c, sub, rfl⟩ := List.exists_cons_of_ne_nil hn
      have hc := hs c List.mem_cons_self
      have htake : (c :: sub ++ q :: rest).takeWhile isSubpath = c :: sub := by
        rw [List.takeWhile_append_of_pos hs]
        simp [hq']
      have hdrop : (c :: sub ++ q :: rest).dropWhile isSubpath = q :: rest := by
        rw [List.dropWhile_append_of_pos hs]
        simp [hq']
      simp only [List.cons_append] at htake hdrop
      simp [Form.readTail?, hc, htake, hdrop]

namespace Statement

theorem readSpecifier?_eq_some_iff {form : Form} {package t tail rest : Text}
    {quote closing : Char} :
    readSpecifier? form package t = some (quote, tail, closing, rest) ↔
      isQuote quote = true ∧ isQuote closing = true ∧ form.isTail tail = true ∧
        t = quote :: (package ++ tail ++ closing :: rest) := by
  constructor
  · intro h
    have ht := append_of_readSpecifier? h
    subst ht
    simp only [readSpecifier?] at h
    split at h
    · rename_i tail' closing' u hb
      split at h
      · rename_i hq
        simp only [Option.some.injEq, Prod.mk.injEq] at h
        obtain ⟨_, rfl, rfl, rfl⟩ := h
        simp only [Bool.and_eq_true] at hq
        obtain ⟨w, _, hw⟩ := Option.bind_eq_some_iff.mp hb
        exact ⟨hq.1, hq.2, ((Form.readTail?_eq_some_iff hq.2).mp hw).1, rfl⟩
      · contradiction
    · contradiction
  · intro he
    obtain ⟨hq, hc, ht, rfl⟩ := he
    have hd : dropFront? package (package ++ tail ++ closing :: rest) =
        some (tail ++ closing :: rest) := dropFront?_eq_some_iff.mpr (by simp)
    have hr : form.readTail? (tail ++ closing :: rest) = some (tail, closing :: rest) :=
      (Form.readTail?_eq_some_iff hc).mpr ⟨ht, rfl⟩
    simp only [readSpecifier?, hd, Option.bind_some, hr, hq, hc, Bool.and_self, if_true]

/-- A statement is read at the front of a text just when it is well-formed and stands there. -/
theorem read?_eq_some_iff {form : Form} {package t rest : Text} {s : Statement} :
    read? form package t = some (s, rest) ↔ s.WellFormed form ∧ t = s.text package ++ rest := by
  constructor
  · intro h
    refine ⟨?_, append_of_read? h⟩
    unfold read? at h
    split at h
    · contradiction
    · rename_i u _
      split at h
      · contradiction
      · rename_i quote tail closing rest' hs
        split at h
        · rename_i hcl
          simp only [Option.some.injEq, Prod.mk.injEq] at h
          obtain ⟨rfl, rfl⟩ := h
          obtain ⟨hq, hc, ht, _⟩ := readSpecifier?_eq_some_iff.mp hs
          exact ⟨fun c hc => List.all_eq_true.mp List.all_takeWhile c hc, hcl, hq, ht, hc⟩
        · contradiction
  · intro he
    obtain ⟨h, rfl⟩ := he
    obtain ⟨clause, quote, tail, closing⟩ := s
    have hq : inClause quote = false := not_inClause_of_isQuote h.quote
    have hd : dropFront? importWord (text package ⟨clause, quote, tail, closing⟩ ++ rest) =
        some (clause ++ quote :: (package ++ tail ++ closing :: rest)) :=
      dropFront?_eq_some_iff.mpr (by simp [text])
    have htake : (clause ++ quote :: (package ++ tail ++ closing :: rest)).takeWhile inClause =
        clause := by
      rw [List.takeWhile_append_of_pos h.inClause]
      simp [hq]
    have hdrop : (clause ++ quote :: (package ++ tail ++ closing :: rest)).dropWhile inClause =
        quote :: (package ++ tail ++ closing :: rest) := by
      rw [List.dropWhile_append_of_pos h.inClause]
      simp [hq]
    have hs := (readSpecifier?_eq_some_iff (t := quote :: (package ++ tail ++ closing :: rest))).mpr
      ⟨h.quote, h.closing, h.tail, rfl⟩
    have hcl : isClause clause = true := h.clause
    simp only [read?, hd, htake, hdrop, hs, hcl, if_true]

theorem isSome_read?_iff {form : Form} {package t : Text} : (read? form package t).isSome ↔
    ∃ (s : Statement) (rest : Text), s.WellFormed form ∧ t = s.text package ++ rest := by
  simp only [Option.isSome_iff_exists, Prod.exists, read?_eq_some_iff]

end Statement

/-- The scan from the left misses no statement altogether, though it may pass over one that begins
inside another. -/
theorem Rule.applies_iff_occurs {r : Rule} {t : Text} : r.applies t = true ↔ r.Occurs t := by
  unfold applies
  fun_induction pieces r t with
  | case1 =>
    simp [Rule.Occurs, Statement.isSome_read?_iff, Statement.text, importWord]
  | case2 c t s rest h ih =>
    simp only [List.any_cons, Piece.isStatement, Bool.true_or, true_iff]
    exact ⟨[], c :: t, rfl, by simp [h]⟩
  | case3 c t h ih =>
    simp only [List.any_cons, Piece.isStatement, Bool.false_or, ih]
    constructor
    · intro he
      obtain ⟨u, v, rfl, hv⟩ := he
      exact ⟨c :: u, v, rfl, hv⟩
    · intro he
      obtain ⟨u, v, huv, hv⟩ := he
      cases u with
      | nil => simp_all
      | cons d u => exact ⟨u, v, (List.cons.inj huv).2, hv⟩

end ImportMigration.Import
