import ImportMigration.Proofs.Table

/-!
Where the statements of a rule stand in a text, and which of them begin within another. A statement
stands at every opening with a specifier after it (`Rule.pending_iff`); of two that stand in
neighbouring segments, the second begins in the tail of the first (`Rule.nests_iff`).
-/

namespace ImportMigration.Import

open Text

/-- A statement of the rule begins within the tail of another. -/
def Rule.Nests (r : Rule) (t : Text) : Prop :=
  ∃ u v s rest w w', t = u ++ v ∧ Statement.read? r.form r.old v = some (s, rest) ∧
    s.tail = w ++ w' ∧ (Statement.read? r.form r.old (w' ++ s.closing :: rest)).isSome

theorem Statement.WellFormed.segments_text {form : Form} {s : Statement} (h : s.WellFormed form)
    {package w : Text} (hp : QuoteFree package) (hw : QuoteFree w) (rest : Text) :
    segments (w ++ (s.text package ++ rest)) =
      (w ++ (importWord ++ s.clause)) :: (package ++ s.tail) :: segments rest := by
  rw [segments_append_of_quoteFree hw, h.cut_text hp]
  rfl

theorem Statement.WellFormed.isOpening {form : Form} {s : Statement} (h : s.WellFormed form) :
    isOpening (importWord ++ s.clause) = true :=
  isOpening_iff.mpr ⟨s.clause, rfl, h.inClause, h.clause⟩

namespace Rule

theorem pending_append {r : Rule} {a x : List Text} {i : Nat} :
    r.Pending (a ++ x) (a.length + i) ↔ r.Pending x i := by
  induction a with
  | nil => simp
  | cons b a ih =>
    rw [List.cons_append, List.length_cons, Nat.add_right_comm, pending_cons, ih]

theorem pending_zero {r : Rule} {s y : Text} {x : List Text} :
    r.Pending (s :: y :: x) 0 ↔ x ≠ [] ∧ opens s = true ∧ (r.tail? y).isSome := by
  cases x <;> simp [Pending, Opened, Option.isSome_iff_exists]

theorem exists_of_pending {r : Rule} {t : Text} {i : Nat} (h : r.Pending (segments t) i) :
    ∃ (u : Text) (s : Statement) (rest : Text),
      s.WellFormed r.form ∧ t = u ++ (s.text r.old ++ rest) ∧ u.countP isQuote = i := by
  induction t generalizing i with
  | nil =>
    obtain ⟨⟨hi, _⟩, _⟩ := h
    simp at hi
  | cons c t ih =>
    cases hc : isQuote c with
    | true =>
      rw [segments_quote hc] at h
      cases i with
      | zero =>
        obtain ⟨⟨_, s, hs, ho⟩, _⟩ := h
        obtain rfl := Option.some.inj hs
        contradiction
      | succ i =>
        obtain ⟨u, s, rest, hs, rfl, hu⟩ := ih (pending_cons.mp h)
        exact ⟨c :: u, s, rest, hs, rfl, by simp [hc, hu]⟩
    | false =>
      -- The first character belongs to the first segment, and may be where its opening begins.
      have hlift (h : r.Pending (segments t) i) : ∃ (u : Text) (s : Statement) (rest : Text),
          s.WellFormed r.form ∧ c :: t = u ++ (s.text r.old ++ rest) ∧ u.countP isQuote = i := by
        obtain ⟨u, s, rest, hs, rfl, hu⟩ := ih h
        exact ⟨c :: u, s, rest, hs, rfl, by simp [hc, hu]⟩
      rw [segments, cut_plain hc] at h
      cases i with
      | succ i => exact hlift (pending_cons.mpr (pending_cons.mp h))
      | zero =>
        cases hl : (cut t).2 with
        | nil => simp [hl, Pending, Opened] at h
        | cons x l =>
          obtain ⟨q, y⟩ := x
          simp only [hl, List.map_cons, pending_zero, opens, Bool.or_eq_true] at h
          obtain ⟨hne, ho | ho, hy⟩ := h
          · obtain ⟨⟨q', z⟩, l, rfl⟩ := List.exists_cons_of_ne_nil (by simpa using hne)
            obtain ⟨tail, hy⟩ := Option.isSome_iff_exists.mp hy
            have hcut : cut (c :: t) = (c :: (cut t).1, (q, y) :: (q', z) :: l) := by
              rw [cut_plain hc, hl]
            obtain ⟨s, rest, hs, ht⟩ :=
              Statement.isSome_read?_iff.mp (isSome_read?_of_cut hcut ho hy)
            exact ⟨[], s, rest, hs, ht, rfl⟩
          · apply hlift
            rw [segments, hl]
            exact pending_zero.mpr ⟨hne, ho, hy⟩

theorem pending_of_wellFormed {r : Rule} (hold : QuoteFree r.old) {s : Statement}
    (hs : s.WellFormed r.form) (u rest : Text) :
    r.Pending (segments (u ++ (s.text r.old ++ rest))) (u.countP isQuote) := by
  have hpend {w : Text} (hw : QuoteFree w) :
      r.Pending (segments (w ++ (s.text r.old ++ rest))) 0 := by
    rw [hs.segments_text hold hw]
    exact pending_zero.mpr ⟨by simp [segments], opens_append hs.isOpening,
      by rw [tail?_eq_some_iff.mpr ⟨rfl, hs.tail⟩]; rfl⟩
  rcases exists_last_quote u with hu | ⟨b, q, w, rfl, hq, hw⟩
  · rw [hu.countP_eq]
    exact hpend hu
  · have hn : (b ++ q :: w).countP isQuote = (segments b).length + 0 := by
      simp [hq, hw.countP_eq]
    rw [hn, List.append_assoc, List.cons_append, segments_append_quote b hq, pending_append]
    exact hpend hw

/-- A statement stands in the text for each pending one, behind as many quotes. -/
theorem pending_iff {r : Rule} (hold : QuoteFree r.old) {t : Text} {i : Nat} :
    r.Pending (segments t) i ↔ ∃ (u : Text) (s : Statement) (rest : Text),
      s.WellFormed r.form ∧ t = u ++ (s.text r.old ++ rest) ∧ u.countP isQuote = i := by
  constructor
  · exact exists_of_pending
  · intro h
    obtain ⟨u, s, rest, hs, rfl, rfl⟩ := h
    exact pending_of_wellFormed hold hs u rest

theorem occurs_iff_pending {r : Rule} (hold : QuoteFree r.old) {t : Text} :
    r.Occurs t ↔ ∃ i, r.Pending (segments t) i := by
  simp only [Occurs, Statement.isSome_read?_iff, pending_iff hold]
  constructor
  · intro h
    obtain ⟨u, v, rfl, s, rest, hs, rfl⟩ := h
    exact ⟨_, u, s, rest, hs, rfl, rfl⟩
  · intro h
    obtain ⟨_, u, s, rest, hs, rfl, _⟩ := h
    exact ⟨u, _, rfl, s, rest, hs, rfl⟩

theorem pending_of_nests {r : Rule} (hold : QuoteFree r.old) {t : Text} (h : r.Nests t) :
    ∃ i, r.Pending (segments t) i ∧ r.Pending (segments t) (i + 1) := by
  obtain ⟨u, v, s, rest, w, w', rfl, hv, htail, hsome⟩ := h
  obtain ⟨hs, rfl⟩ := Statement.read?_eq_some_iff.mp hv
  obtain ⟨s', rest', hs', hrest⟩ := Statement.isSome_read?_iff.mp hsome
  have hw : QuoteFree w := by
    have := quoteFree_of_isTail hs.tail
    rw [htail, quoteFree_append] at this
    exact this.1
  refine ⟨u.countP isQuote, (pending_iff hold).mpr ⟨u, s, rest, hs, rfl, rfl⟩,
    (pending_iff hold).mpr
      ⟨u ++ (importWord ++ s.clause) ++ s.quote :: (r.old ++ w), s', rest', hs', ?_, ?_⟩⟩
  · rw [← hrest]
    simp [Statement.text, htail]
  · simp [hs.quote, hw.countP_eq, hold.countP_eq, (quoteFree_of_inClause hs.inClause).countP_eq,
      quoteFree_importWord.countP_eq]

theorem nests_of_pending {r : Rule} (hold : QuoteFree r.old) (himp : ¬ importWord <:+: r.old)
    {t : Text} {i : Nat} (hi : r.Pending (segments t) i) (hi' : r.Pending (segments t) (i + 1)) :
    r.Nests t := by
  obtain ⟨u, s, rest, hs, rfl, rfl⟩ := (pending_iff hold).mp hi
  have htext : u ++ (s.text r.old ++ rest) =
      (u ++ (importWord ++ s.clause)) ++ s.quote :: ((r.old ++ s.tail) ++ s.closing :: rest) := by
    simp [Statement.text]
  have hlen : u.countP isQuote + 1 = (segments (u ++ (importWord ++ s.clause))).length + 0 := by
    simp [quoteFree_importWord.countP_eq, (quoteFree_of_inClause hs.inClause).countP_eq]
  have ht := quoteFree_of_isTail hs.tail
  rw [htext, segments_append_quote _ hs.quote, hlen, pending_append,
    segments_append_quote _ hs.closing, segments_of_quoteFree (quoteFree_append.mpr ⟨hold, ht⟩)]
    at hi'
  -- The opening of the second statement lies in the tail of the first.
  have htail : r.Pending (segments (s.tail ++ s.closing :: rest)) 0 := by
    rw [segments_append_quote _ hs.closing, segments_of_quoteFree ht]
    rw [List.singleton_append, segments, pending_zero, opens_package_append himp hs.tail] at hi'
    exact pending_zero.mpr hi'
  obtain ⟨w, s', rest', hs', he, hw⟩ := (pending_iff hold).mp htail
  have hsplit : ∃ w', s.tail = w ++ w' ∧ w' ++ s.closing :: rest = s'.text r.old ++ rest' := by
    rcases List.append_eq_append_iff.mp he with ⟨v, rfl, hv⟩ | ⟨w', hw', hv⟩
    · cases v with
      | nil => exact ⟨[], by simp, hv⟩
      | cons c v =>
        rw [← (List.cons.inj hv).1] at hw
        simp [hs.closing] at hw
    · exact ⟨w', hw', hv.symm⟩
  obtain ⟨w', hw', hv⟩ := hsplit
  exact ⟨u, _, s, rest, w, w', rfl, Statement.read?_eq_some_iff.mpr ⟨hs, rfl⟩, hw',
    Statement.isSome_read?_iff.mpr ⟨s', rest', hs', hv⟩⟩

/-- Statements nest where they stand in neighbouring segments. -/
theorem nests_iff {r : Rule} (hold : QuoteFree r.old) (himp : ¬ importWord <:+: r.old) {t : Text} :
    r.Nests t ↔ ∃ i, r.Pending (segments t) i ∧ r.Pending (segments t) (i + 1) := by
  constructor
  · exact pending_of_nests hold
  · intro h
    obtain ⟨i, hi, hi'⟩ := h
    exact nests_of_pending hold himp hi hi'

end Rule

end ImportMigration.Import
