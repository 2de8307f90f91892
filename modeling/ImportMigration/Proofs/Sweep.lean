import ImportMigration.Proofs.Statements

/-!
A rule seen on the segments of a text. For a package without quotes, a statement is a segment that
ends with an opening, and after it a segment that is the package with a tail and has a quote behind
it. Applying the rule is then a sweep over the segments (`Rule.cut_apply`): a segment is renamed
when it is the specifier of a statement, unless the segment before it has just been renamed, because
the opening in that one was consumed.
-/

namespace ImportMigration.Import

open Text

/-- Whether a text is `import` with a clause after it. -/
def isOpening (t : Text) : Bool :=
  (dropFront? importWord t).any fun clause => clause.all inClause && isClause clause

/-- Whether a text ends with an opening. -/
def opens : Text → Bool
  | [] => false
  | c :: t => isOpening (c :: t) || opens t

/-- The tail of a specifier that the rule looks for. -/
def Rule.tail? (r : Rule) (t : Text) : Option Text :=
  (dropFront? r.old t).filter r.form.isTail

/-- The quotes and segments after a given segment, with those specifiers renamed that the rule
reaches. The quote behind a renamed specifier becomes the one before it. -/
def Rule.sweep (r : Rule) : Text → List Quoted → List Quoted
  | s, (q, y) :: (q', z) :: l =>
    match if opens s then r.tail? y else none with
    | some tail => (q, r.new ++ tail) :: (q, z) :: sweep r z l
    | none => (q, y) :: sweep r y ((q', z) :: l)
  | _, l => l

theorem isOpening_iff {t : Text} : isOpening t = true ↔
    ∃ clause, t = importWord ++ clause ∧ (∀ c ∈ clause, inClause c = true) ∧
      isClause clause = true := by
  simp only [isOpening, Option.any_eq_true, dropFront?_eq_some_iff, Bool.and_eq_true,
    List.all_eq_true]

theorem opens_iff {t : Text} : opens t = true ↔ ∃ w x, t = w ++ x ∧ isOpening x = true := by
  induction t with
  | nil =>
    constructor
    · intro h
      contradiction
    · intro he
      obtain ⟨w, x, h, hx⟩ := he
      obtain ⟨rfl, rfl⟩ := List.append_eq_nil_iff.mp h.symm
      contradiction
  | cons c t ih =>
    simp only [opens, Bool.or_eq_true, ih]
    constructor
    · rintro (h | ⟨w, x, rfl, hx⟩)
      · exact ⟨[], c :: t, rfl, h⟩
      · exact ⟨c :: w, x, rfl, hx⟩
    · intro he
      obtain ⟨w, x, h, hx⟩ := he
      cases w with
      | nil => exact .inl (h ▸ hx)
      | cons d w => exact .inr ⟨w, x, (List.cons.inj h).2, hx⟩

theorem opens_append {w x : Text} (h : isOpening x = true) : opens (w ++ x) = true :=
  opens_iff.mpr ⟨w, x, rfl, h⟩

/-- A package that does not hold the word `import` has no part in an opening. -/
theorem opens_package_append {form : Form} {p tail : Text} (hp : ¬ importWord <:+: p)
    (ht : form.isTail tail = true) : opens (p ++ tail) = opens tail := by
  induction p with
  | nil => rfl
  | cons c p ih =>
    have hc : isOpening (c :: (p ++ tail)) = false := by
      rw [← Bool.not_eq_true, isOpening_iff]
      intro he
      obtain ⟨clause, hcl, _⟩ := he
      apply hp
      apply List.IsPrefix.isInfix
      have hcl' : (c :: p) ++ tail = importWord ++ clause := hcl
      rcases List.append_eq_append_iff.mp hcl' with ⟨w, hw, hwt⟩ | ⟨w, hw, _⟩
      · have hw' : w = [] := by
          cases form with
          | exact =>
            rw [Form.isTail_exact.mp ht] at hwt
            exact (List.append_eq_nil_iff.mp hwt.symm).1
          | subpath =>
            obtain ⟨sub, rfl, _⟩ := Form.isTail_subpath.mp ht
            cases w with
            | nil => rfl
            | cons d w =>
              have hd : '/' ∈ importWord := by
                rw [hw, (List.cons.inj hwt).1]
                simp
              exact absurd hd (by decide)
        simp [hw, hw']
      · exact ⟨w, hw.symm⟩
    have hp' : ¬ importWord <:+: p := fun h => hp (List.infix_cons h)
    rw [List.cons_append, opens, hc, ih hp', Bool.false_or]

theorem Statement.WellFormed.cut_text {form : Form} {s : Statement} (h : s.WellFormed form)
    {package : Text} (hp : QuoteFree package) (rest : Text) :
    cut (s.text package ++ rest) =
      (importWord ++ s.clause,
        (s.quote, package ++ s.tail) :: (s.closing, (cut rest).1) :: (cut rest).2) := by
  have hcl : QuoteFree (importWord ++ s.clause) :=
    quoteFree_append.mpr ⟨quoteFree_importWord, quoteFree_of_inClause h.inClause⟩
  have ht : QuoteFree (package ++ s.tail) := quoteFree_append.mpr ⟨hp, quoteFree_of_isTail h.tail⟩
  have htext : s.text package ++ rest =
      (importWord ++ s.clause) ++ s.quote :: ((package ++ s.tail) ++ s.closing :: rest) := by
    simp [Statement.text]
  rw [htext, cut_append_quote hcl h.quote, cut_append_quote ht h.closing]

namespace Rule

theorem tail?_eq_some_iff {r : Rule} {t tail : Text} :
    r.tail? t = some tail ↔ t = r.old ++ tail ∧ r.form.isTail tail = true := by
  simp only [tail?, Option.filter_eq_some_iff, dropFront?_eq_some_iff]

theorem sweep_of_hit {r : Rule} {s y tail : Text} (hs : opens s = true) (hy : r.tail? y = some tail)
    (q q' : Char) (z : Text) (l : List Quoted) :
    r.sweep s ((q, y) :: (q', z) :: l) = (q, r.new ++ tail) :: (q, z) :: r.sweep z l := by
  simp [sweep, hs, hy]

/-- Where no statement is, the sweep goes on with the next segment. -/
theorem sweep_of_miss {r : Rule} {s y : Text} (h : opens s = true → r.tail? y = none) (q : Char)
    (l : List Quoted) : r.sweep s ((q, y) :: l) = (q, y) :: r.sweep y l := by
  cases l with
  | nil => rfl
  | cons x l =>
    rw [sweep]
    split
    · rename_i tail ht
      split at ht
      · simp_all
      · contradiction
    · rfl

theorem sweep_cons {r : Rule} {c : Char} {s : Text} {l : List Quoted}
    (h : isOpening (c :: s) = true →
      ∀ q y q' z l', l = (q, y) :: (q', z) :: l' → r.tail? y = none) :
    r.sweep (c :: s) l = r.sweep s l := by
  match l with
  | [] | [_] => rfl
  | (q, y) :: (q', z) :: l =>
    cases ho : isOpening (c :: s) with
    | false => simp [sweep, opens, ho]
    | true =>
      have hy := h ho q y q' z l rfl
      rw [sweep_of_miss (fun _ => hy), sweep_of_miss (fun _ => hy)]

/-- An opening and a specifier make a statement. -/
theorem isSome_read?_of_cut {r : Rule} {t x y tail z : Text} {q q' : Char} {l : List Quoted}
    (hcut : cut t = (x, (q, y) :: (q', z) :: l)) (hx : isOpening x = true)
    (hy : r.tail? y = some tail) : (Statement.read? r.form r.old t).isSome := by
  obtain ⟨clause, rfl, hin, hcl⟩ := isOpening_iff.mp hx
  obtain ⟨rfl, ht⟩ := tail?_eq_some_iff.mp hy
  have hc := isCut_cut t
  have htext := cut_append_flat t
  rw [hcut] at hc htext
  refine Statement.isSome_read?_iff.mpr ⟨⟨clause, q, tail, q'⟩, z ++ flat l, ?_, ?_⟩
  · exact ⟨hin, hcl, hc.quote (q, r.old ++ tail) (by simp), ht, hc.quote (q', z) (by simp)⟩
  · simp [← htext, Statement.text]

/-- Applying a rule is a sweep over the segments, which leaves the first one alone. -/
theorem cut_apply {r : Rule} (hold : QuoteFree r.old) (hnew : QuoteFree r.new) (t : Text) :
    cut (r.apply t) = ((cut t).1, r.sweep (cut t).1 (cut t).2) := by
  unfold apply
  fun_induction pieces r t with
  | case1 => rfl
  | case2 c t s rest h ih =>
    obtain ⟨hs, ht⟩ := Statement.read?_eq_some_iff.mp h
    have hs' : s.closed.WellFormed r.form := ⟨hs.inClause, hs.clause, hs.quote, hs.tail, hs.quote⟩
    have hopen : opens (importWord ++ s.clause) = true :=
      opens_append (w := []) (isOpening_iff.mpr ⟨s.clause, rfl, hs.inClause, hs.clause⟩)
    rw [List.flatMap_cons, Piece.renamed, hs'.cut_text hnew, ih, ht, hs.cut_text hold,
      sweep_of_hit hopen (tail?_eq_some_iff.mpr ⟨rfl, hs.tail⟩)]
    rfl
  | case3 c t h ih =>
    rw [List.flatMap_cons, Piece.renamed, List.singleton_append]
    cases hc : isQuote c with
    | true =>
      rw [cut_quote hc, cut_quote hc, ih, sweep_of_miss (by simp [opens])]
    | false =>
      rw [cut_plain hc, cut_plain hc, ih, sweep_cons]
      -- An opening that begins at `c` has no specifier after it, or there would be a statement.
      intro ho q y q' z l hl
      have hcut : cut (c :: t) = (c :: (cut t).1, (q, y) :: (q', z) :: l) := by
        rw [cut_plain hc, hl]
      cases hy : r.tail? y with
      | none => rfl
      | some tail => simpa [h] using isSome_read?_of_cut hcut ho hy

end Rule

end ImportMigration.Import
