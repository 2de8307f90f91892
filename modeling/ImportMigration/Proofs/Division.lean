import ImportMigration.Proofs.Clause

/-!
Applying a rule, said without its scan. The imports that a rule looks for are a language
(`Statement.Spelled`); a text has one division only into imports of the rule and gaps in which none
begins (`Rule.Divides.eq_ofPieces`), and applying the rule renames the package in each of these
imports and leaves the gaps alone. The package may be any text.
-/

namespace ImportMigration.Import

open Text

/-- The import is spelled out in full: blanks, bindings, blanks, `from` and blanks stand before the
specifier, which has a quote at each end and a tail of the form. -/
structure Statement.Spelled (form : Form) (s : Statement) : Prop where
  clause : ∃ a b c d, s.clause = a ++ b ++ c ++ fromWord ++ d ∧ Blanks a ∧
    (∀ x ∈ b, isQuote x = false ∧ x ≠ ';' ∧ x ≠ '\n') ∧ Blanks c ∧ Blanks d
  quote : isQuote s.quote = true
  tail : match form with
    | .exact => s.tail = []
    | .subpath => ∃ sub, s.tail = '/' :: sub ∧ sub ≠ [] ∧ ∀ x ∈ sub, isQuote x = false ∧ x ≠ '\n'
  closing : isQuote s.closing = true

/-- A text taken apart: what stands before the first statement, and each statement with what stands
after it as far as the next one. -/
structure Division where
  first : Text
  rest : List (Statement × Text)

namespace Division

/-- The text that a division is one of, if its specifiers name the given package. -/
def text (package : Text) (d : Division) : Text :=
  d.first ++ d.rest.flatMap fun x => x.1.text package ++ x.2

/-- The text under a new package name: each statement keeps what stands before its specifier, and
has the new package with its tail between two quotes like the opening one. -/
def renamed (package : Text) (d : Division) : Text :=
  d.first ++ d.rest.flatMap fun x => x.1.closed.text package ++ x.2

/-- The division with one more character in front. -/
def push (c : Char) (d : Division) : Division :=
  { d with first := c :: d.first }

def ofPieces : List Piece → Division
  | [] => ⟨[], []⟩
  | .char c :: ps => (ofPieces ps).push c
  | .statement s :: ps => ⟨[], (s, (ofPieces ps).first) :: (ofPieces ps).rest⟩

theorem renamed_ofPieces (package : Text) (ps : List Piece) :
    (ofPieces ps).renamed package = ps.flatMap (Piece.renamed package) := by
  induction ps with
  | nil => rfl
  | cons p ps ih =>
    rw [List.flatMap_cons, ← ih]
    cases p with
    | char c => rfl
    | statement s => simp [ofPieces, renamed, Piece.renamed]

theorem rest_ofPieces_ne_nil_iff {ps : List Piece} :
    (ofPieces ps).rest ≠ [] ↔ ps.any Piece.isStatement = true := by
  induction ps with
  | nil => simp [ofPieces]
  | cons p ps ih => cases p <;> simp [ofPieces, push, Piece.isStatement, ih]

theorem ofPieces_chars (g : Text) (ps : List Piece) :
    ofPieces (g.map .char ++ ps) = { ofPieces ps with first := g ++ (ofPieces ps).first } := by
  induction g with
  | nil => rfl
  | cons c g ih => simp [ofPieces, push, ih]

end Division

theorem isBinding_iff {c : Char} :
    isBinding c = true ↔ isQuote c = false ∧ c ≠ ';' ∧ c ≠ '\n' := by
  simp [isBinding, and_assoc]

theorem isSubpath_iff {c : Char} : isSubpath c = true ↔ isQuote c = false ∧ c ≠ '\n' := by
  simp [isSubpath]

theorem inClause_of_isBlank {c : Char} (h : isBlank c = true) : inClause c = true := by
  have hq : c ≠ '"' ∧ c ≠ '\'' ∧ c ≠ ';' := by
    refine ⟨?_, ?_, ?_⟩ <;> rintro rfl <;> exact absurd h (by decide)
  simp [inClause, isQuote, hq]

theorem inClause_of_isBinding {c : Char} (h : isBinding c = true) : inClause c = true := by
  obtain ⟨hq, hs, _⟩ := isBinding_iff.mp h
  simp [inClause, hq, hs]

theorem inClause_of_isClause {t : Text} (h : isClause t = true) : ∀ c ∈ t, inClause c = true := by
  obtain ⟨a, b, c, d, rfl, ⟨_, ha⟩, hb, ⟨_, hc⟩, _, hd⟩ := isClause_iff.mp h
  have hfrom : ∀ x ∈ fromWord, inClause x = true := by simp [fromWord, inClause, isQuote]
  intro x hx
  simp only [List.mem_append] at hx
  rcases hx with (((hx | hx) | hx) | hx) | hx
  · exact inClause_of_isBlank (ha x hx)
  · exact inClause_of_isBinding (hb x hx)
  · exact inClause_of_isBlank (hc x hx)
  · exact hfrom x hx
  · exact inClause_of_isBlank (hd x hx)

/-- What is read are the imports of the language. -/
theorem Statement.spelled_iff {form : Form} {s : Statement} :
    s.Spelled form ↔ s.WellFormed form := by
  have hclause : isClause s.clause = true ↔ ∃ a b c d, s.clause = a ++ b ++ c ++ fromWord ++ d ∧
      Blanks a ∧ (∀ x ∈ b, isQuote x = false ∧ x ≠ ';' ∧ x ≠ '\n') ∧ Blanks c ∧ Blanks d := by
    simp only [isClause_iff, isBinding_iff]
  have htail : form.isTail s.tail = true ↔ match form with
      | .exact => s.tail = []
      | .subpath =>
        ∃ sub, s.tail = '/' :: sub ∧ sub ≠ [] ∧ ∀ x ∈ sub, isQuote x = false ∧ x ≠ '\n' := by
    cases form with
    | exact => exact Form.isTail_exact
    | subpath => simp only [Form.isTail_subpath, isSubpath_iff]
  constructor
  · intro h
    have hc := hclause.mpr h.clause
    exact ⟨inClause_of_isClause hc, hc, h.quote, htail.mpr h.tail, h.closing⟩
  · intro h
    exact ⟨hclause.mp h.clause, h.quote, htail.mp h.tail, h.closing⟩

namespace Rule

variable {r : Rule}

/-- No import of the rule begins in the gap, whether it ends there or in the text after it. -/
def Misses (r : Rule) (gap after : Text) : Prop :=
  ∀ u v, gap = u ++ v → v ≠ [] →
    ∀ s : Statement, s.Spelled r.form → ¬ s.text r.old <+: v ++ after

/-- The text falls apart into imports of the rule and gaps in which none begins. -/
inductive Divides (r : Rule) : Text → Division → Prop where
  | last {g : Text} (hg : r.Misses g []) : Divides r g ⟨g, []⟩
  | statement {g t : Text} {s : Statement} {d : Division} (hg : r.Misses g (s.text r.old ++ t))
    (hs : s.Spelled r.form) (hd : Divides r t d) :
    Divides r (g ++ (s.text r.old ++ t)) ⟨g, (s, d.first) :: d.rest⟩

theorem Divides.eq_text {t : Text} {d : Division} (h : r.Divides t d) : t = d.text r.old := by
  induction h with
  | last hg => simp [Division.text]
  | statement hg hs hd ih => simpa [Division.text] using ih

theorem read?_eq_none_iff {t : Text} : Statement.read? r.form r.old t = none ↔
    ∀ s : Statement, s.Spelled r.form → ¬ s.text r.old <+: t := by
  rw [← Option.not_isSome_iff_eq_none, Statement.isSome_read?_iff]
  constructor
  · rintro h s hs ⟨rest, rfl⟩
    exact h ⟨s, rest, Statement.spelled_iff.mp hs, rfl⟩
  · rintro h ⟨s, rest, hs, rfl⟩
    exact h s (Statement.spelled_iff.mpr hs) (List.prefix_append _ _)

theorem misses_nil (after : Text) : r.Misses [] after := by
  intro u v huv hv
  exact absurd (List.append_eq_nil_iff.mp huv.symm).2 hv

theorem misses_cons_iff {c : Char} {g after : Text} :
    r.Misses (c :: g) after ↔
      Statement.read? r.form r.old (c :: (g ++ after)) = none ∧ r.Misses g after := by
  rw [read?_eq_none_iff]
  constructor
  · intro h
    refine ⟨h [] (c :: g) rfl (by simp), ?_⟩
    rintro u v rfl hv
    exact h (c :: u) v rfl hv
  · rintro ⟨hc, hg⟩ u v huv hv
    cases u with
    | nil =>
      obtain rfl : c :: g = v := huv
      exact hc
    | cons d u => exact hg u v (List.cons.inj huv).2 hv

/-- The scan passes over a gap character by character. -/
theorem pieces_append_of_misses {g after : Text} (h : r.Misses g after) :
    r.pieces (g ++ after) = g.map .char ++ r.pieces after := by
  induction g with
  | nil => rfl
  | cons c g ih =>
    obtain ⟨hc, hg⟩ := misses_cons_iff.mp h
    rw [List.cons_append, pieces_of_read?_eq_none hc, ih hg]
    rfl

/-- A character at which no import begins lengthens the first gap. -/
theorem Divides.push {c : Char} {t : Text} {d : Division} (h : r.Divides t d)
    (hc : Statement.read? r.form r.old (c :: t) = none) : r.Divides (c :: t) (d.push c) := by
  cases h with
  | @last g hg =>
    refine .last (misses_cons_iff.mpr ⟨?_, hg⟩)
    rwa [List.append_nil]
  | statement hg hs hd => exact .statement (misses_cons_iff.mpr ⟨hc, hg⟩) hs hd

/-- The pieces that the scan cuts a text into make up a division of it. -/
theorem divides_ofPieces (r : Rule) (t : Text) : r.Divides t (.ofPieces (r.pieces t)) := by
  fun_induction pieces r t with
  | case1 => exact .last (misses_nil [])
  | case2 c t s rest h ih =>
    obtain ⟨hs, ht⟩ := Statement.read?_eq_some_iff.mp h
    rw [ht]
    exact .statement (misses_nil _) (Statement.spelled_iff.mpr hs) ih
  | case3 c t h ih => exact ih.push h

/-- There is no other division. -/
theorem Divides.eq_ofPieces {t : Text} {d : Division} (h : r.Divides t d) :
    d = .ofPieces (r.pieces t) := by
  induction h with
  | @last g hg =>
    have hp := pieces_append_of_misses hg
    rw [List.append_nil, pieces_nil] at hp
    rw [hp, Division.ofPieces_chars]
    simp [Division.ofPieces]
  | @statement g t s d hg hs hd ih =>
    have hread : Statement.read? r.form r.old (s.text r.old ++ t) = some (s, t) :=
      Statement.read?_eq_some_iff.mpr ⟨Statement.spelled_iff.mp hs, rfl⟩
    rw [pieces_append_of_misses hg, pieces_of_read? hread, Division.ofPieces_chars, ih]
    simp [Division.ofPieces]

/-- Every text has one division into imports of the rule and gaps in which none begins. Applying
the rule renames the package in these imports and keeps all else, and it reports that it applies if
there are any. -/
theorem apply_renames_division (r : Rule) (t : Text) :
    ∃ d : Division, r.Divides t d ∧ (∀ d', r.Divides t d' → d' = d) ∧ t = d.text r.old ∧
      r.apply t = d.renamed r.new ∧ (r.applies t = true ↔ d.rest ≠ []) := by
  have h := divides_ofPieces r t
  refine ⟨_, h, fun d' hd' => hd'.eq_ofPieces, h.eq_text, ?_, ?_⟩
  · rw [Division.renamed_ofPieces, apply]
  · rw [Division.rest_ofPieces_ne_nil_iff, applies]

end Rule

end ImportMigration.Import
