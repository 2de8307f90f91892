import ImportMigration.Proofs.Search

/-!
The expression of a rule is unambiguous. The blanks and bindings of an import can be shared out in
many ways, but all of them agree on where the import ends and on what each group captures; so it
does not matter which one a search takes, and searching for the rule's expression comes to the
rule's own scan (`Rule.pattern_unambiguous`).
-/

namespace ImportMigration.Import

open Text Expression

variable {i : Nat} {t : Text} {g : List Capture}

/-- The groups in the expression of a rule. -/
def Form.groups : Form → List Text
  | .exact => ["stmt".toList, "quote".toList]
  | .subpath => ["stmt".toList, "quote".toList, "subpath".toList]

/-- What is captured of a tail that begins at a position. -/
def Form.captures : Form → Nat → Text → List Capture
  | .exact, _, _ => []
  | .subpath, i, tail => [⟨"subpath".toList, i + 1, tail.drop 1⟩]

/-- What is captured of the statement at a position. -/
def Statement.captures (form : Form) (package : Text) (i : Nat) (s : Statement) : List Capture :=
  [⟨"stmt".toList, i, importWord ++ s.clause⟩,
      ⟨"quote".toList, i + (importWord ++ s.clause).length, [s.quote]⟩] ++
    form.captures (i + (importWord ++ s.clause ++ [s.quote] ++ package).length) s.tail

namespace Expression

theorem capturing_chars (t : Text) : (seq (t.map .char)).capturing = false := by
  induction t with
  | nil => rfl
  | cons c t ih => exact ih

theorem matches_openingParts : (seq openingParts).Matches i t g ↔
    ∃ clause q, isClause clause = true ∧ isQuote q = true ∧ t = importWord ++ clause ++ [q] ∧
      g = [⟨"stmt".toList, i, importWord ++ clause⟩,
        ⟨"quote".toList, i + (importWord ++ clause).length, [q]⟩] := by
  have hstmt : (seq (importWord.map .char ++ clauseParts)).capturing = false := by decide
  have hquote : (seq quoteParts).capturing = false := by decide
  simp only [openingParts, matches_seq_cons, matches_seq_nil, matches_group hstmt,
    matches_group hquote, language_seq_append, language_chars, Language.mem_mul, mem_singleton_iff,
    mem_clauseParts_iff, mem_quoteParts_iff]
  constructor
  · intro h
    obtain ⟨_, _, _, _, rfl, rfl, ⟨⟨_, rfl, clause, hclause, rfl⟩, rfl⟩, _, _, _, _, rfl, rfl,
      ⟨⟨q, hq, rfl⟩, rfl⟩, rfl, rfl⟩ := h
    exact ⟨clause, q, hclause, hq, rfl, rfl⟩
  · intro h
    obtain ⟨clause, q, hclause, hq, rfl, rfl⟩ := h
    exact ⟨_, _, _, _, rfl, rfl, ⟨⟨_, rfl, clause, hclause, rfl⟩, rfl⟩, _, _, _, _, rfl, rfl,
      ⟨⟨q, hq, rfl⟩, rfl⟩, rfl, rfl⟩

theorem matches_tailParts {form : Form} : (seq (tailParts form)).Matches i t g ↔
    form.isTail t = true ∧ g = form.captures i t := by
  cases form with
  | exact => rw [Form.isTail_exact, tailParts, matches_seq_nil, Form.captures]
  | subpath =>
    have hsub : (seq subpathParts).capturing = false := by decide
    have hslash : (char '/').capturing = false := rfl
    rw [Form.isTail_subpath, tailParts]
    simp only [matches_seq_cons, matches_seq_nil, matches_group hsub, matches_iff_mem hslash,
      language, mem_singleton_iff, mem_subpathParts_iff]
    constructor
    · intro h
      obtain ⟨_, _, _, _, rfl, rfl, ⟨rfl, rfl⟩, sub, _, _, _, rfl, rfl, ⟨hsub, rfl⟩, rfl, rfl⟩ := h
      exact ⟨⟨sub, by simp, hsub⟩, by simp [Form.captures]⟩
    · intro h
      obtain ⟨⟨sub, rfl, hsub⟩, rfl⟩ := h
      exact ⟨['/'], sub, [], _, rfl, rfl, ⟨rfl, rfl⟩,
        sub, [], _, [], by simp, rfl, ⟨hsub, rfl⟩, rfl, rfl⟩

/-- A match of a rule's expression is an import of the rule, of which the groups capture what stands
before the specifier, its quote, and its subpath. -/
theorem matches_pattern {form : Form} {package : Text} :
    (seq (openingParts ++ package.map .char ++ (tailParts form ++ quoteParts))).Matches i t g ↔
      ∃ s : Statement, s.Spelled form ∧ t = s.text package ∧ g = s.captures form package i := by
  have hquote : (seq quoteParts).capturing = false := by decide
  simp only [matches_seq_append, matches_openingParts, matches_iff_mem (capturing_chars package),
    matches_tailParts, matches_iff_mem hquote, language_chars, mem_singleton_iff,
    mem_quoteParts_iff]
  constructor
  · intro h
    obtain ⟨_, _, _, _, rfl, rfl,
      ⟨_, _, _, _, rfl, rfl, ⟨clause, q, hclause, hq, rfl, rfl⟩, rfl, rfl⟩,
      tail, _, _, _, rfl, rfl, ⟨htail, rfl⟩, ⟨q', hq', rfl⟩, rfl⟩ := h
    refine ⟨⟨clause, q, tail, q'⟩, Statement.spelled_iff.mpr ?_, ?_, ?_⟩
    · exact ⟨inClause_of_isClause hclause, hclause, hq, htail, hq'⟩
    · simp [Statement.text]
    · simp [Statement.captures]
  · intro h
    obtain ⟨s, hs, rfl, rfl⟩ := h
    obtain ⟨_, hclause, hq, htail, hq'⟩ := Statement.spelled_iff.mp hs
    refine ⟨_, s.tail ++ [s.closing], _, _, ?_, rfl,
      ⟨_, _, _, [], rfl, rfl, ⟨_, _, hclause, hq, rfl, rfl⟩, rfl, rfl⟩,
      s.tail, _, _, _, rfl, (List.append_nil _).symm, ⟨htail, rfl⟩, ⟨_, hq', rfl⟩, rfl⟩
    simp [Statement.text]

end Expression

namespace Rule

variable {r : Rule}

def expression (r : Rule) : Expression :=
  seq (openingParts ++ r.old.map .char ++ (tailParts r.form ++ quoteParts))

/-- The rule's expression and the rule's scan find the same at the front of a text. -/
theorem matches_front_iff {u rest : Text} :
    t = u ++ rest ∧ r.expression.Matches i u g ↔ ∃ s : Statement,
      Statement.read? r.form r.old t = some (s, rest) ∧ u = s.text r.old ∧
        g = s.captures r.form r.old i := by
  rw [expression, matches_pattern]
  constructor
  · intro h
    obtain ⟨rfl, s, hs, rfl, rfl⟩ := h
    exact ⟨s, Statement.read?_eq_some_iff.mpr ⟨Statement.spelled_iff.mp hs, rfl⟩, rfl, rfl⟩
  · intro h
    obtain ⟨s, hread, rfl, rfl⟩ := h
    obtain ⟨hs, ht⟩ := Statement.read?_eq_some_iff.mp hread
    exact ⟨ht, s, Statement.spelled_iff.mpr hs, rfl, rfl⟩

/-- Two matches at the front of a text are one. -/
theorem matches_unique {u u' : Text} {g' : List Capture} (hu : u <+: t) (hu' : u' <+: t)
    (h : r.expression.Matches i u g) (h' : r.expression.Matches i u' g') : u' = u ∧ g' = g := by
  obtain ⟨rest, rfl⟩ := hu
  obtain ⟨rest', ht⟩ := hu'
  obtain ⟨s, hread, rfl, rfl⟩ := matches_front_iff.mp ⟨rfl, h⟩
  obtain ⟨s', hread', rfl, rfl⟩ := matches_front_iff.mp ⟨ht.symm, h'⟩
  rw [hread, Option.some.injEq, Prod.mk.injEq] at hread'
  obtain ⟨rfl, _⟩ := hread'
  exact ⟨rfl, rfl⟩

theorem map_name_captures (s : Statement) (form : Form) (package : Text) (i : Nat) :
    (s.captures form package i).map Capture.name = form.groups := by
  cases form <;> rfl

theorem captured_captures (s : Statement) {f : Found} {form : Form} {package : Text}
    (hs : s.Spelled form) (hf : f.captures = s.captures form package i) :
    f.captured "stmt".toList = importWord ++ s.clause ∧ f.captured "quote".toList = [s.quote] ∧
      Template.capturedTail f.captured form = s.tail := by
  have htail := hs.tail
  cases form with
  | exact =>
    refine ⟨?_, ?_, htail.symm⟩ <;> rw [Found.captured, hf] <;> rfl
  | subpath =>
    obtain ⟨sub, htail, _⟩ := htail
    refine ⟨?_, ?_, ?_⟩
    · rw [Found.captured, hf]
      rfl
    · rw [Found.captured, hf]
      rfl
    · rw [Template.capturedTail, Found.captured, hf, Statement.captures, htail]
      rfl

/-- The template puts the new package into the import that was matched. -/
theorem expand_captures (s : Statement) {f : Found} (hs : s.Spelled r.form)
    (hf : f.captures = s.captures r.form r.old i) :
    Template.expand f.captured r.template = s.closed.text r.new := by
  obtain ⟨hstmt, hquote, htail⟩ := captured_captures s hs hf
  rw [Template.expand_template, hstmt, hquote, htail]
  simp [Statement.text, Statement.closed]

/-- Replacing the matches of the rule's expression, in whatever order the ways to match are tried
and whichever of them is taken, is applying the rule. -/
theorem replaceFrom_eq_apply {e : Expression} (he : e.Matches = r.expression.Matches)
    (choice : Choice) (ended : Bool) (i : Nat) (t : Text) :
    e.replaceFrom choice r.template ended i t = r.apply t := by
  have hways (i : Nat) (t : Text) (f : Found) : f ∈ e.ways i t ↔ ∃ s : Statement,
      Statement.read? r.form r.old t = some (s, f.rest) ∧ f.text = s.text r.old ∧
        f.captures = s.captures r.form r.old i := by
    rw [mem_ways_iff, he, matches_front_iff]
  have hnone {i : Nat} {t : Text} (h : Statement.read? r.form r.old t = none) :
      e.ways i t = [] := by
    rw [List.eq_nil_iff_forall_not_mem]
    intro f hf
    obtain ⟨s, hread, _⟩ := (hways i t f).mp hf
    rw [h] at hread
    contradiction
  rw [apply]
  fun_induction pieces r t generalizing ended i with
  | case1 => exact replaceFrom_nil choice _ ended (hnone rfl)
  | case2 c t s rest h ih =>
    have hf : ⟨s.text r.old, s.captures r.form r.old i, rest⟩ ∈ e.ways i (c :: t) :=
      (hways ..).mpr ⟨s, h, rfl, rfl⟩
    have hunique : ∀ f ∈ e.ways i (c :: t),
        f = ⟨s.text r.old, s.captures r.form r.old i, rest⟩ := by
      intro f hf
      obtain ⟨s', hread, htext, hcaptures⟩ := (hways ..).mp hf
      rw [h, Option.some.injEq, Prod.mk.injEq] at hread
      obtain ⟨rfl, hrest⟩ := hread
      rw [← htext, ← hcaptures, hrest]
    have hs := Statement.spelled_iff.mpr (Statement.read?_eq_some_iff.mp h).1
    rw [replaceFrom_of_unique choice _ ended hf hunique (by simp [Statement.text, importWord]), ih,
      expand_captures s hs rfl]
    rfl
  | case3 c t h ih =>
    rw [replaceFrom_cons choice _ ended (hnone h), ih]
    rfl

/-- The expression of a rule is unambiguous. At each position of a text at most one end makes a
match, and with it all that is captured is given: every group takes part once, the statement goes as
far as the first quote, and that quote is captured too. So replacing the matches by the rule's
template gives what applying the rule gives, whether the repetitions in the expression are lazy or
greedy and whether the first way to match is taken or a longest one. -/
theorem pattern_unambiguous (r : Rule) :
    ∃ e, read? r.pattern = some e ∧
      (∀ (t : Text) (i : Nat) (u u' : Text) (g g' : List Capture), u <+: t.drop i →
        u' <+: t.drop i → e.Matches i u g → e.Matches i u' g' → u' = u ∧ g' = g) ∧
      (∀ (t : Text) (i : Nat) (u : Text) (g : List Capture), u <+: t.drop i → e.Matches i u g →
        g.map Capture.name = r.form.groups ∧
        ∃ stmt quote rest, t.drop i = stmt ++ quote :: rest ∧ (∀ c ∈ stmt, isQuote c = false) ∧
          isQuote quote = true ∧ ⟨"stmt".toList, i, stmt⟩ ∈ g ∧
          ⟨"quote".toList, i + stmt.length, [quote]⟩ ∈ g) ∧
      ∀ e' : Expression, e'.greedily = e.greedily → ∀ (choice : Choice) (t : Text),
        e'.replaceAll choice r.template t = r.apply t := by
  refine ⟨r.expression, read?_pattern r, ?_, ?_, ?_⟩
  · intro t i u u' g g' hu hu' h h'
    exact matches_unique hu hu' h h'
  · intro t i u g hu h
    obtain ⟨rest, hrest⟩ := hu
    obtain ⟨s, hread, rfl, rfl⟩ := matches_front_iff.mp ⟨hrest.symm, h⟩
    obtain ⟨hs, _⟩ := Statement.read?_eq_some_iff.mp hread
    refine ⟨map_name_captures .., importWord ++ s.clause, s.quote,
      r.old ++ s.tail ++ s.closing :: rest, ?_, ?_, hs.quote, ?_, ?_⟩
    · rw [← hrest]
      simp [Statement.text]
    · exact quoteFree_append.mpr ⟨quoteFree_importWord, quoteFree_of_inClause hs.inClause⟩
    · simp [Statement.captures]
    · simp [Statement.captures]
  · intro e' he choice t
    exact replaceFrom_eq_apply (matches_congr he) choice false 0 t

/-- Greedy bindings differ from those in the expression of a rule in greed only. -/
example : greedily (.times .anyNumber true (.oneOf (.except ['\'', '"', ';', '\n']))) =
    bindings.greedily := rfl

end Rule

end ImportMigration.Import
