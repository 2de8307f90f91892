import ImportMigration.Proofs.Convergence
import ImportMigration.Proofs.Division

/-!
What a pass makes of a text that is one import and nothing else. There is one specifier only in it,
so a rule finds a statement just when it looks for that specifier (`occurs_text_iff`), and of
exclusive rules no more than one does. The others leave the import alone, before it is renamed and
after (`rewrite_text`).
-/

namespace ImportMigration.Import

open Text

variable {form : Form} {s : Statement} {package : Text} {rules : List Rule} {r : Rule}

namespace Statement.WellFormed

theorem closed_wellFormed (hs : s.WellFormed form) : s.closed.WellFormed form :=
  ⟨hs.inClause, hs.clause, hs.quote, hs.tail, hs.quote⟩

theorem occurs_text_iff (hs : s.WellFormed form) (hp : QuoteFree package) (hr : QuoteFree r.old) :
    r.Occurs (s.text package) ↔ (r.tail? (package ++ s.tail)).isSome := by
  have hsegments : segments (s.text package) =
      [importWord ++ s.clause, package ++ s.tail, []] := by
    simpa [segments, cut] using hs.segments_text hp .nil []
  rw [Rule.occurs_iff_pending hr, hsegments]
  constructor
  · rintro ⟨i, hi⟩
    obtain rfl : i = 0 := by
      have hlen := hi.1.1
      simp only [List.length_cons, List.length_nil] at hlen
      omega
    exact (Rule.pending_zero.mp hi).2.2
  · intro h
    exact ⟨0, Rule.pending_zero.mpr ⟨by simp, opens_append (w := []) hs.isOpening, h⟩⟩

/-- Rules that do not look for its specifier leave an import as it is. -/
theorem rewrite_text_eq_self (hs : s.WellFormed form) (hp : QuoteFree package)
    (hold : ∀ r ∈ rules, QuoteFree r.old) (h : ∀ r ∈ rules, r.tail? (package ++ s.tail) = none) :
    rewrite rules (s.text package) = s.text package := by
  apply rewrite_of_not_occurs
  intro r hr
  rw [hs.occurs_text_iff hp (hold r hr), h r hr]
  simp

theorem apply_text (hs : s.WellFormed r.form) : r.apply (s.text r.old) = s.closed.text r.new := by
  have hread : Statement.read? r.form r.old (s.text r.old) = some (s, []) :=
    Statement.read?_eq_some_iff.mpr ⟨hs, by simp⟩
  rw [Rule.apply, Rule.pieces_of_read? hread, Rule.pieces_nil]
  simp [Piece.renamed]

end Statement.WellFormed

/-- A pass renames the package of an import by the one rule that looks for it. -/
theorem rewrite_text (hf : Fresh rules) (he : Exclusive rules) (hr : r ∈ rules)
    (hs : s.WellFormed r.form) : rewrite rules (s.text r.old) = s.closed.text r.new := by
  obtain ⟨front, back, rfl⟩ := List.append_of_mem hr
  -- Before the rule's turn no other rule looks for the old specifier, and after it none for the new.
  have hlooks : r.tail? (r.old ++ s.tail) = some s.tail :=
    Rule.tail?_eq_some_iff.mpr ⟨rfl, hs.tail⟩
  have hfront : rewrite front (s.text r.old) = s.text r.old := by
    refine hs.rewrite_text_eq_self (hf.quoteFree_old r hr) (fun r' hr' => ?_) fun r' hr' => ?_
    · exact hf.quoteFree_old r' (List.mem_append_left _ hr')
    · have hex : r'.Excludes r := (List.pairwise_append.mp he).2.2 r' hr' r List.mem_cons_self
      exact symm hex _ (by rw [hlooks]; rfl)
  have hback : rewrite back (s.closed.text r.new) = s.closed.text r.new := by
    refine hs.closed_wellFormed.rewrite_text_eq_self (hf.quoteFree_new r hr) (fun r' hr' => ?_)
      fun r' hr' => ?_
    · exact hf.quoteFree_old r' (List.mem_append_right _ (List.mem_cons_of_mem _ hr'))
    · exact hf.gone r hr r' (List.mem_append_right _ (List.mem_cons_of_mem _ hr')) _ hs.tail
  calc rewrite (front ++ r :: back) (s.text r.old)
      = rewrite back (r.apply (rewrite front (s.text r.old))) := rewrite_append_rules _ _ _
    _ = s.closed.text r.new := by rw [hfront, hs.apply_text, hback]

instance : Std.Symm Rename.Separate where
  symm _ _ h := ⟨h.1.symm, h.2.2, h.2.1⟩

/-- No rule looks for a path below a package whose row has no subpaths. -/
theorem tail?_eq_none_of_no_subpaths {renames : List Rename} (h : renames.Pairwise Rename.Separate)
    {row : Rename} (hrow : row ∈ renames) (hsub : row.subpaths = false) (hr : r ∈ rulesOf renames)
    {tail : Text} (ht : Form.subpath.isTail tail = true) : r.tail? (row.old ++ tail) = none := by
  obtain ⟨row', hrow', hold, _, hform⟩ := mem_rulesOf.mp hr
  cases hy : r.tail? (row.old ++ tail) with
  | none => rfl
  | some tail' =>
    exfalso
    obtain ⟨htext, ht'⟩ := Rule.tail?_eq_some_iff.mp hy
    by_cases heq : row = row'
    · subst heq
      obtain rfl := List.append_cancel_left (hold ▸ htext)
      have hsub' := hform (Form.eq_of_isTail ht' ht)
      rw [hsub] at hsub'
      contradiction
    · obtain ⟨hne, hbelow, habove⟩ := h.forall hrow hrow' heq
      rw [hold] at htext
      rcases package_append_eq ht ht' htext with ⟨hp, _⟩ | hp | hp
      · exact hne hp
      · exact hbelow hp
      · exact habove hp

/-- The import with the blanks, bindings and quotes that are given. -/
def spelled (a b c d : Text) (quote : Char) (specifier : Text) (closing : Char) : Text :=
  importWord ++ a ++ b ++ c ++ fromWord ++ d ++ quote :: (specifier ++ [closing])

theorem spelled_append {a b c d : Text} {q q' : Char} (package tail : Text) :
    spelled a b c d q (package ++ tail) q' =
      Statement.text package ⟨a ++ b ++ c ++ fromWord ++ d, q, tail, q'⟩ := by
  simp [spelled, Statement.text]

theorem rewrite_spelled (hf : Fresh rules) (he : Exclusive rules) (hr : r ∈ rules)
    {a b c d tail : Text} {q q' : Char}
    (hs : Statement.WellFormed r.form ⟨a ++ b ++ c ++ fromWord ++ d, q, tail, q'⟩) :
    rewrite rules (spelled a b c d q (r.old ++ tail) q') =
      spelled a b c d q (r.new ++ tail) q := by
  have h := rewrite_text hf he hr hs
  rw [spelled_append, spelled_append, h]
  rfl

/-- A pass of the legacy rules migrates an import of a legacy package, however it is spelled; paths
below the package move with it if its row has subpaths, and else such an import stays as it is. -/
theorem rewrite_migrates_import {row : Rename} (hrow : row ∈ Rename.legacy) {a b c d : Text}
    {q q' : Char} (ha : Blanks a) (hb : ∀ x ∈ b, isQuote x = false ∧ x ≠ ';' ∧ x ≠ '\n')
    (hc : Blanks c) (hd : Blanks d) (hq : isQuote q = true) (hq' : isQuote q' = true) :
    rewrite defaultRules (spelled a b c d q row.old q') = spelled a b c d q row.new q ∧
    ∀ sub, sub ≠ [] → (∀ x ∈ sub, isQuote x = false ∧ x ≠ '\n') →
      rewrite defaultRules (spelled a b c d q (row.old ++ '/' :: sub) q') =
        if row.subpaths then spelled a b c d q (row.new ++ '/' :: sub) q
        else spelled a b c d q (row.old ++ '/' :: sub) q' := by
  have hf : Fresh defaultRules := Rename.wellFormed_legacy.fresh
  have he : Exclusive defaultRules := exclusive_rulesOf Rename.separate_legacy
  have hwf {form : Form} {tail : Text} (ht : form.isTail tail = true) :
      Statement.WellFormed form ⟨a ++ b ++ c ++ fromWord ++ d, q, tail, q'⟩ := by
    have hcl : isClause (a ++ b ++ c ++ fromWord ++ d) = true :=
      isClause_iff.mpr ⟨a, b, c, d, rfl, ha, fun x hx => isBinding_iff.mpr (hb x hx), hc, hd⟩
    exact ⟨inClause_of_isClause hcl, hcl, hq, ht, hq'⟩
  constructor
  · have hr : (⟨.exact, row.old, row.new⟩ : Rule) ∈ defaultRules :=
      mem_rulesOf.mpr ⟨row, hrow, rfl, rfl, by simp⟩
    have ht : Form.exact.isTail [] = true := rfl
    have h := rewrite_spelled hf he hr (hwf ht)
    simpa only [List.append_nil] using h
  · intro sub hne hsub
    have ht : Form.subpath.isTail ('/' :: sub) = true :=
      Form.isTail_subpath.mpr ⟨sub, rfl, hne, fun x hx => isSubpath_iff.mpr (hsub x hx)⟩
    cases hs : row.subpaths with
    | true =>
      have hr : (⟨.subpath, row.old, row.new⟩ : Rule) ∈ defaultRules :=
        mem_rulesOf.mpr ⟨row, hrow, rfl, rfl, fun _ => hs⟩
      rw [if_pos rfl]
      exact rewrite_spelled hf he hr (hwf ht)
    | false =>
      have hp : QuoteFree row.old := (Rename.wellFormed_legacy.quoteFree row hrow).1
      rw [if_neg Bool.false_ne_true, spelled_append]
      exact (hwf ht).rewrite_text_eq_self hp hf.quoteFree_old fun r hr =>
        tail?_eq_none_of_no_subpaths Rename.separate_legacy hrow hs hr ht

/-- An import of the bindings `import from A from`, with line breaks and a wide space about them. -/
def disguised (specifier : Text) (closing : Char) : Text :=
  spelled "\n\t".toList "import from A from".toList ['\u3000'] ['\n'] '\'' specifier closing

/-- The imitated words mislead no rule, and the path below `styles` is left alone. -/
theorem disguised_migrates :
    rewrite defaultRules (disguised "@material-ui/core".toList '"') =
        disguised "@mui/material".toList '\'' ∧
      rewrite defaultRules (disguised "@material-ui/core/a; import".toList '"') =
        disguised "@mui/material/a; import".toList '\'' ∧
      rewrite defaultRules (disguised "@material-ui/styles/a".toList '"') =
        disguised "@material-ui/styles/a".toList '"' := by
  have hcore : Rename.legacy[0] ∈ Rename.legacy := List.getElem_mem _
  have hstyles : Rename.legacy[4] ∈ Rename.legacy := List.getElem_mem _
  have ha : Blanks "\n\t".toList := ⟨by decide, List.all_eq_true.mp rfl⟩
  have hb : ∀ x ∈ "import from A from".toList, isQuote x = false ∧ x ≠ ';' ∧ x ≠ '\n' :=
    fun x hx => isBinding_iff.mp (List.all_eq_true.mp (by decide) x hx)
  have hc : Blanks ['\u3000'] := ⟨by decide, List.all_eq_true.mp rfl⟩
  have hd : Blanks ['\n'] := ⟨by decide, List.all_eq_true.mp rfl⟩
  have hq : isQuote '\'' = true := rfl
  have hq' : isQuote '"' = true := rfl
  obtain ⟨hpackage, hpath⟩ := rewrite_migrates_import hcore ha hb hc hd hq hq'
  obtain ⟨_, hkept⟩ := rewrite_migrates_import hstyles ha hb hc hd hq hq'
  have hsub {sub : Text} (h : sub.all isSubpath = true) :
      ∀ x ∈ sub, isQuote x = false ∧ x ≠ '\n' :=
    fun x hx => isSubpath_iff.mp (List.all_eq_true.mp h x hx)
  exact ⟨hpackage, hpath "a; import".toList (by decide) (hsub (by decide)),
    hkept ['a'] (by decide) (hsub (by decide))⟩

end ImportMigration.Import
