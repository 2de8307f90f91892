import ImportMigration.Proofs.Reach

/-!
The order of exclusive rules does not matter but for one thing. As each rule reaches what it would
reach alone, all orders rename the same specifiers. Where one specifier ends with the opening of
the next, the quote between the two is the closing one of the first and the opening one of the
second, and the order decides which of them sees the other's change; in a text whose quotes agree
there is none to see.
-/

namespace ImportMigration.Import

open Text

variable {rules rules' : List Rule}

/-- A character with the two quotes made one. -/
def neutral (c : Char) : Char := if isQuote c then '"' else c

theorem map_neutral_flat {l l' : List Quoted} (hl : ∀ x ∈ l, isQuote x.1 = true)
    (hl' : ∀ x ∈ l', isQuote x.1 = true) (h : l.map Prod.snd = l'.map Prod.snd) :
    (flat l).map neutral = (flat l').map neutral := by
  induction l generalizing l' with
  | nil =>
    rw [List.map_nil, eq_comm, List.map_eq_nil_iff] at h
    rw [h]
  | cons x l ih =>
    cases l' with
    | nil => contradiction
    | cons x' l' =>
      obtain ⟨q, y⟩ := x
      obtain ⟨q', y'⟩ := x'
      obtain ⟨rfl, ht⟩ := List.cons.inj h
      have hq : isQuote q = true := hl _ List.mem_cons_self
      have hq' : isQuote q' = true := hl' _ List.mem_cons_self
      have hrest := ih (fun x hx => hl x (List.mem_cons_of_mem _ hx))
        (fun x hx => hl' x (List.mem_cons_of_mem _ hx)) ht
      simp [neutral, hq, hq', hrest]

/-- Texts with the same segments differ at most in which quotes they have. -/
theorem map_neutral_eq {t t' : Text} (h : segments t = segments t') :
    t.map neutral = t'.map neutral := by
  obtain ⟨hhead, htail⟩ := List.cons.inj h
  rw [← cut_append_flat t, ← cut_append_flat t', hhead, List.map_append, List.map_append,
    map_neutral_flat (isCut_cut t).quote (isCut_cut t').quote htail]

theorem Fresh.perm (h : Fresh rules) (hp : rules'.Perm rules) : Fresh rules' :=
  h.mono hp.subset

theorem Exclusive.perm (he : Exclusive rules) (hp : rules'.Perm rules) : Exclusive rules' :=
  hp.symm.pairwise he fun h => Std.Symm.symm _ _ h

/-- Rules in another order rename the same specifiers. -/
theorem renames_perm_iff (h : Fresh rules) (he : Exclusive rules) (hp : rules'.Perm rules) {r : Rule}
    (hr : r ∈ rules) (t : Text) (i : Nat) :
    r.Renames (segments t) (segments (rewrite rules' t)) i ↔
      r.Renames (segments t) (segments (rewrite rules t)) i := by
  rw [renames_rewrite_iff (h.perm hp) (he.perm hp) (hp.mem_iff.mpr hr), renames_rewrite_iff h he hr]

theorem Rule.Renames.getElem?_eq {r : Rule} {x y z : List Text} {i : Nat} (h : r.Renames x y i)
    (h' : r.Renames x z i) : y[i]? = z[i]? := by
  obtain ⟨tail, _, hx, hy⟩ := h
  obtain ⟨tail', _, hx', hz⟩ := h'
  rw [hx, Option.some.injEq, List.append_cancel_left_eq] at hx'
  rw [hy, hz, hx']

theorem segments_rewrite_perm (h : Fresh rules) (he : Exclusive rules) (hp : rules'.Perm rules)
    (t : Text) : segments (rewrite rules' t) = segments (rewrite rules t) := by
  apply List.ext_getElem?
  intro i
  rcases (pass_rewrite h t).step i with hi | ⟨r, hr, hren⟩
  · rcases (pass_rewrite (h.perm hp) t).step i with hi' | ⟨r, hr', hren'⟩
    · exact hi'.trans hi.symm
    · have hr := hp.mem_iff.mp hr'
      exact absurd ((renames_perm_iff h he hp hr t i).mp hren')
        (Rule.not_renames_self (h.gone r hr r hr) hi)
  · exact ((renames_perm_iff h he hp hr t i).mpr hren).getElem?_eq hren

/-- Whether a statement closes its specifier with the quote that opens it. -/
def Piece.quotesAgree : Piece → Bool
  | char _ => true
  | statement s => s.closing == s.quote

/-- The quotes of each statement that the rule finds in the text agree. -/
def Rule.QuotesAgree (r : Rule) (t : Text) : Prop :=
  ∀ p ∈ r.pieces t, p.quotesAgree = true

instance (r : Rule) (t : Text) : Decidable (r.QuotesAgree t) :=
  List.decidableBAll (Piece.quotesAgree · = true) (r.pieces t)

theorem quotes_flatMap {α : Type} (f : α → Text) (l : List α) :
    quotes (l.flatMap f) = l.flatMap fun x => quotes (f x) := by
  induction l with
  | nil => rfl
  | cons x l ih => rw [List.flatMap_cons, List.flatMap_cons, quotes_append, ih]

theorem Statement.quotes_text {package : Text} (h : QuoteFree package) (s : Statement) :
    quotes (s.text package) =
      quotes (importWord ++ s.clause ++ [s.quote]) ++ quotes (s.tail ++ [s.closing]) := by
  have ht : s.text package =
      importWord ++ s.clause ++ [s.quote] ++ (package ++ (s.tail ++ [s.closing])) := by
    simp [text]
  rw [ht, quotes_append, quotes_append package, h.quotes_eq, List.nil_append]

theorem Rule.QuotesAgree.quotes_apply {r : Rule} {t : Text} (hold : QuoteFree r.old)
    (hnew : QuoteFree r.new) (h : r.QuotesAgree t) : quotes (r.apply t) = quotes t := by
  have hp : ∀ p ∈ r.pieces t, quotes (p.renamed r.new) = quotes (p.text r.old) := by
    intro p hp
    cases p with
    | char c => rfl
    | statement s =>
      have hs : s.closed = s := by
        have hq := h _ hp
        simp only [Piece.quotesAgree, beq_iff_eq] at hq
        obtain ⟨clause, quote, tail, closing⟩ := s
        exact congrArg (Statement.mk clause quote tail) hq.symm
      rw [Piece.renamed, Piece.text, hs, s.quotes_text hold, s.quotes_text hnew]
  conv_rhs => rw [← r.flatMap_text_pieces t]
  rw [apply, quotes_flatMap, quotes_flatMap, List.flatMap_def, List.map_congr_left hp,
    ← List.flatMap_def]

/-- Where the quotes of all statements agree, a pass keeps all quotes. -/
theorem quotes_rewrite_of_agree (h : Fresh rules) (he : Exclusive rules) {t : Text}
    (hq : ∀ r ∈ rules, r.QuotesAgree t) : quotes (rewrite rules t) = quotes t := by
  induction rules using List.reverseRecOn with
  | nil => rfl
  | append_singleton rules r ih =>
    obtain ⟨he', hex⟩ := he.of_append
    have hr : r ∈ rules ++ [r] := by simp
    have hu := ih h.tail he' fun r' hr' => hq r' (List.mem_append_left _ hr')
    have ht := (hq r hr).quotes_apply (h.quoteFree_old r hr) (h.quoteFree_new r hr)
    apply List.ext_getElem?
    intro i
    -- The last rule finds the quotes of the text, and reaches what it reaches in the text.
    have hi := Rule.getElem?_quotes_apply h hr t i
    rw [ht] at hi
    rw [rewrite_append, Rule.getElem?_quotes_apply h hr, hu]
    simp only [reaches_rewrite_iff h hex]
    exact hi.symm

/-- The legacy rules in any order cut the text alike and rename the same specifiers: two orders can
differ only in which quotes close specifiers that they rename, and do not where the quotes of each
statement that a rule finds in the text agree. -/
theorem rewrite_perm (rules : List Rule) (hp : rules.Perm defaultRules) (t : Text) :
    segments (rewrite rules t) = segments (rewrite defaultRules t) ∧
    (rewrite rules t).map neutral = (rewrite defaultRules t).map neutral ∧
    (∀ i : Nat, (quotes (rewrite rules t))[i]? ≠ (quotes (rewrite defaultRules t))[i]? →
      ∃ r ∈ defaultRules, r.Renames (segments t) (segments (rewrite defaultRules t)) i) ∧
    ((∀ r ∈ defaultRules, r.QuotesAgree t) → rewrite rules t = rewrite defaultRules t) := by
  have hf : Fresh defaultRules := Rename.wellFormed_legacy.fresh
  have he : Exclusive defaultRules := exclusive_rulesOf Rename.separate_legacy
  have hs := segments_rewrite_perm hf he hp t
  refine ⟨hs, map_neutral_eq hs, ?_, ?_⟩
  · intro i hi
    rcases getElem?_quotes_rewrite hf he t i with hq | ⟨r, hr, hreach⟩
    · rcases getElem?_quotes_rewrite (hf.perm hp) (he.perm hp) t i with hq' | ⟨r, hr, hreach⟩
      · exact absurd (hq'.trans hq.symm) hi
      · have hr := hp.mem_iff.mp hr
        exact ⟨r, hr, (renames_rewrite_iff hf he hr t i).mpr hreach⟩
    · exact ⟨r, hr, (renames_rewrite_iff hf he hr t i).mpr hreach⟩
  · intro hq
    have hq' : ∀ r ∈ rules, r.QuotesAgree t := fun r hr => hq r (hp.mem_iff.mp hr)
    exact eq_of_segments_of_quotes hs ((quotes_rewrite_of_agree (hf.perm hp) (he.perm hp) hq').trans
      (quotes_rewrite_of_agree hf he hq).symm)

/-- An import whose path ends with the opening of another, so that they share a quote, which is not
the one that the first opens with. -/
def sharedQuote : Text :=
  "import A from '@material-ui/core/import B from \"@material-ui/icons\"".toList

/-- Two imports on a line with one kind of quote, the first of which lacks its closing one. -/
def oneKindOfQuote : Text :=
  "import A from '@material-ui/core/A; import B from '@material-ui/lab';".toList

/-- Taken backwards, the rules close the second of two specifiers that share a quote with another
quote; where there is one kind of quote they do what they do in order. -/
theorem rewrite_reverse :
    defaultRules.reverse.Perm defaultRules ∧
    rewrite defaultRules.reverse sharedQuote ≠ rewrite defaultRules sharedQuote ∧
    (rewrite defaultRules.reverse sharedQuote).map neutral =
      (rewrite defaultRules sharedQuote).map neutral ∧
    (∀ r ∈ defaultRules, r.QuotesAgree oneKindOfQuote) ∧
    rewrite defaultRules.reverse oneKindOfQuote = rewrite defaultRules oneKindOfQuote := by
  have hp : defaultRules.reverse.Perm defaultRules := List.reverse_perm _
  have hagree : ∀ r ∈ defaultRules, r.QuotesAgree oneKindOfQuote := by decide +kernel
  have hshared := rewrite_perm _ hp sharedQuote
  exact ⟨hp, by decide +kernel, hshared.2.1, hagree, (rewrite_perm _ hp oneKindOfQuote).2.2.2 hagree⟩

end ImportMigration.Import
