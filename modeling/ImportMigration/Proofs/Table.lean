import ImportMigration.Import.Rename
import ImportMigration.Proofs.Pass
import Mathlib.Data.List.Infix
import Mathlib.Data.List.Pairwise

/-!
Tables of renames for which the rules are fresh, and tables whose packages have no specifier in
common, so that no two of their rules look for the same one (`Exclusive`). The legacy packages make
up a table of both kinds.
-/

namespace ImportMigration.Import

open Text

namespace Rename

/-- No package holds a quote or the word `import`, and no new package is an old one, lies below an
old one, or has an old one below it. -/
structure WellFormed (renames : List Rename) : Prop where
  quoteFree : ∀ row ∈ renames, QuoteFree row.old ∧ QuoteFree row.new
  import_free : ∀ row ∈ renames, ¬ importWord <:+: row.old ∧ ¬ importWord <:+: row.new
  ne : ∀ row ∈ renames, ∀ row' ∈ renames, row.new ≠ row'.old
  not_below : ∀ row ∈ renames, ∀ row' ∈ renames, ¬ row'.old ++ ['/'] <+: row.new
  not_above : ∀ row ∈ renames, ∀ row' ∈ renames, ¬ row.new ++ ['/'] <+: row'.old

/-- The old package of neither row is that of the other, or lies below it. -/
def Separate (row row' : Rename) : Prop :=
  row.old ≠ row'.old ∧ ¬ row.old ++ ['/'] <+: row'.old ∧ ¬ row'.old ++ ['/'] <+: row.old

instance (row row' : Rename) : Decidable (Separate row row') :=
  inferInstanceAs (Decidable (_ ∧ _ ∧ _))

end Rename

/-- One specifier of two packages: either the packages are the same, or one lies below the other. -/
theorem package_append_eq {form form' : Form} {p p' tail tail' : Text}
    (ht : form.isTail tail = true) (ht' : form'.isTail tail' = true) (h : p ++ tail = p' ++ tail') :
    (p = p' ∧ tail = tail') ∨ p ++ ['/'] <+: p' ∨ p' ++ ['/'] <+: p := by
  have key {form : Form} {p w tail : Text} (ht : form.isTail tail = true) (hw : w <+: tail) :
      w = [] ∨ p ++ ['/'] <+: p ++ w := by
    obtain ⟨u, rfl⟩ := hw
    cases form with
    | exact => exact .inl (List.append_eq_nil_iff.mp (Form.isTail_exact.mp ht)).1
    | subpath =>
      obtain ⟨sub, hsub, _⟩ := Form.isTail_subpath.mp ht
      cases w with
      | nil => exact .inl rfl
      | cons c w =>
        rw [(List.cons.inj hsub).1]
        exact .inr ⟨w, by simp⟩
  rcases List.append_eq_append_iff.mp h with ⟨w, rfl, rfl⟩ | ⟨w, rfl, rfl⟩
  · rcases key (p := p) ht ⟨tail', rfl⟩ with rfl | hw
    · exact .inl ⟨by simp, rfl⟩
    · exact .inr (.inl hw)
  · rcases key (p := p') ht' ⟨tail, rfl⟩ with rfl | hw
    · exact .inl ⟨by simp, rfl⟩
    · exact .inr (.inr hw)

theorem Form.eq_of_isTail {form form' : Form} {tail : Text} (h : form.isTail tail = true)
    (h' : form'.isTail tail = true) : form = form' := by
  cases form <;> cases form'
  case exact.subpath => simp_all [Form.isTail_exact, Form.isTail_subpath]
  case subpath.exact => simp_all [Form.isTail_exact, Form.isTail_subpath]
  all_goals rfl

/-- A rule comes from a row, and looks for subpaths only where the row has them. -/
theorem Rename.mem_rules {row : Rename} {r : Rule} : r ∈ row.rules ↔
    r.old = row.old ∧ r.new = row.new ∧ (r.form = .subpath → row.subpaths = true) := by
  obtain ⟨form, old, new⟩ := r
  cases hs : row.subpaths <;> cases form <;> simp [Rename.rules, hs]

theorem mem_rulesOf {renames : List Rename} {r : Rule} : r ∈ rulesOf renames ↔
    ∃ row ∈ renames, r.old = row.old ∧ r.new = row.new ∧
      (r.form = .subpath → row.subpaths = true) := by
  simp only [rulesOf, List.mem_flatMap, Rename.mem_rules]

theorem Rename.WellFormed.fresh {renames : List Rename} (h : Rename.WellFormed renames) :
    Fresh (rulesOf renames) := by
  refine ⟨?_, ?_, ?_, ?_, ?_⟩
  · intro r hr
    obtain ⟨row, hrow, ho, _⟩ := mem_rulesOf.mp hr
    exact ho ▸ (h.quoteFree row hrow).1
  · intro r hr
    obtain ⟨row, hrow, _, hn, _⟩ := mem_rulesOf.mp hr
    exact hn ▸ (h.quoteFree row hrow).2
  · intro r hr
    obtain ⟨row, hrow, ho, _⟩ := mem_rulesOf.mp hr
    exact ho ▸ (h.import_free row hrow).1
  · intro r hr
    obtain ⟨row, hrow, _, hn, _⟩ := mem_rulesOf.mp hr
    exact hn ▸ (h.import_free row hrow).2
  · intro r hr r' hr' tail ht
    obtain ⟨row, hrow, _, hn, _⟩ := mem_rulesOf.mp hr
    obtain ⟨row', hrow', ho', _⟩ := mem_rulesOf.mp hr'
    cases hy : r'.tail? (r.new ++ tail) with
    | none => rfl
    | some tail' =>
      obtain ⟨he, ht'⟩ := Rule.tail?_eq_some_iff.mp hy
      rw [hn, ho'] at he
      rcases package_append_eq ht ht' he with hp | hp | hp
      · exact absurd hp.1 (h.ne row hrow row' hrow')
      · exact absurd hp (h.not_above row hrow row' hrow')
      · exact absurd hp (h.not_below row hrow row' hrow')

/-- No specifier is looked for by both rules. -/
def Rule.Excludes (r r' : Rule) : Prop :=
  ∀ t, (r.tail? t).isSome → r'.tail? t = none

instance : Std.Symm Rule.Excludes where
  symm r r' h t ht := by
    cases hy : r.tail? t with
    | none => rfl
    | some tail => simp [h t (by simp [hy])] at ht

def Exclusive (rules : List Rule) : Prop :=
  rules.Pairwise Rule.Excludes

theorem Exclusive.of_append {rules : List Rule} {r : Rule} (he : Exclusive (rules ++ [r])) :
    Exclusive rules ∧ ∀ r' ∈ rules, r'.Excludes r := by
  obtain ⟨he', _, hlast⟩ := List.pairwise_append.mp he
  exact ⟨he', fun r' hr' => hlast r' hr' r (by simp)⟩

theorem Rule.excludes_of_separate {r r' : Rule}
    (hne : r.old = r'.old → r.form ≠ r'.form) (hl : ¬ r.old ++ ['/'] <+: r'.old)
    (hl' : ¬ r'.old ++ ['/'] <+: r.old) : r.Excludes r' := by
  intro t ht
  obtain ⟨tail, ht⟩ := Option.isSome_iff_exists.mp ht
  obtain ⟨rfl, htail⟩ := tail?_eq_some_iff.mp ht
  cases hy : r'.tail? (r.old ++ tail) with
  | none => rfl
  | some tail' =>
    obtain ⟨he, htail'⟩ := tail?_eq_some_iff.mp hy
    rcases package_append_eq htail htail' he with ⟨hp, rfl⟩ | hp | hp
    · exact absurd (Form.eq_of_isTail htail htail') (hne hp)
    · exact absurd hp hl
    · exact absurd hp hl'

theorem exclusive_rulesOf {renames : List Rename} (h : renames.Pairwise Rename.Separate) :
    Exclusive (rulesOf renames) := by
  refine List.pairwise_flatMap.mpr ⟨?_, h.imp ?_⟩
  · intro row _
    have hself : ¬ row.old ++ ['/'] <+: row.old := by
      intro hp
      have := hp.length_le
      simp only [List.length_append, List.length_singleton] at this
      omega
    cases hs : row.subpaths with
    | false => simp [Rename.rules, hs]
    | true =>
      simp only [Rename.rules, hs, if_true, List.pairwise_cons, List.mem_singleton, forall_eq]
      exact ⟨Rule.excludes_of_separate (fun _ => by simp) hself hself, by simp⟩
  · intro row row' hm r hr r' hr'
    obtain ⟨hne, hl, hl'⟩ := hm
    have ho := (Rename.mem_rules.mp hr).1
    have ho' := (Rename.mem_rules.mp hr').1
    exact Rule.excludes_of_separate (fun he => absurd he (by rwa [ho, ho']))
      (by rwa [ho, ho']) (by rwa [ho, ho'])

theorem Rule.Excludes.old_append_ne {r r' : Rule} (h : r.Excludes r') {tail tail' : Text}
    (ht : r.form.isTail tail = true) (ht' : r'.form.isTail tail' = true) :
    r.old ++ tail ≠ r'.old ++ tail' := by
  intro he
  have hn := h _ (by rw [Rule.tail?_eq_some_iff.mpr ⟨rfl, ht⟩]; rfl)
  rw [he, Rule.tail?_eq_some_iff.mpr ⟨rfl, ht'⟩] at hn
  contradiction

theorem Exclusive.eq {rules : List Rule} (he : Exclusive rules) {r r' : Rule} (hr : r ∈ rules)
    (hr' : r' ∈ rules) {t : Text} (ht : (r.tail? t).isSome) (ht' : (r'.tail? t).isSome) :
    r = r' := by
  by_contra hne
  have hn := List.Pairwise.forall he hr hr' hne t ht
  simp [hn] at ht'

namespace Rename

theorem wellFormed_legacy : WellFormed legacy := by
  constructor <;> decide +kernel

theorem separate_legacy : legacy.Pairwise Separate := by
  decide +kernel

end Rename

end ImportMigration.Import
