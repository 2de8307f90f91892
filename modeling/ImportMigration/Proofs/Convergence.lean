import ImportMigration.Proofs.Nesting
import ImportMigration.Proofs.Reach

/-!
How often a table of rules has to be applied until nothing is left for it to do. A pass is the last
one when no rule finds a statement any more (`rewrite_eq_self_iff`), which is so after two passes
over any text, and after one unless statements of a rule nest.
-/

namespace ImportMigration.Import

open Text

theorem rewrite_of_not_occurs {rules : List Rule} {t : Text} (h : ∀ r ∈ rules, ¬ r.Occurs t) :
    rewrite rules t = t := by
  induction rules with
  | nil => rfl
  | cons r rules ih =>
    have hr : r.applies t = false := by
      rw [← Bool.not_eq_true, Rule.applies_iff_occurs]
      exact h r List.mem_cons_self
    rw [rewrite, List.foldl_cons, Rule.apply_of_not_applies hr]
    exact ih fun r' hr' => h r' (List.mem_cons_of_mem _ hr')

namespace Fresh

variable {rules : List Rule} (h : Fresh rules)

include h

theorem occurs_iff {r : Rule} (hr : r ∈ rules) {t : Text} :
    r.Occurs t ↔ ∃ i, r.Pending (segments t) i :=
  Rule.occurs_iff_pending (h.quoteFree_old r hr)

/-- A specifier cannot have both an old name and a new one. -/
theorem not_renames_of_renames {r : Rule} (hr : r ∈ rules) {x y z : List Text} {i : Nat}
    (hxy : r.Renames x y i) : ¬ r.Renames y z i := by
  intro he
  obtain ⟨tail', ht', hy', _⟩ := he
  obtain ⟨tail, ht, _, hy⟩ := hxy
  have hn := h.gone r hr r hr tail ht
  rw [hy] at hy'
  rw [Option.some.inj hy', Rule.tail?_eq_some_iff.mpr ⟨rfl, ht'⟩] at hn
  contradiction

theorem pending_of_pending_rewrite {r : Rule} (hr : r ∈ rules) {t : Text} {i : Nat}
    (hp : r.Pending (segments (rewrite rules t)) i) : r.Pending (segments t) i :=
  have hpass := pass_rewrite h t
  h.pending_of_pending hpass.length hpass.step hr hp

/-- Only texts without a statement of any rule are left as they are. -/
theorem rewrite_eq_self_iff {t : Text} :
    rewrite rules t = t ↔ ∀ r ∈ rules, ¬ r.Occurs t := by
  refine ⟨fun ht r hr hocc => ?_, rewrite_of_not_occurs⟩
  obtain ⟨i, hi⟩ := (h.occurs_iff hr).mp hocc
  have hpass := pass_rewrite h t
  rw [ht] at hpass
  exact Rule.not_renames_self (h.gone r hr r hr) rfl (hpass.left r hr i hi)

/-- What one pass leaves, the next one reaches. -/
theorem not_occurs_rewrite_rewrite {r : Rule} (hr : r ∈ rules) (t : Text) :
    ¬ r.Occurs (rewrite rules (rewrite rules t)) := by
  intro hocc
  obtain ⟨i, hi⟩ := (h.occurs_iff hr).mp hocc
  have hfirst := (pass_rewrite h t).left r hr i (h.pending_of_pending_rewrite hr hi)
  have hsecond := (pass_rewrite h (rewrite rules t)).left r hr i hi
  exact h.not_renames_of_renames hr hfirst hsecond

/-- A rule for a package itself leaves nothing: no package name holds an opening. -/
theorem not_occurs_rewrite_of_exact {r : Rule} (hr : r ∈ rules) (hf : r.form = .exact) (t : Text) :
    ¬ r.Occurs (rewrite rules t) := by
  intro hocc
  obtain ⟨i, hi⟩ := (h.occurs_iff hr).mp hocc
  obtain ⟨tail, ht, _, hy⟩ := (pass_rewrite h t).left r hr i hi
  obtain ⟨⟨_, s, hs, ho⟩, _⟩ := hi
  have hs' : s = r.new ++ tail := by simpa [hy] using hs.symm
  rw [hf] at ht
  rw [hs', opens_package_append (h.import_new r hr) ht, Form.isTail_exact.mp ht] at ho
  contradiction

end Fresh

/-- A pass of exclusive rules never renames two neighbouring specifiers by one rule: the opening of
the second is consumed with the first. -/
theorem apart_rewrite {rules : List Rule} (h : Fresh rules) (he : Exclusive rules) (t : Text) :
    ∀ r ∈ rules, ∀ i, r.Renames (segments t) (segments (rewrite rules t)) i →
      ¬ r.Renames (segments t) (segments (rewrite rules t)) (i + 1) := by
  intro r hr i
  have halone (j : Nat) : r.Renames (segments t) (segments (rewrite rules t)) j ↔
      r.Renames (segments t) (segments (r.apply t)) j :=
    (renames_rewrite_iff h he hr t j).trans (Rule.renames_apply_iff h hr t j).symm
  rw [halone, halone]
  exact (Rule.swept_apply h hr t).apart i

/-- A second pass has nothing to do just when no two statements of one rule nest. -/
theorem rewrite_rewrite_eq_iff {rules : List Rule} (h : Fresh rules) (he : Exclusive rules)
    (t : Text) : rewrite rules (rewrite rules t) = rewrite rules t ↔ ∀ r ∈ rules, ¬ r.Nests t := by
  have hnests : ∀ r ∈ rules, r.Nests t ↔
      ∃ i, r.Pending (segments t) i ∧ r.Pending (segments t) (i + 1) :=
    fun r hr => Rule.nests_iff (h.quoteFree_old r hr) (h.import_old r hr)
  have hpass := pass_rewrite h t
  rw [h.rewrite_eq_self_iff]
  constructor
  · intro hnone r hr hn
    obtain ⟨i, hi, hi'⟩ := (hnests r hr).mp hn
    -- With nothing left, both specifiers have been renamed, which one rule does not do in a pass.
    have hrenamed : ∀ j, r.Pending (segments t) j →
        r.Renames (segments t) (segments (rewrite rules t)) (j + 1) := by
      intro j hm
      obtain ⟨ho, y, tail, hy, ht⟩ := hm
      rcases hpass.step (j + 1) with hj | ⟨r', hr', tail', ht', hx, hy'⟩
      · have hp : r.Pending (segments (rewrite rules t)) j :=
          ⟨(h.opened_iff hpass.length hpass.step).mpr ho, y, tail, hj.trans hy, ht⟩
        exact absurd ((h.occurs_iff hr).mpr ⟨j, hp⟩) (hnone r hr)
      · rw [hy] at hx
        have hx' := Rule.tail?_eq_some_iff.mpr ⟨Option.some.inj hx, ht'⟩
        obtain rfl := he.eq hr hr' (t := y) (by rw [ht]; rfl) (by rw [hx']; rfl)
        exact ⟨tail', ht', hx ▸ hy, hy'⟩
    exact apart_rewrite h he t r hr (i + 1) (hrenamed i hi) (hrenamed (i + 1) hi')
  · intro hnone r hr hocc
    obtain ⟨i, hi⟩ := (h.occurs_iff hr).mp hocc
    have hren := hpass.left r hr i hi
    have hself : (segments (rewrite rules t))[i]? ≠ (segments t)[i]? :=
      fun he => Rule.not_renames_self (h.gone r hr r hr) he hren
    obtain ⟨tail, ht, hx, _⟩ := hren
    cases i with
    | zero => exact hself hpass.head
    | succ i =>
      rcases hpass.opened i with he | ho
      · exact hself he
      · exact hnone r hr ((hnests r hr).mpr
          ⟨i, ⟨ho, _, tail, hx, Rule.tail?_eq_some_iff.mpr ⟨rfl, ht⟩⟩,
            h.pending_of_pending_rewrite hr hi⟩)

/-- A second pass of the legacy rules has nothing to do just when no import of a legacy path begins
within the path of another one. -/
theorem rewrite_idempotent_iff (t : Text) :
    rewrite defaultRules (rewrite defaultRules t) = rewrite defaultRules t ↔
      ∀ r ∈ defaultRules, ¬ r.Nests t :=
  rewrite_rewrite_eq_iff Rename.wellFormed_legacy.fresh
    (exclusive_rulesOf Rename.separate_legacy) t

/-- Two imports on a line, the first of which lacks its closing quote. -/
def unclosedImport : Text :=
  "import A from '@material-ui/core/A; import B from '@material-ui/core/B';".toList

theorem rewrite_not_idempotent :
    rewrite defaultRules (rewrite defaultRules unclosedImport) ≠
      rewrite defaultRules unclosedImport := by
  decide +kernel

/-- Every table settles in two passes, and in one if it renames no subpaths. -/
theorem rewrite_settles_in_two (renames : List Rename) (h : Rename.WellFormed renames) (t : Text) :
    (∀ r ∈ rulesOf renames,
      ¬ r.Occurs (rewrite (rulesOf renames) (rewrite (rulesOf renames) t))) ∧
    rewrite (rulesOf renames) (rewrite (rulesOf renames) (rewrite (rulesOf renames) t)) =
      rewrite (rulesOf renames) (rewrite (rulesOf renames) t) ∧
    ((∀ row ∈ renames, row.subpaths = false) →
      ∀ r ∈ rulesOf renames, ¬ r.Occurs (rewrite (rulesOf renames) t)) := by
  have hf := h.fresh
  have htwo : ∀ r ∈ rulesOf renames,
      ¬ r.Occurs (rewrite (rulesOf renames) (rewrite (rulesOf renames) t)) :=
    fun r hr => hf.not_occurs_rewrite_rewrite hr t
  refine ⟨htwo, rewrite_of_not_occurs htwo, ?_⟩
  intro hsub r hr
  refine hf.not_occurs_rewrite_of_exact hr ?_ t
  obtain ⟨row, hrow, _, _, hform⟩ := mem_rulesOf.mp hr
  cases hr' : r.form with
  | exact => rfl
  | subpath => simp [hsub row hrow] at hform; contradiction

/-- The unclosed import is settled by the second pass, and a table of one exact rename by the
first. -/
theorem unclosedImport_settles_in_two :
    Rename.WellFormed Rename.legacy ∧
    (∀ r ∈ defaultRules,
      ¬ r.Occurs (rewrite defaultRules (rewrite defaultRules unclosedImport))) ∧
    rewrite defaultRules (rewrite defaultRules (rewrite defaultRules unclosedImport)) =
      rewrite defaultRules (rewrite defaultRules unclosedImport) ∧
    Rename.WellFormed [⟨['a'], ['b'], false⟩] ∧
    ∀ r ∈ rulesOf [⟨['a'], ['b'], false⟩],
      ¬ r.Occurs (rewrite (rulesOf [⟨['a'], ['b'], false⟩]) "import x from 'a'".toList) := by
  have hwf : Rename.WellFormed [⟨['a'], ['b'], false⟩] := by
    constructor <;> decide +kernel
  have htwo := rewrite_settles_in_two Rename.legacy Rename.wellFormed_legacy unclosedImport
  exact ⟨Rename.wellFormed_legacy, htwo.1, htwo.2.1, hwf,
    (rewrite_settles_in_two _ hwf _).2.2 (by decide)⟩

end ImportMigration.Import
