import ImportMigration.Proofs.Order
import ImportMigration.Proofs.Outcome

/-!
What a pass leaves as it is. A rule finds a statement in the text that it is given just when it
would find one in the text before the pass (`occurs_rewrite_iff`); it changes what it finds, and
the rules after it take nothing of that back (`Exclusive.kept`). So a text is left as it is when
it holds no statement of any rule, and in no other case, and so is a file.
-/

namespace ImportMigration

namespace Import

open Text

variable {rules front back : List Rule} {r r' : Rule}

/-- Where the second list differs from the first, the third one agrees with the second. -/
def Kept {α : Type} (x y z : List α) : Prop :=
  ∀ i : Nat, y[i]? ≠ x[i]? → z[i]? = y[i]?

namespace Rule

theorem pending_of_map_view_eq {x y : List Text} {i : Nat} (h : x.map r.view = y.map r.view)
    (hp : r.Pending x i) : r.Pending y i := by
  obtain ⟨⟨hi, s, hs, ho⟩, u, tail, hu, ht⟩ := hp
  have hlen : x.length = y.length := by simpa using congrArg List.length h
  have hview {j : Nat} {s : Text} (hs : x[j]? = some s) :
      ∃ s', y[j]? = some s' ∧ r.view s' = r.view s := by
    rw [← Option.map_eq_some_iff, ← List.getElem?_map, ← h, List.getElem?_map, hs, Option.map_some]
  obtain ⟨s', hs', hv⟩ := hview hs
  obtain ⟨u', hu', hv'⟩ := hview hu
  have ho' : opens s' = opens s := congrArg Prod.fst hv
  have ht' : r.tail? u' = r.tail? u := congrArg Prod.snd hv'
  exact ⟨⟨hlen ▸ hi, s', hs', ho'.trans ho⟩, u', tail, hu', ht'.trans ht⟩

/-- What a rule reaches is a specifier that it looks for. -/
theorem Reaches.exists_specifier (h : Fresh rules) (hr : r ∈ rules) {t : Text} {i : Nat}
    (hi : r.Reaches (segments t) i) :
    ∃ tail, r.form.isTail tail = true ∧ (segments t)[i]? = some (r.old ++ tail) := by
  obtain ⟨tail, ht, hx, _⟩ := (renames_apply_iff h hr t i).mpr hi
  exact ⟨tail, ht, hx⟩

end Rule

/-- Rules that look for other specifiers than a rule does neither hide a statement from it nor make
one for it. -/
theorem occurs_rewrite_iff (h : Fresh (rules ++ [r])) (he : ∀ r' ∈ rules, r'.Excludes r) (t : Text) :
    r.Occurs (rewrite rules t) ↔ r.Occurs t := by
  have hr : r ∈ rules ++ [r] := by simp
  have hview := map_view_rewrite h he t
  rw [h.occurs_iff hr, h.occurs_iff hr]
  exact exists_congr fun i =>
    ⟨Rule.pending_of_map_view_eq hview, Rule.pending_of_map_view_eq hview.symm⟩

/-- A rule that finds a statement changes the text. -/
theorem Fresh.apply_ne_of_occurs (h : Fresh rules) (hr : r ∈ rules) {t : Text} (ho : r.Occurs t) :
    r.apply t ≠ t := by
  have hf : Fresh [r] := h.mono (by simpa using hr)
  intro he
  exact hf.rewrite_eq_self_iff.mp he r (List.mem_singleton.mpr rfl) ho

theorem kept_segments (h : Fresh (r :: back)) (t : Text) :
    Kept (segments t) (segments (r.apply t)) (segments (rewrite back (r.apply t))) := by
  have hr : r ∈ r :: back := List.mem_cons_self
  have hf : Fresh back := h.mono (List.subset_cons_self r back)
  intro i hi
  obtain ⟨tail, ht, _, hy⟩ := ((Rule.swept_apply h hr t).step i).resolve_left hi
  rcases (pass_rewrite hf (r.apply t)).step i with hz | ⟨r', hr', tail', ht', hy', _⟩
  · exact hz
  · have hn := h.gone r hr r' (List.mem_cons_of_mem r hr') tail ht
    rw [Option.some.inj (hy.symm.trans hy'), Rule.tail?_eq_some_iff.mpr ⟨rfl, ht'⟩] at hn
    contradiction

theorem kept_quotes (h : Fresh (r :: back)) (he : Exclusive (r :: back)) (t : Text) :
    Kept (quotes t) (quotes (r.apply t)) (quotes (rewrite back (r.apply t))) := by
  have hr : r ∈ r :: back := List.mem_cons_self
  obtain ⟨hex, he'⟩ := List.pairwise_cons.mp he
  intro i hi
  have hreach : r.Reaches (segments t) i := by
    by_contra hno
    rw [Rule.getElem?_quotes_apply h hr, if_neg hno] at hi
    exact hi rfl
  rcases getElem?_quotes_rewrite (h.mono (List.subset_cons_self r back)) he' (r.apply t) i with
    hz | ⟨r', hr', hreach'⟩
  · exact hz
  · -- Both rules would reach one specifier of the text.
    have hpair : [r] ++ [r'] ⊆ r :: back := by simp [hr']
    have hboth := (reaches_rewrite_iff (h.mono hpair) (by simpa using hex r' hr') t i).mp hreach'
    obtain ⟨tail, ht, hx⟩ := hreach.exists_specifier h hr
    obtain ⟨tail', ht', hx'⟩ := hboth.exists_specifier h (List.mem_cons_of_mem r hr')
    exact absurd (Option.some.inj (hx.symm.trans hx')) ((hex r' hr').old_append_ne ht ht')

end Import

namespace Migration

open Import

variable {rules : List Rule} {mode : Mode} {s s' : Session} {p : Path} {o : Outcome}

theorem Visit.unchanged_iff (hv : Visit rules p s mode o s') :
    o = .unchanged ↔ ∃ t, s.text? p = some t ∧ rewrite rules t = t := by
  cases hv with
  | skipped h => simp [h]
  | unchanged h ht => simp [h, ht]
  | wouldUpdate h ht => simp [h, ht]
  | writeFailed h ht => simp [h, ht]
  | updated h ht => simp [h, ht]

/-- Each legacy rule finds a statement in the text that it is given just when there is one in the
text before the pass. It then changes the text, and the rules after it keep every segment and every
quote that it has changed. So a pass leaves a text as it is just when no rule finds a statement in
it, and a file is left unchanged just when it holds such a text. -/
theorem unchanged_iff_no_legacy_import :
    (∀ (t : Text) (front : List Rule) (r : Rule) (back : List Rule),
      defaultRules = front ++ r :: back →
        (r.Occurs (rewrite front t) ↔ r.Occurs t) ∧
        (r.Occurs (rewrite front t) → r.apply (rewrite front t) ≠ rewrite front t) ∧
        Kept (segments (rewrite front t)) (segments (r.apply (rewrite front t)))
          (segments (rewrite defaultRules t)) ∧
        Kept (quotes (rewrite front t)) (quotes (r.apply (rewrite front t)))
          (quotes (rewrite defaultRules t))) ∧
    (∀ t, rewrite defaultRules t = t ↔ ∀ r ∈ defaultRules, ¬ r.Occurs t) ∧
    ∀ (mode : Mode) (p : Path) (s : Session),
      ((rewriteFile defaultRules mode p : StateM Session Outcome) s).1 = .unchanged ↔
        ∃ t, s.text? p = some t ∧ ∀ r ∈ defaultRules, ¬ r.Occurs t := by
  have hf : Fresh defaultRules := Rename.wellFormed_legacy.fresh
  have he : Exclusive defaultRules := exclusive_rulesOf Rename.separate_legacy
  refine ⟨?_, fun t => hf.rewrite_eq_self_iff, ?_⟩
  · intro t front r back hsplit
    have hsplit' : defaultRules = (front ++ [r]) ++ back := by simp [hsplit]
    have hr : r ∈ defaultRules := by simp [hsplit]
    have hfront : Fresh (front ++ [r]) := hf.mono (hsplit' ▸ List.subset_append_left _ _)
    have hback : Fresh (r :: back) := hf.mono (hsplit ▸ List.subset_append_right _ _)
    have hexfront : Exclusive (front ++ [r]) := (List.pairwise_append.mp (hsplit' ▸ he)).1
    have hexback : Exclusive (r :: back) := (List.pairwise_append.mp (hsplit ▸ he)).2.1
    have hall : rewrite defaultRules t = rewrite back (r.apply (rewrite front t)) := by
      rw [hsplit', rewrite_append_rules, rewrite_append]
    rw [hall]
    exact ⟨occurs_rewrite_iff hfront hexfront.of_append.2 t, hf.apply_ne_of_occurs hr,
      kept_segments hback _, kept_quotes hback hexback _⟩
  · intro mode p s
    rw [(visit_rewriteFile defaultRules mode p s).unchanged_iff]
    simp only [hf.rewrite_eq_self_iff]

/-- Two imports of which the first has no closing quote: the rules for `core` take the quote that
opens the second specifier for it, and the rules for `icons` find their statement all the same. -/
def sharedPath : Text :=
  "import A from '@material-ui/core/A; import B from '@material-ui/icons';".toList

/-- The rule for `icons` finds the second import of a text, which the rules before it have changed,
and in a text without a legacy package no rule finds anything. -/
theorem sharedPath_not_unchanged :
    (∃ front r back, defaultRules = front ++ r :: back ∧ rewrite front sharedPath ≠ sharedPath ∧
      r.Occurs sharedPath ∧ r.apply (rewrite front sharedPath) ≠ rewrite front sharedPath) ∧
    rewrite defaultRules sharedPath ≠ sharedPath ∧
    rewrite defaultRules "import A from 'a'".toList = "import A from 'a'".toList := by
  obtain ⟨hstep, htext, _⟩ := unchanged_iff_no_legacy_import
  have hsplit : defaultRules =
      defaultRules.take 2 ++ defaultRules[2] :: defaultRules.drop 3 := by decide +kernel
  have ho : (defaultRules[2]).Occurs sharedPath :=
    Rule.applies_iff_occurs.mp (by decide +kernel)
  obtain ⟨hiff, hne, _⟩ := hstep sharedPath _ _ _ hsplit
  refine ⟨⟨_, _, _, hsplit, by decide +kernel, ho, hne (hiff.mpr ho)⟩, ?_, ?_⟩
  · exact fun he => (htext sharedPath).mp he _ (List.getElem_mem _) ho
  · have hnone : ∀ r ∈ defaultRules, ¬ r.applies "import A from 'a'".toList = true := by
      decide +kernel
    exact (htext _).mpr fun r hr ho => hnone r hr (Rule.applies_iff_occurs.mpr ho)

end Migration

end ImportMigration
