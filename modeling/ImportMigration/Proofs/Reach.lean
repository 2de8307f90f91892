import ImportMigration.Proofs.Table

/-!
Which specifiers the rules of a pass reach. What one rule renames depends on no more than its view
of the segments: where an opening ends, and which specifiers it looks for. Rules with no specifier
in common leave each other's view as it is, so in a pass each of them reaches what it would reach
alone (`renames_rewrite_iff`), whichever rules ran before it.
-/

namespace ImportMigration.Import

open Text

/-- Which segments are reached, by whether each ends with an opening and whether it is a specifier
that is looked for. What is reached has its own opening consumed, and needs a quote behind it. -/
def reach : List (Bool × Option Text) → List Bool
  | v :: w :: x :: vs =>
    if v.1 && w.2.isSome then false :: true :: reach (x :: vs) else false :: reach (w :: x :: vs)
  | vs => vs.map fun _ => false

namespace Rule

/-- What a rule looks at in a segment. -/
def view (r : Rule) (s : Text) : Bool × Option Text := (opens s, r.tail? s)

/-- The rule reaches segment `i` as the specifier of a statement. -/
def Reaches (r : Rule) (x : List Text) (i : Nat) : Prop :=
  (reach (x.map r.view))[i]? = some true

instance (r : Rule) (x : List Text) (i : Nat) : Decidable (r.Reaches x i) :=
  inferInstanceAs (Decidable (_ = _))

theorem reach_hit {r : Rule} {s y tail z : Text} (x : List Text) (hs : opens s = true)
    (hy : r.tail? y = some tail) :
    reach ((s :: y :: z :: x).map r.view) = false :: true :: reach ((z :: x).map r.view) := by
  simp [reach, view, hs, hy]

theorem reach_miss {r : Rule} {s y : Text} (x : List Text)
    (h : opens s = true → r.tail? y = none) :
    reach ((s :: y :: x).map r.view) = false :: reach ((y :: x).map r.view) := by
  cases x with
  | nil => rfl
  | cons z x =>
    have hn : ((r.view s).1 && (r.view y).2.isSome) = false := by
      cases hs : opens s with
      | false => simp [view, hs]
      | true => simp [view, h hs]
    simp only [List.map_cons, reach, hn, Bool.false_eq_true, if_false]

theorem not_reaches_zero {r : Rule} {x : List Text} : ¬ r.Reaches x 0 := by
  unfold Reaches
  match x with
  | [] | [_] | [_, _] => simp [reach]
  | s :: y :: z :: x =>
    simp only [List.map_cons, reach]
    split <;> simp

/-- Nothing is reached without a specifier and a quote behind it. -/
theorem not_reaches_short {r : Rule} {s : Text} {l : List Quoted}
    (h : ∀ q y q' z l', l = (q, y) :: (q', z) :: l' → False) {i : Nat} :
    ¬ r.Reaches (s :: l.map Prod.snd) i := by
  match l, h with
  | [], _ | [_], _ => match i with | 0 | 1 | _ + 2 => simp [Reaches, reach]
  | (q, y) :: (q', z) :: l, h => exact (h q y q' z l rfl).elim

/-- A sweep of the rule renames the specifiers that the rule reaches, and no others. -/
theorem renames_sweep_iff {r : Rule}
    (hg : ∀ tail, r.form.isTail tail = true → r.tail? (r.new ++ tail) = none)
    (s : Text) (l : List Quoted) (i : Nat) :
    r.Renames (s :: l.map Prod.snd) (s :: (r.sweep s l).map Prod.snd) i ↔
      r.Reaches (s :: l.map Prod.snd) i := by
  have hself {x y : List Text} {j : Nat} (h : y[j]? = x[j]?) : ¬ r.Renames x y j :=
    not_renames_self hg h
  fun_induction sweep r s l generalizing i with
  | case1 s q y q' z l tail h ih =>
    split at h
    · rename_i ho
      simp only [Reaches, List.map_cons (f := Prod.snd), reach_hit _ ho h]
      rcases i with _ | _ | i
      · simp [hself]
      · obtain ⟨rfl, ht⟩ := tail?_eq_some_iff.mp h
        simp only [List.getElem?_cons_succ, List.getElem?_cons_zero, iff_true]
        exact ⟨tail, ht, rfl, rfl⟩
      · exact ih i
    · contradiction
  | case2 s q y q' z l h ih =>
    have hm : opens s = true → r.tail? y = none := by
      intro ho
      simpa [ho] using h
    simp only [Reaches, List.map_cons (f := Prod.snd), reach_miss _ hm]
    cases i with
    | zero => simp [hself]
    | succ i => exact ih i
  | case3 s l h =>
    have hnone : ¬ r.Reaches (s :: l.map Prod.snd) i := not_reaches_short h
    exact iff_of_false (hself rfl) hnone

/-- The quote behind a specifier that the rule reaches becomes the one before it. -/
theorem getElem?_fst_sweep (r : Rule) (s : Text) (l : List Quoted) (i : Nat) :
    ((r.sweep s l).map Prod.fst)[i]? =
      if r.Reaches (s :: l.map Prod.snd) i then (l.map Prod.fst)[i - 1]?
      else (l.map Prod.fst)[i]? := by
  fun_induction sweep r s l generalizing i with
  | case1 s q y q' z l tail h ih =>
    split at h
    · rename_i ho
      simp only [Reaches, List.map_cons (f := Prod.snd), reach_hit _ ho h]
      rcases i with _ | _ | _ | i
      · simp
      · simp
      · have h0 := ih 0
        rw [if_neg not_reaches_zero] at h0
        exact h0.trans (if_neg not_reaches_zero).symm
      · exact ih (i + 1)
    · contradiction
  | case2 s q y q' z l h ih =>
    have hm : opens s = true → r.tail? y = none := by
      intro ho
      simpa [ho] using h
    simp only [Reaches, List.map_cons (f := Prod.snd), reach_miss _ hm]
    rcases i with _ | _ | i
    · simp
    · have h0 := ih 0
      rw [if_neg not_reaches_zero] at h0
      exact h0.trans (if_neg not_reaches_zero).symm
    · exact ih (i + 1)
  | case3 s l h => rw [if_neg (not_reaches_short h)]

variable {rules : List Rule}

theorem renames_apply_iff (h : Fresh rules) {r : Rule} (hr : r ∈ rules) (t : Text) (i : Nat) :
    r.Renames (segments t) (segments (r.apply t)) i ↔ r.Reaches (segments t) i := by
  have hc := cut_apply (h.quoteFree_old r hr) (h.quoteFree_new r hr) t
  have hs := renames_sweep_iff (h.gone r hr r hr) (cut t).1 (cut t).2 i
  simpa only [segments, hc] using hs

theorem getElem?_quotes_apply (h : Fresh rules) {r : Rule} (hr : r ∈ rules) (t : Text) (i : Nat) :
    (quotes (r.apply t))[i]? =
      if r.Reaches (segments t) i then (quotes t)[i - 1]? else (quotes t)[i]? := by
  have hc := cut_apply (h.quoteFree_old r hr) (h.quoteFree_new r hr) t
  have hs := getElem?_fst_sweep r (cut t).1 (cut t).2 i
  rw [← map_fst_cut (r.apply t), hc, ← map_fst_cut t]
  exact hs

end Rule

variable {rules : List Rule} {r : Rule}

/-- Rules that look for other specifiers than a rule does leave its view as it is. -/
theorem map_view_rewrite (h : Fresh (rules ++ [r])) (he : ∀ r' ∈ rules, r'.Excludes r) (t : Text) :
    (segments (rewrite rules t)).map r.view = (segments t).map r.view := by
  have hr : r ∈ rules ++ [r] := by simp
  apply List.ext_getElem?
  intro i
  rw [List.getElem?_map, List.getElem?_map]
  rcases (pass_rewrite h.tail t).step i with hi | ⟨r', hr', tail, ht, hx, hy⟩
  · rw [hi]
  · have hold : r.tail? (r'.old ++ tail) = none :=
      he r' hr' _ (by rw [Rule.tail?_eq_some_iff.mpr ⟨rfl, ht⟩]; rfl)
    have hm : r' ∈ rules ++ [r] := List.mem_append_left _ hr'
    simp only [hx, hy, Option.map_some, Rule.view, h.opens_renamed hm ht, hold,
      h.gone r' hm r hr tail ht]

theorem reaches_rewrite_iff (h : Fresh (rules ++ [r])) (he : ∀ r' ∈ rules, r'.Excludes r)
    (t : Text) (i : Nat) : r.Reaches (segments (rewrite rules t)) i ↔ r.Reaches (segments t) i := by
  rw [Rule.Reaches, Rule.Reaches, map_view_rewrite h he]

/-- A specifier of the last rule is none that was given or taken by an earlier one. -/
theorem getElem?_rewrite_eq_old_iff (h : Fresh (rules ++ [r])) (he : ∀ r' ∈ rules, r'.Excludes r)
    {tail : Text} (ht : r.form.isTail tail = true) (t : Text) (i : Nat) :
    (segments (rewrite rules t))[i]? = some (r.old ++ tail) ↔
      (segments t)[i]? = some (r.old ++ tail) := by
  have hx (x : List Text) : x[i]? = some (r.old ++ tail) ↔
      ((x.map r.view)[i]?.map Prod.snd) = some (some tail) := by
    simp [Rule.view, Rule.tail?_eq_some_iff, ht]
  rw [hx, hx, map_view_rewrite h he]

theorem renames_last_iff (h : Fresh (rules ++ [r])) (he : ∀ r' ∈ rules, r'.Excludes r)
    (t : Text) (i : Nat) :
    r.Renames (segments t) (segments (rewrite (rules ++ [r]) t)) i ↔ r.Reaches (segments t) i := by
  have hr : r ∈ rules ++ [r] := by simp
  rw [rewrite_append, ← reaches_rewrite_iff h he, ← Rule.renames_apply_iff h hr]
  constructor
  · intro hi
    obtain ⟨tail, ht, hx, hz⟩ := hi
    exact ⟨tail, ht, (getElem?_rewrite_eq_old_iff h he ht t i).mpr hx, hz⟩
  · intro hi
    obtain ⟨tail, ht, hx, hz⟩ := hi
    exact ⟨tail, ht, (getElem?_rewrite_eq_old_iff h he ht t i).mp hx, hz⟩

/-- The last rule keeps what earlier ones have renamed, and renames nothing in their stead. -/
theorem renames_earlier_iff (h : Fresh (rules ++ [r])) (he : ∀ r' ∈ rules, r'.Excludes r)
    {r' : Rule} (hr' : r' ∈ rules) (t : Text) (i : Nat) :
    r'.Renames (segments t) (segments (rewrite (rules ++ [r]) t)) i ↔
      r'.Renames (segments t) (segments (rewrite rules t)) i := by
  have hr : r ∈ rules ++ [r] := by simp
  have hs := (Rule.swept_apply h hr (rewrite rules t)).step i
  rw [rewrite_append]
  constructor
  · intro hi
    obtain ⟨tail, ht, hx, hz⟩ := hi
    rcases hs with hi | ⟨tail', ht', hy, _⟩
    · exact ⟨tail, ht, hx, hi ▸ hz⟩
    · rw [getElem?_rewrite_eq_old_iff h he ht', hx] at hy
      exact absurd (Option.some.inj hy) ((he r' hr').old_append_ne ht ht')
  · intro hi
    obtain ⟨tail, ht, hx, hy⟩ := hi
    rcases hs with hi | ⟨tail', ht', hy', _⟩
    · exact ⟨tail, ht, hx, hi.trans hy⟩
    · have hn := h.gone r' (List.mem_append_left _ hr') r hr tail ht
      rw [hy] at hy'
      rw [Option.some.inj hy', Rule.tail?_eq_some_iff.mpr ⟨rfl, ht'⟩] at hn
      contradiction

/-- In a pass of exclusive rules, each rule renames what it reaches in the text before the pass. -/
theorem renames_rewrite_iff (h : Fresh rules) (he : Exclusive rules) (hr : r ∈ rules) (t : Text)
    (i : Nat) :
    r.Renames (segments t) (segments (rewrite rules t)) i ↔ r.Reaches (segments t) i := by
  induction rules using List.reverseRecOn with
  | nil => simp at hr
  | append_singleton rules last ih =>
    obtain ⟨he', hex⟩ := he.of_append
    rcases List.mem_append.mp hr with hr | hr
    · rw [renames_earlier_iff h hex hr]
      exact ih h.tail he' hr
    · obtain rfl := List.mem_singleton.mp hr
      exact renames_last_iff h hex t i

/-- A pass changes no quotes but those behind the specifiers that its rules reach. -/
theorem getElem?_quotes_rewrite (h : Fresh rules) (he : Exclusive rules) (t : Text) (i : Nat) :
    (quotes (rewrite rules t))[i]? = (quotes t)[i]? ∨ ∃ r ∈ rules, r.Reaches (segments t) i := by
  induction rules using List.reverseRecOn with
  | nil => exact .inl rfl
  | append_singleton rules last ih =>
    obtain ⟨he', hex⟩ := he.of_append
    have hl : last ∈ rules ++ [last] := by simp
    by_cases hi : last.Reaches (segments t) i
    · exact .inr ⟨last, hl, hi⟩
    · rw [rewrite_append, Rule.getElem?_quotes_apply h hl,
        if_neg (mt (reaches_rewrite_iff h hex t i).mp hi)]
      exact (ih h.tail he').imp id fun ⟨r, hr, hi⟩ => ⟨r, List.mem_append_left _ hr, hi⟩

end ImportMigration.Import
