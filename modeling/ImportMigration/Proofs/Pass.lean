import ImportMigration.Proofs.Sweep
import Mathlib.Data.List.Induction

/-!
What one pass of rules does to the segments of a text. Each rule renames specifiers and may leave a
statement alone, but only next to a specifier that it has just renamed (`Rule.Swept`). As no rule
looks for what a rule gives (`Fresh`), later rules undo none of this, so the same holds of the whole
pass (`pass_rewrite`).
-/

namespace ImportMigration.Import

open Text

/-- Segment `i` ends with an opening, and a quote stands behind the segment after it. -/
def Opened (x : List Text) (i : Nat) : Prop :=
  i + 2 < x.length ∧ ∃ s, x[i]? = some s ∧ opens s = true

namespace Rule

/-- A statement of the rule opens at the end of segment `i`. -/
def Pending (r : Rule) (x : List Text) (i : Nat) : Prop :=
  Opened x i ∧ ∃ y tail, x[i + 1]? = some y ∧ r.tail? y = some tail

/-- Segment `i` was a specifier that the rule looks for, and has the rule's new name in it. -/
def Renames (r : Rule) (x y : List Text) (i : Nat) : Prop :=
  ∃ tail, r.form.isTail tail = true ∧ x[i]? = some (r.old ++ tail) ∧ y[i]? = some (r.new ++ tail)

/-- What a sweep of the rule does to segments. -/
structure Swept (r : Rule) (x y : List Text) : Prop where
  length : y.length = x.length
  head : y[0]? = x[0]?
  step : ∀ i, y[i]? = x[i]? ∨ r.Renames x y i
  opened : ∀ i, y[i + 1]? = x[i + 1]? ∨ Opened x i
  reached : ∀ i, r.Pending x i → r.Renames x y (i + 1) ∨ r.Renames x y i
  apart : ∀ i, r.Renames x y i → ¬ r.Renames x y (i + 1)

end Rule

/-- Rules whose packages are plain words to the matcher, and none of which looks for a specifier
that one of them gives. -/
structure Fresh (rules : List Rule) : Prop where
  quoteFree_old : ∀ r ∈ rules, QuoteFree r.old
  quoteFree_new : ∀ r ∈ rules, QuoteFree r.new
  import_old : ∀ r ∈ rules, ¬ importWord <:+: r.old
  import_new : ∀ r ∈ rules, ¬ importWord <:+: r.new
  gone : ∀ r ∈ rules, ∀ r' ∈ rules, ∀ tail, r.form.isTail tail = true →
    r'.tail? (r.new ++ tail) = none

/-- What a pass of the rules does to segments: each is kept, or it follows an opening and is renamed
by a rule; and a statement that is left follows a specifier that its own rule has renamed. -/
structure Pass (rules : List Rule) (x y : List Text) : Prop where
  length : y.length = x.length
  head : y[0]? = x[0]?
  step : ∀ i, y[i]? = x[i]? ∨ ∃ r ∈ rules, r.Renames x y i
  opened : ∀ i, y[i + 1]? = x[i + 1]? ∨ Opened x i
  left : ∀ r ∈ rules, ∀ i, r.Pending y i → r.Renames x y i

theorem opened_cons {a : Text} {x : List Text} {i : Nat} :
    Opened (a :: x) (i + 1) ↔ Opened x i := by
  have hi : i + 1 + 2 < x.length + 1 ↔ i + 2 < x.length := by omega
  simp only [Opened, List.length_cons, List.getElem?_cons_succ, hi]

namespace Rule

theorem pending_cons {r : Rule} {a : Text} {x : List Text} {i : Nat} :
    r.Pending (a :: x) (i + 1) ↔ r.Pending x i := by
  simp only [Pending, opened_cons, List.getElem?_cons_succ]

/-- A segment that the rule has renamed is another than before. -/
theorem not_renames_self {r : Rule}
    (hg : ∀ tail, r.form.isTail tail = true → r.tail? (r.new ++ tail) = none)
    {x y : List Text} {i : Nat} (h : y[i]? = x[i]?) : ¬ r.Renames x y i := by
  intro hm
  obtain ⟨tail, ht, hx, hy⟩ := hm
  have he : r.new ++ tail = r.old ++ tail := by simpa [hx, hy] using h
  have hn := hg tail ht
  rw [he, tail?_eq_some_iff.mpr ⟨rfl, ht⟩] at hn
  contradiction

theorem Swept.cons {r : Rule}
    (hg : ∀ tail, r.form.isTail tail = true → r.tail? (r.new ++ tail) = none)
    {x y : List Text} (h : r.Swept x y) {a : Text} (ha : ¬ r.Pending (a :: x) 0) :
    r.Swept (a :: x) (a :: y) := by
  refine ⟨by simp [h.length], rfl, ?_, ?_, ?_, ?_⟩
  · intro i
    cases i with
    | zero => exact .inl rfl
    | succ i => exact h.step i
  · intro i
    cases i with
    | zero => exact .inl h.head
    | succ i => exact (h.opened i).imp id opened_cons.mpr
  · intro i hp
    cases i with
    | zero => exact absurd hp ha
    | succ i => exact h.reached i (pending_cons.mp hp)
  · intro i hr
    cases i with
    | zero => exact absurd hr (not_renames_self hg rfl)
    | succ i => exact h.apart i hr

theorem Swept.cons_renamed {r : Rule}
    (hg : ∀ tail, r.form.isTail tail = true → r.tail? (r.new ++ tail) = none)
    {x y : List Text} (h : r.Swept x y) {a tail : Text}
    (ha : Opened (a :: (r.old ++ tail) :: x) 0) (ht : r.form.isTail tail = true) :
    r.Swept (a :: (r.old ++ tail) :: x) (a :: (r.new ++ tail) :: y) := by
  have hr : r.Renames (a :: (r.old ++ tail) :: x) (a :: (r.new ++ tail) :: y) 1 :=
    ⟨tail, ht, rfl, rfl⟩
  refine ⟨by simp [h.length], rfl, ?_, ?_, ?_, ?_⟩
  · intro i
    match i with
    | 0 => exact .inl rfl
    | 1 => exact .inr hr
    | i + 2 => exact h.step i
  · intro i
    match i with
    | 0 => exact .inr ha
    | 1 => exact .inl h.head
    | i + 2 => exact (h.opened i).imp id fun h' => opened_cons.mpr (opened_cons.mpr h')
  · intro i hp
    match i with
    | 0 => exact .inl hr
    | 1 => exact .inr hr
    | i + 2 => exact h.reached i (pending_cons.mp (pending_cons.mp hp))
  · intro i hi
    match i with
    | 0 => exact absurd hi (not_renames_self hg rfl)
    | 1 => exact not_renames_self (x := x) hg h.head
    | i + 2 => exact h.apart i hi

theorem swept_sweep {r : Rule}
    (hg : ∀ tail, r.form.isTail tail = true → r.tail? (r.new ++ tail) = none)
    (s : Text) (l : List Quoted) :
    r.Swept (s :: l.map Prod.snd) (s :: (r.sweep s l).map Prod.snd) := by
  fun_induction sweep r s l with
  | case1 s q y q' z l tail h ih =>
    split at h
    · rename_i ho
      obtain ⟨rfl, ht⟩ := tail?_eq_some_iff.mp h
      exact ih.cons_renamed hg ⟨by simp, s, rfl, ho⟩ ht
    · contradiction
  | case2 s q y q' z l h ih =>
    apply ih.cons hg
    intro he
    obtain ⟨⟨_, s', hs, ho⟩, y', tail, hy, ht⟩ := he
    simp only [List.getElem?_cons_zero, List.getElem?_cons_succ, Option.some.injEq, Nat.zero_add,
      List.map_cons] at hs hy
    subst hs hy
    simp [ho, ht] at h
  | case3 s l h =>
    refine ⟨rfl, rfl, fun i => .inl rfl, fun i => .inl rfl, ?_,
      fun i hi => absurd hi (not_renames_self hg rfl)⟩
    intro i he
    obtain ⟨⟨hi, _⟩, _⟩ := he
    match l, h with
    | [], _ | [_], _ =>
      simp only [List.map_cons, List.map_nil, List.length_cons, List.length_nil] at hi
      omega
    | (q, y) :: (q', z) :: l, h => exact (h q y q' z l rfl).elim

theorem swept_apply {rules : List Rule} (h : Fresh rules) {r : Rule} (hr : r ∈ rules) (t : Text) :
    r.Swept (segments t) (segments (r.apply t)) := by
  have hc := cut_apply (h.quoteFree_old r hr) (h.quoteFree_new r hr) t
  have hs := swept_sweep (h.gone r hr r hr) (cut t).1 (cut t).2
  simpa only [segments, hc] using hs

end Rule

namespace Fresh

theorem mono {rules rules' : List Rule} (h : Fresh rules) (hs : rules' ⊆ rules) : Fresh rules' :=
  ⟨fun r hr => h.quoteFree_old r (hs hr), fun r hr => h.quoteFree_new r (hs hr),
    fun r hr => h.import_old r (hs hr), fun r hr => h.import_new r (hs hr),
    fun r hr r' hr' => h.gone r (hs hr) r' (hs hr')⟩

theorem tail {r : Rule} {rules : List Rule} (h : Fresh (rules ++ [r])) : Fresh rules :=
  h.mono (List.subset_append_left rules [r])

/-- Renaming a specifier leaves it alone whether its segment ends with an opening. -/
theorem opens_renamed {rules : List Rule} (h : Fresh rules) {r : Rule} (hr : r ∈ rules)
    {tail : Text} (ht : r.form.isTail tail = true) :
    opens (r.new ++ tail) = opens (r.old ++ tail) := by
  rw [opens_package_append (h.import_new r hr) ht, opens_package_append (h.import_old r hr) ht]

theorem opens_step {rules : List Rule} (h : Fresh rules) {x y : List Text} {i : Nat}
    (hs : y[i]? = x[i]? ∨ ∃ r ∈ rules, r.Renames x y i) : y[i]?.map opens = x[i]?.map opens := by
  rcases hs with he | ⟨r, hr, tail, ht, hx, hy⟩
  · rw [he]
  · simp [hx, hy, h.opens_renamed hr ht]

/-- A segment that a rule looks for is none that a rule has given. -/
theorem unchanged {rules : List Rule} (h : Fresh rules) {x y : List Text} {i : Nat}
    (hs : y[i]? = x[i]? ∨ ∃ r ∈ rules, r.Renames x y i) {r : Rule} (hr : r ∈ rules)
    {s tail : Text} (hy : y[i]? = some s) (ht : r.tail? s = some tail) : y[i]? = x[i]? := by
  rcases hs with he | ⟨r', hr', tail', ht', _, hy'⟩
  · exact he
  · have hn := h.gone r' hr' r hr tail' ht'
    rw [hy] at hy'
    rw [← Option.some.inj hy', ht] at hn
    contradiction

theorem opened_iff {rules : List Rule} (h : Fresh rules) {x y : List Text}
    (hl : y.length = x.length) (hs : ∀ i, y[i]? = x[i]? ∨ ∃ r ∈ rules, r.Renames x y i) {i : Nat} :
    Opened y i ↔ Opened x i := by
  have ho : (∃ s, y[i]? = some s ∧ opens s = true) ↔ ∃ s, x[i]? = some s ∧ opens s = true := by
    have he := iff_of_eq (congrArg (· = some true) (h.opens_step (hs i)))
    simpa only [Option.map_eq_some_iff] using he
  rw [Opened, Opened, hl, ho]

/-- A statement that is there afterwards was there before. -/
theorem pending_of_pending {rules : List Rule} (h : Fresh rules) {x y : List Text}
    (hl : y.length = x.length) (hs : ∀ i, y[i]? = x[i]? ∨ ∃ r ∈ rules, r.Renames x y i)
    {r : Rule} (hr : r ∈ rules) {i : Nat} (hp : r.Pending y i) : r.Pending x i := by
  obtain ⟨ho, y', tail, hy, ht⟩ := hp
  have hx := h.unchanged (hs (i + 1)) hr hy ht
  exact ⟨(h.opened_iff hl hs).mp ho, y', tail, hx ▸ hy, ht⟩

end Fresh

namespace Pass

theorem nil (x : List Text) : Pass [] x x :=
  ⟨rfl, rfl, fun _ => .inl rfl, fun _ => .inl rfl, by simp⟩

/-- A further rule keeps what the rules before it have done, and what they have left. -/
theorem append {rules : List Rule} {r : Rule} (hf : Fresh (rules ++ [r])) {x y z : List Text}
    (hp : Pass rules x y) (hs : r.Swept y z) : Pass (rules ++ [r]) x z := by
  have hr : r ∈ rules ++ [r] := by simp
  have hm : ∀ r' ∈ rules, r' ∈ rules ++ [r] := fun r' hr' => List.mem_append_left _ hr'
  have hstep : ∀ i, z[i]? = y[i]? ∨ ∃ r' ∈ rules ++ [r], r'.Renames y z i :=
    fun i => (hs.step i).imp id fun h => ⟨r, hr, h⟩
  have hxy : ∀ i, y[i]? = x[i]? ∨ ∃ r' ∈ rules ++ [r], r'.Renames x y i :=
    fun i => (hp.step i).imp id fun ⟨r', hr', h⟩ => ⟨r', hm r' hr', h⟩
  -- A segment that the new rule renames is as it was before the pass.
  have hfirst : ∀ i, r.Renames y z i → r.Renames x z i := by
    intro i hq
    obtain ⟨tail, ht, hy, hz⟩ := hq
    have hx := hf.unchanged (hxy i) hr hy (Rule.tail?_eq_some_iff.mpr ⟨rfl, ht⟩)
    exact ⟨tail, ht, hx ▸ hy, hz⟩
  -- A segment that an earlier rule has renamed is not renamed again.
  have hkeep : ∀ r' ∈ rules, ∀ i, r'.Renames x y i → r'.Renames x z i := by
    intro r' hr' i hq
    obtain ⟨tail, ht, hx, hy⟩ := hq
    refine ⟨tail, ht, hx, ?_⟩
    rcases hs.step i with he | ⟨tail', ht', hy', _⟩
    · rw [he, hy]
    · have hn := hf.gone r' (hm r' hr') r hr tail ht
      rw [hy] at hy'
      rw [Option.some.inj hy', Rule.tail?_eq_some_iff.mpr ⟨rfl, ht'⟩] at hn
      contradiction
  refine ⟨hs.length.trans hp.length, hs.head.trans hp.head, ?_, ?_, ?_⟩
  · intro i
    rcases hs.step i with he | hri
    · rcases hp.step i with hx | ⟨r', hr', h⟩
      · exact .inl (he.trans hx)
      · exact .inr ⟨r', hm r' hr', hkeep r' hr' i h⟩
    · exact .inr ⟨r, hr, hfirst i hri⟩
  · intro i
    rcases hs.opened i with he | ho
    · exact (hp.opened i).imp he.trans id
    · exact .inr ((hf.opened_iff hp.length hxy).mp ho)
  · intro r' hr' i hpend
    have hbefore : r'.Pending y i := hf.pending_of_pending hs.length hstep hr' hpend
    rcases List.mem_append.mp hr' with hr'' | hr''
    · exact hkeep r' hr'' i (hp.left r' hr'' i hbefore)
    · obtain rfl := List.mem_singleton.mp hr''
      rcases hs.reached i hbefore with ⟨tail, ht, _, hz⟩ | hri
      · obtain ⟨_, y', tail', hy', ht'⟩ := hpend
        rw [hz] at hy'
        have hn := hf.gone r' hr r' hr tail ht
        rw [Option.some.inj hy', ht'] at hn
        contradiction
      · exact hfirst i hri

end Pass

theorem rewrite_append_rules (front back : List Rule) (t : Text) :
    rewrite (front ++ back) t = rewrite back (rewrite front t) :=
  List.foldl_append

theorem rewrite_append (rules : List Rule) (r : Rule) (t : Text) :
    rewrite (rules ++ [r]) t = r.apply (rewrite rules t) :=
  rewrite_append_rules rules [r] t

theorem pass_rewrite {rules : List Rule} (h : Fresh rules) (t : Text) :
    Pass rules (segments t) (segments (rewrite rules t)) := by
  induction rules using List.reverseRecOn with
  | nil => exact .nil _
  | append_singleton rules r ih =>
    rw [rewrite_append]
    exact (ih h.tail).append h (Rule.swept_apply h (by simp) _)

end ImportMigration.Import
