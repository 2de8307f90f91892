import ImportMigration.Proofs.Conflicts
import ImportMigration.Proofs.Grammar

/-!
How the dialects of the grammar lie in one another. What is TOML 1.1, and goes no deeper into
brackets or along keys than the reader, is read with the same lines (`HasLines.accepted`); only what
its tables may be told apart by remains a condition.
-/

namespace ImportMigration.Toml

variable {D D' : Dialect} {α : Type} {q t u : Text} {v : Value} {depth depth' length : Nat}

/-! ## One grammar in another -/

/-- What one dialect allows in texts that are no longer than the number, another allows too. -/
structure Dialect.Extends (D D' : Dialect) (length : Nat) : Prop where
  path {q : Text} {ks : List Key} (hq : q.length ≤ length) (h : IsPath D q ks) : IsPath D' q ks
  whole {w : Text} {n : Integer} (h : D.IsWhole w n) : D'.IsWhole w n
  gap {a : Text} (h : D.Gap a) : D'.Gap a
  inline {assignments : List (List Key × Value)}
    (h : Consistent D.IsHistory (assignmentLines assignments)) :
    Consistent D'.IsHistory (assignmentLines assignments)
  depth {q : Text} {v : Value} {depth : Nat} (hq : q.length ≤ length) (hdepth : D.IsWithin depth)
    (h : IsValue D' depth q v) : ∃ depth', D'.IsWithin depth' ∧ IsValue D' depth' q v

theorem IsAssignment.imp {Gap Gap' : Text → Prop} {P P' : Text → Value → Prop}
    {x : List Key × Value} (h : IsAssignment D Gap P q x)
    (hpath : ∀ {p ks}, p.length ≤ q.length → IsPath D p ks → IsPath D' p ks)
    (hgap : ∀ {a}, Gap a → Gap' a)
    (hvalue : ∀ {w v}, w.length ≤ q.length → P w v → P' w v) : IsAssignment D' Gap' P' q x := by
  cases h with
  | @mk p a b w ks v hks ha hb hv =>
    refine .mk (hpath ?_ hks) (hgap ha) (hgap hb) (hvalue ?_ hv)
    · simp
    · simp
      omega

theorem AreItems.imp {Item Item' : Text → α → Prop} {xs : List α} (h : AreItems Item q xs)
    (hitem : ∀ {p x}, p.length ≤ q.length → Item p x → Item' p x) : AreItems Item' q xs := by
  induction h with
  | nil hu => exact .nil hu
  | last hu hx hv => exact .last hu (hitem (by simp; omega) hx) hv
  | cons hu hx hv _ ih =>
    exact .cons hu (hitem (by simp; omega) hx) hv
      (ih fun hp => hitem (by simp; omega))

/-- By how deep values lie in one another. -/
theorem IsValue.imp (hD : D.Extends D' length) (hq : q.length ≤ length)
    (h : IsValue D depth q v) : IsValue D' depth q v := by
  have hplain : ∀ {q v}, IsPlain D q v → IsPlain D' q v := by
    intro q v h
    cases h with
    | string hq => exact .string hq
    | scalar hw => exact .scalar (hw.imp hD.whole)
  induction depth generalizing q v with
  | zero => exact hplain h
  | succ depth ih =>
    cases h with
    | plain h => exact .plain (hplain h)
    | array h =>
      exact .array (h.imp fun hp hx => ih (by simp at hq; omega) hx)
    | inline h hconsistent =>
      refine .inline (h.imp fun hp hx => hx.imp ?_ hD.gap ?_) (hD.inline hconsistent)
      · exact fun hp' => hD.path (by simp at hq; omega)
      · exact fun hp' => ih (by simp at hq; omega)

theorem IsExpression.imp {e : Expression} (hD : D.Extends D' length) (hq : q.length ≤ length)
    (h : IsExpression D q e) : IsExpression D' q e := by
  cases h with
  | @assign q ks v depth hdepth h =>
    obtain ⟨hks, ha, hb, hv⟩ := h
    simp at hq
    obtain ⟨depth', hdepth', hv⟩ := hD.depth (by omega) hdepth (hv.imp hD (by omega))
    exact .assign hdepth' (.mk (hD.path (by omega) hks) ha hb hv)
  | table ha hks hb => exact .table ha (hD.path (by simp at hq; omega) hks) hb
  | element ha hks hb => exact .element ha (hD.path (by simp at hq; omega) hks) hb

/-- Lines of one dialect are lines of another if their expressions are expressions there. -/
theorem AreLines.imp {es : List Expression} (h : AreLines D t es)
    (he : ∀ {q e}, q.length ≤ t.length → e ∈ es → IsExpression D q e → IsExpression D' q e) :
    AreLines D' t es := by
  induction h with
  | done hu hk => exact .done hu hk
  | last hu hq ha hk => exact .last hu (he (by simp; omega) List.mem_cons_self hq) ha hk
  | more hu hq ha hk hb _ ih =>
    refine .more hu (he (by simp; omega) List.mem_cons_self hq) ha hk hb (ih fun hp hmem => ?_)
    exact he (by simp; omega) (List.mem_cons_of_mem _ hmem)

theorem HasLines.imp {es : List Expression} (h : HasLines D t es)
    (he : ∀ {q e}, q.length ≤ t.length → e ∈ es → IsExpression D q e → IsExpression D' q e) :
    HasLines D' t es := by
  cases h with
  | plain h => exact .plain (h.imp he)
  | marked h => exact .marked (h.imp fun hq => he (Nat.le_succ_of_le hq))

/-! ## Depth -/

theorem IsValue.succ (h : IsValue D depth q v) : IsValue D (depth + 1) q v := by
  induction depth generalizing q v with
  | zero => exact .plain h
  | succ depth ih =>
    cases h with
    | plain h => exact .plain h
    | array h => exact .array (h.imp fun _ hx => ih hx)
    | inline h hconsistent =>
      exact .inline (h.imp fun _ hx => hx.imp (fun _ h => h) (fun h => h) fun _ h => ih h)
        hconsistent

theorem IsValue.mono (h : IsValue D depth q v) (hle : depth ≤ depth') : IsValue D depth' q v := by
  induction hle with
  | refl => exact h
  | step _ ih => exact ih.succ

/-- Values lie no deeper in one another than their text is long. -/
theorem IsValue.depth_le_length (h : IsValue D depth q v) : IsValue D q.length q v := by
  have hplain : ∀ {depth' q v}, IsPlain D q v → IsValue D depth' q v := by
    intro depth' q v h
    have hzero : IsValue D 0 q v := h
    exact hzero.mono (Nat.zero_le _)
  induction depth generalizing q v with
  | zero => exact hplain h
  | succ depth ih =>
    cases h with
    | plain h => exact hplain h
    | @array q vs h =>
      have harray : IsValue D (q.length + 1) ('[' :: (q ++ [']'])) (.array vs) :=
        .array (h.imp fun hp hx => (ih hx).mono hp)
      exact harray.mono (by simp)
    | @inline q assignments h hconsistent =>
      have hinline : IsValue D (q.length + 1) ('\x7b' :: (q ++ ['\x7d'])) (.inline assignments) :=
        .inline (h.imp fun hp hx => hx.imp (fun _ h => h) (fun h => h) fun hp' hv =>
          (ih hv).mono (hp'.trans hp)) hconsistent
      exact hinline.mono (by simp)

theorem IsKeys.length_le {ks : List Key} (h : IsKeys q ks) : ks.length ≤ q.length := by
  have hkey : ∀ {q : Text} {k : Key}, IsKey q k → 1 ≤ q.length := by
    intro q k hk
    cases hk with
    | bare hne _ => exact List.length_pos_iff.mpr hne
    | basic _ => simp
    | literal _ => simp
  induction h with
  | single hk => exact hkey hk
  | dot hk _ _ _ ih =>
    have hpos := hkey hk
    simp only [List.length_append, List.length_cons]
    omega

/-! ## Assignments -/

/-- Without headers the tables of TOML 1.1 are told apart as the reader does. -/
theorem consistent_assignmentLines {assignments : List (List Key × Value)}
    (h : Consistent IsStandardHistory (assignmentLines assignments)) :
    Consistent IsAcceptedHistory (assignmentLines assignments) := by
  intro before p hbefore hp
  have hmarks : ∀ m ∈ history p before, (∃ v, m = .value v) ∨ m = .dotted ∨ m = .through := by
    refine history_assignmentLines fun e he => ?_
    obtain ⟨x, _, rfl⟩ := List.mem_map.mp (hbefore.subset he)
    exact ⟨x.1, x.2, rfl⟩
  have hstandard := h before p hbefore hp
  generalize history p before = ms at hmarks hstandard
  cases hstandard with
  | value v => exact ⟨_, .value v⟩
  | header _ _ => simpa using hmarks .header (by simp)
  | dotted hall =>
    cases ms with
    | nil => exact ⟨_, .nothing⟩
    | cons m ms =>
      have hdotted : ∀ m' ∈ m :: ms, m' ∈ [Mark.dotted, .through] := by
        intro m' hm'
        rcases hmarks m' hm' with ⟨v, rfl⟩ | rfl | rfl
        · simpa using hall _ hm'
        · simp
        · simp
      obtain ⟨hm, hms⟩ := List.forall_mem_cons.mp hdotted
      exact ⟨_, .dotted hm fun m' hm' => List.mem_cons_of_mem _ (hms m' hm')⟩
  | elements _ => simpa using hmarks .element (by simp)

/-! ## The parts of a text -/

/-- Each of the items is written somewhere between the brackets. -/
theorem AreItems.exists_within {Item : Text → α → Prop} {xs : List α} (h : AreItems Item q xs) :
    ∀ x ∈ xs, ∃ p, Item p x ∧ p <:+: q := by
  induction h with
  | nil _ => exact List.forall_mem_nil _
  | @last u p v x _ hx _ =>
    exact List.forall_mem_cons.mpr ⟨⟨p, hx, u, v, by simp⟩, List.forall_mem_nil _⟩
  | @cons u p v w x xs _ hx _ _ ih =>
    refine List.forall_mem_cons.mpr ⟨⟨p, hx, u, v ++ ',' :: w, by simp⟩, fun y hy => ?_⟩
    obtain ⟨p', hy, hpart⟩ := ih y hy
    exact ⟨p', hy, hpart.trans ⟨u ++ (p ++ (v ++ [','])), [], by simp⟩⟩

theorem AreLines.exists_within {es : List Expression} (h : AreLines D t es) :
    ∀ e ∈ es, ∃ q, IsExpression D q e ∧ q <:+: t := by
  induction h with
  | done _ _ => exact List.forall_mem_nil _
  | @last u q a k e _ he _ _ =>
    exact List.forall_mem_cons.mpr ⟨⟨q, he, u, a ++ k, by simp⟩, List.forall_mem_nil _⟩
  | @more u q a k b w e es _ he _ _ _ _ ih =>
    refine List.forall_mem_cons.mpr ⟨⟨q, he, u, a ++ (k ++ (b ++ w)), by simp⟩, fun e' he' => ?_⟩
    obtain ⟨q', he', hpart⟩ := ih e' he'
    exact ⟨q', he', hpart.trans ⟨u ++ (q ++ (a ++ (k ++ b))), [], by simp⟩⟩

theorem isBlank_of_isSpaces (hu : IsSpaces u) : IsBlank true u := by
  induction u with
  | nil => exact .nil
  | cons c u ih =>
    obtain ⟨hc, hu⟩ := List.forall_mem_cons.mp hu
    exact .space hc (ih hu)

theorem bounded_extends : Dialect.bounded.Extends .accepted length where
  path _ h := ⟨h.keys, h.within⟩
  whole h := .whole h
  gap h := isBlank_of_isSpaces h
  inline h := consistent_assignmentLines h
  depth _ hdepth h := ⟨_, hdepth, h⟩

theorem standard_extends : Dialect.standard.Extends .bounded 80 where
  path hq h := ⟨h.keys, h.keys.length_le.trans hq⟩
  whole h := h
  gap h := h
  inline h := h
  depth hq _ h := ⟨_, hq, h.depth_le_length⟩

/-- What is TOML 1.1, and not too deep, is read with the lines that it has. -/
theorem HasLines.accepted {es : List Expression} (h : HasLines .bounded t es) :
    HasLines .accepted t es :=
  h.imp fun _ _ he => he.imp bounded_extends (Nat.le_refl _)

/-- No short text is too deep. -/
theorem HasLines.bounded {es : List Expression} (h : HasLines .standard t es) (ht : t.length ≤ 80) :
    HasLines .bounded t es :=
  h.imp fun hq _ he => he.imp standard_extends (hq.trans ht)

end ImportMigration.Toml
