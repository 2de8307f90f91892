import ImportMigration.Proofs.Convergence

/-!
What one pass can leave behind. A statement that is left has its `import` in the path of a specifier
that the pass itself has moved to the new package.
-/

namespace ImportMigration.Import

open Text

/-- From one text to the other, the specifier of the statement that opens in segment `i` was moved
to the rule's new package, with a path below it. -/
structure Rule.Moves (r : Rule) (t t' : Text) (i : Nat) (sub : Text) : Prop where
  opened : Opened (segments t) i
  before : (segments t)[i + 1]? = some (r.old ++ '/' :: sub)
  after : (segments t')[i + 1]? = some (r.new ++ '/' :: sub)

/-- The word `import` in what stands below a package lies in the path, if the package does not
hold the word. -/
theorem import_in_path {p sub w clause : Text} (hp : ¬ importWord <:+: p)
    (h : p ++ '/' :: sub = w ++ (importWord ++ clause)) :
    ∃ w', w = p ++ '/' :: w' ∧ sub = w' ++ importWord ++ clause := by
  rcases List.append_eq_append_iff.mp h with ⟨v, rfl, hv⟩ | ⟨v, rfl, hv⟩
  · cases v with
    | nil => exact absurd (List.cons.inj hv).1 (by decide)
    | cons c v =>
      obtain ⟨rfl, rfl⟩ := List.cons.inj hv
      exact ⟨v, rfl, by simp⟩
  · rcases List.append_eq_append_iff.mp hv with ⟨x, rfl, _⟩ | ⟨x, hx, hxs⟩
    · exact absurd ⟨w, x, by simp⟩ hp
    · cases x with
      | nil =>
        rw [List.append_nil] at hx
        exact absurd ⟨w, [], by simp [hx]⟩ hp
      | cons c x =>
        have hc : c ∈ importWord := by simp [hx]
        rw [← (List.cons.inj hxs).1] at hc
        exact absurd hc (by decide)

theorem Fresh.import_in_moved {rules : List Rule} (h : Fresh rules) {r : Rule} (hr : r ∈ rules)
    {t u v : Text} (hout : rewrite rules t = u ++ v)
    (hv : (Statement.read? r.form r.old v).isSome) :
    r.form = .subpath ∧ ∃ a q w w', isQuote q = true ∧ u = a ++ q :: (r.new ++ '/' :: w) ∧
      r.Moves t (rewrite rules t) (a.countP isQuote) (w ++ importWord ++ w') := by
  have hform : r.form = .subpath := by
    cases hf : r.form with
    | exact => exact absurd ⟨u, v, hout, hv⟩ (h.not_occurs_rewrite_of_exact hr hf t)
    | subpath => rfl
  refine ⟨hform, ?_⟩
  obtain ⟨s, rest, hs, rfl⟩ := Statement.isSome_read?_iff.mp hv
  have hpass := pass_rewrite h t
  have hren := hpass.left r hr _
    ((Rule.pending_iff (h.quoteFree_old r hr)).mpr ⟨u, s, rest, hs, hout, rfl⟩)
  have hself : (segments (rewrite rules t))[u.countP isQuote]? ≠
      (segments t)[u.countP isQuote]? :=
    fun he => Rule.not_renames_self (h.gone r hr r hr) he hren
  obtain ⟨tail, ht, hx, hy⟩ := hren
  rw [hform] at ht
  obtain ⟨sub, rfl, _⟩ := Form.isTail_subpath.mp ht
  rcases exists_last_quote u with hu | ⟨a, q, w, rfl, hq, hw⟩
  · rw [hu.countP_eq] at hself
    exact absurd hpass.head hself
  · have hn : (a ++ q :: w).countP isQuote = a.countP isQuote + 1 := by
      simp [hq, hw.countP_eq]
    rw [hn] at hself hx hy
    have hseg : (segments (rewrite rules t))[a.countP isQuote + 1]? =
        some (w ++ (importWord ++ s.clause)) := by
      rw [hout, List.append_assoc, List.cons_append, segments_append_quote a hq,
        hs.segments_text (h.quoteFree_old r hr) hw, List.getElem?_append_right (by simp)]
      simp
    obtain ⟨w', rfl, rfl⟩ := import_in_path (h.import_new r hr)
      (Option.some.inj (hy.symm.trans hseg))
    exact ⟨a, q, w', s.clause, hq, rfl, (hpass.opened _).resolve_left hself, hx, hy⟩

/-- One pass leaves no statement that names a legacy package itself, and statements below one only
where their `import` stands in the path of a specifier that was moved. -/
theorem left_of_one_pass (t : Text) :
    (∀ r ∈ defaultRules, r.form = .exact → ¬ r.Occurs (rewrite defaultRules t)) ∧
    (∀ r ∈ defaultRules, ∀ u v, rewrite defaultRules t = u ++ v →
      (Statement.read? r.form r.old v).isSome →
      r.form = .subpath ∧ ∃ a q w w', isQuote q = true ∧ u = a ++ q :: (r.new ++ '/' :: w) ∧
        r.Moves t (rewrite defaultRules t) (a.countP isQuote) (w ++ importWord ++ w')) ∧
    ((∀ r ∈ defaultRules, r.form = .subpath → ∀ i sub,
        r.Moves t (rewrite defaultRules t) i sub → ¬ importWord <:+: sub) →
      ∀ r ∈ defaultRules, ¬ r.Occurs (rewrite defaultRules t)) := by
  have hf : Fresh defaultRules := Rename.wellFormed_legacy.fresh
  refine ⟨fun r hr he => hf.not_occurs_rewrite_of_exact hr he t,
    fun r hr u v hout hv => hf.import_in_moved hr hout hv, ?_⟩
  intro hnone r hr h
  obtain ⟨u, v, hout, hv⟩ := h
  obtain ⟨hform, a, q, w, w', _, _, hmoves⟩ := hf.import_in_moved hr hout hv
  exact hnone r hr hform _ _ hmoves ⟨w, w', rfl⟩

end ImportMigration.Import
