import ImportMigration.Proofs.Dialects

/-!
Values are read as the grammar has them, with what is accepted beyond TOML 1.1. The induction is on
how deep arrays and inline tables may lie in one another, as the recursion of the reader is.
-/

namespace ImportMigration.Toml

variable {α : Type} {q t rest : Text} {c : Char}

/-! ## Assignments and items -/

section

variable {skip : Text → Text} {Gap : Text → Prop} {readValue? : Text → Option (Value × Text)}
  {P : Text → Value → Prop}

theorem readAssignment?_eq {ks : List Key} {v : Value} {t' t'' : Text}
    (hks : readKeys? t = some (ks, t')) (ht' : skip t' = '=' :: t'')
    (hv : readValue? (skip t'') = some (v, rest)) :
    readAssignment? skip readValue? t = some ((ks, v), rest) := by
  rw [readAssignment?, hks, Option.bind_eq_bind, Option.bind_some]
  simp only [ht']
  rw [hv]
  rfl

theorem of_readAssignment? {ks : List Key} {v : Value}
    (h : readAssignment? skip readValue? t = some ((ks, v), rest)) : ∃ t' t'',
      readKeys? t = some (ks, t') ∧ skip t' = '=' :: t'' ∧
        readValue? (skip t'') = some (v, rest) := by
  obtain ⟨⟨ks', t'⟩, hks, h⟩ := Option.bind_eq_some_iff.mp h
  simp only at h
  split at h
  · rename_i t'' ht'
    obtain ⟨⟨v', rest'⟩, hv, h⟩ := Option.bind_eq_some_iff.mp h
    obtain ⟨he, rfl⟩ := Prod.mk.inj (Option.some.inj h)
    obtain ⟨rfl, rfl⟩ := Prod.mk.inj he
    exact ⟨t', t'', hks, ht', hv⟩
  · nomatch h

theorem IsAssignment.head {D : Dialect} {x : List Key × Value} (h : IsAssignment D Gap P q x) :
    q.head?.any isKeyHead = true := by
  obtain ⟨hks, _, _, _⟩ := h
  exact head?_any_append hks.keys.head _

theorem readAssignment?_reads (hskip : Skips skip Gap) (hvalue : Reads readValue? P) :
    Reads (readAssignment? skip readValue?) (IsAssignment .accepted Gap P) where
  sound {t rest x} h := by
    obtain ⟨ks, v⟩ := x
    obtain ⟨t', t'', hks, ht', hv⟩ := of_readAssignment? h
    obtain ⟨q, hq, rfl⟩ := readKeys?_reads.sound hks
    obtain ⟨w, hw, hsplit⟩ := hvalue.sound hv
    obtain ⟨a, ha, ha'⟩ := hskip.sound (t := t') (by rw [ht']; rfl)
    have hhead : (skip t'').head?.any isFront = true := by
      rw [hsplit]
      exact head?_any_append (head?_any_imp isFront_of_isHead (hvalue.head hw)) rest
    obtain ⟨b, hb, hb'⟩ := hskip.sound hhead
    refine ⟨_, .mk hq ha hb hw, ?_⟩
    rw [ha', ht', hb', hsplit]
    simp
  complete {_ rest _} h hrest := by
    cases h with
    | @mk q a b w ks v hks ha hb hv =>
      have hhead : (w ++ rest).head?.any isFront = true :=
        head?_any_append (head?_any_imp isFront_of_isHead (hvalue.head hv)) rest
      simp only [List.append_assoc, List.cons_append]
      refine readAssignment?_eq (readKeys?_reads.complete hks (hskip.follows ha (by decide)))
        (hskip.complete ha rfl) ?_
      rw [hskip.complete hb hhead]
      exact hvalue.complete hv hrest
  head h := head?_any_imp isHead_of_isKeyHead h.head

end

section

variable {readItem? : Text → Option (α × Text)} {Item : Text → α → Prop} {close : Char}

/-- The two brackets that may close items. -/
structure Closes (close : Char) : Prop where
  front : isFront close = true
  not_head : isHead close = false
  delimiter : close ∈ delimiters
  ne_comma : close ≠ ','

theorem Closes.head (hclose : Closes close) (rest : Text) :
    (close :: rest).head?.any isFront = true :=
  hclose.front

theorem readItems?_close {n : Nat} (ht : skipBlank true t = close :: rest) :
    readItems?.go readItem? close (n + 1) t = some ([], rest) := by
  rw [readItems?.go, ht]
  exact if_pos rfl

theorem readItems?_item {n : Nat} {x : α} {t' : Text} (hclose : Closes close)
    (hhead : (skipBlank true t).head?.any isHead = true)
    (hx : readItem? (skipBlank true t) = some (x, t')) :
    readItems?.go readItem? close (n + 1) t =
      match skipBlank true t' with
      | [] => none
      | d :: after =>
        if d = close then some ([x], after)
        else if d = ',' then
          (readItems?.go readItem? close n after).map fun (xs, rest) => (x :: xs, rest)
        else none := by
  obtain ⟨c, hc, hhead⟩ := (Option.any_eq_true ..).mp hhead
  obtain ⟨u, hu⟩ := List.head?_eq_some_iff.mp hc
  have hne : c ≠ close := by
    rintro rfl
    rw [hclose.not_head] at hhead
    nomatch hhead
  rw [hu] at hx
  rw [readItems?.go, hu]
  simp only
  rw [if_neg hne, hx, Option.bind_eq_bind, Option.bind_some]
  cases skipBlank true t' with
  | nil => rfl
  | cons d after =>
    simp only
    by_cases hd : d = close
    · rw [if_pos hd, if_pos hd]
      rfl
    · rw [if_neg hd, if_neg hd]
      by_cases hcomma : d = ','
      · rw [if_pos hcomma, if_pos hcomma]
        cases readItems?.go readItem? close n after <;> rfl
      · rw [if_neg hcomma, if_neg hcomma]

/-- Either nothing is read before the closing bracket, or one item and perhaps others after it. -/
theorem of_readItems? {n : Nat} {xs : List α}
    (h : readItems?.go readItem? close (n + 1) t = some (xs, rest)) :
    skipBlank true t = close :: rest ∧ xs = [] ∨
      ∃ x t', readItem? (skipBlank true t) = some (x, t') ∧
        (skipBlank true t' = close :: rest ∧ xs = [x] ∨
          ∃ after xs', skipBlank true t' = ',' :: after ∧
            readItems?.go readItem? close n after = some (xs', rest) ∧ xs = x :: xs') := by
  rw [readItems?.go] at h
  split at h
  · nomatch h
  · rename_i c u hu
    rw [hu]
    split at h
    · rename_i hc
      obtain ⟨rfl, rfl⟩ := Prod.mk.inj (Option.some.inj h)
      exact .inl ⟨congrArg (· :: u) hc, rfl⟩
    · obtain ⟨⟨x, t'⟩, hx, hafter⟩ := Option.bind_eq_some_iff.mp h
      refine .inr ⟨x, t', hx, ?_⟩
      clear h
      simp only at hafter
      split at hafter
      · nomatch hafter
      · rename_i d after hd
        rw [hd]
        split at hafter
        · rename_i hclose
          obtain ⟨rfl, rfl⟩ := Prod.mk.inj (Option.some.inj hafter)
          exact .inl ⟨congrArg (· :: after) hclose, rfl⟩
        · split at hafter
          · rename_i hcomma
            obtain ⟨⟨xs', rest'⟩, hxs, h⟩ := Option.bind_eq_some_iff.mp hafter
            obtain ⟨rfl, rfl⟩ := Prod.mk.inj (Option.some.inj h)
            exact .inr ⟨after, xs', congrArg (· :: after) hcomma, hxs, rfl⟩
          · nomatch hafter

theorem areItems_of_go {n : Nat} {xs : List α} (hclose : Closes close)
    (hitem : Reads readItem? Item) (h : readItems?.go readItem? close n t = some (xs, rest)) :
    ∃ q, AreItems Item q xs ∧ t = q ++ close :: rest := by
  induction n generalizing t xs with
  | zero => nomatch h
  | succ n ih =>
    rcases of_readItems? h with ⟨ht, rfl⟩ | ⟨x, t', hx, hafter⟩
    · obtain ⟨u, hu, ht'⟩ := skipBlank_skips.sound (t := t) (by rw [ht]; exact hclose.head rest)
      exact ⟨u, .nil hu, by rwa [ht] at ht'⟩
    · obtain ⟨q, hq, hsplit⟩ := hitem.sound hx
      have hhead : (skipBlank true t).head?.any isFront = true := by
        rw [hsplit]
        exact head?_any_append (head?_any_imp isFront_of_isHead (hitem.head hq)) t'
      obtain ⟨u, hu, ht⟩ := skipBlank_skips.sound hhead
      rcases hafter with ⟨ht', rfl⟩ | ⟨after, xs', ht', hxs, rfl⟩
      · obtain ⟨v, hv, hv'⟩ := skipBlank_skips.sound (t := t')
          (by rw [ht']; exact hclose.head rest)
        refine ⟨_, .last hu hq hv, ?_⟩
        rw [ht, hsplit, hv', ht']
        simp
      · obtain ⟨v, hv, hv'⟩ := skipBlank_skips.sound (t := t') (by rw [ht']; rfl)
        obtain ⟨w, hw, rfl⟩ := ih hxs
        refine ⟨_, .cons hu hq hv hw, ?_⟩
        rw [ht, hsplit, hv', ht']
        simp

theorem go_of_areItems {n : Nat} {xs : List α} (hclose : Closes close)
    (hitem : Reads readItem? Item) (h : AreItems Item q xs) (hn : q.length < n) :
    readItems?.go readItem? close n (q ++ close :: rest) = some (xs, rest) := by
  have hstart : ∀ {u q : Text} {x : α} (after : Text), IsBlank true u → Item q x →
      skipBlank true (u ++ (q ++ after)) = q ++ after ∧ (q ++ after).head?.any isHead = true := by
    intro u q x after hu hx
    have hhead := head?_any_append (hitem.head hx) after
    exact ⟨skipBlank_skips.complete hu (head?_any_imp isFront_of_isHead hhead), hhead⟩
  induction h generalizing n with
  | nil hu =>
    obtain ⟨n, rfl⟩ := Nat.exists_eq_add_of_lt hn
    exact readItems?_close (skipBlank_skips.complete hu (hclose.head rest))
  | @last u q v x hu hx hv =>
    obtain ⟨n, rfl⟩ := Nat.exists_eq_add_of_lt hn
    simp only [List.append_assoc]
    obtain ⟨hskip, hhead⟩ := hstart (v ++ close :: rest) hu hx
    rw [readItems?_item hclose (by rwa [hskip])
      (by rw [hskip]; exact hitem.complete hx (skipBlank_skips.follows hv hclose.delimiter)),
      skipBlank_skips.complete hv (hclose.head rest)]
    exact if_pos rfl
  | @cons u q v w x xs hu hx hv _ ih =>
    obtain ⟨n, rfl⟩ := Nat.exists_eq_add_of_lt hn
    simp only [List.append_assoc, List.cons_append]
    obtain ⟨hskip, hhead⟩ := hstart (v ++ ',' :: (w ++ close :: rest)) hu hx
    rw [readItems?_item hclose (by rwa [hskip])
      (by rw [hskip]; exact hitem.complete hx (skipBlank_skips.follows hv (by decide))),
      skipBlank_skips.complete hv rfl]
    have hlength : w.length < (u ++ (q ++ (v ++ ',' :: w))).length + n := by
      simp only [List.length_append, List.length_cons]
      omega
    simp only [if_neg hclose.ne_comma.symm, ↓reduceIte, ih hlength]
    rfl

theorem readItems?_eq_some_iff {xs : List α} (hclose : Closes close)
    (hitem : Reads readItem? Item) : readItems? readItem? close t = some (xs, rest) ↔
      ∃ q, AreItems Item q xs ∧ t = q ++ close :: rest := by
  refine ⟨areItems_of_go hclose hitem, ?_⟩
  rintro ⟨q, hq, rfl⟩
  refine go_of_areItems hclose hitem hq ?_
  rw [List.length_append, List.length_cons]
  omega

end

/-! ## Values -/

theorem IsPlain.head {v : Value} (h : IsPlain .accepted q v) : q.head?.any isHead = true := by
  cases h with
  | string hq => cases hq <;> rfl
  | scalar hw => exact isHead_of_startsValue (startsValue_of_wordValue? (isScalar_iff.mp hw).2)

theorem IsValue.head {depth : Nat} {v : Value} (h : IsValue .accepted depth q v) :
    q.head?.any isHead = true := by
  cases depth with
  | zero => exact IsPlain.head h
  | succ depth =>
    cases h with
    | plain h => exact h.head
    | array _ => rfl
    | inline _ _ => rfl

theorem IsPlain.kind {D : Dialect} {v : Value} (h : IsPlain D q v) : v.kind = .value v := by
  cases h with
  | string _ => rfl
  | scalar hw => cases hw <;> rfl

/-- No value that is written is a table of the document. -/
theorem IsValue.kind {D : Dialect} {depth : Nat} {v : Value} (h : IsValue D depth q v) :
    v.kind = .value v := by
  cases depth with
  | zero => exact IsPlain.kind h
  | succ depth =>
    cases h with
    | plain h => exact h.kind
    | array _ => rfl
    | inline _ _ => rfl

theorem IsKeys.ne_nil {ks : List Key} (h : IsKeys q ks) : ks ≠ [] := by
  cases h <;> simp

theorem isProper_of_areItems {D : Dialect} {Gap : Text → Prop} {depth : Nat}
    {assignments : List (List Key × Value)}
    (h : AreItems (IsAssignment D Gap (IsValue D depth)) q assignments) :
    ∀ e ∈ assignmentLines assignments, e.IsProper := by
  intro e he
  obtain ⟨x, hx, rfl⟩ := List.mem_map.mp he
  obtain ⟨_, ⟨hks, _, _, hv⟩, _⟩ := h.exists_within x hx
  exact ⟨hks.keys.ne_nil, hv.kind⟩

/-- The reader refuses an inline table just when its assignments define something twice. -/
theorem isSome_ofAssignments?_iff {D : Dialect} {Gap : Text → Prop} {depth : Nat}
    {assignments : List (List Key × Value)}
    (h : AreItems (IsAssignment D Gap (IsValue D depth)) q assignments) :
    (Entries.ofAssignments? assignments).isSome ↔
      Consistent IsAcceptedHistory (assignmentLines assignments) := by
  rw [ofAssignments?_eq]
  exact isSome_fill?_iff (isProper_of_areItems h)

theorem Follows.not_quote (h : Follows rest) : ∀ c ∈ rest.head?, c ≠ '"' ∧ c ≠ '\'' := by
  intro c hc
  have hword := h.not_isWord c hc
  constructor <;> (rintro rfl; nomatch hword)

theorem readValue?_string {depth : Nat} {s : Text} (h : Quoted.read? t = some (s, rest)) :
    readValue? depth t = some (.string s, rest) := by
  cases t with
  | nil => nomatch h
  | cons c t =>
    have hc : c = '"' ∨ c = '\'' := by
      unfold Quoted.read? at h
      split at h <;> simp_all
    unfold readValue?
    rw [if_pos hc, h]
    rfl

theorem readValue?_word {depth : Nat} {v : Value} (hv : StartsValue t)
    (h : readWord? t = some (v, rest)) : readValue? depth t = some (v, rest) := by
  obtain ⟨c, hc, hstart⟩ := hv
  obtain ⟨t, rfl⟩ := List.head?_eq_some_iff.mp hc
  have hne : ∀ d : Char, d.isAlphanum = false → d ≠ '+' → d ≠ '-' → c ≠ d := by
    rintro d hd hplus hminus rfl
    rcases hstart with h | h | h
    · rw [h] at hd
      nomatch hd
    · exact hplus h
    · exact hminus h
  have hquote : ¬ (c = '"' ∨ c = '\'') := by
    rintro (rfl | rfl)
    · exact hne _ rfl (by decide) (by decide) rfl
    · exact hne _ rfl (by decide) (by decide) rfl
  unfold readValue?
  rw [if_neg hquote, if_neg (hne _ rfl (by decide) (by decide)),
    if_neg (hne _ rfl (by decide) (by decide)), h]

theorem readValue?_plain {depth : Nat} {v : Value} (h : IsPlain .accepted q v)
    (hrest : Follows rest) : readValue? depth (q ++ rest) = some (v, rest) := by
  cases h with
  | string hq => exact readValue?_string (Quoted.read?_of_spells hq hrest.not_quote)
  | scalar hscalar =>
    obtain ⟨hw, hv⟩ := isScalar_iff.mp hscalar
    obtain ⟨c, hc, hstart⟩ := startsValue_of_wordValue? hv
    refine readValue?_word ⟨c, ?_, hstart⟩ (readWord?_append hw hv hrest)
    rw [List.head?_append, hc]
    rfl

theorem closes_bracket : Closes ']' := ⟨rfl, rfl, by decide, by decide⟩

theorem closes_brace : Closes '\x7d' := ⟨rfl, rfl, by decide, by decide⟩

/-- What is read without going into brackets, and what is read in them. -/
theorem of_readValue? {depth : Nat} {v : Value} (h : readValue? depth t = some (v, rest)) :
    (∃ q, IsPlain .accepted q v ∧ t = q ++ rest) ∨ ∃ below, depth = below + 1 ∧
      ((∃ u vs, t = '[' :: u ∧ readItems? (readValue? below) ']' u = some (vs, rest) ∧
          v = .array vs) ∨
        ∃ u assignments, t = '\x7b' :: u ∧
          readItems? (readAssignment? (skipBlank true) (readValue? below)) '\x7d' u =
            some (assignments, rest) ∧
          (Entries.ofAssignments? assignments).isSome ∧ v = .inline assignments) := by
  unfold readValue? at h
  split at h
  · nomatch h
  · rename_i c u
    split at h
    · obtain ⟨⟨s, rest'⟩, hs, h⟩ := Option.map_eq_some_iff.mp h
      obtain ⟨rfl, rfl⟩ := Prod.mk.inj h
      obtain ⟨q, hq, hsplit⟩ := Quoted.spells_of_read? hs
      exact .inl ⟨q, .string hq, hsplit⟩
    · split at h
      · rename_i hc
        split at h
        · nomatch h
        · rename_i below
          obtain ⟨⟨vs, rest'⟩, hvs, h⟩ := Option.map_eq_some_iff.mp h
          obtain ⟨rfl, rfl⟩ := Prod.mk.inj h
          exact .inr ⟨below, rfl, .inl ⟨u, vs, congrArg (· :: u) hc, hvs, rfl⟩⟩
      · split at h
        · rename_i hc
          split at h
          · nomatch h
          · rename_i below
            obtain ⟨⟨assignments, rest'⟩, hitems, h⟩ := Option.bind_eq_some_iff.mp h
            obtain ⟨entries, hentries, h⟩ := Option.bind_eq_some_iff.mp h
            obtain ⟨rfl, rfl⟩ := Prod.mk.inj (Option.some.inj h)
            exact .inr ⟨below, rfl, .inr ⟨u, assignments, congrArg (· :: u) hc, hitems,
              by rw [hentries]; rfl, rfl⟩⟩
        · obtain ⟨w, hw, hv, hsplit⟩ := isWords_of_readWord? h
          exact .inl ⟨w, .scalar (isScalar_iff.mpr ⟨hw, hv⟩), hsplit⟩

theorem readValue?_array {depth : Nat} {vs : List Value}
    (h : readItems? (readValue? depth) ']' t = some (vs, rest)) :
    readValue? (depth + 1) ('[' :: t) = some (.array vs, rest) := by
  unfold readValue?
  rw [if_neg (by decide), if_pos rfl]
  simp only [h]
  rfl

theorem readValue?_inline {depth : Nat} {assignments : List (List Key × Value)}
    (h : readItems? (readAssignment? (skipBlank true) (readValue? depth)) '\x7d' t =
      some (assignments, rest))
    (hentries : (Entries.ofAssignments? assignments).isSome) :
    readValue? (depth + 1) ('\x7b' :: t) = some (.inline assignments, rest) := by
  obtain ⟨entries, hentries⟩ := Option.isSome_iff_exists.mp hentries
  unfold readValue?
  rw [if_neg (by decide), if_neg (by decide), if_pos rfl]
  simp only [h, hentries, Option.bind_eq_bind, Option.bind_some]
  rfl

theorem readValue?_reads (depth : Nat) : Reads (readValue? depth) (IsValue .accepted depth) := by
  induction depth with
  | zero =>
    refine ⟨fun h => ?_, readValue?_plain, IsPlain.head⟩
    rcases of_readValue? h with hplain | ⟨below, hbelow, _⟩
    · exact hplain
    · contradiction
  | succ depth ih =>
    have hassignment := readAssignment?_reads skipBlank_skips ih
    refine ⟨fun {t rest v} h => ?_, fun {q rest v} h hrest => ?_, IsValue.head⟩
    · rcases of_readValue? h with ⟨q, hq, ht⟩ | ⟨below, hbelow, hnested⟩
      · exact ⟨q, .plain hq, ht⟩
      · obtain rfl := Nat.succ.inj hbelow
        rcases hnested with ⟨u, vs, rfl, hvs, rfl⟩ | ⟨u, assignments, rfl, hitems, hsome, rfl⟩
        · obtain ⟨q, hq, rfl⟩ := (readItems?_eq_some_iff closes_bracket ih).mp hvs
          exact ⟨_, .array hq, by simp⟩
        · obtain ⟨q, hq, rfl⟩ := (readItems?_eq_some_iff closes_brace hassignment).mp hitems
          exact ⟨_, .inline hq ((isSome_ofAssignments?_iff hq).mp hsome), by simp⟩
    · cases h with
      | plain h => exact readValue?_plain h hrest
      | @array q vs h =>
        rw [List.cons_append, List.append_assoc]
        exact readValue?_array ((readItems?_eq_some_iff closes_bracket ih).mpr ⟨q, h, rfl⟩)
      | @inline q assignments h hconsistent =>
        rw [List.cons_append, List.append_assoc]
        exact readValue?_inline
          ((readItems?_eq_some_iff closes_brace hassignment).mpr ⟨q, h, rfl⟩)
          ((isSome_ofAssignments?_iff h).mpr hconsistent)

end ImportMigration.Toml
