import ImportMigration.Proofs.Values

/-!
Documents are read as the grammar has them, expression by expression and line by line
(`isSome_read?_iff`).
-/

namespace ImportMigration.Toml

variable {q t u rest : Text} {c : Char}

theorem IsExpression.head {e : Expression} (h : IsExpression .accepted q e) :
    q.head?.any isHead = true := by
  cases h with
  | assign _ h => exact head?_any_imp isHead_of_isKeyHead h.head
  | table => rfl
  | element => rfl

/-- A header after its opening brackets. -/
theorem readHeader_iff {close : Text} {ks : List Key} :
    (∃ t', readKeys? (skipSpaces t) = some (ks, t') ∧
      dropFront? (']' :: close) (skipSpaces t') = some rest) ↔
    ∃ a q b, IsSpaces a ∧ IsPath .accepted q ks ∧ IsSpaces b ∧
      t = a ++ (q ++ (b ++ ']' :: (close ++ rest))) := by
  constructor
  · rintro ⟨t', hks, hclose⟩
    obtain ⟨q, hq, hsplit⟩ := readKeys?_reads.sound hks
    obtain ⟨a, ha, ht, _⟩ := exists_spaces t
    obtain ⟨b, hb, ht', _⟩ := exists_spaces t'
    refine ⟨a, q, b, ha, hq, hb, ?_⟩
    rw [ht, hsplit, ht', dropFront?_eq_some_iff.mp hclose, List.cons_append]
  · rintro ⟨a, q, b, ha, hq, hb, rfl⟩
    have hhead := head?_any_append (head?_any_imp isFront_of_isKeyHead hq.keys.head)
      (b ++ ']' :: (close ++ rest))
    refine ⟨b ++ ']' :: (close ++ rest), ?_, ?_⟩
    · rw [skipSpaces_skips.complete ha hhead]
      exact readKeys?_reads.complete hq (skipSpaces_skips.follows hb (by decide))
    · rw [skipSpaces_skips.complete hb rfl]
      exact dropFront?_eq_some_iff.mpr rfl

theorem readExpression?_element {ks : List Key} {t' : Text}
    (hks : readKeys? (skipSpaces t) = some (ks, t'))
    (hclose : dropFront? [']', ']'] (skipSpaces t') = some rest) :
    readExpression? ('[' :: '[' :: t) = some (.element ks, rest) := by
  simp [readExpression?, hks, hclose]

theorem readExpression?_table {ks : List Key} {t' : Text} (ht : t.head? ≠ some '[')
    (hks : readKeys? (skipSpaces t) = some (ks, t'))
    (hclose : dropFront? [']'] (skipSpaces t') = some rest) :
    readExpression? ('[' :: t) = some (.table ks, rest) := by
  unfold readExpression?
  split
  · rename_i he
    rw [(List.cons.inj he).2] at ht
    exact absurd rfl ht
  · rename_i he
    rw [← (List.cons.inj he).2, hks, Option.bind_eq_bind, Option.bind_some]
    simp only
    rw [hclose]
    rfl
  · rename_i he
    exact absurd rfl (he t)

theorem readExpression?_assign {ks : List Key} {v : Value} (ht : t.head?.any isKeyHead = true)
    (h : readAssignment? skipSpaces (readValue? depthLimit) t = some ((ks, v), rest)) :
    readExpression? t = some (.assign ks v, rest) := by
  unfold readExpression?
  split
  · nomatch ht
  · nomatch ht
  · rw [h]
    rfl

theorem isExpression_of_readExpression? {e : Expression}
    (h : readExpression? t = some (e, rest)) : ∃ q, IsExpression .accepted q e ∧ t = q ++ rest := by
  unfold readExpression? at h
  split at h
  · obtain ⟨⟨ks, t'⟩, hks, h⟩ := Option.bind_eq_some_iff.mp h
    obtain ⟨rest', hclose, h⟩ := Option.bind_eq_some_iff.mp h
    obtain ⟨rfl, rfl⟩ := Prod.mk.inj (Option.some.inj h)
    obtain ⟨a, q, b, ha, hq, hb, rfl⟩ := readHeader_iff.mp ⟨t', hks, hclose⟩
    exact ⟨_, .element ha hq hb, by simp⟩
  · obtain ⟨⟨ks, t'⟩, hks, h⟩ := Option.bind_eq_some_iff.mp h
    obtain ⟨rest', hclose, h⟩ := Option.bind_eq_some_iff.mp h
    obtain ⟨rfl, rfl⟩ := Prod.mk.inj (Option.some.inj h)
    obtain ⟨a, q, b, ha, hq, hb, rfl⟩ := readHeader_iff.mp ⟨t', hks, hclose⟩
    exact ⟨_, .table ha hq hb, by simp⟩
  · obtain ⟨⟨⟨ks, v⟩, rest'⟩, hassign, h⟩ := Option.map_eq_some_iff.mp h
    obtain ⟨rfl, rfl⟩ := Prod.mk.inj h
    obtain ⟨q, hq, ht⟩ :=
      (readAssignment?_reads skipSpaces_skips (readValue?_reads _)).sound hassign
    exact ⟨q, .assign (Nat.le_refl depthLimit) hq, ht⟩

/-- No key begins with a bracket, so a header has no more brackets than are counted. -/
theorem head?_header_ne {a : Text} {ks : List Key} (ha : IsSpaces a)
    (hq : IsPath .accepted q ks) (rest : Text) : (a ++ (q ++ rest)).head? ≠ some '[' := by
  cases a with
  | nil =>
    intro he
    have hkey := head?_any_append hq.keys.head rest
    rw [List.nil_append] at he
    rw [he] at hkey
    nomatch hkey
  | cons c a =>
    intro he
    have hspace := ha c List.mem_cons_self
    rw [Option.some.inj he] at hspace
    nomatch hspace

theorem readExpression?_append {e : Expression} (h : IsExpression .accepted q e)
    (hrest : Follows rest) : readExpression? (q ++ rest) = some (e, rest) := by
  cases h with
  | assign hdepth h =>
    have h := h.imp (fun _ h => h) (fun h => h) fun _ h => h.mono hdepth
    exact readExpression?_assign (head?_any_append h.head rest)
      ((readAssignment?_reads skipSpaces_skips (readValue?_reads depthLimit)).complete h hrest)
  | @table a q b ks ha hq hb =>
    have hheader : ∃ t', readKeys? (skipSpaces (a ++ (q ++ (b ++ ']' :: rest)))) = some (ks, t') ∧
        dropFront? [']'] (skipSpaces t') = some rest :=
      readHeader_iff.mpr ⟨a, q, b, ha, hq, hb, rfl⟩
    obtain ⟨t', hks, hclose⟩ := hheader
    simp only [List.append_assoc, List.cons_append, List.nil_append]
    exact readExpression?_table (head?_header_ne ha hq _) hks hclose
  | @element a q b ks ha hq hb =>
    have hheader : ∃ t', readKeys? (skipSpaces (a ++ (q ++ (b ++ ']' :: ']' :: rest)))) =
        some (ks, t') ∧ dropFront? [']', ']'] (skipSpaces t') = some rest :=
      readHeader_iff.mpr ⟨a, q, b, ha, hq, hb, rfl⟩
    obtain ⟨t', hks, hclose⟩ := hheader
    simp only [List.append_assoc, List.cons_append, List.nil_append]
    exact readExpression?_element hks hclose

theorem readExpression?_reads : Reads readExpression? (IsExpression .accepted) :=
  ⟨isExpression_of_readExpression?, readExpression?_append, IsExpression.head⟩

/-- A comment is dropped as far as it goes. -/
theorem skipComment_append {k : Text} (hk : IsRemark k)
    (hrest : ∀ c ∈ rest.head?, isPrintable c = false) : skipComment (k ++ rest) = rest := by
  rcases hk with rfl | ⟨body, hbody⟩
  · rw [List.nil_append]
    unfold skipComment
    split
    · nomatch hrest '#' rfl
    · rfl
  · exact dropWhile_append_of_head hbody hrest

theorem exists_remark (t : Text) : ∃ k, IsRemark k ∧ t = k ++ skipComment t := by
  unfold skipComment
  split
  · rename_i u
    obtain ⟨hsplit, hbody⟩ := eq_takeWhile_append isPrintable u
    exact ⟨'#' :: u.takeWhile isPrintable, .inr (.mk _ hbody), congrArg ('#' :: ·) hsplit⟩
  · exact ⟨[], .inl rfl, rfl⟩

theorem skipBlank_eq_nil_iff :
    skipBlank true t = [] ↔ ∃ u k, IsBlank true u ∧ IsRemark k ∧ t = u ++ k := by
  constructor
  · intro h
    obtain ⟨_, u, k, hu, ht, hk⟩ := exists_blank true t
    rw [h, List.append_nil] at ht
    exact ⟨u, k, hu, hk.imp_right fun hk => hk.2.1, ht⟩
  · rintro ⟨u, k, hu, rfl | hk, rfl⟩
    · exact skipBlank_append hu ⟨nofun, nofun, rfl⟩
    · exact skipBlank_append_comment hu hk

/-- What may end a line is passed over, up to what ends it. -/
theorem lineEnd {a k : Text} (ha : IsSpaces a) (hk : IsRemark k)
    (hrest : ∀ c ∈ rest.head?, isPrintable c = false ∧ c ∈ delimiters) :
    Follows (a ++ (k ++ rest)) ∧ skipComment (skipSpaces (a ++ (k ++ rest))) = rest := by
  have hspace : ∀ c ∈ (k ++ rest).head?, isSpace c = false ∧ c ∈ delimiters := by
    intro c hc
    rcases hk with rfl | ⟨body, _⟩
    · exact ⟨not_isSpace_of_mem_delimiters (hrest c hc).2, (hrest c hc).2⟩
    · cases hc
      exact ⟨rfl, by decide⟩
  have hskip : skipSpaces (a ++ (k ++ rest)) = k ++ rest :=
    skipSpaces_append ha fun c hc => (hspace c hc).1
  refine ⟨fun c hc => ?_, ?_⟩
  · rw [hskip] at hc
    exact (hspace c hc).2
  · rw [hskip]
    exact skipComment_append hk fun c hc => (hrest c hc).1

/-- A line ends with the text or with a line break, and only spaces and a comment stand before. -/
theorem lineBreak?_skipComment {t' : Text} (h : lineBreak? (skipComment (skipSpaces t)) = some t') :
    ∃ a k b, IsSpaces a ∧ IsRemark k ∧ IsBreak b ∧ t = a ++ (k ++ (b ++ t')) := by
  obtain ⟨a, ha, ht, _⟩ := exists_spaces t
  obtain ⟨k, hk, hk'⟩ := exists_remark (skipSpaces t)
  obtain ⟨b, hb, hb'⟩ := lineBreak?_eq_some_iff.mp h
  exact ⟨a, k, b, ha, hk, hb, by rw [← hb', ← hk', ← ht]⟩

theorem readExpressions?_done {n : Nat} (ht : skipBlank true t = []) :
    readExpressions?.go (n + 1) t = some [] := by
  rw [readExpressions?.go, ht]

theorem readExpressions?_line {n : Nat} {e : Expression} {t' : Text}
    (he : readExpression? (skipBlank true t) = some (e, t'))
    (hhead : (skipBlank true t).head?.any isHead = true) :
    readExpressions?.go (n + 1) t =
      match skipComment (skipSpaces t') with
      | [] => some [e]
      | u => (lineBreak? u).bind fun after => (readExpressions?.go n after).map (e :: ·) := by
  obtain ⟨c, hc, _⟩ := (Option.any_eq_true ..).mp hhead
  obtain ⟨u, hu⟩ := List.head?_eq_some_iff.mp hc
  rw [hu] at he
  rw [readExpressions?.go, hu]
  simp only
  rw [he, Option.bind_eq_bind, Option.bind_some]
  cases skipComment (skipSpaces t') with
  | nil => rfl
  | cons d v =>
    simp only
    cases lineBreak? (d :: v) with
    | none => rfl
    | some after =>
      cases hes : readExpressions?.go n after <;> simp [hes]

/-- Either nothing is left, or one expression and perhaps others on the lines after it. -/
theorem of_readExpressions? {n : Nat} {es : List Expression}
    (h : readExpressions?.go (n + 1) t = some es) :
    skipBlank true t = [] ∧ es = [] ∨
      ∃ e t', readExpression? (skipBlank true t) = some (e, t') ∧
        (skipComment (skipSpaces t') = [] ∧ es = [e] ∨
          ∃ after es', lineBreak? (skipComment (skipSpaces t')) = some after ∧
            readExpressions?.go n after = some es' ∧ es = e :: es') := by
  rw [readExpressions?.go] at h
  split at h
  · rename_i ht
    exact .inl ⟨ht, (Option.some.inj h).symm⟩
  · rename_i c u ht
    rw [ht]
    obtain ⟨⟨e, t'⟩, he, hafter⟩ := Option.bind_eq_some_iff.mp h
    refine .inr ⟨e, t', he, ?_⟩
    clear h
    simp only at hafter
    split at hafter
    · rename_i hnil
      exact .inl ⟨hnil, (Option.some.inj hafter).symm⟩
    · obtain ⟨after, hbreak, h⟩ := Option.bind_eq_some_iff.mp hafter
      obtain ⟨es', hes, h⟩ := Option.bind_eq_some_iff.mp h
      exact .inr ⟨after, es', hbreak, hes, (Option.some.inj h).symm⟩

theorem areLines_of_go {n : Nat} {es : List Expression}
    (h : readExpressions?.go n t = some es) : AreLines .accepted t es := by
  induction n generalizing t es with
  | zero => nomatch h
  | succ n ih =>
    rcases of_readExpressions? h with ⟨ht, rfl⟩ | ⟨e, t', he, hafter⟩
    · obtain ⟨u, k, hu, hk, rfl⟩ := skipBlank_eq_nil_iff.mp ht
      exact .done hu hk
    · obtain ⟨q, hq, hsplit⟩ := readExpression?_reads.sound he
      have hhead : (skipBlank true t).head?.any isFront = true := by
        rw [hsplit]
        exact head?_any_append (head?_any_imp isFront_of_isHead hq.head) t'
      obtain ⟨u, hu, ht⟩ := skipBlank_skips.sound hhead
      rw [ht, hsplit]
      rcases hafter with ⟨hend, rfl⟩ | ⟨after, es', hbreak, hes, rfl⟩
      · obtain ⟨a, ha, ha', _⟩ := exists_spaces t'
        obtain ⟨k, hk, hk'⟩ := exists_remark (skipSpaces t')
        rw [hend, List.append_nil] at hk'
        rw [ha', hk']
        exact .last hu hq ha hk
      · obtain ⟨a, k, b, ha, hk, hb, rfl⟩ := lineBreak?_skipComment hbreak
        exact .more hu hq ha hk hb (ih hes)

theorem go_of_areLines {n : Nat} {es : List Expression} (h : AreLines .accepted t es)
    (hn : t.length < n) : readExpressions?.go n t = some es := by
  have hstart : ∀ {u q : Text} {e : Expression} (after : Text), IsBlank true u →
      IsExpression .accepted q e →
        skipBlank true (u ++ (q ++ after)) = q ++ after ∧
          (q ++ after).head?.any isHead = true := by
    intro u q e after hu he
    have hhead := head?_any_append he.head after
    exact ⟨skipBlank_skips.complete hu (head?_any_imp isFront_of_isHead hhead), hhead⟩
  induction h generalizing n with
  | done hu hk =>
    obtain ⟨n, rfl⟩ := Nat.exists_eq_add_of_lt hn
    exact readExpressions?_done (skipBlank_eq_nil_iff.mpr ⟨_, _, hu, hk, rfl⟩)
  | @last u q a k e hu he ha hk =>
    obtain ⟨n, rfl⟩ := Nat.exists_eq_add_of_lt hn
    obtain ⟨hskip, hhead⟩ := hstart (a ++ k) hu he
    have hline : Follows (a ++ (k ++ [])) ∧ skipComment (skipSpaces (a ++ (k ++ []))) = [] :=
      lineEnd ha hk nofun
    rw [List.append_nil] at hline
    obtain ⟨hfollows, hend⟩ := hline
    rw [readExpressions?_line (by rw [hskip]; exact readExpression?_reads.complete he hfollows)
      (by rwa [hskip]), hend]
  | @more u q a k b w e es hu he ha hk hb _ ih =>
    obtain ⟨n, rfl⟩ := Nat.exists_eq_add_of_lt hn
    obtain ⟨hskip, hhead⟩ := hstart (a ++ (k ++ (b ++ w))) hu he
    have hbreak : ∀ c ∈ (b ++ w).head?, isPrintable c = false ∧ c ∈ delimiters := by
      cases hb <;> (rintro c ⟨⟩; decide)
    obtain ⟨hfollows, hend⟩ := lineEnd ha hk hbreak
    have hlength : w.length < (u ++ (q ++ (a ++ (k ++ (b ++ w))))).length + n := by
      have hpos : 0 < b.length := by cases hb <;> decide
      simp only [List.length_append]
      omega
    rw [readExpressions?_line (by rw [hskip]; exact readExpression?_reads.complete he hfollows)
      (by rwa [hskip]), hend]
    have hafter : lineBreak? (b ++ w) = some w := lineBreak?_eq_some_iff.mpr ⟨b, hb, rfl⟩
    cases hbw : b ++ w with
    | nil =>
      rw [hbw] at hafter
      nomatch hafter
    | cons c v =>
      simp only
      rw [← hbw, hafter, Option.bind_some, ih hlength]
      rfl

theorem readExpressions?_eq_some_iff {es : List Expression} :
    readExpressions? t = some es ↔ AreLines .accepted t es :=
  ⟨areLines_of_go, fun h => go_of_areLines h (Nat.lt_succ_self _)⟩

theorem IsBlank.head (hu : IsBlank true u) : ∀ c ∈ u.head?, c.toNat < 0x80 := by
  intro c hc
  cases hu with
  | nil => nomatch hc
  | space hd _ =>
    cases hc
    simp only [isSpace, Bool.or_eq_true, beq_iff_eq] at hd
    rcases hd with rfl | rfl <;> decide
  | lineBreak hb _ =>
    cases hb <;> (cases hc; decide)
  | comment _ hk _ _ =>
    obtain ⟨body, _⟩ := hk
    cases hc
    decide

/-- No line begins with a byte order mark. -/
theorem AreLines.head {es : List Expression} (h : AreLines .accepted t es) :
    t.head? ≠ some byteOrderMark := by
  have hmark : ¬ byteOrderMark.toNat < 0x80 := by decide
  have happend : ∀ {u rest : Text}, IsBlank true u → rest.head? ≠ some byteOrderMark →
      (u ++ rest).head? ≠ some byteOrderMark := by
    intro u rest hu hrest
    cases u with
    | nil => exact hrest
    | cons c u =>
      intro he
      exact hmark (hu.head _ he)
  have hexpression : ∀ {q rest : Text} {e : Expression}, IsExpression .accepted q e →
      (q ++ rest).head? ≠ some byteOrderMark := by
    intro q rest e he hhead
    have hany := head?_any_append he.head rest
    rw [hhead] at hany
    nomatch hany
  cases h with
  | done hu hk =>
    refine happend hu ?_
    rcases hk with rfl | ⟨body, _⟩ <;> simp [byteOrderMark]
  | last hu he => exact happend hu (hexpression he)
  | more hu he => exact happend hu (hexpression he)

theorem hasLines_iff {es : List Expression} :
    HasLines .accepted t es ↔
      readExpressions? ((dropFront? [byteOrderMark] t).getD t) = some es := by
  cases hdrop : dropFront? [byteOrderMark] t with
  | none =>
    rw [Option.getD_none, readExpressions?_eq_some_iff]
    refine ⟨fun h => ?_, .plain⟩
    cases h with
    | plain h => exact h
    | marked h => nomatch hdrop.symm.trans (dropFront?_eq_some_iff.mpr rfl)
  | some u =>
    obtain rfl := dropFront?_eq_some_iff.mp hdrop
    rw [Option.getD_some, readExpressions?_eq_some_iff]
    refine ⟨fun h => ?_, .marked⟩
    cases h with
    | plain h => exact absurd rfl h.head
    | marked h => exact h

section

variable {D : Dialect} {es : List Expression} {entries : Entries}

theorem IsExpression.isProper {e : Expression} (h : IsExpression D q e) : e.IsProper := by
  cases h with
  | assign _ h =>
    obtain ⟨hks, _, _, hv⟩ := h
    exact ⟨hks.keys.ne_nil, hv.kind⟩
  | table _ hks _ => exact hks.keys.ne_nil
  | element _ hks _ => exact hks.keys.ne_nil

theorem AreLines.isProper (h : AreLines D t es) : ∀ e ∈ es, e.IsProper := by
  induction h with
  | done _ _ => exact List.forall_mem_nil _
  | last _ he _ _ => exact List.forall_mem_cons.mpr ⟨he.isProper, List.forall_mem_nil _⟩
  | more _ he _ _ _ _ ih => exact List.forall_mem_cons.mpr ⟨he.isProper, ih⟩

theorem HasLines.isProper (h : HasLines D t es) : ∀ e ∈ es, e.IsProper := by
  cases h with
  | plain h => exact h.isProper
  | marked h => exact h.isProper

/-- What is read of a text is what the expressions on its lines make. -/
theorem read?_of_hasLines (h : HasLines .accepted t es) : read? t = fill? [] es [] := by
  show (readExpressions? ((dropFront? [byteOrderMark] t).getD t)).bind (fill? [] · []) = _
  rw [hasLines_iff.mp h, Option.bind_some]

/-- The reader and the grammar agree. -/
theorem isSome_read?_iff : (read? t).isSome ↔ ∃ es, IsDocument .accepted t es := by
  constructor
  · intro h
    obtain ⟨entries, hread⟩ := Option.isSome_iff_exists.mp h
    obtain ⟨es, hes, _⟩ := Option.bind_eq_some_iff.mp hread
    have hlines := hasLines_iff.mpr hes
    rw [read?_of_hasLines hlines, isSome_fill?_iff hlines.isProper] at h
    exact ⟨es, hlines, h⟩
  · rintro ⟨es, hlines, hconsistent⟩
    rw [read?_of_hasLines hlines, isSome_fill?_iff hlines.isProper]
    exact hconsistent

theorem IsDocument.exists_entries (h : IsDocument .accepted t es) :
    ∃ entries, read? t = some entries ∧ fill? [] es [] = some entries := by
  obtain ⟨entries, hentries⟩ := Option.isSome_iff_exists.mp
    ((isSome_fill?_iff h.lines.isProper).mpr h.consistent)
  exact ⟨entries, (read?_of_hasLines h.lines).trans hentries, hentries⟩

end

end ImportMigration.Toml
