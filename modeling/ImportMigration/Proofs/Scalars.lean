import ImportMigration.Proofs.Moments
import ImportMigration.Proofs.Numbers

/-!
Truth values, dates, times and numbers. No text is two of these, so the order in which the reader
tries them makes no difference (`isScalar_iff`).
-/

namespace ImportMigration.Toml

variable {t u w d : Text} {c : Char} {n : Integer} {x : Value} {y : Float}

/-- A value without quotes or brackets. What whole numbers are is given. -/
inductive IsScalar (IsWhole : Text → Integer → Prop) : Text → Value → Prop where
  | true : IsScalar IsWhole "true".toList (.boolean true)
  | false : IsScalar IsWhole "false".toList (.boolean false)
  | moment {w : Text} (h : Moment.IsMoment w) : IsScalar IsWhole w .moment
  | integer {w : Text} {n : Integer} (h : IsWhole w n) : IsScalar IsWhole w (.integer n)
  | float {w : Text} {y : Float} (h : Number.IsFloat w y) : IsScalar IsWhole w (.float y)

/-! ## Scalars are words -/

theorem isWord_of_isDigit (h : c.isDigit = true) : isWord c = true :=
  isWord_of_isAlphanum (by simp [Char.isAlphanum, h])

namespace Moment

/-- The characters of dates and times. -/
def isPart (c : Char) : Bool :=
  c.isDigit || ['-', ':', '.', '+', 'Z', 'z'].contains c

theorem isWord_of_isPart (h : isPart c = true) : isWord c = true := by
  simp only [isPart, Bool.or_eq_true, List.contains_iff_mem, List.mem_cons, List.not_mem_nil,
    or_false] at h
  rcases h with h | rfl | rfl | rfl | rfl | rfl | rfl
  · exact isWord_of_isDigit h
  all_goals rfl

theorem isPart_of_isDigit (h : c.isDigit = true) : isPart c = true := by
  rw [isPart, h, Bool.true_or]

/-- Parts with a mark between them are made of parts. -/
theorem isPart_append {a b : Text} (ha : ∀ c ∈ a, isPart c = true) (hc : isPart c = true)
    (hb : ∀ c ∈ b, isPart c = true) : ∀ d ∈ a ++ c :: b, isPart d = true := by
  intro d hd
  rcases List.mem_append.mp hd with hd | hd
  · exact ha d hd
  · rcases List.mem_cons.mp hd with rfl | hd
    · exact hc
    · exact hb d hd

theorem IsNumeral.parts {count n : Nat} (h : IsNumeral count t n) : ∀ c ∈ t, isPart c = true :=
  fun c hc => isPart_of_isDigit (h.digits c hc)

theorem IsDate.parts (h : IsDate t) : ∀ c ∈ t, isPart c = true := by
  obtain ⟨hy, hm, hd, _, _⟩ := h
  exact isPart_append hy.parts rfl (isPart_append hm.parts rfl hd.parts)

theorem IsMinute.parts (h : IsMinute t) : ∀ c ∈ t, isPart c = true := by
  obtain ⟨hh, hm, _, _⟩ := h
  exact isPart_append hh.parts rfl hm.parts

theorem IsTime.parts (h : IsTime t) : ∀ c ∈ t, isPart c = true := by
  cases h with
  | minute hm => exact hm.parts
  | second hm hs =>
    refine isPart_append hm.parts rfl ?_
    cases hs with
    | whole hs _ => exact hs.parts
    | fraction hs _ _ hf =>
      exact isPart_append hs.parts rfl fun c hc => isPart_of_isDigit (hf c hc)

theorem IsOffset.parts (h : IsOffset t) : ∀ c ∈ t, isPart c = true := by
  cases h with
  | universal hc => rcases hc with rfl | rfl <;> simp [isPart]
  | minute hc hm =>
    refine List.forall_mem_cons.mpr ⟨?_, hm.parts⟩
    rcases hc with rfl | rfl <;> rfl

theorem IsDate.split (h : IsDate t) :
    ∃ d u, d ≠ [] ∧ (∀ c ∈ d, c.isDigit = true) ∧ t = d ++ '-' :: u := by
  obtain ⟨hy, _, _, _, _⟩ := h
  exact ⟨_, _, List.ne_nil_of_length_eq_add_one hy.length, hy.digits, rfl⟩

theorem IsTime.split (h : IsTime t) :
    ∃ d u, d ≠ [] ∧ (∀ c ∈ d, c.isDigit = true) ∧ t = d ++ ':' :: u := by
  cases h with
  | minute hm =>
    obtain ⟨hh, _, _, _⟩ := hm
    exact ⟨_, _, List.ne_nil_of_length_eq_add_one hh.length, hh.digits, rfl⟩
  | second hm _ =>
    obtain ⟨hh, _, _, _⟩ := hm
    exact ⟨_, _, List.ne_nil_of_length_eq_add_one hh.length, hh.digits,
      by rw [List.append_assoc, List.cons_append]⟩

/-- A date or a time begins with digits, which a hyphen or a colon ends. -/
theorem IsMoment.split (h : IsMoment t) : ∃ d c u, d ≠ [] ∧ (∀ c ∈ d, c.isDigit = true) ∧
    (c = '-' ∨ c = ':') ∧ t = d ++ c :: u := by
  cases h with
  | date hd =>
    obtain ⟨d, u, hne, hdigits, rfl⟩ := hd.split
    exact ⟨d, '-', u, hne, hdigits, .inl rfl, rfl⟩
  | time ht =>
    obtain ⟨d, u, hne, hdigits, rfl⟩ := ht.split
    exact ⟨d, ':', u, hne, hdigits, .inr rfl, rfl⟩
  | both hd _ _ =>
    obtain ⟨d, u, hne, hdigits, rfl⟩ := hd.split
    exact ⟨d, '-', _, hne, hdigits, .inl rfl, by rw [List.append_assoc, List.cons_append]⟩
  | offset hd _ _ _ =>
    obtain ⟨d, u, hne, hdigits, rfl⟩ := hd.split
    exact ⟨d, '-', _, hne, hdigits, .inl rfl, by rw [List.append_assoc, List.cons_append]⟩

theorem isWords_of_parts (h : ∀ c ∈ t, isPart c = true) (hne : t ≠ []) : IsWords t :=
  .word hne fun c hc => isWord_of_isPart (h c hc)

/-- What stands between a date and a time joins them to one word, or is the space between two. -/
theorem isWords_joined (hd : IsDate d) (hc : c ∈ ['T', 't', ' ']) (ht : ∀ c ∈ t, isPart c = true)
    (hhead : t.head?.any Char.isDigit = true) : IsWords (d ++ c :: t) := by
  obtain ⟨e, he, hdigit⟩ := (Option.any_eq_true ..).mp hhead
  obtain ⟨t, rfl⟩ := List.head?_eq_some_iff.mp he
  have hne : d ≠ [] := by
    obtain ⟨d', u, hne, _, rfl⟩ := hd.split
    exact List.append_ne_nil_of_left_ne_nil hne _
  have hword : ∀ c ∈ d, isWord c = true := fun c hc => isWord_of_isPart (hd.parts c hc)
  have htime : ∀ c ∈ e :: t, isWord c = true := fun c hc => isWord_of_isPart (ht c hc)
  by_cases hspace : c = ' '
  · subst hspace
    refine .more (a := [' ']) hne hword (List.cons_ne_nil _ _) (by simp [IsSpaces, isSpace]) ?_
      (.word (List.cons_ne_nil _ _) htime)
    have hstart : e ≠ '.' ∧ e ≠ '"' ∧ e ≠ '\'' := by
      refine ⟨?_, ?_, ?_⟩ <;> (rintro rfl; contradiction)
    simp [startsWord, isWord_of_isDigit hdigit, hstart]
  · refine .word (List.append_ne_nil_of_left_ne_nil hne _) fun c' hc' => ?_
    rcases List.mem_append.mp hc' with hc' | hc'
    · exact hword c' hc'
    · rcases List.mem_cons.mp hc' with rfl | hc'
      · obtain rfl | rfl : c' = 'T' ∨ c' = 't' := by simpa [hspace] using hc
        all_goals rfl
      · exact htime c' hc'

theorem IsTime.head (h : IsTime t) : t.head?.any Char.isDigit = true := by
  obtain ⟨d, u, hne, hdigits, rfl⟩ := h.split
  obtain ⟨c, d, rfl⟩ := List.exists_cons_of_ne_nil hne
  exact hdigits c List.mem_cons_self

theorem IsMoment.words (h : IsMoment t) : IsWords t := by
  cases h with
  | date hd =>
    obtain ⟨d, u, _, _, rfl⟩ := hd.split
    exact isWords_of_parts hd.parts (by simp)
  | time ht =>
    obtain ⟨d, u, _, _, rfl⟩ := ht.split
    exact isWords_of_parts ht.parts (by simp)
  | both hd hc ht => exact isWords_joined hd hc ht.parts ht.head
  | @offset d t o c hd hc ht ho =>
    refine isWords_joined hd hc (fun c hc => ?_) ?_
    · rcases List.mem_append.mp hc with hc | hc
      · exact ht.parts c hc
      · exact ho.parts c hc
    · obtain ⟨c, hc, hdigit⟩ := (Option.any_eq_true ..).mp ht.head
      rw [List.head?_append, hc]
      exact hdigit

end Moment

namespace Number

variable {p s digits : Text} {base : Nat} {sign : Option Sign} {e : Int}

theorem IsSign.words (hs : IsSign s sign) : ∀ c ∈ s, isWord c = true := by
  cases hs <;> simp [isWord, isSpace, delimiters]

theorem IsDigits.words (h : IsDigits base p digits) : ∀ c ∈ p, isWord c = true := by
  intro c hc
  rcases h.chars c hc with hc | rfl
  · exact isWord_of_isAlphanum (isAlphanum_of_isDigit hc)
  · rfl

theorem IsDigits.ne_nil' (h : IsDigits base p digits) : p ≠ [] := by
  cases h <;> simp

theorem isWord_of_mem_bases (h : (c, base) ∈ bases) : isWord c = true := by
  simp only [bases, List.mem_cons, Prod.mk.injEq, List.not_mem_nil, or_false] at h
  rcases h with ⟨rfl, _⟩ | ⟨rfl, _⟩ | ⟨rfl, _⟩ <;> rfl

theorem IsWhole.words (h : IsWhole t n) : IsWords t := by
  cases h with
  | decimal hs hp _ =>
    refine .word (List.append_ne_nil_of_right_ne_nil _ hp.ne_nil') fun c hc => ?_
    exact (List.mem_append.mp hc).elim (hs.words c) (hp.words c)
  | based hbase hp =>
    refine .word (List.cons_ne_nil _ _) (List.forall_mem_cons.mpr ⟨rfl, ?_⟩)
    exact List.forall_mem_cons.mpr ⟨isWord_of_mem_bases hbase, hp.words⟩

theorem IsLooseWhole.words (h : IsLooseWhole t n) : IsWords t := by
  cases h with
  | whole h => exact h.words
  | bare hbase =>
    refine .word (List.cons_ne_nil _ _) (List.forall_mem_cons.mpr ⟨rfl, ?_⟩)
    exact List.forall_mem_cons.mpr ⟨isWord_of_mem_bases hbase, List.forall_mem_nil _⟩
  | grouped _ _ _ _ _ hwords => exact hwords

theorem IsFraction.words (h : IsFraction p digits) : ∀ c ∈ p, isWord c = true := by
  cases h with
  | none => exact List.forall_mem_nil _
  | digits hp => exact List.forall_mem_cons.mpr ⟨rfl, hp.words⟩

theorem IsExponent.words (h : IsExponent p e) : ∀ c ∈ p, isWord c = true := by
  cases h with
  | none => exact List.forall_mem_nil _
  | digits hc hs hp =>
    refine List.forall_mem_cons.mpr ⟨?_, fun c hc => ?_⟩
    · simp only [List.mem_cons, List.not_mem_nil, or_false] at hc
      rcases hc with rfl | rfl <;> rfl
    · exact (List.mem_append.mp hc).elim (hs.words c) (hp.words c)

theorem IsFloat.words (h : IsFloat t y) : IsWords t := by
  cases h with
  | infinity hs =>
    refine .word (by simp) fun c hc => ?_
    exact (List.mem_append.mp hc).elim (hs.words c) (List.all_eq_true.mp rfl c)
  | nan hs =>
    refine .word (by simp) fun c hc => ?_
    exact (List.mem_append.mp hc).elim (hs.words c) (List.all_eq_true.mp rfl c)
  | decimal hs hw _ hf hx _ =>
    refine .word ?_ fun c hc => ?_
    · exact List.append_ne_nil_of_right_ne_nil _ (List.append_ne_nil_of_left_ne_nil hw.ne_nil' _)
    · rcases List.mem_append.mp hc with hc | hc
      · exact hs.words c hc
      · rcases List.mem_append.mp hc with hc | hc
        · exact hw.words c hc
        · exact (List.mem_append.mp hc).elim (hf.words c) (hx.words c)

/-! ## No scalar is another -/

/-- A text that begins with digits has no sign. -/
theorem IsSign.eq_nil (hs : IsSign s sign) (hd : d ≠ []) (hdigits : ∀ c ∈ d, c.isDigit = true)
    (h : s ++ t = d ++ u) : s = [] := by
  obtain ⟨c, d, rfl⟩ := List.exists_cons_of_ne_nil hd
  have hc := hdigits c List.mem_cons_self
  cases hs with
  | none => rfl
  | plus =>
    rw [← (List.cons.inj h).1] at hc
    contradiction
  | minus =>
    rw [← (List.cons.inj h).1] at hc
    contradiction

/-- Digits that something else follows end at one place only. -/
theorem eq_of_digits_append {a b : Text} (ha : ∀ c ∈ a, c.isDigit = true)
    (hb : ∀ c ∈ b.head?, c.isDigit = false) (hd : ∀ c ∈ d, c.isDigit = true)
    (hc : c.isDigit = false) (h : a ++ b = d ++ c :: u) : b = c :: u := by
  rw [← dropWhile_append_of_head ha hb, h]
  exact dropWhile_append_of_head hd (by simpa using hc)

theorem isDigit_of_mem_bases (h : (c, base) ∈ bases) :
    c.isDigit = false ∧ c ∈ ['_', 'x', 'o', 'b'] := by
  simp only [bases, List.mem_cons, Prod.mk.injEq, List.not_mem_nil, or_false] at h
  rcases h with ⟨rfl, _⟩ | ⟨rfl, _⟩ | ⟨rfl, _⟩ <;> exact ⟨rfl, by simp⟩

/-- The digits of a whole number end at an underscore or at the letter of a base. -/
theorem mem_of_integer? (h : integer? t = some n) (hne : d ≠ []) (hd : ∀ c ∈ d, c.isDigit = true)
    (hc : c.isDigit = false) (ht : t = d ++ c :: u) : c ∈ ['_', 'x', 'o', 'b'] := by
  by_cases hbased : ∃ c base u, (c, base) ∈ bases ∧ t = '0' :: c :: u
  · obtain ⟨c', base, u', hbase, rfl⟩ := hbased
    obtain ⟨hdigit, hmem⟩ := isDigit_of_mem_bases hbase
    have hrest : c' :: u' = c :: u :=
      eq_of_digits_append (a := ['0']) (by simp) (by simpa using hdigit) hd hc ht
    rwa [← (List.cons.inj hrest).1]
  · rw [integer?_decimal fun c base u hbase heq => hbased ⟨c, base, u, hbase, heq⟩] at h
    obtain ⟨s, sign, first, groups, hs, rfl, _, _, hfirst, _, _⟩ := of_decimal? h
    obtain rfl := hs.eq_nil hne hd ht
    cases groups with
    | nil =>
      have hrest : [] = c :: u :=
        eq_of_digits_append hfirst (by simp) hd hc (by simpa using ht)
      contradiction
    | cons g groups =>
      rw [List.nil_append, List.intercalate_cons_cons, List.append_assoc] at ht
      have hrest := eq_of_digits_append hfirst (by simp) hd hc ht
      rw [← (List.cons.inj hrest).1]
      exact List.mem_cons_self

/-- A decimal number has a point or an exponent mark behind its whole part. -/
theorem head_of_fraction {f x : Text} (hf : IsFraction f digits) (hx : IsExponent x e)
    (hne : f ++ x ≠ []) : ∃ m v, f ++ x = m :: v ∧ m ∈ ['.', 'e', 'E'] := by
  cases hf with
  | none =>
    cases hx with
    | none => exact absurd rfl hne
    | digits hc _ _ => exact ⟨_, _, rfl, List.mem_cons_of_mem _ hc⟩
  | digits _ => exact ⟨_, _, rfl, List.mem_cons_self⟩

theorem not_isDigit_of_mark (h : c ∈ ['_', '.', 'e', 'E']) : c.isDigit = false := by
  simp only [List.mem_cons, List.not_mem_nil, or_false] at h
  rcases h with rfl | rfl | rfl | rfl <;> rfl

/-- The digits of a floating-point number end at an underscore, the point or the exponent mark. -/
theorem IsFloat.mem_of_digits (h : IsFloat t y) (hne : d ≠ []) (hd : ∀ c ∈ d, c.isDigit = true)
    (hc : c.isDigit = false) (ht : t = d ++ c :: u) : c ∈ ['_', '.', 'e', 'E'] := by
  have hword : ∀ {v : Text}, v.head?.any Char.isDigit = false → v ≠ d ++ c :: u := by
    rintro _ hv rfl
    obtain ⟨c', d, rfl⟩ := List.exists_cons_of_ne_nil hne
    rw [List.cons_append, List.head?_cons, Option.any_some, hd c' List.mem_cons_self] at hv
    contradiction
  cases h with
  | infinity hs =>
    obtain rfl := hs.eq_nil hne hd ht
    exact absurd ht (hword rfl)
  | nan hs =>
    obtain rfl := hs.eq_nil hne hd ht
    exact absurd ht (hword rfl)
  | @decimal s w f x whole fraction sign e hs hw _ hf hx hne' =>
    obtain rfl := hs.eq_nil hne hd ht
    obtain ⟨m, v, hmark, hm⟩ := head_of_fraction hf hx hne'
    obtain ⟨hsplit, hdigits⟩ := eq_takeWhile_append Char.isDigit w
    -- An underscore ends the first digits of the whole part, or its end does.
    have hafter : ∃ m v, w.dropWhile Char.isDigit ++ (f ++ x) = m :: v ∧
        m ∈ ['_', '.', 'e', 'E'] := by
      cases hrest : w.dropWhile Char.isDigit with
      | nil => exact ⟨m, v, by rw [hmark, List.nil_append], List.mem_cons_of_mem _ hm⟩
      | cons m' rest =>
        refine ⟨m', rest ++ (f ++ x), rfl, ?_⟩
        have hnot := head?_dropWhile_eq_false Char.isDigit w m' (by rw [hrest]; rfl)
        rcases hw.chars m' (by rw [hsplit, hrest]; simp) with hdigit | rfl
        · rw [isDigit_ten, hnot] at hdigit
          contradiction
        · exact List.mem_cons_self
    obtain ⟨m', v', hafter, hm'⟩ := hafter
    have hrest := eq_of_digits_append (b := w.dropWhile Char.isDigit ++ (f ++ x)) hdigits
      (by rw [hafter]; simpa using not_isDigit_of_mark hm') hd hc
      (by rw [← List.append_assoc, ← hsplit]; exact ht)
    rw [hafter] at hrest
    rwa [← (List.cons.inj hrest).1]

theorem IsFloat.integer?_eq_none (h : IsFloat t y) : integer? t = none := by
  by_contra hsome
  obtain ⟨n, hn⟩ := Option.ne_none_iff_exists'.mp hsome
  by_cases hbased : ∃ c base u, (c, base) ∈ bases ∧ t = '0' :: c :: u
  · obtain ⟨c, base, u, hbase, rfl⟩ := hbased
    have hmem := h.mem_of_digits (d := ['0']) (by simp) (by simp) (isDigit_of_mem_bases hbase).1 rfl
    simp only [bases, List.mem_cons, Prod.mk.injEq, List.not_mem_nil, or_false] at hbase
    rcases hbase with ⟨rfl, _⟩ | ⟨rfl, _⟩ | ⟨rfl, _⟩ <;> simp at hmem
  · rw [integer?_decimal fun c base u hbase heq => hbased ⟨c, base, u, hbase, heq⟩] at hn
    cases h with
    | infinity hs => cases hs <;> contradiction
    | nan hs => cases hs <;> contradiction
    | @decimal s w f x whole fraction sign e _ _ _ hf hx hne =>
      obtain ⟨m, v, hmark, hm⟩ := head_of_fraction hf hx hne
      obtain ⟨s', sign', first, groups, hs', ht, _, _, hfirst, _, hgroups⟩ := of_decimal? hn
      have hmem : m ∈ s' ++ ['_'].intercalate (first :: groups) := by
        rw [← ht, hmark]
        simp
      rcases List.mem_append.mp hmem with hmem | hmem
      · cases hs' with
        | none => contradiction
        | plus =>
          obtain rfl := List.mem_singleton.mp hmem
          simp at hm
        | minus =>
          obtain rfl := List.mem_singleton.mp hmem
          simp at hm
      · rcases mem_intercalate hmem with rfl | ⟨g, hg, hmemg⟩
        · simp at hm
        · rcases List.mem_cons.mp hg with rfl | hg
          · have hdigit := hfirst m hmemg
            rw [not_isDigit_of_mark (List.mem_cons_of_mem _ hm)] at hdigit
            contradiction
          · exact hgroups.chars g hg m hmemg (List.mem_cons_of_mem _ (List.mem_cons_of_mem _ hm))

end Number

namespace Moment

theorem IsMoment.integer?_eq_none (h : IsMoment t) : Number.integer? t = none := by
  by_contra hsome
  obtain ⟨n, hn⟩ := Option.ne_none_iff_exists'.mp hsome
  obtain ⟨d, c, u, hne, hd, rfl | rfl, ht⟩ := h.split
  all_goals
    have hmem := Number.mem_of_integer? hn hne hd rfl ht
    simp at hmem

theorem not_isMoment_of_isFloat (h : Number.IsFloat t y) : ¬ IsMoment t := by
  intro hmoment
  obtain ⟨d, c, u, hne, hd, rfl | rfl, ht⟩ := hmoment.split
  all_goals
    have hmem := h.mem_of_digits hne hd rfl ht
    simp at hmem

end Moment

/-- The reader tries truth values first, then dates and times, and then numbers. -/
theorem wordValue?_eq (htrue : w ≠ "true".toList) (hfalse : w ≠ "false".toList) :
    wordValue? w = if Moment.isMoment w then some .moment
      else (Number.integer? w).map .integer <|> (Number.float? w).map .float := by
  rw [wordValue?, if_neg htrue, if_neg hfalse]

/-- The reader finds just the scalars of the grammar with whole numbers that are loosely written. -/
theorem isScalar_iff :
    IsScalar Number.IsLooseWhole w x ↔ IsWords w ∧ wordValue? w = some x := by
  constructor
  · intro h
    cases h with
    | true => exact ⟨.word (by simp) (List.all_eq_true.mp rfl), rfl⟩
    | false => exact ⟨.word (by simp) (List.all_eq_true.mp rfl), rfl⟩
    | moment h =>
      have hmoment := Moment.isMoment_iff.mpr h
      refine ⟨h.words, ?_⟩
      rw [wordValue?_eq (by rintro rfl; contradiction) (by rintro rfl; contradiction),
        if_pos hmoment]
    | integer h =>
      have hinteger := (Number.integer?_eq_some_iff h.words).mpr h
      have hmoment : ¬ Moment.isMoment w = true := by
        intro hmoment
        rw [(Moment.isMoment_iff.mp hmoment).integer?_eq_none] at hinteger
        contradiction
      refine ⟨h.words, ?_⟩
      rw [wordValue?_eq (by rintro rfl; contradiction) (by rintro rfl; contradiction),
        if_neg hmoment, hinteger]
      rfl
    | float h =>
      have hfloat := Number.float?_eq_some_iff.mpr h
      have hmoment : ¬ Moment.isMoment w = true := fun hmoment =>
        Moment.not_isMoment_of_isFloat h (Moment.isMoment_iff.mp hmoment)
      refine ⟨h.words, ?_⟩
      rw [wordValue?_eq (by rintro rfl; contradiction) (by rintro rfl; contradiction),
        if_neg hmoment, h.integer?_eq_none, hfloat]
      rfl
  · rintro ⟨hwords, h⟩
    unfold wordValue? at h
    split at h
    · rename_i hw
      cases h
      rw [hw]
      exact .true
    · split at h
      · rename_i hw
        cases h
        rw [hw]
        exact .false
      · split at h
        · rename_i hmoment
          cases h
          exact .moment (Moment.isMoment_iff.mp hmoment)
        · rw [Option.orElse_eq_orElse, Option.orElse_eq_or, Option.or_eq_some_iff] at h
          rcases h with h | ⟨_, h⟩
          · obtain ⟨n, hn, rfl⟩ := Option.map_eq_some_iff.mp h
            exact .integer ((Number.integer?_eq_some_iff hwords).mp hn)
          · obtain ⟨y, hy, rfl⟩ := Option.map_eq_some_iff.mp h
            exact .float (Number.float?_eq_some_iff.mp hy)

/-- Every scalar of one grammar is one of another that has its whole numbers. -/
theorem IsScalar.imp {P Q : Text → Integer → Prop} (h : ∀ {w n}, P w n → Q w n)
    (hw : IsScalar P w x) : IsScalar Q w x := by
  cases hw with
  | true => exact .true
  | false => exact .false
  | moment hm => exact .moment hm
  | integer hn => exact .integer (h hn)
  | float hy => exact .float hy

end ImportMigration.Toml
