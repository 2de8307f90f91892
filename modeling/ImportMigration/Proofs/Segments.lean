import ImportMigration.Text.Basic

/-!
A text cut at its quotes. The segments of a text are what stands before its first quote and what
stands after each quote as far as the next one. With the quotes between them they make up the text
(`cut_append_flat`).
-/

namespace ImportMigration.Import

open Text

/-- A quote with the segment after it. -/
abbrev Quoted := Char × Text

def QuoteFree (t : Text) : Prop := ∀ c ∈ t, isQuote c = false

-- By the list: there is an instance that asks all characters, too.
instance (t : Text) : Decidable (QuoteFree t) :=
  List.decidableBAll (isQuote · = false) t

/-- The text that quotes and their segments make up. -/
def flat (l : List Quoted) : Text := l.flatMap fun x => x.1 :: x.2

/-- The first segment of a text, and the quotes that follow with their segments. -/
def cut : Text → Text × List Quoted
  | [] => ([], [])
  | c :: t =>
    if isQuote c then ([], (c, (cut t).1) :: (cut t).2) else (c :: (cut t).1, (cut t).2)

def segments (t : Text) : List Text := (cut t).1 :: (cut t).2.map Prod.snd

structure IsCut (s : Text) (l : List Quoted) : Prop where
  head : QuoteFree s
  quote : ∀ x ∈ l, isQuote x.1 = true
  segment : ∀ x ∈ l, QuoteFree x.2

@[simp] theorem QuoteFree.nil : QuoteFree [] := by simp [QuoteFree]

@[simp] theorem quoteFree_cons {c : Char} {t : Text} :
    QuoteFree (c :: t) ↔ isQuote c = false ∧ QuoteFree t := by
  simp [QuoteFree]

@[simp] theorem quoteFree_append {s t : Text} :
    QuoteFree (s ++ t) ↔ QuoteFree s ∧ QuoteFree t := by
  constructor
  · intro h
    exact ⟨fun c hc => h c (List.mem_append_left _ hc),
      fun c hc => h c (List.mem_append_right _ hc)⟩
  · intro he c hc
    obtain ⟨hs, ht⟩ := he
    exact (List.mem_append.mp hc).elim (hs c) (ht c)

@[simp] theorem flat_nil : flat [] = [] := rfl

@[simp] theorem flat_cons (q : Char) (y : Text) (l : List Quoted) :
    flat ((q, y) :: l) = q :: (y ++ flat l) := rfl

theorem cut_quote {c : Char} (hc : isQuote c = true) (t : Text) :
    cut (c :: t) = ([], (c, (cut t).1) :: (cut t).2) := by
  simp [cut, hc]

theorem cut_plain {c : Char} (hc : isQuote c = false) (t : Text) :
    cut (c :: t) = (c :: (cut t).1, (cut t).2) := by
  simp [cut, hc]

/-- The segments with the quotes between them make up the text. -/
theorem cut_append_flat (t : Text) : (cut t).1 ++ flat (cut t).2 = t := by
  induction t with
  | nil => rfl
  | cons c t ih =>
    cases hc : isQuote c with
    | true => simp [cut_quote hc, ih]
    | false => simp [cut_plain hc, ih]

theorem isCut_cut (t : Text) : IsCut (cut t).1 (cut t).2 := by
  induction t with
  | nil => exact ⟨.nil, by simp [cut], by simp [cut]⟩
  | cons c t ih =>
    cases hc : isQuote c with
    | true =>
      rw [cut_quote hc]
      refine ⟨.nil, by simpa [hc] using ih.quote, ?_⟩
      simpa using ⟨ih.head, by simpa using ih.segment⟩
    | false =>
      rw [cut_plain hc]
      exact ⟨quoteFree_cons.mpr ⟨hc, ih.head⟩, ih.quote, ih.segment⟩

theorem cut_append_of_quoteFree {s : Text} (hs : QuoteFree s) (t : Text) :
    cut (s ++ t) = (s ++ (cut t).1, (cut t).2) := by
  induction s with
  | nil => rfl
  | cons c s ih =>
    obtain ⟨hc, hs⟩ := quoteFree_cons.mp hs
    rw [List.cons_append, cut_plain hc, ih hs]
    rfl

/-- What stands before a quote is a segment of its own. -/
theorem cut_append_quote {s : Text} (hs : QuoteFree s) {q : Char} (hq : isQuote q = true)
    (t : Text) : cut (s ++ q :: t) = (s, (q, (cut t).1) :: (cut t).2) := by
  rw [cut_append_of_quoteFree hs, cut_quote hq]
  simp

theorem segments_quote {c : Char} (hc : isQuote c = true) (t : Text) :
    segments (c :: t) = [] :: segments t := by
  simp [segments, cut_quote hc]

theorem segments_append_of_quoteFree {s : Text} (hs : QuoteFree s) (t : Text) :
    segments (s ++ t) = (s ++ (cut t).1) :: (cut t).2.map Prod.snd := by
  simp [segments, cut_append_of_quoteFree hs]

theorem segments_of_quoteFree {s : Text} (hs : QuoteFree s) : segments s = [s] := by
  simpa [cut] using segments_append_of_quoteFree hs []

/-- A quote divides the segments as it divides the text. -/
theorem segments_append_quote (s : Text) {q : Char} (hq : isQuote q = true) (t : Text) :
    segments (s ++ q :: t) = segments s ++ segments t := by
  induction s with
  | nil => exact segments_quote hq t
  | cons c s ih =>
    cases hc : isQuote c with
    | true => rw [List.cons_append, segments_quote hc, segments_quote hc, ih, List.cons_append]
    | false =>
      simp only [segments, List.cons_append, cut_plain hc, List.cons.injEq] at ih ⊢
      exact ⟨⟨trivial, ih.1⟩, ih.2⟩

@[simp] theorem length_segments (t : Text) : (segments t).length = t.countP isQuote + 1 := by
  induction t with
  | nil => rfl
  | cons c t ih =>
    cases hc : isQuote c with
    | true => simp [segments_quote hc, ih, hc]
    | false => simpa [segments, cut_plain hc, hc] using ih

theorem QuoteFree.countP_eq {t : Text} (h : QuoteFree t) : t.countP isQuote = 0 := by
  rw [List.countP_eq_zero]
  intro c hc
  simp [h c hc]

theorem exists_last_quote (t : Text) :
    QuoteFree t ∨ ∃ s q w, t = s ++ q :: w ∧ isQuote q = true ∧ QuoteFree w := by
  induction t with
  | nil => exact .inl .nil
  | cons c t ih =>
    rcases ih with ht | ⟨s, q, w, rfl, hq, hw⟩
    · cases hc : isQuote c with
      | true => exact .inr ⟨[], c, t, rfl, hc, ht⟩
      | false => exact .inl (quoteFree_cons.mpr ⟨hc, ht⟩)
    · exact .inr ⟨c :: s, q, w, rfl, hq, hw⟩

/-- The quotes of a text. The one at `i` closes segment `i`. -/
def quotes (t : Text) : List Char := t.filter isQuote

theorem map_fst_cut (t : Text) : (cut t).2.map Prod.fst = quotes t := by
  induction t with
  | nil => rfl
  | cons c t ih =>
    cases hc : isQuote c with
    | true => simpa [cut_quote hc, quotes, hc] using ih
    | false => simpa [cut_plain hc, quotes, hc] using ih

theorem length_segments_eq (t : Text) : (segments t).length = (quotes t).length + 1 := by
  rw [length_segments, quotes, List.countP_eq_length_filter]

theorem quotes_append (s t : Text) : quotes (s ++ t) = quotes s ++ quotes t :=
  List.filter_append s t

theorem QuoteFree.quotes_eq {t : Text} (h : QuoteFree t) : quotes t = [] := by
  rw [quotes, List.filter_eq_nil_iff]
  intro c hc
  simp [h c hc]

/-- Segments and quotes make up a text. -/
theorem eq_of_segments_of_quotes {t t' : Text} (hs : segments t = segments t')
    (hq : quotes t = quotes t') : t = t' := by
  obtain ⟨hhead, htail⟩ := List.cons.inj hs
  rw [← map_fst_cut, ← map_fst_cut] at hq
  have hl : (cut t).2 = (cut t').2 := by
    rw [← List.zip_unzip (cut t).2, ← List.zip_unzip (cut t').2]
    simp only [List.unzip_eq_map, htail, hq]
  rw [← cut_append_flat t, ← cut_append_flat t', hhead, hl]

end ImportMigration.Import
