import ImportMigration.Proofs.Blanks
import ImportMigration.Toml.Document

/-!
Words and the values they have. A value begins with a letter, a digit or a sign, so neither a blank
nor a control character can be taken for one.
-/

namespace ImportMigration.Toml

variable {t w rest : Text} {c : Char}

/-- Words with spaces between them, of which no further one begins with a point or a quote. -/
inductive IsWords : Text → Prop where
  | word {w : Text} (hne : w ≠ []) (hw : ∀ c ∈ w, isWord c = true) : IsWords w
  | more {w a u : Text} (hne : w ≠ []) (hw : ∀ c ∈ w, isWord c = true) (ha : a ≠ [])
    (hspaces : IsSpaces a) (hstart : startsWord u = true) (hu : IsWords u) :
    IsWords (w ++ (a ++ u))

theorem isWord_of_isAlphanum (h : c.isAlphanum = true) : isWord c = true := by
  have hspace : isSpace c = false := by
    cases hs : isSpace c with
    | false => rfl
    | true =>
      simp only [isSpace, Bool.or_eq_true, beq_iff_eq] at hs
      rcases hs with rfl | rfl <;> exact absurd h (by decide)
  have hdelimiter : c ∉ delimiters := by
    intro hc
    simp only [delimiters, List.mem_cons, List.not_mem_nil, or_false] at hc
    rcases hc with rfl | rfl | rfl | rfl | rfl | rfl | rfl | rfl | rfl <;>
      exact absurd h (by decide)
  simp [isWord, hspace, hdelimiter]

theorem IsWords.ne_nil (hw : IsWords w) : w ≠ [] := by
  cases hw with
  | word hne _ => exact hne
  | more hne _ _ _ _ _ => exact List.append_ne_nil_of_left_ne_nil hne _

/-- The end of the text or a delimiter, perhaps with spaces before it. -/
def Follows (rest : Text) : Prop :=
  ∀ c ∈ (skipSpaces rest).head?, c ∈ delimiters

theorem not_isSpace_of_mem_delimiters (h : c ∈ delimiters) : isSpace c = false := by
  simp only [delimiters, List.mem_cons, List.not_mem_nil, or_false] at h
  rcases h with rfl | rfl | rfl | rfl | rfl | rfl | rfl | rfl | rfl <;> rfl

theorem not_isSpace_of_isWord (h : isWord c = true) : isSpace c = false := by
  simp only [isWord, Bool.and_eq_true, Bool.not_eq_true'] at h
  exact h.1

theorem Follows.not_isWord (h : Follows rest) : ∀ c ∈ rest.head?, isWord c = false := by
  intro c hc
  obtain ⟨rest, rfl⟩ := List.head?_eq_some_iff.mp (Option.mem_def.mp hc)
  cases hspace : isSpace c with
  | true => simp [isWord, hspace]
  | false =>
    have hmem : c ∈ delimiters := by
      refine h c ?_
      rw [skipSpaces, List.dropWhile_cons_of_neg (by simp [hspace])]
      rfl
    simp [isWord, hmem]

theorem Follows.startsWord_eq_false (h : Follows rest) : startsWord (skipSpaces rest) = false := by
  unfold startsWord
  cases hc : (skipSpaces rest).head? with
  | none => rfl
  | some c =>
    have hmem : c ∈ delimiters := h c hc
    simp [isWord, hmem]

/-- Words are taken off the front of a text, and no more, if nothing follows that is one. -/
theorem takeWords_append (hw : IsWords w) (hrest : Follows rest) :
    takeWords (w ++ rest) = (w, rest) := by
  induction hw with
  | @word w hne hw =>
    rw [takeWords, dropWhile_append_of_head hw hrest.not_isWord,
      takeWhile_append_of_head hw hrest.not_isWord]
    simp [hrest.startsWord_eq_false]
  | @more w a u hne hw ha hspaces hstart hu ih =>
    obtain ⟨c, u', rfl⟩ : ∃ c u', u = c :: u' := by
      cases u with
      | nil => nomatch hstart
      | cons c u' => exact ⟨c, u', rfl⟩
    have hc : isWord c = true := by
      simp only [startsWord, List.head?_cons, Option.any_some, Bool.and_eq_true] at hstart
      exact hstart.1.1.1
    have hhead : ∀ d ∈ (a ++ (c :: u' ++ rest)).head?, isWord d = false := by
      cases a with
      | nil => exact absurd rfl ha
      | cons d a =>
        intro e he
        cases he
        simp [isWord, hspaces d List.mem_cons_self]
    have hspace : ∀ d ∈ (c :: u' ++ rest).head?, isSpace d = false := by
      intro d hd
      cases hd
      exact not_isSpace_of_isWord hc
    have hstart' : startsWord (c :: u' ++ rest) = true := hstart
    rw [List.append_assoc, List.append_assoc, takeWords, dropWhile_append_of_head hw hhead,
      takeWhile_append_of_head hw hhead, skipSpaces_append hspaces hspace,
      takeWhile_append_of_head hspaces hspace]
    simp only [hstart', ih]
    simp

theorem takeWords_split (t : Text) : t = (takeWords t).1 ++ (takeWords t).2 := by
  fun_induction takeWords t with
  | case1 t rest hstart words after hwords ih =>
    rw [hwords] at ih
    calc t = t.takeWhile isWord ++ rest := (eq_takeWhile_append isWord t).1
      _ = t.takeWhile isWord ++ (rest.takeWhile isSpace ++ skipSpaces rest) :=
        congrArg (t.takeWhile isWord ++ ·) (eq_takeWhile_append isSpace rest).1
      _ = t.takeWhile isWord ++ rest.takeWhile isSpace ++ words ++ after := by
        rw [ih]
        simp only [List.append_assoc]
  | case2 t rest hstart => exact (eq_takeWhile_append isWord t).1

/-- What is taken off a text that begins with a word is made of words. -/
theorem isWords_of_takeWords (ht : t.head?.any isWord = true) : IsWords (takeWords t).1 := by
  have hword : ∀ {t : Text}, t.head?.any isWord = true → t.takeWhile isWord ≠ [] := by
    intro t ht
    obtain ⟨c, hc, hword⟩ := (Option.any_eq_true ..).mp ht
    obtain ⟨u, rfl⟩ := List.head?_eq_some_iff.mp hc
    simp [hword]
  fun_induction takeWords t with
  | case1 t rest hstart words after hwords ih =>
    have hhead : (skipSpaces rest).head?.any isWord = true := by
      obtain ⟨c, hc, h⟩ := (Option.any_eq_true ..).mp hstart
      simp only [Bool.and_eq_true] at h
      exact (Option.any_eq_true ..).mpr ⟨c, hc, h.1.1.1⟩
    have hu := ih hhead
    have hsplit := takeWords_split (skipSpaces rest)
    rw [hwords] at hu hsplit
    have hstart' : startsWord words = true := by
      cases words with
      | nil => exact absurd rfl hu.ne_nil
      | cons _ _ =>
        rw [hsplit] at hstart
        exact hstart
    rw [List.append_assoc]
    refine .more (hword ht) (eq_takeWhile_append isWord t).2 ?_
      (eq_takeWhile_append isSpace rest).2 hstart' hu
    -- Without spaces in between, the word would not have ended there.
    intro hnil
    have hsame : rest = skipSpaces rest := by
      have h := (eq_takeWhile_append isSpace rest).1
      rwa [hnil, List.nil_append] at h
    obtain ⟨c, hc, hc'⟩ := (Option.any_eq_true ..).mp hhead
    rw [← hsame] at hc
    rw [head?_dropWhile_eq_false isWord t c hc] at hc'
    nomatch hc'
  | case2 t rest hstart => exact .word (hword ht) (eq_takeWhile_append isWord t).2

/-- The text begins with a letter, a digit or a sign. -/
def StartsValue (t : Text) : Prop :=
  ∃ c, t.head? = some c ∧ (c.isAlphanum = true ∨ c = '+' ∨ c = '-')

namespace Number

theorem startsValue_of_takeSign (h : StartsValue (takeSign t).2) : StartsValue t := by
  unfold takeSign at h
  split at h
  · exact ⟨'+', rfl, .inr (.inl rfl)⟩
  · exact ⟨'-', rfl, .inr (.inr rfl)⟩
  · exact h

theorem isAlphanum_of_isDigit {base : Nat} (h : isDigit base c = true) : c.isAlphanum = true := by
  have hsome : Quoted.hexDigit? c ≠ none := by
    intro hnone
    rw [isDigit, hnone] at h
    nomatch h
  simp only [Quoted.hexDigit?, Char.isDigit, Char.le_def] at hsome
  delta Char.isAlphanum Char.isAlpha Char.isUpper Char.isLower Char.isDigit
  grind

/-- The first of the pieces between underscores begins as the text does. -/
theorem head?_of_splitOn {first : Text} {groups : List Text}
    (h : t.splitOn '_' = first :: groups) (hne : first ≠ []) : t.head? = first.head? := by
  cases t with
  | nil =>
    rw [List.splitOn_nil] at h
    exact absurd (List.cons.inj h).1.symm hne
  | cons c t =>
    rw [List.splitOn, List.splitOnP_cons_eq_if_modifyHead] at h
    split at h
    · exact absurd (List.cons.inj h).1.symm hne
    · cases hs : t.splitOnP (· == '_') with
      | nil => exact absurd hs (by simp)
      | cons piece pieces =>
        rw [hs, List.modifyHead_cons] at h
        rw [← (List.cons.inj h).1]
        rfl

theorem startsValue_of_digits? {base : Nat} {digits : Text} (h : digits? base t = some digits) :
    StartsValue t := by
  unfold digits? at h
  simp only at h
  split at h
  · rename_i hall
    cases hs : t.splitOn '_' with
    | nil => exact absurd hs (by simp)
    | cons first groups =>
      rw [hs] at hall
      simp only [List.all_cons, Bool.and_eq_true, Bool.not_eq_true'] at hall
      obtain ⟨⟨hne, hdigits⟩, _⟩ := hall
      cases first with
      | nil => nomatch hne
      | cons c first =>
        rw [List.all_cons, Bool.and_eq_true] at hdigits
        exact ⟨c, head?_of_splitOn hs (by simp), .inl (isAlphanum_of_isDigit hdigits.1)⟩
  · nomatch h

theorem startsValue_of_decimal? {n : Integer} (h : decimal? t = some n) : StartsValue t := by
  unfold decimal? at h
  refine startsValue_of_takeSign ?_
  generalize takeSign t = found at h ⊢
  simp only at h
  split at h
  · nomatch h
  · rename_i first groups hs
    split at h
    · rename_i hall
      simp only [Bool.and_eq_true, Bool.not_eq_true'] at hall
      obtain ⟨⟨⟨⟨hne, hdigits⟩, _⟩, _⟩, _⟩ := hall
      cases first with
      | nil => nomatch hne
      | cons c first =>
        rw [List.all_cons, Bool.and_eq_true] at hdigits
        refine ⟨c, head?_of_splitOn hs (by simp), .inl ?_⟩
        simp [Char.isAlphanum, hdigits.1]
    · nomatch h

theorem startsValue_of_integer? {n : Integer} (h : integer? t = some n) : StartsValue t := by
  unfold integer? at h
  split at h
  · exact ⟨'0', rfl, .inl rfl⟩
  · exact ⟨'0', rfl, .inl rfl⟩
  · exact ⟨'0', rfl, .inl rfl⟩
  · exact startsValue_of_decimal? h

theorem startsValue_of_float? {f : Float} (h : float? t = some f) : StartsValue t := by
  unfold float? at h
  refine startsValue_of_takeSign ?_
  generalize takeSign t = found at h ⊢
  simp only at h
  split at h
  · rename_i hinf
    exact ⟨'i', by rw [hinf]; rfl, .inl rfl⟩
  · split at h
    · rename_i hnan
      exact ⟨'n', by rw [hnan]; rfl, .inl rfl⟩
    · obtain ⟨whole, hwhole, _⟩ := Option.bind_eq_some_iff.mp h
      obtain ⟨c, hc, hstart⟩ := startsValue_of_digits? (Option.filter_eq_some_iff.mp hwhole).1
      refine ⟨c, ?_, hstart⟩
      rw [List.head?_takeWhile, List.head?_takeWhile] at hc
      exact (Option.filter_eq_some_iff.mp (Option.filter_eq_some_iff.mp hc).1).1

end Number

namespace Moment

theorem startsValue_of_readDigits? {count n : Nat}
    (h : readDigits? (count + 1) t = some (n, rest)) : StartsValue t := by
  unfold readDigits? at h
  simp only at h
  split at h
  · rename_i hcount
    cases t with
    | nil => nomatch hcount
    | cons c t =>
      rw [List.takeWhile_cons] at hcount
      split at hcount
      · rename_i hc
        exact ⟨c, rfl, .inl (by simp [Char.isAlphanum, hc])⟩
      · nomatch hcount
  · nomatch h

theorem startsValue_of_isMoment (h : isMoment t = true) : StartsValue t := by
  have htime : ∀ {rest : Text}, skipTime? t = some rest → StartsValue t := by
    intro rest h
    obtain ⟨_, h, _⟩ := Option.bind_eq_some_iff.mp h
    obtain ⟨_, h, _⟩ := Option.bind_eq_some_iff.mp h
    exact startsValue_of_readDigits? h
  have hdate : ∀ {rest : Text}, skipDate? t = some rest → StartsValue t := by
    intro rest h
    obtain ⟨_, h, _⟩ := Option.bind_eq_some_iff.mp h
    exact startsValue_of_readDigits? h
  unfold isMoment at h
  split at h
  · exact htime (beq_iff_eq.mp h)
  · rename_i hd
    exact hdate hd
  · rename_i hd
    exact hdate hd

end Moment

theorem startsValue_of_wordValue? {x : Value} (h : wordValue? t = some x) : StartsValue t := by
  unfold wordValue? at h
  split at h
  · rename_i ht
    exact ⟨'t', by rw [ht]; rfl, .inl rfl⟩
  · split at h
    · rename_i hf
      exact ⟨'f', by rw [hf]; rfl, .inl rfl⟩
    · split at h
      · rename_i hm
        exact Moment.startsValue_of_isMoment hm
      · rw [Option.orElse_eq_orElse, Option.orElse_eq_or, Option.or_eq_some_iff] at h
        rcases h with h | ⟨_, h⟩
        · obtain ⟨n, hn, _⟩ := Option.map_eq_some_iff.mp h
          exact Number.startsValue_of_integer? hn
        · obtain ⟨f, hf, _⟩ := Option.map_eq_some_iff.mp h
          exact Number.startsValue_of_float? hf

theorem readWord?_append {x : Value} (hw : IsWords w) (hx : wordValue? w = some x)
    (hrest : Follows rest) : readWord? (w ++ rest) = some (x, rest) := by
  rw [readWord?, takeWords_append hw hrest, hx]
  rfl

theorem isWords_of_readWord? {x : Value} (h : readWord? t = some (x, rest)) :
    ∃ w, IsWords w ∧ wordValue? w = some x ∧ t = w ++ rest := by
  obtain ⟨x', hx, h⟩ := Option.map_eq_some_iff.mp h
  obtain ⟨rfl, rfl⟩ := Prod.mk.inj h
  obtain ⟨c, hc, hstart⟩ := startsValue_of_wordValue? hx
  have hsplit := takeWords_split t
  have ht : t.head? = some c := by
    rw [hsplit, List.head?_append, hc]
    rfl
  have hword : t.head?.any isWord = true := by
    rw [ht]
    rcases hstart with hstart | rfl | rfl
    · exact isWord_of_isAlphanum hstart
    · rfl
    · rfl
  exact ⟨_, isWords_of_takeWords hword, hx, hsplit⟩

end ImportMigration.Toml
