import ImportMigration.Proofs.Blanks
import ImportMigration.Toml.Quoted
import Mathlib.Data.Nat.Digits.Defs

/-!
The four kinds of strings as TOML's grammar has them. Each reader takes just such a text off the
front of a longer one.
-/

namespace ImportMigration.Toml.Quoted

variable {b e k s t u rest : Text} {c quote : Char} {count : Nat}

/-- The escapes that are one character, and what they stand for. -/
def shortEscapes : List (Char × Char) :=
  [('"', '"'), ('\\', '\\'), ('b', Char.ofNat 0x08), ('e', Char.ofNat 0x1B), ('f', Char.ofNat 0x0C),
    ('n', '\n'), ('r', '\r'), ('t', '\t')]

/-- The letters of escapes that give a code point, and the number of its digits. -/
def codeEscapes : List (Char × Nat) :=
  [('x', 2), ('u', 4), ('U', 8)]

/-- So many hexadecimal digits that are the code point of a character. -/
structure IsCode (count : Nat) (digits : Text) (c : Char) : Prop where
  length_eq : digits.length = count
  toNat_eq : ∃ values, digits.mapM hexDigit? = some values ∧
    c.toNat = Nat.ofDigits 16 values.reverse

/-- What stands for a character behind a backslash. -/
inductive IsEscape : Text → Char → Prop where
  | short {letter c : Char} (h : (letter, c) ∈ shortEscapes) : IsEscape [letter] c
  | code {letter c : Char} {count : Nat} {digits : Text} (h : (letter, count) ∈ codeEscapes)
    (hd : IsCode count digits c) : IsEscape (letter :: digits) c

theorem char?_eq_some_iff {code : Nat} : char? code = some c ↔ c.toNat = code := by
  unfold char?
  constructor
  · intro h
    split at h
    · rename_i hvalid
      rw [← Option.some.inj h, Char.ofNat, dif_pos hvalid]
      rfl
    · nomatch h
  · rintro rfl
    have hvalid : c.toNat.isValidChar := c.valid
    rw [if_pos hvalid, Char.ofNat_toNat]

theorem foldl_eq_ofDigits (values : List Nat) :
    values.foldl (· * 16 + ·) 0 = Nat.ofDigits 16 values.reverse := by
  rw [Nat.ofDigits_eq_foldr, List.foldr_reverse]
  refine congrArg (fun f => values.foldl f 0) ?_
  funext n d
  simp [Nat.mul_comm, Nat.add_comm]

theorem readCode?_eq_some_iff : readCode? count t = some (c, rest) ↔
    ∃ digits, IsCode count digits c ∧ t = digits ++ rest := by
  constructor
  · intro h
    unfold readCode? at h
    split at h
    · rename_i hcount
      obtain ⟨values, hvalues, h⟩ := Option.bind_eq_some_iff.mp h
      obtain ⟨c', hc, h⟩ := Option.map_eq_some_iff.mp h
      obtain ⟨rfl, rfl⟩ := Prod.mk.inj h
      refine ⟨t.take count, ⟨by simpa using hcount, values, hvalues, ?_⟩,
        (List.take_append_drop ..).symm⟩
      rw [← foldl_eq_ofDigits, char?_eq_some_iff.mp hc]
    · nomatch h
  · rintro ⟨digits, ⟨rfl, values, hvalues, hc⟩, rfl⟩
    unfold readCode?
    rw [if_pos (by simp), List.take_left, List.drop_left, hvalues, Option.bind_some,
      foldl_eq_ofDigits, char?_eq_some_iff.mpr hc]
    rfl

theorem readEscape?_eq_some_iff : readEscape? t = some (c, rest) ↔
    ∃ e, IsEscape e c ∧ t = e ++ rest := by
  constructor
  · intro h
    cases t with
    | nil => contradiction
    | cons letter t =>
      have short : ∀ {d : Char}, (letter, d) ∈ shortEscapes → some (d, t) = some (c, rest) →
          ∃ e, IsEscape e c ∧ letter :: t = e ++ rest := by
        intro d hd h
        obtain ⟨rfl, rfl⟩ := Prod.mk.inj (Option.some.inj h)
        exact ⟨[letter], .short hd, rfl⟩
      have code : ∀ {n : Nat}, (letter, n) ∈ codeEscapes → readCode? n t = some (c, rest) →
          ∃ e, IsEscape e c ∧ letter :: t = e ++ rest := by
        intro n hn h
        obtain ⟨digits, hd, rfl⟩ := readCode?_eq_some_iff.mp h
        exact ⟨letter :: digits, .code hn hd, rfl⟩
      simp only [readEscape?] at h
      split at h
      all_goals first | exact short (by decide) h | exact code (by decide) h | contradiction
  · rintro ⟨e, he, rfl⟩
    cases he with
    | short h =>
      simp only [shortEscapes, List.mem_cons, Prod.mk.injEq, List.not_mem_nil, or_false] at h
      rcases h with ⟨rfl, rfl⟩ | ⟨rfl, rfl⟩ | ⟨rfl, rfl⟩ | ⟨rfl, rfl⟩ | ⟨rfl, rfl⟩ | ⟨rfl, rfl⟩ |
        ⟨rfl, rfl⟩ | ⟨rfl, rfl⟩ <;> rfl
    | code h hd =>
      simp only [codeEscapes, List.mem_cons, Prod.mk.injEq, List.not_mem_nil, or_false] at h
      rcases h with ⟨rfl, rfl⟩ | ⟨rfl, rfl⟩ | ⟨rfl, rfl⟩ <;>
        exact readCode?_eq_some_iff.mpr ⟨_, hd, rfl⟩

/-- What stands for a string between double quotes on one line. -/
inductive IsBasic : Text → Text → Prop where
  | nil : IsBasic [] []
  | char {c : Char} {b s : Text} (hc : isPrintable c = true) (hquote : c ≠ '"')
    (hbackslash : c ≠ '\\') (hb : IsBasic b s) : IsBasic (c :: b) (c :: s)
  | escape {e b s : Text} {c : Char} (he : IsEscape e c) (hb : IsBasic b s) :
    IsBasic ('\\' :: (e ++ b)) (c :: s)

/-- A string between apostrophes on one line, which stands for itself. -/
def IsLiteral (s : Text) : Prop :=
  ∀ c ∈ s, isPrintable c = true ∧ c ≠ '\''

theorem map_push_eq_some_iff {result : Option (Text × Text)} :
    result.map (push c) = some (s, rest) ↔ ∃ r, result = some (r, rest) ∧ s = c :: r := by
  cases result with
  | none => simp
  | some found =>
    obtain ⟨r, rest'⟩ := found
    simp only [Option.map_some, push, Option.some.injEq, Prod.mk.injEq]
    grind

theorem readBasic?_escape (h : readEscape? t = some (c, rest)) :
    readBasic? ('\\' :: t) = (readBasic? rest).map (push c) := by
  rw [readBasic?, if_neg (by decide), if_pos rfl]
  split <;> simp_all

theorem readBasic?_eq_some_iff : readBasic? t = some (s, rest) ↔
    ∃ b, IsBasic b s ∧ t = b ++ '"' :: rest := by
  constructor
  · intro h
    fun_induction readBasic? t generalizing s with
    | case1 => nomatch h
    | case2 t =>
      obtain ⟨rfl, rfl⟩ := Prod.mk.inj (Option.some.inj h)
      exact ⟨[], .nil, rfl⟩
    | case3 => nomatch h
    | case4 t e after he _ ih =>
      obtain ⟨r, hr, rfl⟩ := map_push_eq_some_iff.mp h
      obtain ⟨spelled, hspelled, rfl⟩ := readEscape?_eq_some_iff.mp he
      obtain ⟨b, hb, rfl⟩ := ih hr
      exact ⟨_, .escape hspelled hb, by simp⟩
    | case5 c t hquote hbackslash hc ih =>
      obtain ⟨r, hr, rfl⟩ := map_push_eq_some_iff.mp h
      obtain ⟨b, hb, rfl⟩ := ih hr
      exact ⟨_, .char hc hquote hbackslash hb, rfl⟩
    | case6 => nomatch h
  · rintro ⟨b, hb, rfl⟩
    induction hb with
    | nil => rw [List.nil_append, readBasic?, if_pos rfl]
    | char hc hquote hbackslash _ ih =>
      rw [List.cons_append, readBasic?, if_neg hquote, if_neg hbackslash, if_pos hc, ih]
      rfl
    | escape he _ ih =>
      rw [List.cons_append, List.append_assoc,
        readBasic?_escape (readEscape?_eq_some_iff.mpr ⟨_, he, rfl⟩), ih]
      rfl

theorem readLiteral?_eq_some_iff : readLiteral? t = some (s, rest) ↔
    IsLiteral s ∧ t = s ++ '\'' :: rest := by
  constructor
  · intro h
    induction t generalizing s with
    | nil => nomatch h
    | cons c t ih =>
      rw [readLiteral?] at h
      split at h
      · rename_i hc
        obtain ⟨rfl, rfl⟩ := Prod.mk.inj (Option.some.inj h)
        exact ⟨nofun, congrArg (· :: t) hc⟩
      · split at h
        · rename_i hquote hc
          obtain ⟨r, hr, rfl⟩ := map_push_eq_some_iff.mp h
          obtain ⟨hs, rfl⟩ := ih hr
          exact ⟨List.forall_mem_cons.mpr ⟨⟨hc, hquote⟩, hs⟩, rfl⟩
        · nomatch h
  · rintro ⟨hs, rfl⟩
    induction s with
    | nil => rw [List.nil_append, readLiteral?, if_pos rfl]
    | cons c s ih =>
      obtain ⟨⟨hc, hquote⟩, hs⟩ := List.forall_mem_cons.mp hs
      rw [List.cons_append, readLiteral?, if_neg hquote, if_pos hc, ih hs]
      rfl

/-- A text between three quotes, made of parts that stand for something in front of the text behind
them. Up to two quotes may stand together before a part, and at the end. -/
inductive IsLines (quote : Char) (Part : Text → Text → Text → Prop) : Text → Text → Prop where
  | last {count : Nat} (h : count ≤ 2) :
    IsLines quote Part (List.replicate count quote) (List.replicate count quote)
  | part {count : Nat} {e v b s : Text} (h : count ≤ 2) (he : Part e v b)
    (hb : IsLines quote Part b s) :
    IsLines quote Part (List.replicate count quote ++ (e ++ b))
      (List.replicate count quote ++ (v ++ s))

/-- A character that may stand before a text within several lines. A carriage return is allowed in
front of a line feed only. -/
structure InLines (quote c : Char) (b : Text) : Prop where
  ne_quote : c ≠ quote
  allowed : isPrintable c = true ∨ c = '\n' ∨ c = '\r' ∧ b.head? = some '\n'

inductive LiteralPart : Text → Text → Text → Prop where
  | char {c : Char} {b : Text} (h : InLines '\'' c b) : LiteralPart [c] [c] b

/-- A backslash before a line break hides it with all blanks that follow. -/
inductive BasicPart : Text → Text → Text → Prop where
  | char {c : Char} {b : Text} (h : InLines '"' c b) (hbackslash : c ≠ '\\') : BasicPart [c] [c] b
  | escape {e b : Text} {c : Char} (he : IsEscape e c) : BasicPart ('\\' :: e) [c] b
  | hidden {a k u b : Text} (ha : IsSpaces a) (hk : IsBreak k) (hu : IsBlank false u)
    (hb : IsSolid false b) : BasicPart ('\\' :: (a ++ (k ++ u))) [] b

/-- A string with its quotes. A line break right after three quotes is no part of it. -/
inductive Spells : Text → Text → Prop where
  | basic {b s : Text} (hb : IsBasic b s) : Spells ('"' :: (b ++ ['"'])) s
  | literal {s : Text} (hs : IsLiteral s) : Spells ('\'' :: (s ++ ['\''])) s
  | basicLines {k b s : Text} (hk : k = [] ∧ lineBreak? b = none ∨ IsBreak k)
    (hb : IsLines '"' BasicPart b s) :
    Spells (List.replicate 3 '"' ++ (k ++ (b ++ List.replicate 3 '"'))) s
  | literalLines {k b s : Text} (hk : k = [] ∧ lineBreak? b = none ∨ IsBreak k)
    (hb : IsLines '\'' LiteralPart b s) :
    Spells (List.replicate 3 '\'' ++ (k ++ (b ++ List.replicate 3 '\''))) s

theorem closing?_of_quotes (h : count ≤ 2) (hrest : rest.head? ≠ some quote) :
    closing? quote (List.replicate count quote ++ (List.replicate 3 quote ++ rest)) =
      some (List.replicate count quote, rest) := by
  have hne : ∀ c ∈ rest.head?, c ≠ quote := fun c hc he => hrest (he ▸ hc)
  unfold closing?
  match count, h, rest with
  | 0, _, [] | 1, _, [] | 2, _, [] => simp [List.replicate_succ]
  | 0, _, c :: rest | 1, _, c :: rest | 2, _, c :: rest =>
    simp [List.replicate_succ, hne c rfl]

theorem closing?_eq_none (h : count ≤ 2) (ht : t.head? ≠ some quote) :
    closing? quote (List.replicate count quote ++ t) = none := by
  have hne : ∀ c ∈ t.head?, c ≠ quote := fun c hc he => ht (he ▸ hc)
  unfold closing?
  match count, h, t with
  | 0, _, [] | 1, _, [] | 2, _, [] => simp [List.replicate_succ]
  | 0, _, c :: t | 1, _, c :: t | 2, _, c :: t => simp [List.replicate_succ, hne c rfl]

theorem eq_of_closing? {found : Text} (h : closing? quote t = some (found, rest)) :
    ∃ count ≤ 2, found = List.replicate count quote ∧
      t = List.replicate count quote ++ (List.replicate 3 quote ++ rest) := by
  have hsplit : ∀ n, t.take n = List.replicate n quote →
      t = List.replicate n quote ++ t.drop n :=
    fun n hn => hn ▸ (List.take_append_drop n t).symm
  unfold closing? at h
  split at h
  · rename_i h5
    obtain ⟨rfl, rfl⟩ := Prod.mk.inj (Option.some.inj h)
    exact ⟨2, Nat.le_refl 2, rfl, hsplit 5 h5⟩
  · split at h
    · rename_i h4
      obtain ⟨rfl, rfl⟩ := Prod.mk.inj (Option.some.inj h)
      exact ⟨1, by decide, rfl, hsplit 4 h4⟩
    · split at h
      · rename_i h3
        obtain ⟨rfl, rfl⟩ := Prod.mk.inj (Option.some.inj h)
        exact ⟨0, by decide, rfl, hsplit 3 h3⟩
      · nomatch h

theorem take_ne_of_closing? (h : closing? quote t = none) :
    t.take 3 ≠ List.replicate 3 quote := by
  unfold closing? at h
  grind

/-- A quote may be put in front of a string if the quotes that end it do not come at once then. -/
theorem IsLines.push {Part : Text → Text → Text → Prop} (hb : IsLines quote Part b s)
    (h : closing? quote (quote :: (b ++ (List.replicate 3 quote ++ rest))) = none) :
    IsLines quote Part (quote :: b) (quote :: s) := by
  have hthree := take_ne_of_closing? h
  cases hb with
  | @last count hcount =>
    exfalso
    match count, hcount with
    | 0, _ | 1, _ | 2, _ => simp [List.replicate_succ] at hthree
  | @part count e v b s hcount he hb =>
    have hlt : count ≠ 2 := by
      rintro rfl
      simp [List.replicate_succ] at hthree
    have hpart : IsLines quote Part (List.replicate (count + 1) quote ++ (e ++ b))
        (List.replicate (count + 1) quote ++ (v ++ s)) := .part (by omega) he hb
    exact hpart

theorem lineBreak?_append (hb : lineBreak? b = some u) (rest : Text) :
    lineBreak? (b ++ rest) = some (u ++ rest) := by
  obtain ⟨k, hk, rfl⟩ := lineBreak?_eq_some_iff.mp hb
  exact lineBreak?_eq_some_iff.mpr ⟨k, hk, List.append_assoc ..⟩

/-- What ends a string makes no difference to whether a line break stands in front of it. -/
theorem lineBreak?_append_of_none (h : lineBreak? b = none) (hc : c ≠ '\n') (hc' : c ≠ '\r') :
    lineBreak? (b ++ c :: rest) = none := by
  cases hb : lineBreak? (b ++ c :: rest) with
  | none => rfl
  | some u =>
    exfalso
    obtain ⟨k, hk, he⟩ := lineBreak?_eq_some_iff.mp hb
    rcases List.append_eq_append_iff.mp he with ⟨w, rfl, hw⟩ | ⟨w, rfl, hw⟩
    · -- The break would hold the character that ends the string.
      cases w with
      | nil =>
        rw [List.append_nil] at hk
        rw [lineBreak?_eq_some_iff.mpr ⟨b, hk, (List.append_nil b).symm⟩] at h
        nomatch h
      | cons d w =>
        obtain ⟨rfl, _⟩ := List.cons.inj hw
        have hmem : c ∈ b ++ c :: w := by simp
        generalize b ++ c :: w = k at hk hmem
        cases hk <;> simp_all
    · rw [lineBreak?_eq_some_iff.mpr ⟨k, hk, rfl⟩] at h
      nomatch h

theorem isSolid_append_iff (hc : c ≠ '\n') (hc' : c ≠ '\r') (hspace : isSpace c = false) :
    IsSolid false (b ++ c :: rest) ↔ IsSolid false b := by
  constructor
  · rintro ⟨h, _, hbreak⟩
    refine ⟨fun d hd => h d ?_, nofun, ?_⟩
    · rw [List.head?_append, Option.mem_def.mp hd]
      rfl
    · cases hb : lineBreak? b with
      | none => rfl
      | some u =>
        rw [lineBreak?_append hb] at hbreak
        nomatch hbreak
  · rintro ⟨h, _, hbreak⟩
    refine ⟨fun d hd => ?_, nofun, lineBreak?_append_of_none hbreak hc hc'⟩
    cases b with
    | nil => exact Option.mem_some.mp hd ▸ hspace
    | cons e b => exact h d hd

theorem continuation?_eq_some_iff : continuation? t = some rest ↔ ∃ a k u, IsSpaces a ∧ IsBreak k ∧
    IsBlank false u ∧ IsSolid false rest ∧ t = a ++ (k ++ (u ++ rest)) := by
  unfold continuation?
  constructor
  · intro h
    obtain ⟨after, hbreak, rfl⟩ := Option.map_eq_some_iff.mp h
    obtain ⟨k, hk, hafter⟩ := lineBreak?_eq_some_iff.mp hbreak
    obtain ⟨a, ha, ht, _⟩ := exists_spaces t
    obtain ⟨hsolid, u, _, hu, hsplit, rfl | ⟨hcomments, _⟩⟩ := exists_blank false after
    · rw [List.nil_append] at hsplit
      exact ⟨a, k, u, ha, hk, hu, hsolid, by rw [← hsplit, ← hafter, ← ht]⟩
    · nomatch hcomments
  · rintro ⟨a, k, u, ha, hk, hu, hrest, rfl⟩
    have hspaces : skipSpaces (a ++ (k ++ (u ++ rest))) = k ++ (u ++ rest) :=
      skipSpaces_append ha fun c hc => (hk.head?_append _ c hc).1
    rw [hspaces, lineBreak?_eq_some_iff.mpr ⟨k, hk, rfl⟩, Option.map_some,
      skipBlank_append hu hrest]

theorem readBasicLines?_closing {found : Text × Text} (h : closing? '"' t = some found) :
    readBasicLines? t = some found := by
  cases t with
  | nil => simp [closing?] at h
  | cons c t => rw [readBasicLines?, h]

/-- A backslash that hides a line break begins no escape. -/
theorem readBasicLines?_hidden (h : continuation? t = some rest) :
    readBasicLines? ('\\' :: t) = readBasicLines? rest := by
  have hclosing : closing? '"' ('\\' :: t) = none := closing?_eq_none (Nat.zero_le 2) (by simp)
  rw [readBasicLines?, hclosing]
  simp only [reduceIte]
  split <;> simp_all

theorem readBasicLines?_escape (hc : continuation? t = none) (h : readEscape? t = some (c, rest)) :
    readBasicLines? ('\\' :: t) = (readBasicLines? rest).map (push c) := by
  have hclosing : closing? '"' ('\\' :: t) = none := closing?_eq_none (Nat.zero_le 2) (by simp)
  rw [readBasicLines?, hclosing]
  simp only [reduceIte]
  split
  · simp_all
  · split <;> simp_all

theorem readBasicLines?_char (hclosing : closing? '"' (c :: t) = none) (hbackslash : c ≠ '\\')
    (hc : (isPrintable c || (lineBreak? (c :: t)).isSome) = true) :
    readBasicLines? (c :: t) = (readBasicLines? t).map (push c) := by
  rw [readBasicLines?, hclosing]
  simp only [if_neg hbackslash, if_pos hc]

theorem IsLines.cons {Part : Text → Text → Text → Prop} {e v : Text} (he : Part e v b)
    (hb : IsLines quote Part b s) : IsLines quote Part (e ++ b) (v ++ s) := by
  have hpart : IsLines quote Part (List.replicate 0 quote ++ (e ++ b))
      (List.replicate 0 quote ++ (v ++ s)) := .part (Nat.zero_le 2) he hb
  exact hpart

theorem isSome_lineBreak?_cons :
    (lineBreak? (c :: t)).isSome = true ↔ c = '\n' ∨ c = '\r' ∧ t.head? = some '\n' := by
  unfold lineBreak?
  split
  · simp_all
  · simp_all
  · rename_i hlf hcrlf
    simp only [Option.isSome_none, Bool.false_eq_true, false_iff, not_or, not_and]
    refine ⟨fun hc => hlf t (by rw [hc]), fun hc ht => ?_⟩
    obtain ⟨u, rfl⟩ := List.head?_eq_some_iff.mp ht
    exact hcrlf u (by rw [hc])

/-- What ends a string makes no difference to whether a character may stand in it. -/
theorem inLines_iff (hquote : quote ≠ '\n') : InLines quote c b ↔ c ≠ quote ∧
    (isPrintable c ||
      (lineBreak? (c :: (b ++ (List.replicate 3 quote ++ rest)))).isSome) = true := by
  have hhead : (b ++ (List.replicate 3 quote ++ rest)).head? = some '\n' ↔ b.head? = some '\n' := by
    cases b <;> simp [List.replicate_succ, hquote]
  rw [Bool.or_eq_true, isSome_lineBreak?_cons, hhead]
  exact ⟨fun h => ⟨h.ne_quote, h.allowed⟩, fun h => ⟨h.1, h.2⟩⟩

theorem readLiteralLines?_closing {found : Text × Text} (h : closing? '\'' t = some found) :
    readLiteralLines? t = some found := by
  cases t with
  | nil => simp [closing?] at h
  | cons c t => rw [readLiteralLines?, h]

theorem readLiteralLines?_char (hclosing : closing? '\'' (c :: t) = none)
    (hc : (isPrintable c || (lineBreak? (c :: t)).isSome) = true) :
    readLiteralLines? (c :: t) = (readLiteralLines? t).map (push c) := by
  rw [readLiteralLines?, hclosing]
  simp only [if_pos hc]

theorem readLiteralLines?_quotes (h : count ≤ 2) (ht : t.head? ≠ some '\'')
    (hs : readLiteralLines? t = some (s, rest)) :
    readLiteralLines? (List.replicate count '\'' ++ t) =
      some (List.replicate count '\'' ++ s, rest) := by
  induction count with
  | zero => exact hs
  | succ count ih =>
    have hclosing := closing?_eq_none h ht
    rw [List.replicate_succ, List.cons_append] at hclosing ⊢
    rw [readLiteralLines?_char hclosing rfl, ih (Nat.le_of_succ_le h)]
    rfl

theorem readBasicLines?_quotes (h : count ≤ 2) (ht : t.head? ≠ some '"')
    (hs : readBasicLines? t = some (s, rest)) :
    readBasicLines? (List.replicate count '"' ++ t) =
      some (List.replicate count '"' ++ s, rest) := by
  induction count with
  | zero => exact hs
  | succ count ih =>
    have hclosing := closing?_eq_none h ht
    rw [List.replicate_succ, List.cons_append] at hclosing ⊢
    rw [readBasicLines?_char hclosing (by decide) rfl, ih (Nat.le_of_succ_le h)]
    rfl

/-- A reader stops at three quotes, and puts a quote in front of a string as long as they are not
reached. -/
theorem isLines_of_readLiteralLines? (h : readLiteralLines? t = some (s, rest)) :
    ∃ b, IsLines '\'' LiteralPart b s ∧ t = b ++ (List.replicate 3 '\'' ++ rest) := by
  induction t generalizing s with
  | nil => nomatch h
  | cons c t ih =>
    cases hclosing : closing? '\'' (c :: t) with
    | some found =>
      rw [readLiteralLines?_closing hclosing] at h
      obtain ⟨count, hcount, rfl, ht⟩ := eq_of_closing? (hclosing.trans h)
      exact ⟨_, .last hcount, ht⟩
    | none =>
      rw [readLiteralLines?, hclosing] at h
      simp only at h
      split at h
      · rename_i hc
        obtain ⟨r, hr, rfl⟩ := map_push_eq_some_iff.mp h
        obtain ⟨b, hb, rfl⟩ := ih hr
        refine ⟨c :: b, ?_, rfl⟩
        by_cases hquote : c = '\''
        · subst hquote
          exact hb.push hclosing
        · exact .cons (.char ((inLines_iff (by decide)).mpr ⟨hquote, hc⟩)) hb
      · nomatch h

theorem readLiteralLines?_of_isLines (hb : IsLines '\'' LiteralPart b s)
    (hrest : rest.head? ≠ some '\'') :
    readLiteralLines? (b ++ (List.replicate 3 '\'' ++ rest)) = some (s, rest) := by
  induction hb with
  | last h => exact readLiteralLines?_closing (closing?_of_quotes h hrest)
  | part h he _ ih =>
    obtain ⟨hc⟩ := he
    obtain ⟨hquote, hallowed⟩ := (inLines_iff (by decide)).mp hc
    rw [List.append_assoc, List.append_assoc]
    refine readLiteralLines?_quotes h (by simpa using hquote) ?_
    rw [List.singleton_append, readLiteralLines?_char (closing?_eq_none (Nat.zero_le 2)
      (by simpa using hquote)) hallowed, ih]
    rfl

theorem IsEscape.continuation?_eq_none {e : Text} (he : IsEscape e c) (t : Text) :
    continuation? (e ++ t) = none := by
  have hnone : ∀ {letter : Char} {u : Text}, isSpace letter = false → letter ≠ '\n' →
      letter ≠ '\r' → continuation? (letter :: u) = none := by
    intro letter u hspace hlf hcr
    have hbreak : lineBreak? (letter :: u) = none :=
      lineBreak?_append_of_none (b := []) rfl hlf hcr
    rw [continuation?, skipSpaces, List.dropWhile_cons_of_neg (by simp [hspace]), hbreak]
    rfl
  cases he with
  | short h =>
    simp only [shortEscapes, List.mem_cons, Prod.mk.injEq, List.not_mem_nil, or_false] at h
    rcases h with ⟨rfl, rfl⟩ | ⟨rfl, rfl⟩ | ⟨rfl, rfl⟩ | ⟨rfl, rfl⟩ | ⟨rfl, rfl⟩ | ⟨rfl, rfl⟩ |
      ⟨rfl, rfl⟩ | ⟨rfl, rfl⟩ <;> exact hnone (by decide) (by decide) (by decide)
  | code h hd =>
    simp only [codeEscapes, List.mem_cons, Prod.mk.injEq, List.not_mem_nil, or_false] at h
    rcases h with ⟨rfl, rfl⟩ | ⟨rfl, rfl⟩ | ⟨rfl, rfl⟩ <;>
      exact hnone (by decide) (by decide) (by decide)

theorem isLines_of_readBasicLines? (h : readBasicLines? t = some (s, rest)) :
    ∃ b, IsLines '"' BasicPart b s ∧ t = b ++ (List.replicate 3 '"' ++ rest) := by
  fun_induction readBasicLines? t generalizing s with
  | case1 => nomatch h
  | case2 c t found hclosing =>
    obtain ⟨count, hcount, rfl, ht⟩ := eq_of_closing? (hclosing.trans h)
    exact ⟨_, .last hcount, ht⟩
  | case3 t after hafter _ ih =>
    obtain ⟨b, hb, rfl⟩ := ih h
    obtain ⟨a, k, u, ha, hk, hu, hsolid, rfl⟩ := continuation?_eq_some_iff.mp hafter
    have hsolid' : IsSolid false b :=
      (isSolid_append_iff (by decide) (by decide) (by decide)).mp hsolid
    exact ⟨_, .cons (.hidden ha hk hu hsolid') hb, by simp⟩
  | case4 => nomatch h
  | case5 t _ e after he _ ih =>
    obtain ⟨r, hr, rfl⟩ := map_push_eq_some_iff.mp h
    obtain ⟨b, hb, rfl⟩ := ih hr
    obtain ⟨spelled, hspelled, rfl⟩ := readEscape?_eq_some_iff.mp he
    exact ⟨_, .cons (.escape hspelled) hb, by simp⟩
  | case6 c t hclosing hbackslash hc ih =>
    obtain ⟨r, hr, rfl⟩ := map_push_eq_some_iff.mp h
    obtain ⟨b, hb, rfl⟩ := ih hr
    refine ⟨c :: b, ?_, rfl⟩
    by_cases hquote : c = '"'
    · subst hquote
      exact hb.push hclosing
    · exact .cons (.char ((inLines_iff (by decide)).mpr ⟨hquote, hc⟩) hbackslash) hb
  | case7 => nomatch h

theorem readBasicLines?_of_isLines (hb : IsLines '"' BasicPart b s)
    (hrest : rest.head? ≠ some '"') :
    readBasicLines? (b ++ (List.replicate 3 '"' ++ rest)) = some (s, rest) := by
  induction hb with
  | last h => exact readBasicLines?_closing (closing?_of_quotes h hrest)
  | @part _ _ _ b _ h he _ ih =>
    rw [List.append_assoc, List.append_assoc]
    cases he with
    | char hc hbackslash =>
      obtain ⟨hquote, hallowed⟩ := (inLines_iff (by decide)).mp hc
      refine readBasicLines?_quotes h (by simpa using hquote) ?_
      rw [List.singleton_append, readBasicLines?_char (closing?_eq_none (Nat.zero_le 2)
        (by simpa using hquote)) hbackslash hallowed, ih]
      rfl
    | escape he =>
      refine readBasicLines?_quotes h (by simp) ?_
      rw [List.cons_append, readBasicLines?_escape (he.continuation?_eq_none _)
        (readEscape?_eq_some_iff.mpr ⟨_, he, rfl⟩), ih]
      rfl
    | @hidden a k u _ ha hk hu hsolid =>
      refine readBasicLines?_quotes h (by simp) ?_
      have hsolid' : IsSolid false (b ++ '"' :: ('"' :: '"' :: rest)) :=
        (isSolid_append_iff (by decide) (by decide) (by decide)).mpr hsolid
      rw [List.cons_append, readBasicLines?_hidden (continuation?_eq_some_iff.mpr
        ⟨a, k, u, ha, hk, hu, hsolid', by simp [List.replicate_succ]⟩)]
      exact ih

/-- The line break right after three opening quotes is passed over. -/
theorem skipFirstBreak_eq_iff : skipFirstBreak t = u ↔
    ∃ k, (k = [] ∧ lineBreak? u = none ∨ IsBreak k) ∧ t = k ++ u := by
  unfold skipFirstBreak
  constructor
  · rintro rfl
    cases hbreak : lineBreak? t with
    | none => exact ⟨[], .inl ⟨rfl, hbreak⟩, rfl⟩
    | some after =>
      obtain ⟨k, hk, rfl⟩ := lineBreak?_eq_some_iff.mp hbreak
      exact ⟨k, .inr hk, rfl⟩
  · rintro ⟨k, ⟨rfl, hbreak⟩ | hk, rfl⟩
    · rw [hbreak]
      rfl
    · rw [lineBreak?_eq_some_iff.mpr ⟨k, hk, rfl⟩]
      rfl

/-- What ends a string makes no difference to the line break that it may begin with. -/
theorem firstBreak_append_iff (hquote : quote ≠ '\n') (hquote' : quote ≠ '\r') :
    (k = [] ∧ lineBreak? (b ++ (List.replicate 3 quote ++ rest)) = none ∨ IsBreak k) ↔
      (k = [] ∧ lineBreak? b = none ∨ IsBreak k) := by
  refine or_congr_left (and_congr_right fun _ => ⟨fun h => ?_, fun h => ?_⟩)
  · cases hb : lineBreak? b with
    | none => rfl
    | some u =>
      rw [lineBreak?_append hb] at h
      nomatch h
  · exact lineBreak?_append_of_none h hquote hquote'

/-- A string is read off the front of a text, and no more, if no quote follows it. -/
theorem read?_of_spells {q : Text} (hq : Spells q s)
    (hrest : ∀ c ∈ rest.head?, c ≠ '"' ∧ c ≠ '\'') : read? (q ++ rest) = some (s, rest) := by
  have hdouble : rest.head? ≠ some '"' := fun h => (hrest _ h).1 rfl
  have hsingle : rest.head? ≠ some '\'' := fun h => (hrest _ h).2 rfl
  cases hq with
  | @basic b _ hb =>
    have hread : readBasic? (b ++ '"' :: rest) = some (s, rest) :=
      readBasic?_eq_some_iff.mpr ⟨b, hb, rfl⟩
    rw [List.cons_append, List.append_assoc, List.singleton_append]
    cases hb with
    | nil => unfold read?; split <;> simp_all
    | char _ hquote _ _ => unfold read?; split <;> simp_all
    | escape _ _ => unfold read?; split <;> simp_all
  | literal hs =>
    have hread : readLiteral? (s ++ '\'' :: rest) = some (s, rest) :=
      readLiteral?_eq_some_iff.mpr ⟨hs, rfl⟩
    rw [List.cons_append, List.append_assoc, List.singleton_append]
    cases s with
    | nil => unfold read?; split <;> simp_all
    | cons c s =>
      have hc := (hs c List.mem_cons_self).2
      unfold read?
      split <;> simp_all
  | @basicLines k b _ hk hb =>
    have hskip : skipFirstBreak (k ++ (b ++ (List.replicate 3 '"' ++ rest))) =
        b ++ (List.replicate 3 '"' ++ rest) :=
      skipFirstBreak_eq_iff.mpr ⟨k, (firstBreak_append_iff (by decide) (by decide)).mpr hk, rfl⟩
    simp only [List.append_assoc]
    exact (congrArg readBasicLines? hskip).trans (readBasicLines?_of_isLines hb hdouble)
  | @literalLines k b _ hk hb =>
    have hskip : skipFirstBreak (k ++ (b ++ (List.replicate 3 '\'' ++ rest))) =
        b ++ (List.replicate 3 '\'' ++ rest) :=
      skipFirstBreak_eq_iff.mpr ⟨k, (firstBreak_append_iff (by decide) (by decide)).mpr hk, rfl⟩
    simp only [List.append_assoc]
    exact (congrArg readLiteralLines? hskip).trans (readLiteralLines?_of_isLines hb hsingle)

theorem spells_of_read? (h : read? t = some (s, rest)) : ∃ q, Spells q s ∧ t = q ++ rest := by
  unfold read? at h
  split at h
  · rename_i t
    obtain ⟨b, hb, ht⟩ := isLines_of_readBasicLines? h
    obtain ⟨k, hk, rfl⟩ := skipFirstBreak_eq_iff.mp ht
    exact ⟨_, .basicLines ((firstBreak_append_iff (by decide) (by decide)).mp hk) hb,
      by simp [List.replicate_succ]⟩
  · rename_i t
    obtain ⟨b, hb, ht⟩ := isLines_of_readLiteralLines? h
    obtain ⟨k, hk, rfl⟩ := skipFirstBreak_eq_iff.mp ht
    exact ⟨_, .literalLines ((firstBreak_append_iff (by decide) (by decide)).mp hk) hb,
      by simp [List.replicate_succ]⟩
  · obtain ⟨b, hb, rfl⟩ := readBasic?_eq_some_iff.mp h
    exact ⟨_, .basic hb, by simp⟩
  · obtain ⟨hs, rfl⟩ := readLiteral?_eq_some_iff.mp h
    exact ⟨_, .literal hs, by simp⟩
  · nomatch h

end ImportMigration.Toml.Quoted
