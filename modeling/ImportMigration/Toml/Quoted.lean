import ImportMigration.Toml.Layout

/-!
The four kinds of TOML strings. Basic strings stand between double quotes and have escapes; literal
strings stand between apostrophes and mean what they say. Either kind, between three quotes, may
run over several lines.

The readers here take the text after the opening quotes, and give the string and the text after
its closing quotes.
-/

namespace ImportMigration.Toml.Quoted

def hexDigit? (c : Char) : Option Nat :=
  if c.isDigit then some (c.toNat - 48)
  else if 'a' ≤ c ∧ c ≤ 'f' then some (c.toNat - 87)
  else if 'A' ≤ c ∧ c ≤ 'F' then some (c.toNat - 55)
  else none

def char? (code : Nat) : Option Char :=
  if code.isValidChar then some (Char.ofNat code) else none

/-- The character with the code point that the first digits of the text give. -/
def readCode? (count : Nat) (t : Text) : Option (Char × Text) :=
  if count ≤ t.length then
    ((t.take count).mapM hexDigit?).bind fun digits =>
      (char? (digits.foldl (· * 16 + ·) 0)).map (·, t.drop count)
  else none

/-- The character that an escape stands for. The text begins after the backslash. -/
def readEscape? : Text → Option (Char × Text)
  | [] => none
  | c :: t =>
    match c with
    | '"' => some ('"', t)
    | '\\' => some ('\\', t)
    | 'b' => some (Char.ofNat 0x08, t)
    | 'e' => some (Char.ofNat 0x1B, t)
    | 'f' => some (Char.ofNat 0x0C, t)
    | 'n' => some ('\n', t)
    | 'r' => some ('\r', t)
    | 't' => some ('\t', t)
    | 'x' => readCode? 2 t
    | 'u' => readCode? 4 t
    | 'U' => readCode? 8 t
    | _ => none

theorem length_le_of_readCode? {count : Nat} {t rest : Text} {c : Char}
    (h : readCode? count t = some (c, rest)) : rest.length ≤ t.length := by
  unfold readCode? at h
  split at h
  · obtain ⟨digits, _, h⟩ := Option.bind_eq_some_iff.mp h
    obtain ⟨_, _, h⟩ := Option.map_eq_some_iff.mp h
    cases h
    rw [List.length_drop]
    exact Nat.sub_le ..
  · cases h

theorem length_lt_of_readEscape? {t rest : Text} {c : Char}
    (h : readEscape? t = some (c, rest)) : rest.length < t.length := by
  cases t with
  | nil => simp [readEscape?] at h
  | cons d t =>
    have simple : ∀ {x : Char}, some (x, t) = some (c, rest) → rest.length < (d :: t).length := by
      intro x h
      simp only [Option.some.injEq, Prod.mk.injEq] at h
      simp [← h.2]
    have code : ∀ {n : Nat}, readCode? n t = some (c, rest) → rest.length < (d :: t).length :=
      fun h => Nat.lt_succ_of_le (length_le_of_readCode? h)
    simp only [readEscape?] at h
    split at h
    all_goals first | exact simple h | exact code h | simp at h

/-- Puts a character in front of a string that was read. -/
def push (c : Char) : Text × Text → Text × Text
  | (s, rest) => (c :: s, rest)

/-- The end of a string between three quotes. Up to two more quotes before the closing ones are
part of the string. -/
def closing? (quote : Char) (t : Text) : Option (Text × Text) :=
  if t.take 5 = List.replicate 5 quote then some ([quote, quote], t.drop 5)
  else if t.take 4 = List.replicate 4 quote then some ([quote], t.drop 4)
  else if t.take 3 = List.replicate 3 quote then some ([], t.drop 3)
  else none

/-- The text after a line break that a backslash hides, with all blanks that follow it. -/
def continuation? (t : Text) : Option Text :=
  (lineBreak? (skipSpaces t)).map (skipBlank false)

theorem length_skipBlank_le (comments : Bool) (t : Text) :
    (skipBlank comments t).length ≤ t.length := by
  fun_induction skipBlank comments t with
  | case1 => exact Nat.le_refl _
  | case2 c t _ ih => exact Nat.le_trans ih (Nat.le_succ _)
  | case3 c t _ _ ih =>
    exact Nat.le_trans ih (Nat.le_trans (length_dropWhile_le ..) (Nat.le_succ _))
  | case4 c t _ _ rest h ih => exact Nat.le_trans ih (Nat.le_of_lt (length_lt_of_lineBreak? h))
  | case5 => exact Nat.le_refl _

theorem length_lt_of_continuation? {t rest : Text} (h : continuation? t = some rest) :
    rest.length < t.length := by
  obtain ⟨u, hu, rfl⟩ := Option.map_eq_some_iff.mp h
  exact Nat.lt_of_le_of_lt (length_skipBlank_le ..)
    (Nat.lt_of_lt_of_le (length_lt_of_lineBreak? hu) (length_dropWhile_le ..))

/-- A basic string on one line. -/
def readBasic? : Text → Option (Text × Text)
  | [] => none
  | c :: t =>
    if c = '"' then some ([], t)
    else if c = '\\' then
      match _h : readEscape? t with
      | none => none
      | some (e, rest) => (readBasic? rest).map (push e)
    else if isPrintable c then (readBasic? t).map (push c)
    else none
termination_by t => t.length
decreasing_by
  · exact Nat.lt_succ_of_lt (length_lt_of_readEscape? _h)
  · simp

/-- A basic string between three quotes. A backslash before a line break hides the break and all
blanks after it. -/
def readBasicLines? : Text → Option (Text × Text)
  | [] => none
  | c :: t =>
    match closing? '"' (c :: t) with
    | some found => some found
    | none =>
      if c = '\\' then
        match _h : continuation? t with
        | some rest => readBasicLines? rest
        | none =>
          match _h : readEscape? t with
          | none => none
          | some (e, rest) => (readBasicLines? rest).map (push e)
      else if isPrintable c || (lineBreak? (c :: t)).isSome then
        (readBasicLines? t).map (push c)
      else none
termination_by t => t.length
decreasing_by
  · exact Nat.lt_succ_of_lt (length_lt_of_continuation? _h)
  · exact Nat.lt_succ_of_lt (length_lt_of_readEscape? _h)
  · simp

/-- A literal string on one line. -/
def readLiteral? : Text → Option (Text × Text)
  | [] => none
  | c :: t =>
    if c = '\'' then some ([], t)
    else if isPrintable c then (readLiteral? t).map (push c)
    else none

/-- A literal string between three apostrophes. -/
def readLiteralLines? : Text → Option (Text × Text)
  | [] => none
  | c :: t =>
    match closing? '\'' (c :: t) with
    | some found => some found
    | none =>
      if isPrintable c || (lineBreak? (c :: t)).isSome then (readLiteralLines? t).map (push c)
      else none

/-- A line break right after three opening quotes is no part of the string. -/
def skipFirstBreak (t : Text) : Text :=
  (lineBreak? t).getD t

/-- A string of any kind, from its opening quotes on. -/
def read? (t : Text) : Option (Text × Text) :=
  match t with
  | '"' :: '"' :: '"' :: t => readBasicLines? (skipFirstBreak t)
  | '\'' :: '\'' :: '\'' :: t => readLiteralLines? (skipFirstBreak t)
  | '"' :: t => readBasic? t
  | '\'' :: t => readLiteral? t
  | _ => none

end ImportMigration.Toml.Quoted
