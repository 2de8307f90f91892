import ImportMigration.Toml.Moment
import ImportMigration.Toml.Value

/-!
TOML documents. A document is read line by line into expressions, which then fill its tables.

The readers take a text and give what stands at its front with the text after it. `read?` gives the
entries of the whole document, or nothing if it is not well-formed or defines something twice.
-/

namespace ImportMigration.Toml

def isBareKey (c : Char) : Bool :=
  c.isAlphanum || c == '_' || c == '-'

def readKey? (t : Text) : Option (Key × Text) :=
  match t with
  | '"' :: t => Quoted.readBasic? t
  | '\'' :: t => Quoted.readLiteral? t
  | t =>
    if t.head?.any isBareKey then some (t.takeWhile isBareKey, t.dropWhile isBareKey) else none

/-- How many keys dots may join, and how deep arrays and inline tables may lie in one another. -/
def depthLimit : Nat := 80

/-- Keys with dots between them. -/
def readKeys? (t : Text) : Option (List Key × Text) :=
  go depthLimit t
where
  go : Nat → Text → Option (List Key × Text)
    | 0, _ => none
    | n + 1, t => do
      let (key, t) ← readKey? t
      match skipSpaces t with
      | '.' :: rest =>
        let (keys, rest) ← go n (skipSpaces rest)
        return (key :: keys, rest)
      | _ => return ([key], t)

/-- The characters with a meaning between values. -/
def delimiters : List Char :=
  ['=', ',', '[', ']', '\x7b', '\x7d', '#', '\r', '\n']

/-- The characters of a word. Numbers, dates, times and truth values are words, and each runs as far
as the next space or delimiter. -/
def isWord (c : Char) : Bool :=
  !isSpace c && !delimiters.contains c

/-- Whether a further word begins here, which a point or a quote does not begin. -/
def startsWord (t : Text) : Bool :=
  t.head?.any fun c => isWord c && c != '.' && c != '"' && c != '\''

theorem length_lt_of_startsWord {t : Text} (h : startsWord (skipSpaces (t.dropWhile isWord))) :
    (skipSpaces (t.dropWhile isWord)).length < t.length := by
  have hle := length_dropWhile_le isWord t
  cases hr : t.dropWhile isWord with
  | nil => simp [hr, skipSpaces, startsWord] at h
  | cons c rest =>
    have hc : isWord c = false := by
      simpa [hr] using List.head?_dropWhile_not isWord t
    by_cases hs : isSpace c
    · have hd : skipSpaces (c :: rest) = rest.dropWhile isSpace := by
        simp [skipSpaces, hs]
      rw [hd]
      rw [hr] at hle
      exact Nat.lt_of_le_of_lt (length_dropWhile_le isSpace rest) hle
    · simp [hr, skipSpaces, hs, startsWord, hc] at h

/-- The words at the front of a text, with the spaces between them, and the text after the last. -/
def takeWords (t : Text) : Text × Text :=
  let rest := t.dropWhile isWord
  if _h : startsWord (skipSpaces rest) then
    let (words, after) := takeWords (skipSpaces rest)
    (t.takeWhile isWord ++ rest.takeWhile isSpace ++ words, after)
  else (t.takeWhile isWord, rest)
termination_by t.length
decreasing_by exact length_lt_of_startsWord _h

def wordValue? (word : Text) : Option Value :=
  if word = "true".toList then some (.boolean true)
  else if word = "false".toList then some (.boolean false)
  else if Moment.isMoment word then some .moment
  else (Number.integer? word).map .integer <|> (Number.float? word).map .float

/-- A value without quotes or brackets. All the words that only spaces part belong to it, as a
date and its time do. -/
def readWord? (t : Text) : Option (Value × Text) :=
  (wordValue? (takeWords t).1).map (·, (takeWords t).2)

/-- Keys, an equals sign and a value. The first argument drops what may stand on either side of
the equals sign. -/
def readAssignment? (skip : Text → Text) (readValue? : Text → Option (Value × Text)) (t : Text) :
    Option ((List Key × Value) × Text) := do
  let (keys, t) ← readKeys? t
  match skip t with
  | '=' :: t =>
    let (v, t) ← readValue? (skip t)
    return ((keys, v), t)
  | _ => none

/-- Items with commas between them as far as the closing bracket, with blanks, line breaks and
comments around each. A comma may stand after the last. -/
def readItems? {α : Type} (readItem? : Text → Option (α × Text)) (close : Char) (t : Text) :
    Option (List α × Text) :=
  go (t.length + 1) t
where
  go : Nat → Text → Option (List α × Text)
    | 0, _ => none
    | n + 1, t =>
      match skipBlank true t with
      | [] => none
      | c :: t =>
        if c = close then some ([], t)
        else do
          let (item, t) ← readItem? (c :: t)
          match skipBlank true t with
          | [] => none
          | d :: t =>
            if d = close then return ([item], t)
            else if d = ',' then
              let (items, t) ← go n t
              return (item :: items, t)
            else none

/-- A value with arrays and inline tables no deeper than the given number. Line breaks may stand
anywhere in an inline table but inside its keys. -/
def readValue? (depth : Nat) (t : Text) : Option (Value × Text) :=
  match t with
  | [] => none
  | c :: rest =>
    if c = '"' ∨ c = '\'' then (Quoted.read? t).map fun (s, rest) => (.string s, rest)
    else if c = '[' then
      match depth with
      | 0 => none
      | depth + 1 => (readItems? (readValue? depth) ']' rest).map fun (items, rest) =>
          (.array items, rest)
    else if c = '\x7b' then
      match depth with
      | 0 => none
      | depth + 1 => do
        let (assignments, rest) ←
          readItems? (readAssignment? (skipBlank true) (readValue? depth)) '\x7d' rest
        let _ ← Entries.ofAssignments? assignments
        return (.inline assignments, rest)
    else readWord? t

inductive Expression where
  | assign (keys : List Key) (v : Value)
  /-- A header in single brackets. -/
  | table (keys : List Key)
  /-- A header in double brackets. -/
  | element (keys : List Key)

/-- The expression on a line that is not blank. -/
def readExpression? (t : Text) : Option (Expression × Text) :=
  match t with
  | '[' :: '[' :: t => do
    let (keys, t) ← readKeys? (skipSpaces t)
    return (.element keys, ← dropFront? [']', ']'] (skipSpaces t))
  | '[' :: t => do
    let (keys, t) ← readKeys? (skipSpaces t)
    return (.table keys, ← dropFront? [']'] (skipSpaces t))
  | t => (readAssignment? skipSpaces (readValue? depthLimit) t).map fun ((keys, v), t) =>
      (.assign keys v, t)

/-- The expressions of a document, at most one a line. -/
def readExpressions? (t : Text) : Option (List Expression) :=
  go (t.length + 1) t
where
  go : Nat → Text → Option (List Expression)
    | 0, _ => none
    | n + 1, t =>
      match skipBlank true t with
      | [] => some []
      | c :: t => do
        let (e, t) ← readExpression? (c :: t)
        match skipComment (skipSpaces t) with
        | [] => return [e]
        | t => return e :: (← go n (← lineBreak? t))

/-- Fills the tables of a document. The first argument is the header that assignments belong to. -/
def fill? : List Key → List Expression → Entries → Option Entries
  | _, [], entries => some entries
  | header, .assign keys v :: es, entries => do
    fill? header es (← Entries.within? (Entries.assign? keys v) .implied header .header entries)
  | _, .table keys :: es, entries => do fill? keys es (← Entries.openTable? keys entries)
  | _, .element keys :: es, entries => do fill? keys es (← Entries.appendTable? keys entries)

def byteOrderMark : Char := Char.ofNat 0xFEFF

/-- The entries of a document. A byte order mark may stand before it. -/
def read? (t : Text) : Option Entries := do
  fill? [] (← readExpressions? ((dropFront? [byteOrderMark] t).getD t)) []

end ImportMigration.Toml
