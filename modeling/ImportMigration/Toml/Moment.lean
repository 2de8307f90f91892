import ImportMigration.Toml.Layout

/-!
Dates and times. A moment is a date, a time, or a date with a time and perhaps an offset; a time
may leave out its seconds. Which moment it is plays no part, only whether there is one.
-/

namespace ImportMigration.Toml.Moment

/-- A number of exactly so many digits, and the text after it. -/
def readDigits? (count : Nat) (t : Text) : Option (Nat × Text) :=
  let digits := t.takeWhile Char.isDigit
  if digits.length = count then
    some (digits.foldl (fun n c => n * 10 + (c.toNat - 48)) 0, t.dropWhile Char.isDigit)
  else none

/-- The text after the given character. -/
def skip? (c : Char) (t : Text) : Option Text :=
  dropFront? [c] t

def daysIn (year month : Nat) : Nat :=
  if month = 2 then
    if year % 4 = 0 ∧ (year % 100 ≠ 0 ∨ year % 400 = 0) then 29 else 28
  else if month ∈ [4, 6, 9, 11] then 30
  else 31

/-- The text after a date. -/
def skipDate? (t : Text) : Option Text := do
  let (year, t) ← readDigits? 4 t
  let (month, t) ← readDigits? 2 (← skip? '-' t)
  let (day, t) ← readDigits? 2 (← skip? '-' t)
  guard (1 ≤ month ∧ month ≤ 12 ∧ 1 ≤ day ∧ day ≤ daysIn year month)
  return t

/-- The text after an hour and a minute. -/
def skipMinute? (t : Text) : Option Text := do
  let (hour, t) ← readDigits? 2 t
  let (minute, t) ← readDigits? 2 (← skip? ':' t)
  guard (hour ≤ 23 ∧ minute ≤ 59)
  return t

/-- The text after a time. A minute may have a leap second. -/
def skipTime? (t : Text) : Option Text := do
  let t ← skipMinute? t
  match t with
  | ':' :: t =>
    let (second, t) ← readDigits? 2 t
    guard (second ≤ 60)
    match t with
    | '.' :: t =>
      guard (t.head?.any Char.isDigit)
      return t.dropWhile Char.isDigit
    | t => return t
  | t => return t

/-- Whether the text is nothing, or an offset from universal time. -/
def isOffset : Text → Bool
  | [] => true
  | c :: t =>
    if c = 'Z' ∨ c = 'z' then t.isEmpty
    else (c == '+' || c == '-') && skipMinute? t == some []

/-- What may stand between a date and a time. -/
def isSeparator (c : Char) : Bool :=
  c == 'T' || c == 't' || c == ' '

def isMoment (t : Text) : Bool :=
  match skipDate? t with
  | none => skipTime? t == some []
  | some [] => true
  | some (c :: t) => isSeparator c && (skipTime? t).any isOffset

end ImportMigration.Toml.Moment
