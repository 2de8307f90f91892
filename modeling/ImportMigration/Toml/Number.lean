import ImportMigration.Decimal.Binary64
import ImportMigration.Toml.Quoted

/-!
Whole and floating-point numbers as TOML writes them. Single underscores may stand between digits;
a decimal number has no leading zeros; the other bases have a small letter and no sign.

A whole number is kept as it is written, and its value is worked out only where it is asked for.
Reading one finds where its digits must be and little more, so some that are read have no value.
-/

namespace ImportMigration.Toml

inductive Sign where
  | plus
  | minus
  deriving DecidableEq, Repr

/-- A whole number as it is written, without its underscores. -/
structure Integer where
  base : Nat
  sign : Option Sign
  digits : Text
  deriving DecidableEq, Repr

inductive Float where
  | decimal (negative : Bool) (magnitude : Decimal)
  | infinity (negative : Bool)
  | nan
  deriving DecidableEq, Repr

namespace Number

def isDigit (base : Nat) (c : Char) : Bool :=
  (Quoted.hexDigit? c).any (· < base)

/-- The digits of a text in which single underscores may stand between digits. -/
def digits? (base : Nat) (t : Text) : Option Text :=
  let groups := t.splitOn '_'
  if groups.all fun g => !g.isEmpty && g.all (isDigit base) then some groups.flatten else none

def hasLeadingZero (digits : Text) : Bool :=
  digits.head? == some '0' && 1 < digits.length

def valueOf (base : Nat) (digits : Text) : Nat :=
  digits.foldl (fun n c => n * base + (Quoted.hexDigit? c).getD 0) 0

/-- The sign of a number, if it has one, and the text after it. -/
def takeSign : Text → Option Sign × Text
  | '+' :: t => (some .plus, t)
  | '-' :: t => (some .minus, t)
  | t => (none, t)

def signed (sign : Option Sign) (n : Nat) : Int :=
  if sign = some .minus then -n else n

def isExponentMark (c : Char) : Bool :=
  c == 'e' || c == 'E'

/-- Groups that follow an underscore. Each begins with a digit of any base, and ends with one
before the next underscore. -/
def areGroups : List Text → Bool
  | [] => true
  | [g] => g.head?.any (isDigit 16)
  | g :: gs => g.head?.any (isDigit 16) && g.getLast?.any (isDigit 16) && areGroups gs

/-- A decimal number. -/
def decimal? (t : Text) : Option Integer :=
  let (sign, t) := takeSign t
  match t.splitOn '_' with
  | [] => none
  | first :: groups =>
    if !first.isEmpty && first.all Char.isDigit && (first.head? != some '0' || t == ['0'])
        && areGroups groups && t.all fun c => c != ' ' && c != '.' && !isExponentMark c then
      some ⟨10, sign, (first :: groups).flatten⟩
    else none

/-- The digits after a letter that tells the base. There may be none. -/
def based? (base : Nat) (t : Text) : Option Integer :=
  if t.isEmpty then some ⟨base, none, []⟩ else (digits? base t).map (⟨base, none, ·⟩)

def integer? (t : Text) : Option Integer :=
  match t with
  | '0' :: 'x' :: t => based? 16 t
  | '0' :: 'o' :: t => based? 8 t
  | '0' :: 'b' :: t => based? 2 t
  | t => decimal? t

/-- The exponent at the end of a number. There must be one unless the number has a fraction. -/
def exponent? (hasFraction : Bool) : Text → Option Int
  | [] => if hasFraction then some 0 else none
  | _ :: t => (digits? 10 (takeSign t).2).map fun d => signed (takeSign t).1 (valueOf 10 d)

def float? (t : Text) : Option Float :=
  let (sign, t) := takeSign t
  let negative := sign == some .minus
  if t = "inf".toList then some (.infinity negative)
  else if t = "nan".toList then some .nan
  else do
    let mantissa := t.takeWhile (!isExponentMark ·)
    let whole ← (digits? 10 (mantissa.takeWhile (· != '.'))).filter (!hasLeadingZero ·)
    let fraction ← match mantissa.dropWhile (· != '.') with
      | [] => some []
      | _ :: f => digits? 10 f
    let exponent ← exponent? (!fraction.isEmpty) (t.dropWhile (!isExponentMark ·))
    return .decimal negative
      ⟨valueOf 10 (whole ++ fraction), exponent - (fraction.length : Int)⟩

end Number

/-- What a whole number is worth. One with no digits, or with others than those of its base, has
no value. -/
def Integer.value? (n : Integer) : Option Int :=
  if !n.digits.isEmpty && n.digits.all (Number.isDigit n.base) then
    some (Number.signed n.sign (Number.valueOf n.base n.digits))
  else none

/-- The number with all its places. There is no text for a number that is too large for 53 bits. -/
def Float.text? : Float → Option Text
  | .nan => some "NaN".toList
  | .infinity negative => some ((if negative then ['-'] else []) ++ "inf".toList)
  | .decimal negative magnitude => magnitude.nearest?.map fun b =>
      (if negative then ['-'] else []) ++ b.shortest.positional

end ImportMigration.Toml
