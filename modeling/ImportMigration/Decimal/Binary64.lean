import ImportMigration.Decimal.Basic

/-!
Positive binary floating-point numbers with 53 bits. `Decimal.nearest?` reads a decimal as the
nearest of them, and `Binary64.shortest` writes one with the fewest digits that read back as it;
of several such decimals it takes the nearest. All of it is exact arithmetic on whole numbers.
-/

namespace ImportMigration

/-- The number `significand * 2 ^ exponent`. -/
structure Binary64 where
  significand : Nat
  exponent : Int
  deriving DecidableEq, Repr

namespace Binary64

def leastExponent : Int := -1074

def greatestExponent : Int := 971

/-- The significands of all but the smallest numbers lie between this and its double. -/
def leastNormal : Nat := Nat.pow 2 52

end Binary64

/-- The quotient rounded to a whole number, a half to the even neighbour. -/
def roundQuotient (x : Nat × Nat) : Nat :=
  let quotient := x.1 / x.2
  let twice := 2 * (x.1 % x.2)
  if x.2 < twice || (twice == x.2 && quotient % 2 == 1) then quotient + 1 else quotient

namespace Decimal

open Binary64

/-- The exponent with which a positive fraction has a significand of 53 bits. -/
def binaryExponent (x : Nat × Nat) : Int :=
  let estimate : Int := (Nat.log2 x.1 : Int) - (Nat.log2 x.2 : Int)
  if atMost (scale 2 estimate (1, 1)) x then estimate - 52 else estimate - 53

/-- The nearest number of 53 bits, unless that lies beyond the largest. A number far out of range
is settled by its length, before any power is taken. -/
def nearest? (d : Decimal) : Option Binary64 :=
  let magnitude : Int := d.exponent + (d.digits.length : Int)
  if d.coefficient = 0 ∨ magnitude < -330 then some ⟨0, leastExponent⟩
  else if 310 < magnitude then none
  else
    let exponent := max leastExponent (binaryExponent d.fraction)
    let significand := roundQuotient (scale 2 (-exponent) d.fraction)
    let rounded : Binary64 :=
      if significand = 2 * leastNormal then ⟨leastNormal, exponent + 1⟩ else ⟨significand, exponent⟩
    if greatestExponent < rounded.exponent then none else some rounded

end Decimal

namespace Binary64

open Decimal

def fraction (b : Binary64) : Nat × Nat :=
  scale 2 b.exponent (b.significand, 1)

/-- The ends of the interval of numbers that round to this one. They halve the way to its two
neighbours, of which the lower is nearer at a power of two. -/
def roundingInterval (b : Binary64) : (Nat × Nat) × (Nat × Nat) :=
  let narrow := b.significand = leastNormal ∧ leastExponent < b.exponent
  let low := if narrow then 4 * b.significand - 1 else 4 * b.significand - 2
  (scale 2 (b.exponent - 2) (low, 1), scale 2 (b.exponent - 2) (4 * b.significand + 2, 1))

/-- Whether a decimal rounds to the number. The ends of the interval do if the significand is even. -/
def isReadFrom (b : Binary64) (d : Decimal) : Bool :=
  let (low, high) := b.roundingInterval
  if b.significand % 2 = 0 then atMost low d.fraction && atMost d.fraction high
  else !atMost d.fraction low && !atMost high d.fraction

/-- The number of places before the decimal point, negative if zeros follow it. -/
def magnitude (b : Binary64) : Int :=
  let (numerator, denominator) := b.fraction
  let estimate : Int :=
    ((Nat.toDigits 10 numerator).length : Int) - ((Nat.toDigits 10 denominator).length : Int)
  if atMost (scale 10 estimate (1, 1)) b.fraction then estimate + 1 else estimate

/-- The decimal with the given number of digits that reads back as the number, if one does: one of
the two on either side of it. The upper one may be a power of ten, which has a single digit. -/
def withDigits? (b : Binary64) (count : Nat) : Option Decimal :=
  let exponent := b.magnitude - (count : Int)
  let (numerator, denominator) := scale 10 (-exponent) b.fraction
  let below : Decimal := ⟨numerator / denominator, exponent⟩
  let above : Decimal :=
    if numerator / denominator + 1 = Nat.pow 10 count then ⟨1, b.magnitude⟩
    else ⟨numerator / denominator + 1, exponent⟩
  let belowNearer := 2 * (numerator % denominator) < denominator
  match b.isReadFrom below, b.isReadFrom above with
  | true, true => some (if belowNearer then below else above)
  | true, false => some below
  | false, true => some above
  | false, false => none

/-- The shortest decimal that reads back as the number. Seventeen digits always do. -/
def shortest (b : Binary64) : Decimal :=
  if b.significand = 0 then ⟨0, 0⟩
  else ((List.range 17).findSome? fun n => b.withDigits? (n + 1)).getD ⟨0, 0⟩

end Binary64

end ImportMigration
