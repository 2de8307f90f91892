/-!
Decimal numbers in positional notation, and comparison of quotients of powers in whole numbers.
-/

namespace ImportMigration

/-- The number `coefficient * 10 ^ exponent`. -/
structure Decimal where
  coefficient : Nat
  exponent : Int
  deriving DecidableEq, Repr

namespace Decimal

/-- The fraction with a power of the base multiplied in. -/
def scale (base : Nat) (exponent : Int) (fraction : Nat × Nat) : Nat × Nat :=
  if 0 ≤ exponent then (fraction.1 * base.pow exponent.toNat, fraction.2)
  else (fraction.1, fraction.2 * base.pow (-exponent).toNat)

def fraction (d : Decimal) : Nat × Nat :=
  scale 10 d.exponent (d.coefficient, 1)

/-- Whether one fraction is at most another. -/
def atMost (x y : Nat × Nat) : Bool :=
  x.1 * y.2 ≤ y.1 * x.2

def digits (d : Decimal) : List Char :=
  Nat.toDigits 10 d.coefficient

/-- The number with all its places and no exponent, and with at least one digit on either side of
the point. -/
def positional (d : Decimal) : List Char :=
  let places := (-d.exponent).toNat
  if 0 ≤ d.exponent then d.digits ++ List.replicate d.exponent.toNat '0' ++ ['.', '0']
  else if places < d.digits.length then
    d.digits.take (d.digits.length - places) ++ '.' :: d.digits.drop (d.digits.length - places)
  else '0' :: '.' :: (List.replicate (places - d.digits.length) '0' ++ d.digits)

end Decimal

end ImportMigration
