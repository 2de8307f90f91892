import ImportMigration.Text.Basic

/-!
Text in UTF-8. A list of bytes falls apart, from the left, into units: a well-formed character, or
a longest run of bytes that begins one and then breaks off. Bytes are a text if no unit is broken;
what is shown of other bytes has U+FFFD in the place of each broken unit.
-/

namespace ImportMigration

abbrev Bytes := List UInt8

namespace Utf8

def encode (t : Text) : Bytes :=
  t.flatMap String.utf8EncodeChar

/-- What a lead byte says of its character: the bits that it holds, the number of bytes that follow,
and the range of the first of these, which keeps out overlong forms, surrogates and code points
above U+10FFFF. -/
structure Lead where
  bits : Nat
  follow : Nat
  low : UInt8 := 0x80
  high : UInt8 := 0xBF

def lead? (b : UInt8) : Option Lead :=
  if b < 0x80 then some { bits := b.toNat, follow := 0 }
  else if b < 0xC2 then none
  else if b < 0xE0 then some { bits := b.toNat - 0xC0, follow := 1 }
  else if b = 0xE0 then some { bits := 0, follow := 2, low := 0xA0 }
  else if b = 0xED then some { bits := 0x0D, follow := 2, high := 0x9F }
  else if b < 0xF0 then some { bits := b.toNat - 0xE0, follow := 2 }
  else if b = 0xF0 then some { bits := 0, follow := 3, low := 0x90 }
  else if b < 0xF4 then some { bits := b.toNat - 0xF0, follow := 3 }
  else if b = 0xF4 then some { bits := 4, follow := 3, high := 0x8F }
  else none

/-- Reads the bytes that still have to follow. The character is missing if one of them is out of
its range; that byte then begins the next unit. -/
def follow : Nat → Nat → UInt8 → UInt8 → Bytes → Option Char × Bytes
  | 0, bits, _, _, t => (some (Char.ofNat bits), t)
  | _ + 1, _, _, _, [] => (none, [])
  | n + 1, bits, low, high, b :: t =>
    if low ≤ b ∧ b ≤ high then follow n (bits * 64 + (b.toNat - 0x80)) 0x80 0xBF t
    else (none, b :: t)

/-- The unit that begins with the byte, and the bytes after it. -/
def unit (b : UInt8) (t : Bytes) : Option Char × Bytes :=
  match lead? b with
  | none => (none, t)
  | some l => follow l.follow l.bits l.low l.high t

theorem length_follow_le (n bits : Nat) (low high : UInt8) (t : Bytes) :
    (follow n bits low high t).2.length ≤ t.length := by
  fun_induction follow n bits low high t with
  | case1 => exact Nat.le_refl _
  | case2 => exact Nat.le_refl _
  | case3 bits low high n b t h ih => exact Nat.le_trans ih (Nat.le_succ _)
  | case4 => exact Nat.le_refl _

theorem length_unit_le (b : UInt8) (t : Bytes) : (unit b t).2.length ≤ t.length := by
  unfold unit
  split
  · exact Nat.le_refl _
  · exact length_follow_le ..

/-- The units of the bytes: a character each, or nothing for a broken one. -/
def units : Bytes → List (Option Char)
  | [] => []
  | b :: t => (unit b t).1 :: units (unit b t).2
termination_by t => t.length
decreasing_by exact Nat.lt_succ_of_le (length_unit_le b t)

def decode? (b : Bytes) : Option Text :=
  (units b).mapM id

def replacement : Char := Char.ofNat 0xFFFD

/-- The text that is shown for bytes that need not be one. -/
def lossy (b : Bytes) : Text :=
  (units b).map (·.getD replacement)

end Utf8

end ImportMigration
