import ImportMigration.Config.Basic
import ImportMigration.Toml.Document

/-!
Config files are TOML documents with one key, `root`, whose value is a string. Of the keys that
break this rule the least one is reported.
-/

namespace ImportMigration.Config

def rootKey : Toml.Key := "root".toList

/-- Why a text is not a configuration. -/
inductive Fault where
  /-- It is not a well-formed document, or defines something twice. -/
  | malformed
  | unknownKey (key : Toml.Key)
  /-- The root is not a string. -/
  | wrongRoot (v : Toml.Value)

/-- Whether a number can be written in so many bits, with or without a sign. -/
def fitsSigned (bits : Nat) (n : Int) : Bool :=
  -(Nat.pow 2 (bits - 1) : Int) ≤ n && n < (Nat.pow 2 (bits - 1) : Int)

@[inherit_doc fitsSigned]
def fitsUnsigned (bits : Nat) (n : Int) : Bool :=
  0 ≤ n && n < (Nat.pow 2 bits : Int)

/-- A number as it is reported, with the width that it needs beyond 64 bits. There is no text for
one that does not fit 128 bits. -/
def integerText? (n : Int) : Option Text :=
  let shown := '\x60' :: (toString n).toList ++ ['\x60']
  if fitsSigned 64 n || fitsUnsigned 64 n then some shown
  else if fitsSigned 128 n then some (shown ++ " as i128".toList)
  else if fitsUnsigned 128 n then some (shown ++ " as u128".toList)
  else none

/-- What a value is called when something else was expected. -/
def valueText? : Toml.Value → Option Text
  | .string t => some ("string \"".toList ++ t ++ ['"'])
  | .integer n => (n.value?.bind integerText?).map ("integer ".toList ++ ·)
  | .float f => f.text?.map fun t => "floating point \x60".toList ++ t ++ ['\x60']
  | .boolean b => some (if b then "boolean \x60true\x60".toList else "boolean \x60false\x60".toList)
  | .array _ | .tables _ _ => some "sequence".toList
  | .moment | .inline _ | .table _ _ => some "map".toList

/-- What is said of a fault. Nothing is said of a document that cannot be read, nor of a number
that cannot be represented. -/
def Fault.text? : Fault → Option Text
  | malformed => none
  | unknownKey key =>
    some ("unknown field \x60".toList ++ key ++ "\x60, expected \x60root\x60".toList)
  | wrongRoot v => (valueText? v).map fun t =>
      "invalid type: ".toList ++ t ++ ", expected path string".toList

/-- The order of keys: by code points, which is that of their bytes. -/
def keyLE (x y : Toml.Key × Toml.Value) : Bool :=
  !decide (y.1 < x.1)

/-- The configured root, from the entries in the order of their keys. -/
def rootOf : Toml.Entries → Except Fault (Option Path)
  | [] => .ok none
  | (key, v) :: entries =>
    if key = rootKey then
      match v with
      | .string t => do
        let _ ← rootOf entries
        return some (.ofText t)
      | v => .error (.wrongRoot v)
    else .error (.unknownKey key)

/-- The root that a config file's text sets, if it sets one. -/
def parse (t : Text) : Except Fault (Option Path) :=
  match Toml.read? t with
  | none => .error .malformed
  | some entries => rootOf (entries.mergeSort keyLE)

end ImportMigration.Config
