import ImportMigration.Path.Basic

/-!
The names that a directory can hold: all bytes but the slash and the null byte, and not the names
that a path uses for the directory itself and for the one above it.
-/

namespace ImportMigration

def IsFileName (b : Bytes) : Prop :=
  b ≠ [] ∧ Path.slash ∉ b ∧ 0 ∉ b ∧ b ≠ [Path.dot] ∧ b ≠ [Path.dot, Path.dot]

instance (b : Bytes) : Decidable (IsFileName b) :=
  inferInstanceAs (Decidable (_ ∧ _ ∧ _ ∧ _ ∧ _))

structure FileName where
  bytes : Bytes
  isFileName : IsFileName bytes
  deriving DecidableEq, Repr

def FileName.ofBytes? (b : Bytes) : Option FileName :=
  if h : IsFileName b then some ⟨b, h⟩ else none

/-- The path of what bears a name in a directory. -/
def Path.child (p : Path) (n : FileName) : Path :=
  p.join ⟨n.bytes⟩

end ImportMigration
