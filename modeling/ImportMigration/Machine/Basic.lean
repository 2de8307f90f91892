import ImportMigration.Machine.Notice
import ImportMigration.Path.FileName

/-!
What the program asks of the machine that it runs on. The program is written for any machine, so
that the same definitions run on a disk that is a value and on a real one.
-/

namespace ImportMigration

inductive Kind where
  | file
  | directory
  | link
  | other
  deriving DecidableEq, Repr

/-- A name in a directory and the kind of thing that bears it, which may be a link. -/
structure Entry where
  name : FileName
  kind : Kind
  deriving DecidableEq, Repr

class Machine (m : Type → Type) where
  /-- The absolute path of the working directory, which may be gone. -/
  workingDirectory : m (Except Cause Path)
  /-- The kind of what a path leads to when all links are followed. -/
  kind : Path → m (Except Cause Kind)
  /-- The entries of a directory, in any order. -/
  list : Path → m (Except Cause (List Entry))
  read : Path → m (Except Cause Bytes)
  /-- Replaces the content of a file. A file that cannot be written is not changed. -/
  write : Path → Bytes → m (Except Cause Unit)
  tell : Notice → m Unit
  /-- No directory lies deeper below another than this. -/
  depth : m Nat

end ImportMigration
