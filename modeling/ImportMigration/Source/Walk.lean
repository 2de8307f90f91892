import ImportMigration.Machine.Basic
import ImportMigration.Source.Filter

/-!
The walk through the source files below a directory. The entries of a directory are taken in the
order of their names, each after all that lies below the one before it. Links to files are visited,
links to directories are not entered.

Visits happen during the walk: what a visit changes, later steps find changed.
-/

namespace ImportMigration.Source

/-- Why a directory cannot be walked through. -/
inductive RootError where
  | notFound (root : Path)
  | notADirectory (root : Path)
  deriving DecidableEq, Repr

def RootError.root : RootError → Path
  | notFound root | notADirectory root => root

def RootError.text : RootError → Text
  | notFound root => "Root directory not found: ".toList ++ root.display
  | notADirectory root => "Root is not a directory: ".toList ++ root.display

/-- The order of entries: by the bytes of their names. -/
def entryLE (x y : Entry) : Bool :=
  !decide (y.name.bytes < x.name.bytes)

variable {m : Type → Type} [Monad m] [Machine m] {α : Type}

/-- Whether an entry that is not a directory is a file, itself or through a link. -/
def isFile (p : Path) : Kind → m Bool
  | .file => return true
  | .link => return (← Machine.kind p).toOption == some .file
  | _ => return false

/-- Visits the files below a directory that the filter accepts, and gives what the visits gave. A
directory that cannot be listed is reported and left out. -/
def descend (filter : Filter) (visit : Path → m α) : Nat → Path → m (List α)
  | 0, _ => return []
  | depth + 1, directory => do
    match ← Machine.list directory with
    | .error cause =>
      Machine.tell (.unreadableDirectory directory cause)
      return []
    | .ok entries =>
      let visits ← (entries.mergeSort entryLE).mapM fun entry => do
        let p := directory.child entry.name
        if entry.kind = .directory then descend filter visit depth p
        else if (← isFile p entry.kind) && filter.accepts p then return [← visit p]
        else return []
      return visits.flatten

/-- Visits the source files below a root, which may be a link to a directory. -/
def walk (filter : Filter) (visit : Path → m α) (root : Path) : m (Except RootError (List α)) := do
  match ← Machine.kind root with
  | .error _ => return .error (.notFound root)
  | .ok .directory => return .ok (← descend filter visit (← Machine.depth) root)
  | .ok _ => return .error (.notADirectory root)

end ImportMigration.Source
