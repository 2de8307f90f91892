import ImportMigration.Disk.Resolve

/-!
Changes that the owner of a disk makes to it, whatever its permissions say. Directories on the way
to a path are made as needed.
-/

namespace ImportMigration

def Access.file : Access := ⟨true, true, false⟩

def Access.directory : Access := ⟨true, true, true⟩

inductive Change where
  /-- A file with the content; one that is there keeps its permissions unless others are given. -/
  | file (p : Path) (content : Bytes) (access : Option Access)
  | directory (p : Path) (access : Option Access)
  | link (p target : Path)
  /-- Removes what bears the name itself, a directory with all that lies below it. -/
  | remove (p : Path)
  | permit (p : Path) (access : Access)
  deriving DecidableEq, Repr

namespace Disk

/-- Where a step leads. A name that nothing bears leads to where something can be made. -/
def enter (d : Disk) (p : Place) (step : Step) : Place :=
  match d.follow true linkLimit p [step], step with
  | .ok q, _ => q
  | .error _, .name n => p ++ [n]
  | .error _, _ => p

/-- Makes a directory at a place where nothing is. -/
def ensureDirectory (d : Disk) (p : Place) : Disk :=
  if (d.node? p).isSome then d else d.put p (.directory .directory)

/-- Goes to the directory that holds the last of the steps, and makes directories on the way. -/
def prepare (d : Disk) : Place → List Step → Disk × Place
  | p, [] | p, [_] => (d, p)
  | p, step :: steps => prepare (d.ensureDirectory (d.enter p step)) (d.enter p step) steps

/-- The directory in which a path ends, the last step of the path, and the disk with all
directories that lead there. -/
def locate (d : Disk) (start : Place) (p : Path) : Disk × Place × Option Step :=
  let steps := (p.steps.toOption.getD []).filter (· != .directory)
  let (d, directory) := d.prepare (if p.isAbsolute then [] else start) steps
  (d, directory, steps.getLast?)

/-- The place of what bears a name, where a link bears its name itself. -/
def named (directory : Place) : Option Step → Place
  | some (.name n) => directory ++ [n]
  | some .up => directory.dropLast
  | _ => directory

/-- The place that a last step leads to, through links if it is one. -/
def reached (d : Disk) (directory : Place) (last : Option Step) : Place :=
  last.elim directory (d.enter directory)

def setAccess (d : Disk) (p : Place) (access : Access) : Disk :=
  match d.node? p with
  | some (.file _ content) => d.put p (.file access content)
  | some (.directory _) => d.put p (.directory access)
  | _ => d

def change (d : Disk) (start : Place) : Change → Disk
  | .file p content access =>
    let (d, directory, last) := d.locate start p
    let place := d.reached directory last
    match d.node? place with
    | some (.file old _) => d.put place (.file (access.getD old) content)
    | none => d.put place (.file (access.getD .file) content)
    | some _ => d
  | .directory p access =>
    let (d, directory, last) := d.locate start p
    let place := d.reached directory last
    let d := d.ensureDirectory place
    access.elim d (d.setAccess place)
  | .link p target =>
    let (d, directory, last) := d.locate start p
    let place := named directory last
    if (d.node? place).isSome then d else d.put place (.link target)
  | .remove p =>
    let (d, directory, last) := d.locate start p
    d.remove (named directory last)
  | .permit p access =>
    let (d, directory, last) := d.locate start p
    d.setAccess (d.reached directory last) access

end Disk

end ImportMigration
