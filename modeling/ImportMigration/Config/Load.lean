import ImportMigration.Config.Read
import ImportMigration.Machine.Basic

/-!
Finding and loading config files.
-/

namespace ImportMigration.Config

/-- Why a config file cannot be used. -/
inductive LoadError where
  | unreadable (path : Path) (cause : Cause)
  | invalid (path : Path) (fault : Fault)

def LoadError.path : LoadError → Path
  | unreadable path _ | invalid path _ => path

def LoadError.text : LoadError → Text
  | unreadable path _ => "Failed to read config file: ".toList ++ path.display
  | invalid path _ => "Failed to parse config file: ".toList ++ path.display

/-- What lies behind the error, where that can be told. -/
def LoadError.detail? : LoadError → Option Text
  | unreadable _ cause => some cause.text
  | invalid _ fault => fault.text?

/-- The configuration in the text of a config file. -/
def ofText (path : Path) (t : Text) : Except LoadError Config :=
  match parse t with
  | .error fault => .error (.invalid path fault)
  | .ok root => .ok ⟨path, root⟩

def ofBytes (path : Path) (b : Bytes) : Except LoadError Config :=
  match Utf8.decode? b with
  | none => .error (.unreadable path .notText)
  | some t => ofText path t

variable {m : Type → Type} [Monad m] [Machine m]

/-- The config file in a directory, if there is one. -/
def find (directory : Path) : m (Option Path) := do
  let path := directory.join fileName
  match ← Machine.kind path with
  | .ok .file => return some path
  | _ => return none

def load (path : Path) : m (Except LoadError Config) := do
  match ← Machine.read path with
  | .error cause => return .error (.unreadable path cause)
  | .ok b => return ofBytes path b

end ImportMigration.Config
