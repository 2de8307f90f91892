import ImportMigration.Machine.Cause
import ImportMigration.Path.Basic

/-!
The lines that a migration prints while it runs: what became of each file on standard output,
and warnings on standard error.
-/

namespace ImportMigration

inductive Stream where
  | output
  | error
  deriving DecidableEq, Repr

inductive Notice where
  | skipping (p : Path)
  | updated (p : Path)
  | wouldUpdate (p : Path)
  | writeFailed (p : Path) (cause : Cause)
  | unreadableDirectory (p : Path) (cause : Cause)
  deriving DecidableEq, Repr

namespace Notice

def stream : Notice → Stream
  | skipping _ | updated _ | wouldUpdate _ => .output
  | writeFailed _ _ | unreadableDirectory _ _ => .error

def text : Notice → Text
  | skipping p => "Skipping binary or unreadable file: ".toList ++ p.display
  | updated p => "Updated: ".toList ++ p.display
  | wouldUpdate p => "Would update: ".toList ++ p.display
  | writeFailed p cause =>
    "Warning: failed to write ".toList ++ p.display ++ ": ".toList ++ cause.text
  | unreadableDirectory p cause =>
    "Warning: skipping unreadable directory ".toList ++ p.display ++ ": ".toList ++ cause.text

end Notice

/-- What a list of notices prints on one of the streams. -/
def printed (s : Stream) (notices : List Notice) : Text :=
  (notices.filter (·.stream == s)).flatMap fun n => n.text ++ ['\n']

end ImportMigration
