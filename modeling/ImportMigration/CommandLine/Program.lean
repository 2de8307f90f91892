import ImportMigration.CommandLine.Arguments
import ImportMigration.Config.Load
import ImportMigration.Migration.Run

/-!
The program as a whole: what a command line does, how it ends, and what is printed at the end.
-/

namespace ImportMigration.CommandLine

/-- Why nothing was migrated. -/
inductive StartupError where
  /-- The working directory, where a config file would be, cannot be told. -/
  | directory (cause : Cause)
  | config (e : Config.LoadError)
  | root (e : Source.RootError)

namespace StartupError

def heading : StartupError → Text
  | directory _ => "Failed to get current directory".toList
  | config e => "Failed to load config ".toList ++ e.path.display
  | root e => "Failed to migrate ".toList ++ e.root.display

/-- Later lines of a text moved to the right. -/
def indent (width : Nat) (t : Text) : Text :=
  t.flatMap fun c => if c = '\n' then '\n' :: List.replicate width ' ' else [c]

/-- One of several causes. -/
def numbered (n : Nat) (t : Text) : Text :=
  "\n    ".toList ++ (toString n).toList ++ ": ".toList ++ indent 7 t

/-- The causes of the error, from the outer to the inner. A single one has no number. What is wrong
with the text of a config file is not said. -/
def causes : StartupError → Text
  | directory cause => "\n    ".toList ++ indent 4 cause.text
  | config (.unreadable path cause) =>
    numbered 0 (Config.LoadError.unreadable path cause).text ++ numbered 1 cause.text
  | config e => numbered 0 e.text
  | root e => "\n    ".toList ++ indent 4 e.text

def text (e : StartupError) : Text :=
  "error: ".toList ++ e.heading ++ "\n\nCaused by:".toList ++ e.causes

end StartupError

inductive Ending where
  | help
  | version
  | usage (e : UsageError)
  | failed (e : StartupError)
  /-- The migration ran. The report is there if a summary was asked for. -/
  | done (summary : Option Migration.Report) (mode : Migration.Mode)

def helpText : Text :=
  "Rewrite @material-ui imports to the @mui packages, in place

Usage: mui-migrate [OPTIONS] [ROOT]

Arguments:
  [ROOT]  Directory to migrate [default: frontend/src]

Options:
      --config <PATH>  Config file to use instead of ./.mui-migrate.toml
      --dry-run        Report the files that would change without writing them
      --summary        Print a tally of outcomes when done
  -h, --help           Print help
  -V, --version        Print version
".toList

def versionText : Text :=
  "mui-migrate 0.1.0\n".toList

def summaryText (r : Migration.Report) (mode : Migration.Mode) : Text :=
  let count (n : Nat) (word : String) : Text := (toString n).toList ++ word.toList
  count r.visited " file(s) visited: " ++
    count r.updated (match mode with
      | .write => " updated, "
      | .dryRun => " would update, ") ++
    count r.unchanged " unchanged, " ++ count r.skipped " skipped, " ++
    count r.failed " failed\n"

namespace Ending

def exitCode : Ending → UInt32
  | help | version | done _ _ => 0
  | failed _ => 1
  | usage _ => 2

/-- What is printed at the end on a stream. -/
def text : Stream → Ending → Text
  | .output, help => helpText
  | .output, version => versionText
  | .output, done (some r) mode => summaryText r mode
  | .error, usage e => e.text ++ ['\n']
  | .error, failed e => e.text ++ ['\n']
  | _, _ => []

end Ending

variable {m : Type → Type} [Monad m] [Machine m]

/-- The path of the config file: the named one, or else that of the working directory, if it has
one. -/
def configPath (named : Option Path) : m (Except StartupError (Option Path)) := do
  match named with
  | some path => return .ok (some path)
  | none =>
    match ← Machine.workingDirectory with
    | .error cause => return .error (.directory cause)
    | .ok directory => return .ok (← Config.find directory)

def loadConfig (named : Option Path) : m (Except StartupError (Option Config)) := do
  match ← configPath named with
  | .error e => return .error e
  | .ok none => return .ok none
  | .ok (some path) =>
    match ← Config.load path with
    | .error e => return .error (.config e)
    | .ok config => return .ok (some config)

/-- Migrates as the arguments say. -/
def migrate (a : Arguments) : m Ending := do
  let mode := if a.dryRun then .dryRun else .write
  match ← loadConfig a.config with
  | .error e => return .failed e
  | .ok config =>
    match ← Migration.run (Config.options config a.root mode) with
    | .error e => return .failed (.root e)
    | .ok report => return .done (if a.summary then some report else none) mode

/-- Does what the words of a command line ask for. -/
def run (words : List Bytes) : m Ending :=
  match parse words with
  | .error e => return .usage e
  | .ok .help => return .help
  | .ok .version => return .version
  | .ok (.run a) => migrate a

end ImportMigration.CommandLine
