import ImportMigration.CommandLine.Program

/-!
The command line on the machine that runs it.
-/

namespace ImportMigration.Main

def shown (t : Text) : String :=
  String.ofList t

def cause : IO.Error → Cause
  | .noFileOrDirectory .. => .notFound
  | .permissionDenied .. => .notPermitted
  | .inappropriateType _ code details =>
    if code = 20 then .notADirectory
    else if code = 21 then .isADirectory
    else .other details.toList
  | .invalidArgument _ code details =>
    if code = 36 then .nameTooLong
    else if code = 40 then .tooManyLinks
    else .other details.toList
  | e => .other e.toString.toList

def caught {α : Type} (action : IO α) : IO (Except Cause α) := do
  return match ← action.toBaseIO with
    | .ok a => .ok a
    | .error e => .error (cause e)

/-- An action on the file that a path names, which the empty path does not. -/
def onPath {α : Type} (p : Path) (action : String → IO α) : IO (Except Cause α) :=
  if p.bytes = [] then return .error .notFound
  else if 0 ∈ p.bytes then return .error .nulInPath
  else caught (action (shown p.display))

def kind : IO.FS.FileType → Kind
  | .file => .file
  | .dir => .directory
  | .symlink => .link
  | .other => .other

/-- An entry that cannot be looked at, in a directory that may be listed but not searched, is taken
for a file, which then cannot be read. -/
def entry? (e : IO.FS.DirEntry) : IO (Option Entry) := do
  let type := match ← e.path.symlinkMetadata.toBaseIO with
    | .ok metadata => metadata.type
    | .error _ => .file
  return (FileName.ofBytes? (Utf8.encode e.fileName.toList)).map (⟨·, kind type⟩)

instance : Machine IO where
  workingDirectory := caught do return .ofText (← IO.currentDir).toString.toList
  kind p := onPath p fun name => do return kind (← ((← IO.currentDir) / name).metadata).type
  list p := onPath p fun name => do
    return (← (← ((← IO.currentDir) / name).readDir).toList.filterMapM entry?)
  read p := onPath p fun name => do return (← IO.FS.readBinFile name).toList
  write p content := onPath p fun name => IO.FS.writeBinFile name ⟨content.toArray⟩
  tell n :=
    match n.stream with
    | .output => IO.println (shown n.text)
    | .error => IO.eprintln (shown n.text)
  -- Every directory takes two bytes of a path, and a path has fewer than 4096 of them.
  depth := return 4096

end ImportMigration.Main

def main (arguments : List String) : IO UInt32 := do
  let words := arguments.map fun w => ImportMigration.Utf8.encode w.toList
  let ending : ImportMigration.CommandLine.Ending ← ImportMigration.CommandLine.run words
  IO.print (ImportMigration.Main.shown (ending.text .output))
  IO.eprint (ImportMigration.Main.shown (ending.text .error))
  return ending.exitCode
