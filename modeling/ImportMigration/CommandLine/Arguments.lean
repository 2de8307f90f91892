import ImportMigration.Path.Basic
import ImportMigration.Text.Visible

/-!
The words of a command line. Options may stand anywhere before a `--`, after which every word is an
argument; help and the version are given as soon as they are asked for.

A value is looked at only once the next option or argument has been accepted, or the words are at
their end. So a word that is no option at all is reported before a faulty value that precedes it.
-/

namespace ImportMigration.CommandLine

structure Arguments where
  root : Option Path := none
  config : Option Path := none
  dryRun : Bool := false
  summary : Bool := false
  deriving DecidableEq, Repr

/-- The options that are known by a long name. -/
inductive Opt where
  | config
  | dryRun
  | summary
  | help
  | version
  deriving DecidableEq, Repr

/-- What can be given at most once. -/
inductive Parameter where
  | root
  | config
  | dryRun
  | summary
  deriving DecidableEq, Repr

inductive Request where
  | run (a : Arguments)
  | help
  | version
  deriving DecidableEq, Repr

inductive UsageError where
  | unexpectedArgument (shown : Text)
  | missingValue (p : Parameter)
  | repeated (p : Parameter)
  /-- A value for an option that takes none. -/
  | unexpectedValue (shown : Text) (o : Opt)
  deriving DecidableEq, Repr

def Opt.name : Opt → Text
  | config => "config".toList
  | dryRun => "dry-run".toList
  | summary => "summary".toList
  | help => "help".toList
  | version => "version".toList

def Opt.ofName? (name : Text) : Option Opt :=
  [Opt.config, .dryRun, .summary, .help, .version].find? (·.name == name)

def Parameter.text : Parameter → Text
  | root => "[ROOT]".toList
  | config => "--config <PATH>".toList
  | dryRun => "--dry-run".toList
  | summary => "--summary".toList

/-- What is said of an error. Of a word that it quotes the visible part is shown. -/
def UsageError.text : UsageError → Text
  | unexpectedArgument shown =>
    "error: unexpected argument '".toList ++ shown.visible ++ "' found".toList
  | missingValue p =>
    "error: a value is required for '".toList ++ p.text ++ "' but none was supplied".toList
  | repeated p =>
    "error: the argument '".toList ++ p.text ++ "' cannot be used multiple times".toList
  | unexpectedValue shown o =>
    "error: unexpected value '".toList ++ shown.visible ++ "' for '--".toList ++ o.name ++
      "' found; no more were expected".toList

/-- A value that has not been looked at yet. -/
inductive Pending where
  | root (value : Bytes)
  /-- The value of `--config`, once there is one. -/
  | config (value : Option Bytes)
  deriving DecidableEq, Repr

structure State where
  accepted : Arguments := {}
  pending : Option Pending := none
  deriving DecidableEq, Repr

/-- A word as it is taken before a `--`. -/
inductive Word where
  | endOfOptions
  /-- A word that begins with two hyphens, cut at its first equals sign. -/
  | long (name : Bytes) (value : Option Bytes)
  /-- A hyphen with the given bytes, at least one, after it. -/
  | short (flags : Bytes)
  | plain
  deriving DecidableEq, Repr

def hyphen : UInt8 := 0x2D

def equals : UInt8 := 0x3D

def Word.ofBytes (w : Bytes) : Word :=
  match w with
  | [] => .plain
  | first :: rest =>
    if first ≠ hyphen then .plain
    else
      match rest with
      | [] => .plain
      | second :: name =>
        if second ≠ hyphen then .short rest
        else if name = [] then .endOfOptions
        else
          match name.dropWhile (· != equals) with
          | [] => .long name none
          | _ :: value => .long (name.takeWhile (· != equals)) (some value)

namespace State

/-- Accepts a value for `--config`. -/
def setConfig (s : State) (value : Bytes) : Except UsageError State :=
  if s.accepted.config.isSome then .error (.repeated .config)
  else if value = [] then .error (.missingValue .config)
  else .ok { accepted := { s.accepted with config := some ⟨value⟩ } }

/-- Accepts the value that is still to be looked at. -/
def settle (s : State) : Except UsageError State :=
  match s.pending with
  | none => .ok s
  | some (.root value) =>
    if value = [] then .error (.missingValue .root)
    else .ok { accepted := { s.accepted with root := some ⟨value⟩ } }
  | some (.config none) => .error (.missingValue .config)
  | some (.config (some value)) => s.setConfig value

/-- Whether the argument has been given, accepted or not. -/
def hasRoot (s : State) : Bool :=
  s.accepted.root.isSome || s.pending matches some (.root _)

/-- Takes an argument. -/
def takeArgument (s : State) (value : Bytes) : Except UsageError State := do
  if s.hasRoot then throw (.unexpectedArgument (Utf8.lossy value))
  return { (← s.settle) with pending := some (.root value) }

/-- Takes an option that changes what the program does when it runs. -/
def takeSetting (s : State) (o : Opt) (value : Option Bytes) : Except UsageError State := do
  match o, value with
  | .config, none => return { (← s.settle) with pending := some (.config none) }
  | .config, some value => (← s.settle).setConfig value
  | o, some value => throw (.unexpectedValue (Utf8.lossy value) o)
  | .dryRun, none =>
    let s ← s.settle
    if s.accepted.dryRun then throw (.repeated .dryRun)
    return { accepted := { s.accepted with dryRun := true } }
  | .summary, none =>
    let s ← s.settle
    if s.accepted.summary then throw (.repeated .summary)
    return { accepted := { s.accepted with summary := true } }
  | _, none => s.settle

end State

/-- Takes the words that follow a `--`. -/
def parseArguments (s : State) : List Bytes → Except UsageError Request
  | [] => return .run (← s.settle).accepted
  | w :: ws => do parseArguments (← s.takeArgument w) ws

/-- Takes a word of short flags. The first one decides: both flags that exist end the parsing. -/
def parseShort (s : State) (flags : Bytes) : Except UsageError Request :=
  match (Utf8.units flags).head?, Utf8.lossy flags with
  | some (some 'h'), _ => s.settle.map fun _ => .help
  | some (some 'V'), _ => s.settle.map fun _ => .version
  | some (some c), _ => .error (.unexpectedArgument ['-', c])
  | _, shown => .error (.unexpectedArgument ('-' :: shown))

def parseWords (s : State) : List Bytes → Except UsageError Request
  | [] => return .run (← s.settle).accepted
  | w :: ws =>
    match Word.ofBytes w with
    | .endOfOptions => parseArguments s ws
    | .short flags => parseShort s flags
    | .long name value =>
      match (Utf8.decode? name).bind Opt.ofName? with
      | none => .error (.unexpectedArgument ("--".toList ++ Utf8.lossy name))
      | some o => do
        let s ← s.takeSetting o value
        match o with
        | .help => return .help
        | .version => return .version
        | _ => parseWords s ws
    | .plain =>
      match s.pending with
      | some (.config none) => parseWords { s with pending := some (.config (some w)) } ws
      | _ => do parseWords (← s.takeArgument w) ws

/-- What the words of a command line ask for. -/
def parse (words : List Bytes) : Except UsageError Request :=
  parseWords {} words

end ImportMigration.CommandLine
