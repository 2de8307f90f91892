import ImportMigration.Disk.Basic

/-!
Where a path leads on a disk. A path is taken step by step; every directory on the way must let
itself be searched, and links are followed, at most forty of them. There are limits to how long a
path and each name in it may be.
-/

namespace ImportMigration

/-- A step of a path. -/
inductive Step where
  | name (n : FileName)
  | up
  | stay
  /-- A slash at the end: what the path leads to must be a directory. -/
  | directory
  deriving DecidableEq, Repr

/-- What a piece of a path asks for. Only a null byte keeps a piece from being a name. -/
def Step.ofPiece (piece : Bytes) : Except Cause Step :=
  if piece = [Path.dot] then .ok .stay
  else if piece = [Path.dot, Path.dot] then .ok .up
  else (FileName.ofBytes? piece).elim (.error .nulInPath) (.ok <| .name ·)

def Path.steps (p : Path) : Except Cause (List Step) := do
  let steps ← ((cut p.bytes).filter (· != [])).mapM Step.ofPiece
  return steps ++ if p.bytes.getLast? = some slash then [.directory] else []

namespace Disk

/-- Where a sequence of steps ends, or the first link on the way with the steps that remain. -/
inductive Arrival where
  | reached (p : Place)
  | link (directory : Place) (target : Path) (rest : List Step)

/-- How many bytes a name may have. -/
def nameLimit : Nat := 255

/-- How many bytes a path may have. -/
def pathLimit : Nat := 4095

/-- Takes steps as far as the first link. Without authority over the disk, only directories that
may be searched are passed through. -/
def advance (d : Disk) (authority : Bool) : Place → List Step → Except Cause Arrival
  | p, [] => .ok (.reached p)
  | p, step :: rest =>
    match d.node? p with
    | some (.directory access) =>
      if step = .directory then advance d authority p rest
      else if !authority && !access.execute then .error .notPermitted
      else
        match step with
        | .up => advance d authority p.dropLast rest
        | .name n =>
          if nameLimit < n.bytes.length then .error .nameTooLong
          else
            match d.node? (p ++ [n]) with
            | none => .error .notFound
            | some (.link target) => .ok (.link p target rest)
            | some _ => advance d authority (p ++ [n]) rest
        | _ => advance d authority p rest
    | some _ => .error .notADirectory
    | none => .error .notFound

/-- Takes steps and follows the links that they meet. -/
def follow (d : Disk) (authority : Bool) (links : Nat) (p : Place) (steps : List Step) :
    Except Cause Place :=
  match d.advance authority p steps with
  | .error cause => .error cause
  | .ok (.reached p) => .ok p
  | .ok (.link directory target rest) =>
    match links with
    | 0 => .error .tooManyLinks
    | links + 1 =>
      if target.bytes = [] then .error .notFound
      else
        match target.steps with
        | .error cause => .error cause
        | .ok steps =>
          follow d authority links (if target.isAbsolute then [] else directory) (steps ++ rest)

def linkLimit : Nat := 40

/-- The place that a path leads to from a directory. -/
def resolve (d : Disk) (authority : Bool) (start : Place) (p : Path) : Except Cause Place :=
  if p.bytes = [] then .error .notFound
  else
    match p.steps with
    | .error cause => .error cause
    | .ok steps =>
      if pathLimit < p.bytes.length then .error .nameTooLong
      else d.follow authority linkLimit (if p.isAbsolute then [] else start) steps

end Disk

end ImportMigration
