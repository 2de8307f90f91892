import ImportMigration.Disk.Resolve

/-!
The machine whose disk is a value: its state holds the disk, the working directory, the notices so
far and the files that were written. It grants what the owner of all files may do.
-/

namespace ImportMigration

structure Session where
  disk : Disk
  directory : Place
  /-- The notices so far, the first one first. -/
  notices : List Notice := []
  /-- The places of the files that were written, the first one first. -/
  written : List Place := []

namespace Session

def resolve (s : Session) (p : Path) : Except Cause Place :=
  s.disk.resolve false s.directory p

/-- What a path leads to. -/
def node (s : Session) (p : Path) : Except Cause Node :=
  (s.resolve p).bind fun place => (s.disk.node? place).elim (.error .notFound) .ok

def list (s : Session) (p : Path) : Except Cause (List Entry) :=
  match s.resolve p with
  | .error cause => .error cause
  | .ok place =>
    match s.disk.node? place with
    | some (.directory access) =>
      if access.read then .ok (s.disk.entries place) else .error .notPermitted
    | some _ => .error .notADirectory
    | none => .error .notFound

def read (s : Session) (p : Path) : Except Cause Bytes :=
  match s.node p with
  | .error cause => .error cause
  | .ok (.file access content) => if access.read then .ok content else .error .notPermitted
  | .ok (.directory access) => .error (if access.read then .isADirectory else .notPermitted)
  | .ok .sink => .ok []
  | .ok (.link _) => .error .tooManyLinks

/-- The session after a file was written. -/
def writeAt (s : Session) (place : Place) (access : Access) (content : Bytes) : Session :=
  { s with
    disk := s.disk.put place (.file access content)
    written := s.written ++ [place] }

def write (s : Session) (p : Path) (content : Bytes) : Except Cause Unit × Session :=
  match s.resolve p with
  | .error cause => (.error cause, s)
  | .ok place =>
    match s.disk.node? place with
    | some (.file access _) =>
      if access.write then (.ok (), s.writeAt place access content) else (.error .notPermitted, s)
    | some (.directory _) => (.error .isADirectory, s)
    | some .sink => (.ok (), s)
    | some (.link _) => (.error .tooManyLinks, s)
    | none => (.error .notFound, s)

/-- The session with another working directory, which must let itself be searched. -/
def enter (s : Session) (p : Path) : Except Cause Session :=
  match s.resolve p with
  | .error cause => .error cause
  | .ok place =>
    match s.disk.node? place with
    | some (.directory access) =>
      if access.execute then .ok { s with directory := place } else .error .notPermitted
    | some _ => .error .notADirectory
    | none => .error .notFound

def tell (s : Session) (n : Notice) : Session :=
  { s with notices := s.notices ++ [n] }

/-- The path that the working directory has from the top. -/
def directoryPath (s : Session) : Path :=
  ⟨if s.directory = [] then [Path.slash] else s.directory.flatMap (Path.slash :: ·.bytes)⟩

/-- The path of the working directory, unless the directory is gone. -/
def workingDirectory (s : Session) : Except Cause Path :=
  match s.disk.node? s.directory with
  | some (.directory _) => .ok s.directoryPath
  | _ => .error .notFound

/-- What the session printed on a stream. -/
def printed (s : Session) (stream : Stream) : Text :=
  ImportMigration.printed stream s.notices

end Session

instance : Machine (StateM Session) where
  workingDirectory := fun s => (s.workingDirectory, s)
  kind p := fun s => ((s.node p).map Node.kind, s)
  list p := fun s => (s.list p, s)
  read p := fun s => (s.read p, s)
  write p content := fun s => s.write p content
  tell n := fun s => ((), s.tell n)
  depth := fun s => (s.disk.nodes.length + 1, s)

end ImportMigration
