import ImportMigration.Text.Utf8

/-!
A path is the bytes it is written with. It consists of an anchor and a body: the anchor is the `/`
of an absolute path or the `.` of one that begins with the component `.`, and the body is the rest.
The slashes of the body cut it into pieces; an empty piece or a `.` is vacant and stands for nothing.
-/

namespace ImportMigration

structure Path where
  bytes : Bytes
  deriving DecidableEq, Repr

namespace Path

def slash : UInt8 := 0x2F

def dot : UInt8 := 0x2E

def ofText (t : Text) : Path :=
  ⟨Utf8.encode t⟩

def display (p : Path) : Text :=
  Utf8.lossy p.bytes

def isAbsolute (p : Path) : Bool :=
  p.bytes.head? == some slash

/-- Whether the path begins with the component `.`. -/
def startsHere (p : Path) : Bool :=
  p.bytes.head? == some dot && (p.bytes[1]?.all (· == slash))

def anchor (p : Path) : Bytes :=
  if p.isAbsolute then [slash] else if p.startsHere then [dot] else []

/-- The pieces between the slashes; a text without a slash is one piece. -/
def cut : Bytes → List Bytes
  | [] => [[]]
  | b :: t => if b = slash then [] :: cut t else (cut t).modifyHead (b :: ·)

def glue : List Bytes → Bytes
  | [] => []
  | [piece] => piece
  | piece :: pieces => piece ++ slash :: glue pieces

def pieces (p : Path) : List Bytes :=
  cut (p.bytes.drop p.anchor.length)

def isVacant (piece : Bytes) : Bool :=
  piece == [] || piece == [dot]

inductive Component where
  | root
  | here
  | up
  | name (n : Bytes)
  deriving DecidableEq, Repr

/-- What a piece that is not vacant stands for. -/
def Component.ofPiece (piece : Bytes) : Component :=
  if piece = [dot, dot] then .up else .name piece

def components (p : Path) : List Component :=
  (if p.isAbsolute then [.root] else if p.startsHere then [.here] else []) ++
    (p.pieces.filter (!isVacant ·)).map Component.ofPiece

/-- The name of the last component, if that is a name. -/
def fileName? (p : Path) : Option Bytes :=
  match p.components.getLast? with
  | some (.name n) => some n
  | _ => none

/-- The path without its last component, and without what is vacant before and after it. The root
and the empty path have no parent. -/
def parent? (p : Path) : Option Path :=
  match p.pieces.reverse.dropWhile isVacant with
  | [] => if p.startsHere then some ⟨[]⟩ else none
  | _ :: rest => some ⟨p.anchor ++ glue (rest.dropWhile isVacant).reverse⟩

/-- The second path taken from the first. A separator is put between them where the first path has
none at its end; an absolute second path stands alone. -/
def join (base p : Path) : Path :=
  if p.isAbsolute then p
  else if base.bytes.getLast?.all (· == slash) then ⟨base.bytes ++ p.bytes⟩
  else ⟨base.bytes ++ slash :: p.bytes⟩

end Path

end ImportMigration
