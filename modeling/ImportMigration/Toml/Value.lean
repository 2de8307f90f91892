import ImportMigration.Toml.Number

/-!
The values of a TOML document, and its tables as they grow from line to line.

A table remembers how it came to be, because that decides what may still be added to it: one that
another's header implied may get a header of its own, and only one that dotted keys have made can
be extended by dotted keys. Each operation gives nothing if it would define a key twice.
-/

namespace ImportMigration.Toml

abbrev Key := Text

/-- What brought a table about. -/
inductive Origin where
  /-- A header of its own, or the document itself. -/
  | header
  /-- The header of a table further down. -/
  | implied
  /-- A dotted key. -/
  | dotted
  deriving DecidableEq, Repr

inductive Value where
  | string (t : Text)
  | integer (n : Integer)
  | float (f : Float)
  | boolean (b : Bool)
  | moment
  | array (items : List Value)
  /-- An inline table as it is written. -/
  | inline (assignments : List (List Key × Value))
  | table (origin : Origin) (entries : List (Key × Value))
  /-- The tables of one array, each with a header in double brackets. There is at least one. -/
  | tables (earlier : List (List (Key × Value))) (last : List (Key × Value))

/-- The entries of a table, in the order in which their keys first occur. -/
abbrev Entries := List (Key × Value)

/-- Changes the table that the value is, or the last one of an array of tables. -/
def Value.edit? (f : Origin → Entries → Option Entries) : Value → Option Value
  | .table origin entries => (f origin entries).map (.table origin)
  | .tables earlier last => (f .header last).map (.tables earlier)
  | _ => none

namespace Entries

/-- The entries with another value for the key, which may depend on the value it has. -/
def update? (f : Option Value → Option Value) (key : Key) : Entries → Option Entries
  | [] => (f none).map fun v => [(key, v)]
  | (k, v) :: entries =>
    if k = key then (f (some v)).map fun v => (k, v) :: entries
    else (update? f key entries).map ((k, v) :: ·)

/-- What a path goes on in behind a key. A table that is not there yet is made, with the given
origin; a path of dotted keys does not enter a table with a header. -/
def enter? (made : Origin) : Option Value → Option Value
  | none => some (.table made [])
  | some (.table origin entries) =>
    if made = .dotted ∧ origin = .header then none else some (.table origin entries)
  | some (.tables earlier last) => some (.tables earlier last)
  | some _ => none

/-- Changes the table at the end of a path. -/
def within? (f : Origin → Entries → Option Entries) (made : Origin) :
    List Key → Origin → Entries → Option Entries
  | [], origin, entries => f origin entries
  | key :: path, _, entries =>
    update? (fun found => (enter? made found).bind (Value.edit? (within? f made path))) key entries

/-- A new entry of the table itself, which no dotted key may have made, or of one made by dotted
keys. -/
def insert? (dotted : Bool) (key : Key) (v : Value) (origin : Origin) (entries : Entries) :
    Option Entries :=
  if (origin == .dotted) = dotted then
    update? (fun found => if found.isNone then some v else none) key entries
  else none

/-- Gives a value to a key that may be dotted. -/
def assign? (keys : List Key) (v : Value) (origin : Origin) (entries : Entries) : Option Entries :=
  match keys.getLast? with
  | none => none
  | some key =>
    within? (insert? (1 < keys.length) key v) .dotted keys.dropLast origin entries

/-- What a header in single brackets makes of what it names. -/
def opened? : Option Value → Option Value
  | none => some (.table .header [])
  | some (.table .implied entries) => some (.table .header entries)
  | some _ => none

/-- What a header in double brackets makes of what it names. -/
def extended? : Option Value → Option Value
  | none => some (.tables [] [])
  | some (.tables earlier last) => some (.tables (earlier ++ [last]) [])
  | some _ => none

/-- Makes what a header asks for of what it names. -/
def header? (f : Option Value → Option Value) (keys : List Key) (entries : Entries) :
    Option Entries :=
  keys.getLast?.bind fun key =>
    within? (fun _ => update? f key) .implied keys.dropLast .header entries

/-- Gives a table the header that it does not have yet. -/
def openTable? (keys : List Key) (entries : Entries) : Option Entries :=
  header? opened? keys entries

/-- Adds an empty table to an array of tables. -/
def appendTable? (keys : List Key) (entries : Entries) : Option Entries :=
  header? extended? keys entries

/-- The table that assignments fill, if none defines what another one has defined. -/
def ofAssignments? (assignments : List (List Key × Value)) : Option Entries :=
  assignments.foldlM (fun entries (keys, v) => assign? keys v .header entries) []

end Entries

end ImportMigration.Toml
