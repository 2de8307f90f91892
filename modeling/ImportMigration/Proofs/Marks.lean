import ImportMigration.Toml.Document

/-!
What the expressions of a document make of one path of keys, one after the other, and what of this
TOML allows. A document defines nothing twice if what it makes of each path is allowed; this can be
told path by path, without any tables.
-/

namespace ImportMigration.Toml

/-- What an expression makes of a path of keys. -/
inductive Mark where
  /-- It is given a value. -/
  | value (v : Value)
  /-- A header in single brackets names it. -/
  | header
  /-- A header in double brackets names it. -/
  | element
  /-- A header names something below it. -/
  | above
  /-- A dotted key gives an entry of it a value. -/
  | dotted
  /-- A dotted key gives something further below it a value. -/
  | through

namespace Expression

variable (header p : List Key)

/-- The header for the expressions after this one. -/
def next : Expression → List Key
  | assign _ _ => header
  | table ks | element ks => ks

/-- What an expression makes of a path from the document's own table on. The keys of an assignment
begin in the table of the header. -/
def mark? : Expression → Option Mark
  | assign ks v =>
    if p = header ++ ks then some (.value v)
    else if header <+: p ∧ p ≠ header ∧ p <+: header ++ ks then
      some (if p = header ++ ks.dropLast then .dotted else .through)
    else none
  | table ks => if p = ks then some .header else if p ≠ [] ∧ p <+: ks then some .above else none
  | element ks => if p = ks then some .element else if p ≠ [] ∧ p <+: ks then some .above else none

/-- A header in double brackets begins another table, with nothing in it. -/
def Renews : Expression → Prop
  | element ks => ks <+: p
  | assign _ _ | table _ => False

instance (e : Expression) : Decidable (e.Renews p) := by
  cases e <;> unfold Renews <;> infer_instance

/-- What has been made of a path after an expression. -/
def record (marks : List Mark) (e : Expression) : List Mark :=
  match e.mark? header p with
  | some m => marks ++ [m]
  | none => if e.Renews p then [] else marks

end Expression

/-- The header that stands at the end of expressions. -/
def lastHeader (es : List Expression) : List Key :=
  es.foldl Expression.next []

/-- What expressions make of a path, one after the other, or have made of it since the table that it
lies in has begun. -/
def history (p : List Key) (es : List Expression) : List Mark :=
  go [] [] es
where
  go : List Key → List Mark → List Expression → List Mark
    | _, marks, [] => marks
    | header, marks, e :: es => go (e.next header) (e.record header p marks) es

/-- The assignments of an inline table as the lines of a document. -/
def assignmentLines (assignments : List (List Key × Value)) : List Expression :=
  assignments.map fun x => .assign x.1 x.2

/-- After each of the expressions, what has been made of each path is allowed. -/
def Consistent (IsAllowed : List Mark → Prop) (es : List Expression) : Prop :=
  ∀ before p, before <+: es → p ≠ [] → IsAllowed (history p before)

/-- What TOML allows to be made of a path: a value and nothing else; a table of headers, of which
one may name it and any number may name something below it; a table of dotted keys; or an array of
tables. A table of dotted keys can have tables with headers below it, but no header of its own. -/
inductive IsStandardHistory : List Mark → Prop where
  | value (v : Value) : IsStandardHistory [.value v]
  | header {before after : List Mark} (hbefore : ∀ m ∈ before, m = .above)
    (hafter : ∀ m ∈ after, m = .above) : IsStandardHistory (before ++ .header :: after)
  | dotted {ms : List Mark} (h : ∀ m ∈ ms, m ∈ [Mark.above, .dotted, .through]) :
    IsStandardHistory ms
  | elements {ms : List Mark} (h : ∀ m ∈ ms, m ∈ [Mark.above, .element]) :
    IsStandardHistory (.element :: ms)

/-- What a path leads to. -/
inductive Kind where
  | nothing
  | value (v : Value)
  | table (origin : Origin)
  | tables

/-- What a path leads to after all that has been made of it, as far as this is accepted. Dotted keys
may go on through what a header has brought about, but not through a table with a header of its
own, nor put an entry into what a header has brought about. -/
inductive Makes : List Mark → Kind → Prop where
  | nothing : Makes [] .nothing
  | value (v : Value) : Makes [.value v] (.value v)
  | implied {ms : List Mark} (h : ∀ m ∈ ms, m ∈ [Mark.above, .through]) :
    Makes (.above :: ms) (.table .implied)
  | header {ms : List Mark} (h : ∀ m ∈ ms, m = .above) : Makes (.header :: ms) (.table .header)
  | opened {before after : List Mark} (hbefore : ∀ m ∈ before, m ∈ [Mark.above, .through])
    (hafter : ∀ m ∈ after, m = .above) :
    Makes (.above :: (before ++ .header :: after)) (.table .header)
  | dotted {m : Mark} {ms : List Mark} (hm : m ∈ [Mark.dotted, .through])
    (h : ∀ m ∈ ms, m ∈ [Mark.above, .dotted, .through]) : Makes (m :: ms) (.table .dotted)
  | elements {ms : List Mark} (h : ∀ m ∈ ms, m ∈ [Mark.above, .element, .through]) :
    Makes (.element :: ms) .tables

def IsAcceptedHistory (ms : List Mark) : Prop :=
  ∃ kind, Makes ms kind

end ImportMigration.Toml
