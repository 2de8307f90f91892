import ImportMigration.Import.Statement

/-!
A rule renames a package in the import statements of one form.

`Rule.pieces` cuts a text from left to right into the statements of the rule and the characters
between them; the pieces put together are the text (`Rule.flatMap_text_pieces`). Applying the rule
gives every statement the new package name and leaves every other character alone.
-/

namespace ImportMigration.Import

structure Rule where
  form : Form
  old : Text
  new : Text
  deriving DecidableEq, Repr

inductive Piece where
  | char (c : Char)
  | statement (s : Statement)
  deriving DecidableEq, Repr

namespace Piece

def isStatement : Piece → Bool
  | char _ => false
  | statement _ => true

/-- The piece's text when its specifier, if it has one, names the given package. -/
def text (package : Text) : Piece → Text
  | char c => [c]
  | statement s => s.text package

/-- The piece's text under a new package name. The closing quote is made to agree with the
opening one. -/
def renamed (package : Text) : Piece → Text
  | char c => [c]
  | statement s => s.closed.text package

end Piece

namespace Rule

/-- The rule's statements in a text, leftmost first and without overlap, and the characters
between them. -/
def pieces (r : Rule) : Text → List Piece
  | [] => []
  | c :: t =>
    match _h : Statement.read? r.form r.old (c :: t) with
    | some (s, rest) => .statement s :: r.pieces rest
    | none => .char c :: r.pieces t
termination_by t => t.length
decreasing_by
  · exact Statement.length_lt_of_read? _h
  · simp

/-- Whether the text holds a statement of the rule. -/
def applies (r : Rule) (t : Text) : Bool :=
  (r.pieces t).any Piece.isStatement

def apply (r : Rule) (t : Text) : Text :=
  (r.pieces t).flatMap (Piece.renamed r.new)

theorem pieces_nil (r : Rule) : r.pieces [] = [] := by
  rw [pieces]

theorem pieces_of_read? {r : Rule} {t rest : Text} {s : Statement}
    (h : Statement.read? r.form r.old t = some (s, rest)) :
    r.pieces t = .statement s :: r.pieces rest := by
  cases t with
  | nil =>
    have := Statement.length_lt_of_read? h
    simp at this
  | cons c t =>
    rw [pieces]
    split
    · simp_all
    · simp_all

theorem pieces_of_read?_eq_none {r : Rule} {c : Char} {t : Text}
    (h : Statement.read? r.form r.old (c :: t) = none) :
    r.pieces (c :: t) = .char c :: r.pieces t := by
  rw [pieces]
  split
  · simp_all
  · rfl

theorem flatMap_text_pieces (r : Rule) (t : Text) : (r.pieces t).flatMap (Piece.text r.old) = t := by
  fun_induction pieces r t with
  | case1 => rfl
  | case2 c t s rest h ih =>
    rw [List.flatMap_cons, ih, Piece.text, ← Statement.append_of_read? h]
  | case3 c t h ih => simp [Piece.text, ih]

/-- A rule that finds no statement changes nothing. -/
theorem apply_of_not_applies {r : Rule} {t : Text} (h : r.applies t = false) : r.apply t = t := by
  have hp : ∀ p ∈ r.pieces t, p.renamed r.new = p.text r.old := by
    intro p hp
    have := List.any_eq_false.mp h p hp
    cases p with
    | char c => rfl
    | statement s => simp [Piece.isStatement] at this
  rw [apply, List.flatMap_def, List.map_congr_left hp, ← List.flatMap_def, flatMap_text_pieces]

end Rule

/-- The rules one after the other, each on the text that the one before it left. -/
def rewrite (rules : List Rule) (t : Text) : Text :=
  rules.foldl (fun t r => r.apply t) t

/-- For each rule the text after it, if the rule found a statement in what the one before it left. -/
def steps : List Rule → Text → List (Option Text)
  | [], _ => []
  | r :: rules, t => (if r.applies t then some (r.apply t) else none) :: steps rules (r.apply t)

end ImportMigration.Import
