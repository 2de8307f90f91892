/-!
Text is a list of characters. This module holds the character classes that import statements are
made of, and the cutting of a known word off the front of a list.
-/

namespace ImportMigration

abbrev Text := List Char

/-- The rest of a list after a given front, if the list starts with it. -/
def dropFront? {α : Type} [DecidableEq α] : List α → List α → Option (List α)
  | [], t => some t
  | _ :: _, [] => none
  | c :: front, d :: t => if c = d then dropFront? front t else none

theorem dropFront?_eq_some_iff {α : Type} [DecidableEq α] {front t rest : List α} :
    dropFront? front t = some rest ↔ t = front ++ rest := by
  induction front generalizing t with
  | nil => simp [dropFront?, eq_comm]
  | cons c front ih =>
    cases t with
    | nil => simp [dropFront?]
    | cons d t =>
      by_cases h : c = d
      · simp [dropFront?, h, ih]
      · have : ¬ d = c := fun e => h e.symm
        simp [dropFront?, h, this]

namespace Text

/-- The code points with the Unicode property White_Space, as closed ranges. -/
def blankRanges : List (Nat × Nat) :=
  [(0x09, 0x0D), (0x20, 0x20), (0x85, 0x85), (0xA0, 0xA0), (0x1680, 0x1680), (0x2000, 0x200A),
    (0x2028, 0x2029), (0x202F, 0x202F), (0x205F, 0x205F), (0x3000, 0x3000)]

def isBlank (c : Char) : Bool :=
  blankRanges.any fun (low, high) => low ≤ c.toNat && c.toNat ≤ high

def isQuote (c : Char) : Bool :=
  c == '"' || c == '\''

/-- The characters between `import` and `from`: a statement never runs past a `;`, a line break
or a quote there. -/
def isBinding (c : Char) : Bool :=
  !isQuote c && c != ';' && c != '\n'

/-- The characters of a subpath, which ends at a quote and stays on its line. -/
def isSubpath (c : Char) : Bool :=
  !isQuote c && c != '\n'

/-- A text without the blanks at its two ends. -/
def trim (t : Text) : Text :=
  ((t.dropWhile isBlank).reverse.dropWhile isBlank).reverse

end Text

end ImportMigration
