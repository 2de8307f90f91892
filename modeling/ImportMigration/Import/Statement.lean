import ImportMigration.Text.Basic

/-!
An import statement with a module specifier, such as `import A, { b } from "lib/button"`, as far as
its closing quote. Between the word `import` and the specifier stands its clause, here
` A, { b } from `; its specifier is a package name with a tail, which is empty or a subpath.

`Statement.read?` finds the statement at the front of a text, for one package and one form of
tail. A clause holds no quote and no semicolon, so it ends where the next of these stands, and
nothing has to be searched for.
-/

namespace ImportMigration.Import

open Text

def importWord : Text := "import".toList

def fromWord : Text := "from".toList

/-- Whether a text is blanks, bindings, blanks. The bindings may be empty, but the two runs of
blanks may not, nor may they share a blank. -/
def isSpacedBindings (t : Text) : Bool :=
  2 ≤ t.length && t.head?.any isBlank && t.getLast?.any isBlank && (trim t).all isBinding

/-- Whether a text is blanks, bindings, blanks, `from`, blanks. -/
def isClause (t : Text) : Bool :=
  t.getLast?.any isBlank &&
    match dropFront? fromWord.reverse (t.reverse.dropWhile isBlank) with
    | none => false
    | some t => isSpacedBindings t.reverse

/-- The characters that a clause can hold. -/
def inClause (c : Char) : Bool :=
  !isQuote c && c != ';'

/-- The two forms of specifier that a rule can look for: the package itself, and a path below it. -/
inductive Form where
  | exact
  | subpath
  deriving DecidableEq, Repr

/-- The longest tail of the given form, and the text after it. -/
def Form.readTail? : Form → Text → Option (Text × Text)
  | .exact, t => some ([], t)
  | .subpath, '/' :: t =>
    if t.head?.any isSubpath then some ('/' :: t.takeWhile isSubpath, t.dropWhile isSubpath)
    else none
  | .subpath, _ => none

structure Statement where
  clause : Text
  quote : Char
  tail : Text
  closing : Char
  deriving DecidableEq, Repr

namespace Statement

/-- The statement's text when its specifier names the given package. -/
def text (package : Text) (s : Statement) : Text :=
  importWord ++ s.clause ++ s.quote :: (package ++ s.tail ++ [s.closing])

/-- The statement with a closing quote that agrees with the opening one. -/
def closed (s : Statement) : Statement :=
  { s with closing := s.quote }

/-- The specifier at the front of a text: its opening quote, the tail, the closing quote, and the
text after it. -/
def readSpecifier? (form : Form) (package : Text) : Text → Option (Char × Text × Char × Text)
  | [] => none
  | quote :: t =>
    match (dropFront? package t).bind form.readTail? with
    | some (tail, closing :: t) =>
      if isQuote quote && isQuote closing then some (quote, tail, closing, t) else none
    | _ => none

/-- The statement at the front of a text whose specifier is the package with a tail of the form,
and the text after it. -/
def read? (form : Form) (package t : Text) : Option (Statement × Text) :=
  match dropFront? importWord t with
  | none => none
  | some t =>
    match readSpecifier? form package (t.dropWhile inClause) with
    | none => none
    | some (quote, tail, closing, rest) =>
      if isClause (t.takeWhile inClause) then
        some (⟨t.takeWhile inClause, quote, tail, closing⟩, rest)
      else none

end Statement

theorem Form.append_of_readTail? {form : Form} {t tail rest : Text}
    (h : form.readTail? t = some (tail, rest)) : t = tail ++ rest := by
  unfold Form.readTail? at h
  split at h
  · simp_all
  · split at h
    · simp only [Option.some.injEq, Prod.mk.injEq] at h
      obtain ⟨rfl, rfl⟩ := h
      simp
    · simp at h
  · simp at h

namespace Statement

theorem append_of_readSpecifier? {form : Form} {package t tail rest : Text} {quote closing : Char}
    (h : readSpecifier? form package t = some (quote, tail, closing, rest)) :
    t = quote :: (package ++ tail ++ closing :: rest) := by
  cases t with
  | nil => simp [readSpecifier?] at h
  | cons q t =>
    simp only [readSpecifier?] at h
    split at h
    · rename_i tail' closing' u hb
      split at h
      · simp only [Option.some.injEq, Prod.mk.injEq] at h
        obtain ⟨rfl, rfl, rfl, rfl⟩ := h
        obtain ⟨w, hw, ht⟩ := Option.bind_eq_some_iff.mp hb
        rw [dropFront?_eq_some_iff.mp hw, Form.append_of_readTail? ht]
        simp
      · simp at h
    · simp at h

/-- Reading loses nothing: the statement's text and the rest make up the text that was read. -/
theorem append_of_read? {form : Form} {package t rest : Text} {s : Statement}
    (h : read? form package t = some (s, rest)) : t = s.text package ++ rest := by
  unfold read? at h
  split at h
  · simp at h
  · rename_i u hu
    split at h
    · simp at h
    · rename_i quote tail closing rest' hs
      split at h
      · simp only [Option.some.injEq, Prod.mk.injEq] at h
        obtain ⟨rfl, rfl⟩ := h
        have := List.takeWhile_append_dropWhile (p := inClause) (l := u)
        rw [append_of_readSpecifier? hs] at this
        rw [dropFront?_eq_some_iff.mp hu, text]
        simpa using this.symm
      · simp at h

theorem length_lt_of_read? {form : Form} {package t rest : Text} {s : Statement}
    (h : read? form package t = some (s, rest)) : rest.length < t.length := by
  rw [append_of_read? h]
  simp [text]
  omega

end Statement

end ImportMigration.Import
