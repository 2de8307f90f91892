import ImportMigration.Text.Basic
import Mathlib.Computability.Language

/-!
Regular expressions as they are written: which texts an expression matches, and how its own text is
read. It is read character by character; as a group may stand in another, the reader keeps what
stands before each group that is still open.

A character is taken for itself only where it has no other meaning. Anchors, counted repetitions,
flags, and ranges and operations in brackets are not read, and an expression with one is refused.
-/

namespace ImportMigration.Import

open Text Computability

/-- A set of characters, of which an expression matches one. -/
inductive CharClass where
  | blank
  | among (chars : List Char)
  | except (chars : List Char)
  deriving DecidableEq, Repr

def CharClass.holds : CharClass → Char → Bool
  | blank, c => isBlank c
  | among chars, c => c ∈ chars
  | except chars, c => c ∉ chars

theorem CharClass.holds_among_iff {chars : List Char} {c : Char} :
    (among chars).holds c = true ↔ c ∈ chars :=
  decide_eq_true_iff

theorem CharClass.holds_except_iff {chars : List Char} {c : Char} :
    (except chars).holds c = true ↔ c ∉ chars :=
  decide_eq_true_iff

inductive Times where
  | atMostOnce
  | anyNumber
  | atLeastOnce
  deriving DecidableEq, Repr

inductive Expression where
  | empty
  | char (c : Char)
  | oneOf (s : CharClass)
  | cat (e e' : Expression)
  | alt (e e' : Expression)
  /-- Greed decides which match is found first. It does not matter to which texts are matched. -/
  | times (n : Times) (greedy : Bool) (e : Expression)
  | group (name : Option Text) (e : Expression)
  deriving DecidableEq, Repr

namespace Expression

/-- The texts that an expression matches. -/
def language : Expression → Language Char
  | empty => 1
  | char c => {[c]}
  | oneOf s => {t | ∃ c, s.holds c = true ∧ t = [c]}
  | cat e e' => e.language * e'.language
  | alt e e' => e.language + e'.language
  | times .atMostOnce _ e => 1 + e.language
  | times .anyNumber _ e => e.language∗
  | times .atLeastOnce _ e => e.language * e.language∗
  | group _ e => e.language

/-- The expression whose parts stand one after the other. -/
def seq (parts : List Expression) : Expression :=
  parts.foldr cat empty

/-- The alternatives of a group, as far as they have been read. -/
structure Branch where
  /-- The alternatives before the last `|`. -/
  before : Option Expression
  /-- The parts that have been read since, the last one first. -/
  parts : List Expression
  deriving DecidableEq, Repr

namespace Branch

def push (b : Branch) (e : Expression) : Branch :=
  { b with parts := e :: b.parts }

def expression (b : Branch) : Expression :=
  match b.before with
  | none => seq b.parts.reverse
  | some e => .alt e (seq b.parts.reverse)

/-- Repeats the last part. A `?` after a repetition makes that one lazy. -/
def repeatLast (b : Branch) (n : Times) : Option Branch :=
  match b.parts, n with
  | [], _ => none
  | .times m true e :: parts, .atMostOnce => some { b with parts := .times m false e :: parts }
  | e :: parts, _ => some { b with parts := .times n true e :: parts }

end Branch

/-- What the next character belongs to. -/
inductive Mode where
  | plain
  /-- After a backslash. -/
  | escape
  /-- After the `(` of a group. -/
  | group
  /-- After `(?`, with the characters since then. -/
  | header (t : Text)
  /-- After the `[` of a list. -/
  | bracket
  | list (negated : Bool) (chars : List Char)
  | listEscape (negated : Bool) (chars : List Char)
  deriving DecidableEq, Repr

structure Reader where
  mode : Mode
  branch : Branch
  /-- For each group that is open, the innermost first, its name and what it stands in. -/
  outer : List (Option Text × Branch)
  deriving DecidableEq, Repr

/-- The character that is meant by another one with a backslash before it. -/
def escaped? : Char → Option Char
  | 'n' => some '\n'
  | 'r' => some '\r'
  | 't' => some '\t'
  | c => if c.toNat < 128 && !c.isAlphanum && c != '<' && c != '>' then some c else none

/-- The name in the header of a named group. -/
def groupName? (header : Text) : Option Text :=
  ((dropFront? ['P', '<'] header).or (dropFront? ['<'] header)).filter fun name =>
    name.head?.any (fun c => c.isAlpha || c == '_') && name.all fun c => c.isAlphanum || c == '_'

namespace Reader

def start : Reader :=
  ⟨.plain, ⟨none, []⟩, []⟩

def push (s : Reader) (e : Expression) : Reader :=
  { s with mode := .plain, branch := s.branch.push e }

def enter (s : Reader) (name : Option Text) : Reader :=
  ⟨.plain, ⟨none, []⟩, (name, s.branch) :: s.outer⟩

def leave (s : Reader) : Option Reader :=
  match s.outer with
  | [] => none
  | (name, b) :: outer => some ⟨.plain, b.push (.group name s.branch.expression), outer⟩

def repeatLast (s : Reader) (n : Times) : Option Reader :=
  (s.branch.repeatLast n).map fun b => { s with branch := b }

def plainStep (s : Reader) : Char → Option Reader
  | '\\' => some { s with mode := .escape }
  | '(' => some { s with mode := .group }
  | ')' => s.leave
  | '[' => some { s with mode := .bracket }
  | '|' => some { s with branch := ⟨some s.branch.expression, []⟩ }
  | '?' => s.repeatLast .atMostOnce
  | '*' => s.repeatLast .anyNumber
  | '+' => s.repeatLast .atLeastOnce
  | '.' => some (s.push (.oneOf (.except ['\n'])))
  | '^' | '$' | '\x7b' => none
  | c => some (s.push (.char c))

def listStep (s : Reader) (negated : Bool) (chars : List Char) : Char → Option Reader
  | '\\' => some { s with mode := .listEscape negated chars }
  | ']' =>
    if chars = [] then none
    else some (s.push (.oneOf (if negated then .except chars else .among chars)))
  | '[' | '&' | '-' | '~' => none
  | c => some { s with mode := .list negated (chars ++ [c]) }

def step (s : Reader) (c : Char) : Option Reader :=
  match s.mode with
  | .plain => s.plainStep c
  | .escape =>
    if c = 's' then some (s.push (.oneOf .blank))
    else (escaped? c).map fun c => s.push (.char c)
  | .group => if c = '?' then some { s with mode := .header [] } else (s.enter none).plainStep c
  | .header t =>
    if c = ':' ∧ t = [] then some (s.enter none)
    else if c = '>' then (groupName? t).map fun name => s.enter (some name)
    else some { s with mode := .header (t ++ [c]) }
  | .bracket =>
    if c = '^' then some { s with mode := .list true [] } else s.listStep false [] c
  | .list negated chars => s.listStep negated chars c
  | .listEscape negated chars =>
    (escaped? c).map fun c => { s with mode := .list negated (chars ++ [c]) }

/-- The expression that was read, if nothing in it is left open. -/
def finish (s : Reader) : Option Expression :=
  if s.mode = .plain ∧ s.outer = [] then some s.branch.expression else none

end Reader

/-- The expression that a text writes out. -/
def read? (t : Text) : Option Expression :=
  (t.foldlM Reader.step Reader.start).bind Reader.finish

theorem mem_singleton_iff {t u : Text} : u ∈ ({t} : Language Char) ↔ u = t :=
  Iff.rfl

theorem mem_oneOf_iff {s : CharClass} {t : Text} :
    t ∈ (oneOf s).language ↔ ∃ c, s.holds c = true ∧ t = [c] :=
  Iff.rfl

theorem language_seq_append (es es' : List Expression) :
    (seq (es ++ es')).language = (seq es).language * (seq es').language := by
  induction es with
  | nil => exact (one_mul _).symm
  | cons e es ih =>
    show e.language * (seq (es ++ es')).language = e.language * (seq es).language * _
    rw [ih, mul_assoc]

theorem language_seq_cons (e : Expression) (es : List Expression) :
    (seq (e :: es)).language = e.language * (seq es).language :=
  rfl

theorem language_seq_nil : (seq []).language = 1 :=
  rfl

/-- Characters that are taken for themselves match the text that they make up. -/
theorem language_chars (t : Text) : (seq (t.map .char)).language = {t} := by
  induction t with
  | nil => rfl
  | cons c t ih =>
    rw [List.map_cons, language_seq_cons, ih]
    ext u
    rw [Language.mem_mul, mem_singleton_iff]
    constructor
    · rintro ⟨a, rfl, b, rfl, rfl⟩
      rfl
    · rintro rfl
      exact ⟨[c], rfl, t, rfl, rfl⟩

theorem mem_anyNumber_iff {s : CharClass} {greedy : Bool} {t : Text} :
    t ∈ (times .anyNumber greedy (oneOf s)).language ↔ ∀ c ∈ t, s.holds c = true := by
  rw [language, Language.mem_kstar]
  constructor
  · rintro ⟨us, rfl, hus⟩ c hc
    obtain ⟨u, hu, hc⟩ := List.mem_flatten.mp hc
    obtain ⟨d, hd, rfl⟩ := mem_oneOf_iff.mp (hus u hu)
    rwa [List.mem_singleton.mp hc]
  · intro h
    refine ⟨t.map fun c => [c], ?_, ?_⟩
    · induction t with
      | nil => rfl
      | cons c t ih => simpa using ih fun d hd => h d (List.mem_cons_of_mem c hd)
    · intro u hu
      obtain ⟨c, hc, rfl⟩ := List.mem_map.mp hu
      exact mem_oneOf_iff.mpr ⟨c, h c hc, rfl⟩

theorem mem_atLeastOnce_iff {s : CharClass} {greedy : Bool} {t : Text} :
    t ∈ (times .atLeastOnce greedy (oneOf s)).language ↔
      t ≠ [] ∧ ∀ c ∈ t, s.holds c = true := by
  have hany (u : Text) : u ∈ (oneOf s).language∗ ↔ ∀ c ∈ u, s.holds c = true :=
    @mem_anyNumber_iff s greedy u
  rw [language, Language.mem_mul]
  constructor
  · rintro ⟨a, ha, u, hu, rfl⟩
    obtain ⟨c, hc, rfl⟩ := mem_oneOf_iff.mp ha
    exact ⟨by simp, by simpa [hc] using (hany u).mp hu⟩
  · rintro ⟨hne, h⟩
    obtain ⟨c, u, rfl⟩ := List.exists_cons_of_ne_nil hne
    refine ⟨[c], mem_oneOf_iff.mpr ⟨c, h c (by simp), rfl⟩, u, ?_, rfl⟩
    exact (hany u).mpr fun d hd => h d (List.mem_cons_of_mem c hd)

end Expression

end ImportMigration.Import
