import ImportMigration.Text.Utf8

/-!
The visible part of a text: what is left without its control characters and without the control
sequences of terminals. Tabs and the ends of lines and pages are visible, although they are control
characters.

A sequence begins with an escape character and ends as its kind demands; a cancel or a substitute
character ends any sequence. The strings that some sequences carry have nothing visible in them.
Elsewhere in a sequence a tab or an end of a line is visible, and so is the text after it as far as
the next control character. There the sequence goes on.
-/

namespace ImportMigration.Text

/-- How far a control sequence has come. -/
inductive Stage where
  /-- No sequence goes on. -/
  | ground
  | escape
  /-- After an escape and the characters that may stand before its final one. -/
  | intermediate
  /-- After an escape and `[`: what follows is for the control of the screen. -/
  | control
  /-- After an escape and `]`: a string that a bell ends. -/
  | command
  /-- After an escape and `P`, before anything else. -/
  | deviceEntry
  | deviceParameter
  | deviceIntermediate
  /-- A string that the byte 0x9C ends. -/
  | string
  deriving DecidableEq, Repr

def terminator : UInt8 := 0x9C

/-- The stage after an escape and one more character. -/
def Stage.afterEscape (c : Char) : Stage :=
  if ' ' ≤ c ∧ c ≤ '/' then intermediate
  else if c = '[' then control
  else if c = ']' then command
  else if c = 'P' then deviceEntry
  else if c = 'X' ∨ c = '^' ∨ c = '_' then string
  else if '0' ≤ c ∧ c ≤ '~' then ground
  else escape

/-- The stage after a character. -/
def Stage.next (s : Stage) (c : Char) : Stage :=
  if c = '\x1b' then escape
  else if c = '\x18' ∨ c = '\x1a' then ground
  else
    match s with
    | ground => ground
    | escape => afterEscape c
    | intermediate => if '0' ≤ c ∧ c ≤ '~' then ground else intermediate
    | control => if '@' ≤ c ∧ c ≤ '~' then ground else control
    | command => if c = '\x07' then ground else command
    | deviceEntry =>
      if ' ' ≤ c ∧ c ≤ '/' then deviceIntermediate
      else if '0' ≤ c ∧ c ≤ '?' then deviceParameter
      else if '@' ≤ c ∧ c ≤ '~' then string
      else deviceEntry
    | deviceParameter =>
      if ' ' ≤ c ∧ c ≤ '/' then deviceIntermediate
      else if '<' ≤ c ∧ c ≤ '~' then string
      else deviceParameter
    | deviceIntermediate => if '0' ≤ c ∧ c ≤ '~' then string else deviceIntermediate
    | string => if terminator ∈ String.utf8EncodeChar c then ground else string

/-- The control characters that are visible. -/
def isLayout (c : Char) : Bool :=
  c == '\t' || c == '\n' || c == '\x0c' || c == '\r'

/-- Whether a character is visible at a stage. -/
def Stage.shows (s : Stage) (c : Char) : Bool :=
  match s with
  | ground => isLayout c || (' ' ≤ c && c != '\x7f')
  | escape | intermediate | control => isLayout c
  | _ => false

/-- The stage that decides whether the next character is visible. After a visible one there is no
sequence. -/
def Stage.judge (s : Stage) (shown : Bool) : Stage :=
  if shown then ground else s

/-- The visible part of a text that begins at a stage, after a visible character or not. -/
def visibleFrom : Stage → Bool → Text → Text
  | _, _, [] => []
  | s, shown, c :: t =>
    if (s.judge shown).shows c then
      c :: visibleFrom (if c ≤ '\x7f' then s else .ground) true t
    else visibleFrom (s.next c) false t

/-- The visible part of a text. -/
def visible (t : Text) : Text :=
  visibleFrom .ground false t

end ImportMigration.Text
