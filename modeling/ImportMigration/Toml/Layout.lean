import ImportMigration.Text.Basic

/-!
What stands between the parts of a TOML document: spaces, line breaks and comments. A line ends
with LF or CR LF; a CR by itself ends nothing and is allowed nowhere.
-/

namespace ImportMigration.Toml

def isSpace (c : Char) : Bool :=
  c == ' ' || c == '\t'

/-- The characters of comments and of strings on one line: all but the control characters other
than the tab. -/
def isPrintable (c : Char) : Bool :=
  c == '\t' || (0x20 ≤ c.toNat && c.toNat != 0x7F)

def skipSpaces (t : Text) : Text :=
  t.dropWhile isSpace

/-- The text after a line break. -/
def lineBreak? : Text → Option Text
  | '\n' :: t => some t
  | '\r' :: '\n' :: t => some t
  | _ => none

/-- The text after a comment, if one stands here. -/
def skipComment : Text → Text
  | '#' :: t => t.dropWhile isPrintable
  | t => t

theorem length_dropWhile_le (p : Char → Bool) (t : Text) : (t.dropWhile p).length ≤ t.length :=
  (List.dropWhile_suffix p).length_le

theorem length_lt_of_lineBreak? {t rest : Text} (h : lineBreak? t = some rest) :
    rest.length < t.length := by
  unfold lineBreak? at h
  split at h
  · cases h
    exact Nat.lt_succ_self _
  · cases h
    exact Nat.lt_succ_of_lt (Nat.lt_succ_self _)
  · cases h

/-- The text after all spaces, line breaks and, where they are allowed, comments. -/
def skipBlank (comments : Bool) (t : Text) : Text :=
  match t with
  | [] => []
  | c :: t =>
    if isSpace c then skipBlank comments t
    else if comments && c == '#' then skipBlank comments (t.dropWhile isPrintable)
    else
      match _h : lineBreak? (c :: t) with
      | some rest => skipBlank comments rest
      | none => c :: t
termination_by t.length
decreasing_by
  · simp
  · exact Nat.lt_succ_of_le (length_dropWhile_le ..)
  · exact length_lt_of_lineBreak? _h

end ImportMigration.Toml
