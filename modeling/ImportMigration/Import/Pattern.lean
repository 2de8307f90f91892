import ImportMigration.Import.Rule

/-!
A rule written out as a regular expression with named groups and a replacement template, the form
in which rules are shown. Package names are taken literally in both: a backslash stands before each
metacharacter of the expression, and a `$` of the template is doubled.
-/

namespace ImportMigration.Import

/-- The characters with a meaning of their own in a regular expression. -/
def metacharacters : Text := "\\.+*?()|[]\x7b\x7d^$#&-~".toList

/-- The regular expression that matches exactly the given text. -/
def escapePattern (t : Text) : Text :=
  t.flatMap fun c => if c ∈ metacharacters then ['\\', c] else [c]

/-- The template that expands to exactly the given text. -/
def escapeTemplate (t : Text) : Text :=
  t.flatMap fun c => if c = '$' then ['$', '$'] else [c]

namespace Rule

/-- The groups `stmt` and `quote`: a statement's opening and the quote after it. -/
def openingPattern : Text :=
  "(?P<stmt>import\\s+[^'\";\\n]*?\\s+from\\s+)(?P<quote>[\"'])".toList

def pattern (r : Rule) : Text :=
  openingPattern ++ escapePattern r.old ++
    (match r.form with
      | .exact => []
      | .subpath => "/(?P<subpath>[^'\"\\n]+)".toList) ++
    "[\"']".toList

def template (r : Rule) : Text :=
  "$\x7bstmt\x7d$\x7bquote\x7d".toList ++ escapeTemplate r.new ++
    (match r.form with
      | .exact => []
      | .subpath => "/$\x7bsubpath\x7d".toList) ++
    "$\x7bquote\x7d".toList

end Rule

end ImportMigration.Import
