import ImportMigration.Import.Rule

/-!
The table of packages that were renamed, and the rules that it stands for: for each row the rule of
the package itself, then that of its subpaths where those moved with it.
-/

namespace ImportMigration.Import

structure Rename where
  old : Text
  new : Text
  /-- Whether a path below the old package has the same path below the new one. -/
  subpaths : Bool
  deriving DecidableEq, Repr

namespace Rename

def rules (row : Rename) : List Rule :=
  ⟨.exact, row.old, row.new⟩ :: if row.subpaths then [⟨.subpath, row.old, row.new⟩] else []

/-- The legacy packages, in the order in which they are renamed. -/
def legacy : List Rename :=
  [⟨"@material-ui/core".toList, "@mui/material".toList, true⟩,
    ⟨"@material-ui/icons".toList, "@mui/icons-material".toList, true⟩,
    ⟨"@material-ui/lab".toList, "@mui/lab".toList, true⟩,
    ⟨"@material-ui/data-grid".toList, "@mui/x-data-grid".toList, false⟩,
    ⟨"@material-ui/styles".toList, "@mui/styles".toList, false⟩]

end Rename

def rulesOf (renames : List Rename) : List Rule :=
  renames.flatMap Rename.rules

/-- The rules of the legacy packages. -/
def defaultRules : List Rule :=
  rulesOf Rename.legacy

end ImportMigration.Import
