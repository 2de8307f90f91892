import ImportMigration.Import.Rename
import ImportMigration.Migration.Report
import ImportMigration.Source.Walk

/-!
Rewriting files in place: one file, and all source files below a directory. A file that cannot be
read or written is reported and counted, and the run goes on.
-/

namespace ImportMigration.Migration

variable {m : Type → Type} [Monad m] [Machine m]

/-- Rewrites one file by the rules. It is written only if its text changes. -/
def rewriteFile (rules : List Import.Rule) (mode : Mode) (p : Path) : m Outcome := do
  match (← Machine.read p).toOption.bind Utf8.decode? with
  | none =>
    Machine.tell (.skipping p)
    return .skipped
  | some before =>
    let after := Import.rewrite rules before
    if after = before then return .unchanged
    match mode with
    | .dryRun =>
      Machine.tell (.wouldUpdate p)
      return .updated
    | .write =>
      match ← Machine.write p (Utf8.encode after) with
      | .error cause =>
        Machine.tell (.writeFailed p cause)
        return .writeFailed
      | .ok () =>
        Machine.tell (.updated p)
        return .updated

/-- Rewrites the source files below the root by the default rules. -/
def run (options : Options) : m (Except Source.RootError Report) := do
  let outcomes ← Source.walk options.filter (rewriteFile Import.defaultRules options.mode) options.root
  return outcomes.map (·.foldl Report.record .empty)

end ImportMigration.Migration
