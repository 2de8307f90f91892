import ImportMigration.Source.Filter

/-!
What a migration is asked to do, what becomes of each file, and the tally of that.
-/

namespace ImportMigration.Migration

/-- Whether changed files are written, or only reported. -/
inductive Mode where
  | write
  | dryRun
  deriving DecidableEq, Repr

structure Options where
  root : Path
  filter : Source.Filter
  mode : Mode
  deriving DecidableEq, Repr

/-- The directory that is migrated when no other is named. -/
def defaultRoot : Path :=
  .ofText "frontend/src".toList

def Options.default : Options :=
  ⟨defaultRoot, .default, .write⟩

inductive Outcome where
  /-- Imports were rewritten, or would be outside a dry run. -/
  | updated
  /-- No import had to be rewritten, and the file was not written. -/
  | unchanged
  /-- The file could not be read as text. -/
  | skipped
  /-- The file had to be written and could not be. -/
  | writeFailed
  deriving DecidableEq, Repr

structure Report where
  updated : Nat := 0
  unchanged : Nat := 0
  skipped : Nat := 0
  failed : Nat := 0
  deriving DecidableEq, Repr

namespace Report

def empty : Report := {}

def record (r : Report) : Outcome → Report
  | .updated => { r with updated := r.updated + 1 }
  | .unchanged => { r with unchanged := r.unchanged + 1 }
  | .skipped => { r with skipped := r.skipped + 1 }
  | .writeFailed => { r with failed := r.failed + 1 }

def visited (r : Report) : Nat :=
  r.updated + r.unchanged + r.skipped + r.failed

@[simp] theorem visited_empty : empty.visited = 0 := rfl

@[simp] theorem visited_record (r : Report) (o : Outcome) :
    (r.record o).visited = r.visited + 1 := by
  cases o <;> simp [record, visited] <;> omega

/-- A tally counts the outcomes of each kind. -/
theorem foldl_record (outcomes : List Outcome) (r : Report) :
    outcomes.foldl record r =
      ⟨r.updated + outcomes.count .updated, r.unchanged + outcomes.count .unchanged,
        r.skipped + outcomes.count .skipped, r.failed + outcomes.count .writeFailed⟩ := by
  induction outcomes generalizing r with
  | nil => rfl
  | cons o outcomes ih =>
    rw [List.foldl_cons, ih]
    cases o <;> simp [record] <;> omega

theorem visited_foldl_record (outcomes : List Outcome) (r : Report) :
    (outcomes.foldl record r).visited = r.visited + outcomes.length := by
  induction outcomes generalizing r with
  | nil => rfl
  | cons o outcomes ih =>
    rw [List.foldl_cons, ih, visited_record, List.length_cons]
    omega

end Report

end ImportMigration.Migration
