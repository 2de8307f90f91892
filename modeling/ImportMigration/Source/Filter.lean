import ImportMigration.Path.Basic

/-!
Which files are source files: those whose name ends with one of a list of suffixes. The name is
compared as the text it is shown as.
-/

namespace ImportMigration.Source

structure Filter where
  suffixes : List Text
  deriving DecidableEq, Repr

/-- JavaScript files, with and without markup. -/
def Filter.default : Filter :=
  ⟨[".js".toList, ".jsx".toList]⟩

def Filter.accepts (f : Filter) (p : Path) : Bool :=
  p.fileName?.any fun name => f.suffixes.any (·.isSuffixOf (Utf8.lossy name))

end ImportMigration.Source
