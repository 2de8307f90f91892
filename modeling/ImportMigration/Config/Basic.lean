import ImportMigration.Migration.Report

/-!
A configuration names the directory to migrate. A relative one is taken from the directory that the
config file lies in; one given on the command line goes before it, and the built-in one after it.
-/

namespace ImportMigration

/-- A configuration and the path that it was read from. -/
structure Config where
  path : Path
  configuredRoot : Option Path
  deriving DecidableEq, Repr

namespace Config

def fileName : Path :=
  .ofText ".mui-migrate.toml".toList

def root (c : Config) : Option Path :=
  c.configuredRoot.map fun root =>
    if root.isAbsolute then root else (c.path.parent?.getD ⟨[]⟩).join root

def options (config : Option Config) (rootArgument : Option Path) (mode : Migration.Mode) :
    Migration.Options where
  root := (rootArgument <|> config.bind root).getD Migration.defaultRoot
  filter := .default
  mode := mode

end Config

end ImportMigration
