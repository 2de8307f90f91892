import ImportMigration.Proofs.ConfigPlace

/-!
What a config can do: it names the root of a run that is not given one, and nothing else. Once the
config is loaded, a run depends on it through its root alone, so a line with a root does the same
whatever config it names, and one without does what the config's root makes it do.
-/

namespace ImportMigration.CommandLine

open Migration Source

variable {s : Session} {c : Bytes} {flags words : List Bytes} {config config' : Option Config}
  {a : Arguments} {root : Path}

/-- How a line ends from a session, and the session that it leaves. -/
def runFrom (s : Session) (words : List Bytes) : Ending × Session :=
  (run words : StateM Session Ending) s

theorem ne_nil_of_loads (h : Loads s (some ⟨c⟩) config) : c ≠ [] := by
  rintro rfl
  cases h with
  | absent hp => nomatch hp
  | loaded hp hb _ =>
    cases hp
    nomatch hb

theorem rootWith_given (h : a.root = some root) (config : Option Config) :
    a.rootWith config = root := by
  rw [Arguments.rootWith, h]
  rfl

/-- Runs that have one root and differ at most in their configs do the same. -/
theorem migrate_eq_of_rootWith (a a' : Arguments) (h : Loads s a.config config)
    (h' : Loads s a'.config config') (hroot : a.rootWith config = a'.rootWith config')
    (hdry : a.dryRun = a'.dryRun) (hsummary : a.summary = a'.summary) :
    (migrate a : StateM Session Ending) s = (migrate a' : StateM Session Ending) s := by
  have hmode : a.mode = a'.mode := by rw [Arguments.mode, Arguments.mode, hdry]
  rw [migrate_of_loads h, migrate_of_loads h', hroot, hmode, hsummary]

/-- A root that is given makes up for the one of the config, and for the built-in one. -/
theorem run_root_of_config (hf : ∀ w ∈ flags, isFlag w = true) (hn : NamesConfig c flags words)
    (hl : Loads s (some ⟨c⟩) config) (hroot : (config.bind Config.root).getD defaultRoot = root)
    (hne : root.bytes ≠ []) :
    runFrom s words = runFrom s (words ++ [optionsEnd, root.bytes]) := by
  have hwithout := hn.parse_eq hf (ne_nil_of_loads hl) .none
  have hwith := hn.parse_eq hf (ne_nil_of_loads hl) (.arguments [root.bytes])
  rw [List.append_nil, List.append_nil] at hwithout
  rw [parse_root hf hne] at hwith
  unfold runFrom run
  rw [hwithout, hwith]
  cases hp : parse flags with
  | error e => rfl
  | ok r =>
    cases r with
    | help | version => rfl
    | run a =>
      obtain ⟨hnone, _⟩ := parse_flags_run hf hp
      have hconfigured : (a.withConfig ⟨c⟩).rootWith config = root := by
        show (a.root <|> config.bind Config.root).getD defaultRoot = root
        rw [hnone]
        exact hroot
      exact migrate_eq_of_rootWith (a.withConfig ⟨c⟩)
        (Arguments.withConfig ⟨c⟩ { a with root := some root }) hl hl hconfigured rfl rfl

/-- From any one state, a line of flags that names a config, and a root behind a `--`, ends and
leaves everything as it does with any other config that loads. Without the root it does what it does
with the root that the config resolves to, unless that is empty, and with the built-in root if the
config has none. So a config can move the root of a run, and do nothing else. -/
theorem config_moves_only_root (s : Session) (flags : List Bytes)
    (hflags : ∀ w ∈ flags, isFlag w = true) :
    (∀ c c' config config' words words' root,
      NamesConfig c flags words → NamesConfig c' flags words' →
      Loads s (some ⟨c⟩) config → Loads s (some ⟨c'⟩) config' →
        runFrom s (words ++ [optionsEnd, root]) = runFrom s (words' ++ [optionsEnd, root])) ∧
    (∀ c config words root, NamesConfig c flags words → Loads s (some ⟨c⟩) (some config) →
      config.root = some root → root.bytes ≠ [] →
        runFrom s words = runFrom s (words ++ [optionsEnd, root.bytes])) ∧
    ∀ c config words, NamesConfig c flags words → Loads s (some ⟨c⟩) (some config) →
      config.configuredRoot = none →
        runFrom s words = runFrom s (words ++ [optionsEnd, defaultRoot.bytes]) := by
  refine ⟨?_, ?_, ?_⟩
  · intro c c' config config' words words' root hn hn' hl hl'
    have hparse := hn.parse_eq hflags (ne_nil_of_loads hl) (.arguments [root])
    have hparse' := hn'.parse_eq hflags (ne_nil_of_loads hl') (.arguments [root])
    unfold runFrom run
    rw [hparse, hparse']
    cases hp : parse (flags ++ [optionsEnd, root]) with
    | error e => rfl
    | ok r =>
      cases r with
      | help | version => rfl
      | run a =>
        have hroot := parse_root_run hflags hp
        refine migrate_eq_of_rootWith (a.withConfig ⟨c⟩) (a.withConfig ⟨c'⟩) hl hl' ?_ rfl rfl
        rw [rootWith_given (a := a.withConfig ⟨c⟩) hroot,
          rootWith_given (a := a.withConfig ⟨c'⟩) hroot]
  · intro c config words root hn hl hroot hne
    refine run_root_of_config hflags hn hl ?_ hne
    rw [Option.bind_some, hroot, Option.getD_some]
  · intro c config words hn hl hnone
    refine run_root_of_config hflags hn hl ?_ (by decide +kernel)
    rw [Option.bind_some, Config.root, hnone, Option.map_none, Option.getD_none]

def otherConfig : FileName :=
  ⟨Utf8.encode "other.toml".toList, by decide +kernel⟩

/-- A working directory with two config files, one of which names a directory of sources and one of
which names nothing. -/
def twoConfigs : Session where
  disk := ⟨[([], .directory ⟨true, true, true⟩),
    ([configName], .file ⟨true, true, false⟩ (Utf8.encode namedRoot)),
    ([otherConfig], .file ⟨true, true, false⟩ []),
    ([sourceDirectory], .directory ⟨true, true, true⟩),
    ([sourceDirectory, regular], .file ⟨true, true, false⟩ (Utf8.encode legacyImport))],
    by decide +kernel⟩
  directory := []

theorem loads_configName :
    Loads twoConfigs (some ⟨configName.bytes⟩) (some ⟨⟨configName.bytes⟩, some sourceRoot⟩) := by
  have hread : twoConfigs.read ⟨configName.bytes⟩ = .ok (Utf8.encode namedRoot) := by
    decide +kernel
  exact loads_named hread (by decide +kernel)

theorem loads_otherConfig :
    Loads twoConfigs (some ⟨otherConfig.bytes⟩) (some ⟨⟨otherConfig.bytes⟩, none⟩) := by
  have hread : twoConfigs.read ⟨otherConfig.bytes⟩ = .ok [] := by decide +kernel
  exact loads_named hread (by decide +kernel)

def summaryOption : Bytes :=
  Utf8.encode "--summary".toList

def otherOption : Bytes :=
  configOption ++ equals :: otherConfig.bytes

/-- With a root the two configs make no difference; without one the first stands for its own root
and the second for the built-in one. -/
theorem twoConfigs_move_only_root :
    runFrom twoConfigs [summaryOption, configOption, configName.bytes, optionsEnd,
        sourceRoot.bytes] =
      runFrom twoConfigs [otherOption, summaryOption, optionsEnd, sourceRoot.bytes] ∧
    runFrom twoConfigs [summaryOption, configOption, configName.bytes] =
      runFrom twoConfigs [summaryOption, configOption, configName.bytes, optionsEnd,
        sourceRoot.bytes] ∧
    runFrom twoConfigs [otherOption, summaryOption] =
      runFrom twoConfigs [otherOption, summaryOption, optionsEnd, defaultRoot.bytes] ∧
    (runFrom twoConfigs [summaryOption, configOption, configName.bytes]).1.exitCode = 0 := by
  have hflags : ∀ w ∈ [summaryOption], isFlag w = true := by decide +kernel
  have hplain : Word.ofBytes configName.bytes = .plain := by decide +kernel
  have hn := NamesConfig.apart [summaryOption] [] hplain
  have hn' := NamesConfig.joined (c := otherConfig.bytes) [] [summaryOption]
  have hroot : (Config.mk ⟨configName.bytes⟩ (some sourceRoot)).root = some sourceRoot := by
    decide +kernel
  obtain ⟨hany, hown, hdefault⟩ := config_moves_only_root twoConfigs [summaryOption] hflags
  refine ⟨hany _ _ _ _ _ _ sourceRoot.bytes hn hn' loads_configName loads_otherConfig,
    hown _ _ _ _ hn loads_configName hroot (by decide +kernel),
    hdefault _ _ _ hn' loads_otherConfig rfl, ?_⟩
  have hparse : parse [summaryOption, configOption, configName.bytes] =
      .ok (.run { config := some ⟨configName.bytes⟩, summary := true }) := by
    decide +kernel
  have hdirectory : twoConfigs.node sourceRoot = .ok (.directory ⟨true, true, true⟩) := by
    decide +kernel
  have hwith := rootWith_of_root (a := { config := some ⟨configName.bytes⟩, summary := true }) rfl
    hroot
  obtain ⟨_, hm⟩ := migrate_of_directory loads_configName (hwith ▸ hdirectory)
  unfold runFrom run
  rw [hparse]
  exact congrArg (fun x => x.1.exitCode) hm

end ImportMigration.CommandLine
