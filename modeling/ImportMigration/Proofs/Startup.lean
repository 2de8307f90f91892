import ImportMigration.CommandLine.Program
import ImportMigration.Proofs.Requests
import ImportMigration.Proofs.Scope

/-!
How the program ends. It fails before it has changed or printed anything, or not at all: once the
command line is understood, the config is loaded and the root is a directory, no file and no
directory below the root can make it fail.
-/

namespace ImportMigration.CommandLine

open Migration Source

variable {s : Session} {named : Option Path} {p : Path} {config : Option Config} {a : Arguments}

/-- The config file of a run: the named one, or else that of the working directory, if there is
one. -/
inductive ConfigAt (s : Session) : Option Path → Option Path → Prop where
  | named (p : Path) : ConfigAt s (some p) (some p)
  | found {d : Path} {access : Access} {content : Bytes} (hd : s.workingDirectory = .ok d)
    (hf : s.node (d.join Config.fileName) = .ok (.file access content)) :
    ConfigAt s none (some (d.join Config.fileName))
  | absent {d : Path} (hd : s.workingDirectory = .ok d)
    (hf : ∀ access content, s.node (d.join Config.fileName) ≠ .ok (.file access content)) :
    ConfigAt s none none

/-- The config of a run. If there is a file for it, the file must be readable and hold one. -/
inductive Loads (s : Session) (named : Option Path) : Option Config → Prop where
  | absent (hp : ConfigAt s named none) : Loads s named none
  | loaded {p : Path} {b : Bytes} {config : Config} (hp : ConfigAt s named (some p))
    (hb : s.read p = .ok b) (hc : Config.ofBytes p b = .ok config) : Loads s named (some config)

/-- Why it cannot be told what config a run has. -/
inductive LoadFails (s : Session) (named : Option Path) : StartupError → Prop where
  | directory {cause : Cause} (hn : named = none) (hd : s.workingDirectory = .error cause) :
    LoadFails s named (.directory cause)
  | unreadable {p : Path} {cause : Cause} (hp : ConfigAt s named (some p))
    (hb : s.read p = .error cause) : LoadFails s named (.config (.unreadable p cause))
  | invalid {p : Path} {b : Bytes} {e : Config.LoadError} (hp : ConfigAt s named (some p))
    (hb : s.read p = .ok b) (hc : Config.ofBytes p b = .error e) : LoadFails s named (.config e)

/-- The directory that a run migrates. -/
def Arguments.rootWith (a : Arguments) (config : Option Config) : Path :=
  (a.root <|> config.bind Config.root).getD defaultRoot

/-- How a run treats the files that it would change. -/
def Arguments.mode (a : Arguments) : Mode :=
  if a.dryRun then .dryRun else .write

theorem workingDirectory_run (s : Session) :
    (Machine.workingDirectory : StateM Session (Except Cause Path)) s =
      (s.workingDirectory, s) :=
  rfl

theorem find_run (d : Path) (s : Session) :
    (Config.find d : StateM Session (Option Path)) s =
      (match s.node (d.join Config.fileName) with
        | .ok (.file _ _) => some (d.join Config.fileName)
        | _ => none, s) := by
  unfold Config.find
  rw [bind_run, kind_run]
  cases s.node (d.join Config.fileName) with
  | error cause => rfl
  | ok node => cases node <;> rfl

theorem configPath_none_run (s : Session) :
    (configPath none : StateM Session (Except StartupError (Option Path))) s =
      match s.workingDirectory with
      | .error cause => (.error (.directory cause), s)
      | .ok d => (.ok ((Config.find d : StateM Session (Option Path)) s).1, s) := by
  unfold configPath
  dsimp only
  rw [bind_run, workingDirectory_run]
  cases s.workingDirectory with
  | error cause => rfl
  | ok d =>
    dsimp only
    rw [bind_run, find_run]
    rfl

theorem ConfigAt.run {p : Option Path} (h : ConfigAt s named p) :
    (configPath named : StateM Session (Except StartupError (Option Path))) s = (.ok p, s) := by
  cases h with
  | named p => rfl
  | found hd hf =>
    rw [configPath_none_run, hd]
    dsimp only
    rw [find_run, hf]
  | absent hd hf =>
    rw [configPath_none_run, hd]
    dsimp only
    rw [find_run]
    split
    · rename_i hn
      exact absurd hn (hf _ _)
    · rfl

/-- Nothing but the working directory can keep a run from telling which config file it has. -/
theorem configAt_or_fails (s : Session) (named : Option Path) :
    (∃ p, ConfigAt s named p) ∨ ∃ cause, named = none ∧ s.workingDirectory = .error cause := by
  cases named with
  | some p => exact .inl ⟨_, .named p⟩
  | none =>
    cases hd : s.workingDirectory with
    | error cause => exact .inr ⟨cause, rfl, rfl⟩
    | ok d =>
      left
      by_cases hf : ∃ access content, s.node (d.join Config.fileName) = .ok (.file access content)
      · obtain ⟨access, content, hf⟩ := hf
        exact ⟨_, .found hd hf⟩
      · exact ⟨_, .absent hd fun access content h => hf ⟨access, content, h⟩⟩

theorem load_run (p : Path) (s : Session) :
    (Config.load p : StateM Session (Except Config.LoadError Config)) s =
      (match s.read p with
        | .error cause => .error (.unreadable p cause)
        | .ok b => Config.ofBytes p b, s) := by
  unfold Config.load
  rw [bind_run, read_run]
  cases s.read p <;> rfl

theorem loadConfig_run (h : ConfigAt s named (some p)) :
    (loadConfig named : StateM Session (Except StartupError (Option Config))) s =
      (match (Config.load p : StateM Session (Except Config.LoadError Config)) s with
        | (.error e, _) => .error (.config e)
        | (.ok config, _) => .ok (some config), s) := by
  unfold loadConfig
  rw [bind_run, h.run]
  dsimp only
  rw [bind_run, load_run]
  cases s.read p with
  | error cause => rfl
  | ok b =>
    dsimp only
    cases Config.ofBytes p b <;> rfl

theorem Loads.run (h : Loads s named config) :
    (loadConfig named : StateM Session (Except StartupError (Option Config))) s =
      (.ok config, s) := by
  cases h with
  | absent hp =>
    unfold loadConfig
    rw [bind_run, hp.run]
    rfl
  | loaded hp hb hc => simp only [loadConfig_run hp, load_run, hb, hc]

theorem LoadFails.run {e : StartupError} (h : LoadFails s named e) :
    (loadConfig named : StateM Session (Except StartupError (Option Config))) s =
      (.error e, s) := by
  cases h with
  | directory hn hd =>
    subst hn
    unfold loadConfig
    rw [bind_run, configPath_none_run, hd]
    rfl
  | unreadable hp hb => rw [loadConfig_run hp, load_run, hb]
  | invalid hp hb hc => simp only [loadConfig_run hp, load_run, hb, hc]

theorem Loads.eq {config' : Option Config} (h : Loads s named config)
    (h' : Loads s named config') : config = config' :=
  Except.ok.inj (congrArg Prod.fst (h.run.symm.trans h'.run))

theorem LoadFails.not_loads {e : StartupError} (h : LoadFails s named e) :
    ¬ Loads s named config :=
  fun hl => nomatch congrArg Prod.fst (h.run.symm.trans hl.run)

theorem loads_or_fails (s : Session) (named : Option Path) :
    (∃ config, Loads s named config) ∨ ∃ e, LoadFails s named e := by
  rcases configAt_or_fails s named with ⟨p, hp⟩ | ⟨cause, hn, hd⟩
  · cases p with
    | none => exact .inl ⟨none, .absent hp⟩
    | some p =>
      cases hb : s.read p with
      | error cause => exact .inr ⟨_, .unreadable hp hb⟩
      | ok b =>
        cases hc : Config.ofBytes p b with
        | error e => exact .inr ⟨_, .invalid hp hb hc⟩
        | ok config => exact .inl ⟨some config, .loaded hp hb hc⟩
  · exact .inr ⟨_, .directory hn hd⟩

theorem migrate_of_fails {e : StartupError} (h : LoadFails s a.config e) :
    (migrate a : StateM Session Ending) s = (.failed e, s) := by
  unfold migrate
  rw [bind_run, h.run]
  rfl

theorem migrate_of_loads (h : Loads s a.config config) :
    (migrate a : StateM Session Ending) s =
      (match ((Migration.run ⟨a.rootWith config, .default, a.mode⟩ :
          StateM Session (Except RootError Report)) s).1 with
        | .error e => .failed (.root e)
        | .ok report => .done (if a.summary then some report else none) a.mode,
        after ⟨a.rootWith config, .default, a.mode⟩ s) := by
  unfold migrate after
  rw [bind_run, h.run]
  show ((Migration.run ⟨a.rootWith config, .default, a.mode⟩ >>= _ : StateM Session Ending) s) = _
  rw [bind_run]
  cases ((Migration.run ⟨a.rootWith config, .default, a.mode⟩ :
    StateM Session (Except RootError Report)) s).1 <;> rfl

theorem migrate_of_no_directory (h : Loads s a.config config)
    (hno : ∀ access, s.node (a.rootWith config) ≠ .ok (.directory access)) :
    ∃ e, (migrate a : StateM Session Ending) s = (.failed (.root e), s) := by
  obtain ⟨e, he⟩ : ∃ e, (Migration.run ⟨a.rootWith config, .default, a.mode⟩ :
      StateM Session (Except RootError Report)) s = (.error e, s) :=
    run_of_no_directory hno
  refine ⟨e, ?_⟩
  rw [migrate_of_loads h, he, after_of_no_directory hno]

theorem migrate_of_directory {access : Access} (h : Loads s a.config config)
    (hroot : s.node (a.rootWith config) = .ok (.directory access)) :
    ∃ summary, (migrate a : StateM Session Ending) s =
      (.done summary a.mode, after ⟨a.rootWith config, .default, a.mode⟩ s) := by
  rw [migrate_of_loads h, run_of_directory hroot]
  exact ⟨_, rfl⟩

theorem migrate_fails_only_at_start (a : Arguments) (s : Session) :
    ∃ ending s', (migrate a : StateM Session Ending) s = (ending, s') ∧
      (ending.exitCode = 0 ↔ ∃ config access, Loads s a.config config ∧
        s.node (a.rootWith config) = .ok (.directory access)) ∧
      (ending.exitCode ≠ 0 → s' = s ∧ ending.text .output = []) ∧
      ((∀ config, ¬ Loads s a.config config) →
        ∃ e, LoadFails s a.config e ∧ ending = .failed e) := by
  rcases loads_or_fails s a.config with ⟨config, hl⟩ | ⟨e, he⟩
  · by_cases hroot : ∃ access, s.node (a.rootWith config) = .ok (.directory access)
    · obtain ⟨access, hroot⟩ := hroot
      obtain ⟨summary, hm⟩ := migrate_of_directory hl hroot
      exact ⟨_, _, hm, ⟨fun _ => ⟨config, access, hl, hroot⟩, fun _ => rfl⟩,
        fun h => absurd rfl h, fun h => absurd hl (h config)⟩
    · have hno : ∀ access, s.node (a.rootWith config) ≠ .ok (.directory access) :=
        fun access ha => hroot ⟨access, ha⟩
      obtain ⟨e, hm⟩ := migrate_of_no_directory hl hno
      refine ⟨_, _, hm, ⟨nofun, ?_⟩, fun _ => ⟨rfl, rfl⟩, fun h => absurd hl (h config)⟩
      rintro ⟨config', access, hl', hd⟩
      obtain rfl := hl.eq hl'
      exact absurd hd (hno access)
  · refine ⟨_, _, migrate_of_fails he, ⟨nofun, ?_⟩, fun _ => ⟨rfl, rfl⟩, fun _ => ⟨e, he, rfl⟩⟩
    rintro ⟨config, access, hl, _⟩
    exact absurd hl he.not_loads

/-- The program succeeds if it is asked in time for the help or the version, or if it understands
the command line, loads the config, and the root is a directory. In every other case it leaves
everything as it is and has nothing to say on the output; a config that cannot be loaded is
reported, whatever the root is. -/
theorem run_fails_only_at_start (words : List Bytes) (s : Session) :
    ∃ ending s', (run words : StateM Session Ending) s = (ending, s') ∧
      (ending.exitCode = 0 ↔
        (∃ r, AsksInTime {} words r) ∨
        ∃ a config access, parse words = .ok (.run a) ∧ Loads s a.config config ∧
          s.node (a.rootWith config) = .ok (.directory access)) ∧
      (ending.exitCode ≠ 0 → s' = s ∧ ending.text .output = []) ∧
      ∀ a, parse words = .ok (.run a) → (∀ config, ¬ Loads s a.config config) →
        ∃ e, LoadFails s a.config e ∧ ending = .failed e := by
  rw [exists_asksInTime_iff]
  unfold run
  cases hp : parse words with
  | error e =>
    refine ⟨.usage e, s, rfl, ⟨nofun, ?_⟩, fun _ => ⟨rfl, rfl⟩, nofun⟩
    rintro ((h | h) | ⟨a, config, access, h, _⟩) <;> nomatch h
  | ok r =>
    cases r with
    | help => exact ⟨.help, s, rfl, ⟨fun _ => .inl (.inl rfl), fun _ => rfl⟩, nofun, nofun⟩
    | version => exact ⟨.version, s, rfl, ⟨fun _ => .inl (.inr rfl), fun _ => rfl⟩, nofun, nofun⟩
    | run a =>
      obtain ⟨ending, s', hm, hzero, hfail, hload⟩ := migrate_fails_only_at_start a s
      refine ⟨ending, s', hm, hzero.trans ⟨?_, ?_⟩, hfail, ?_⟩
      · rintro ⟨config, access, h⟩
        exact .inr ⟨a, config, access, rfl, h⟩
      · rintro ((h | h) | ⟨_, config, access, h, hc⟩)
        · nomatch h
        · nomatch h
        · cases h
          exact ⟨config, access, hc⟩
      · rintro _ ⟨⟩
        exact hload

end ImportMigration.CommandLine
