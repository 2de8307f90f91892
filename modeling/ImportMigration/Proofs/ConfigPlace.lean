import ImportMigration.Proofs.Flags
import ImportMigration.Proofs.Startup
import ImportMigration.Proofs.WalkFromTop

/-!
The config file of the working directory, found there or named on the command line. A run ends the
same either way, with one exception: an empty root stands for the directory of a config that was
found, and for nothing where the config was named, for the name alone has an empty parent.
-/

namespace ImportMigration.CommandLine

open Migration Source

variable {s : Session} {access : Access} {content : Bytes} {root : Option Path} {a : Arguments}

/-- The name of the config file in its directory. -/
def configName : FileName :=
  ⟨Config.fileName.bytes, by decide +kernel⟩

theorem isRelative_fileName : Config.fileName.IsRelative :=
  Path.isRelative_name configName

theorem workingDirectory_eq (hs : s.InPlace) : s.workingDirectory = .ok s.directoryPath := by
  obtain ⟨access, hd⟩ := hs.directory
  rw [Session.workingDirectory, hd]

theorem configAt_fromTop (hs : s.InPlace) (hfit : s.Fits Config.fileName)
    (hn : s.node Config.fileName = .ok (.file access content)) :
    ConfigAt s none (some (s.fromTop Config.fileName)) := by
  have hresolve := Session.resolve_fromTop hs isRelative_fileName hfit
  exact .found (workingDirectory_eq hs) ((Session.node_congr hresolve).trans hn)

/-- What a config file configures does not depend on the path that it was read through. -/
theorem ofBytes_path {p : Path} {b : Bytes} {config : Config}
    (h : Config.ofBytes p b = .ok config) (q : Path) :
    config.path = p ∧ Config.ofBytes q b = .ok ⟨q, config.configuredRoot⟩ := by
  unfold Config.ofBytes Config.ofText at h ⊢
  cases hd : Utf8.decode? b with
  | none => rw [hd] at h; nomatch h
  | some t =>
    rw [hd] at h
    dsimp only at h ⊢
    cases hp : Config.parse t with
    | error fault => rw [hp] at h; nomatch h
    | ok root =>
      rw [hp] at h
      obtain rfl := Except.ok.inj h
      exact ⟨rfl, rfl⟩

theorem exists_error_of_ofBytes {p : Path} {b : Bytes} {e : Config.LoadError}
    (h : Config.ofBytes p b = .error e) (q : Path) : ∃ e', Config.ofBytes q b = .error e' := by
  cases hq : Config.ofBytes q b with
  | error e' => exact ⟨e', rfl⟩
  | ok config => simp [(ofBytes_path hq p).2] at h

/-- Found in the working directory, the config is that of the same file named, but for its path. -/
theorem loads_fromTop (hs : s.InPlace) (hfit : s.Fits Config.fileName)
    (hn : s.node Config.fileName = .ok (.file access content))
    (h : Loads s (some Config.fileName) (some ⟨Config.fileName, root⟩)) :
    Loads s none (some ⟨s.fromTop Config.fileName, root⟩) := by
  have hread := Session.read_congr (Session.resolve_fromTop hs isRelative_fileName hfit)
  cases h with
  | loaded hp hb hc =>
    cases hp
    exact .loaded (configAt_fromTop hs hfit hn) (hread.trans hb) (ofBytes_path hc _).2

theorem loadFails_fromTop (hs : s.InPlace) (hfit : s.Fits Config.fileName)
    (hn : s.node Config.fileName = .ok (.file access content)) {e : StartupError}
    (h : LoadFails s (some Config.fileName) e) : ∃ e', LoadFails s none e' := by
  have hread := Session.read_congr (Session.resolve_fromTop hs isRelative_fileName hfit)
  have hat := configAt_fromTop hs hfit hn
  cases h with
  | directory h => nomatch h
  | unreadable hp hb =>
    cases hp
    exact ⟨_, .unreadable hat (hread.trans hb)⟩
  | invalid hp hb hc =>
    cases hp
    obtain ⟨e', hc'⟩ := exists_error_of_ofBytes hc (s.fromTop Config.fileName)
    exact ⟨_, .invalid hat (hread.trans hb) hc'⟩

/-- A root in a config that is named by the name of its file alone stands for itself. -/
theorem root_of_fileName (r : Path) : Config.root ⟨Config.fileName, some r⟩ = some r := by
  have hparent : Config.fileName.parent? = some ⟨[]⟩ := by decide +kernel
  unfold Config.root
  rw [Option.map_some, hparent]
  cases h : r.isAbsolute <;> simp [Path.join, h]

theorem root_fromTop (r : Path) : Config.root ⟨s.fromTop Config.fileName, some r⟩ =
    some (if r.isAbsolute then r else s.fromTop r) := by
  unfold Config.root
  rw [Option.map_some, show Config.fileName = ⟨configName.bytes⟩ from rfl,
    Session.parent?_fromTop]
  rfl

/-- Nothing can be reached from a working directory that may not be searched. -/
theorem resolve_of_closed {p : Path} {n : FileName} {rest : List Step} (hp : p.IsRelative)
    (hsteps : p.steps = .ok (.name n :: rest))
    (hd : s.disk.node? s.directory = some (.directory access)) (hx : access.execute = false) :
    ∃ cause, s.resolve p = .error cause := by
  have hfollow : s.disk.follow false Disk.linkLimit s.directory (.name n :: rest) =
      .error .notPermitted := by
    unfold Disk.follow Disk.advance
    simp [hd, hx]
  unfold Session.resolve Disk.resolve
  rw [if_neg hp.2, hsteps, hp.1, if_neg Bool.false_ne_true]
  dsimp only
  split
  · exact ⟨_, rfl⟩
  · exact ⟨_, hfollow⟩

theorem resolve_fileName (hd : s.disk.node? s.directory = some (.directory access))
    (hx : access.execute = true) {access' : Access}
    (hfile : s.disk.node? (s.directory ++ [configName]) = some (.file access' content)) :
    s.resolve Config.fileName = .ok (s.directory ++ [configName]) := by
  have hsteps : Config.fileName.steps = .ok [.name configName] := by decide +kernel
  have hlen : ¬ Disk.pathLimit < Config.fileName.bytes.length := by decide +kernel
  have hname : ¬ Disk.nameLimit < configName.bytes.length := by decide +kernel
  unfold Session.resolve Disk.resolve
  rw [if_neg isRelative_fileName.2, hsteps, isRelative_fileName.1, if_neg Bool.false_ne_true]
  dsimp only
  rw [if_neg hlen]
  unfold Disk.follow Disk.advance
  simp [hd, hx, hname, hfile, Disk.advance]

/-- The config file in the working directory is what its name leads to, unless the working directory
may not be searched. Then the default root cannot be reached either. -/
theorem node_fileName (hs : s.InPlace)
    (hfile : s.disk.node? (s.directory ++ [configName]) = some (.file access content)) :
    s.node Config.fileName = .ok (.file access content) ∨
      (∃ cause, s.resolve Config.fileName = .error cause) ∧
        ∃ cause, s.resolve defaultRoot = .error cause := by
  obtain ⟨access', hd⟩ := hs.directory
  cases hx : access'.execute with
  | true => exact .inl (Session.node_eq_ok_iff.mpr ⟨_, resolve_fileName hd hx hfile, hfile⟩)
  | false =>
    -- Both paths begin with a name, which has to be searched for.
    have hsteps : defaultRoot.steps = .ok [.name ⟨Utf8.encode "frontend".toList, by decide +kernel⟩,
        .name ⟨Utf8.encode "src".toList, by decide +kernel⟩] := by
      decide +kernel
    have hsteps' : Config.fileName.steps = .ok [.name configName] := by decide +kernel
    exact .inr ⟨resolve_of_closed isRelative_fileName hsteps' hd hx,
      resolve_of_closed (by decide +kernel) hsteps hd hx⟩

/-- Two runs end with one exit code and leave one disk. -/
def EndAlike (x y : Ending × Session) : Prop :=
  x.1.exitCode = y.1.exitCode ∧ x.2.disk = y.2.disk

/-- Runs of one kind that find a root alike, and leave one disk when they migrate it, end alike. -/
theorem endAlike_of_roots {b : Arguments} {config config' : Option Config}
    (h : Loads s a.config config) (h' : Loads s b.config config')
    (hnode : s.node (a.rootWith config) = s.node (b.rootWith config'))
    (hdisk : (after ⟨a.rootWith config, .default, a.mode⟩ s).disk =
      (after ⟨b.rootWith config', .default, b.mode⟩ s).disk) :
    EndAlike ((migrate a : StateM Session Ending) s) ((migrate b : StateM Session Ending) s) := by
  by_cases hd : ∃ access, s.node (a.rootWith config) = .ok (.directory access)
  · obtain ⟨access, hd⟩ := hd
    obtain ⟨_, hm⟩ := migrate_of_directory h hd
    obtain ⟨_, hm'⟩ := migrate_of_directory h' (hnode ▸ hd)
    rw [hm, hm']
    exact ⟨rfl, hdisk⟩
  · have hno : ∀ access, s.node (a.rootWith config) ≠ .ok (.directory access) :=
      fun access ha => hd ⟨access, ha⟩
    obtain ⟨_, hm⟩ := migrate_of_no_directory h hno
    obtain ⟨_, hm'⟩ := migrate_of_no_directory h' (hnode ▸ hno)
    rw [hm, hm']
    exact ⟨rfl, rfl⟩

/-- What a run takes from the working directory is within the limit for paths when it is written
from the top: the config file, the root that it configures, and the files that are visited. -/
structure ConfigFits (s : Session) : Prop where
  config : s.Fits Config.fileName
  root : ∀ r, Loads s (some Config.fileName) (some ⟨Config.fileName, some r⟩) →
    r.isAbsolute = false → s.Fits r
  files : ∀ r, Loads s (some Config.fileName) (some ⟨Config.fileName, some r⟩) →
    r.isAbsolute = false → ∀ p, .file p ∈ itineraryOf .default s r → s.Fits p

theorem rootWith_of_root (h : a.root = none) {config : Config} {r : Path}
    (hr : config.root = some r) : a.rootWith (some config) = r := by
  rw [Arguments.rootWith, h, Option.bind_some, hr]
  rfl

theorem rootWith_default (h : a.root = none) {config : Option Config}
    (hr : config.bind Config.root = none) : a.rootWith config = defaultRoot := by
  rw [Arguments.rootWith, h, hr]
  rfl

/-- An empty root stands for the working directory in a config that was found there, and for nothing
in one that was named. -/
theorem exitCodes_of_empty_root (hs : s.InPlace) (hfit : s.Fits Config.fileName)
    (hn : s.node Config.fileName = .ok (.file access content)) (hroot : a.root = none)
    (hconfig : a.config = none)
    (h : Loads s (some Config.fileName) (some ⟨Config.fileName, some ⟨[]⟩⟩)) :
    ((migrate a : StateM Session Ending) s).1.exitCode = 0 ∧
      ((migrate (a.withConfig Config.fileName) : StateM Session Ending) s).1.exitCode = 1 := by
  have hfound := loads_fromTop hs hfit hn h
  rw [← hconfig] at hfound
  obtain ⟨access', hd⟩ := hs.directory
  have htop : s.node (a.rootWith (some ⟨s.fromTop Config.fileName, some ⟨[]⟩⟩)) =
      .ok (.directory access') := by
    rw [rootWith_of_root hroot (root_fromTop ⟨[]⟩)]
    exact Session.node_eq_ok_iff.mpr
      ⟨_, Session.resolve_fromTop_empty hs (hfit.empty isRelative_fileName.1), hd⟩
  have hempty : ∀ access, s.node ((a.withConfig Config.fileName).rootWith
      (some ⟨Config.fileName, some ⟨[]⟩⟩)) ≠ .ok (.directory access) := by
    rw [rootWith_of_root (a := a.withConfig Config.fileName) hroot (root_of_fileName ⟨[]⟩)]
    nofun
  obtain ⟨_, hm⟩ := migrate_of_directory hfound htop
  obtain ⟨_, hm'⟩ := migrate_of_no_directory h hempty
  rw [hm, hm']
  exact ⟨rfl, rfl⟩

/-- Any other root stands for the same in both. -/
theorem endAlike_of_loads (hs : s.InPlace) (hfits : ConfigFits s)
    (hn : s.node Config.fileName = .ok (.file access content)) (hroot : a.root = none)
    (hconfig : a.config = none)
    (h : Loads s (some Config.fileName) (some ⟨Config.fileName, root⟩)) (hne : root ≠ some ⟨[]⟩) :
    EndAlike ((migrate a : StateM Session Ending) s)
      ((migrate (a.withConfig Config.fileName) : StateM Session Ending) s) := by
  have hfound := loads_fromTop hs hfits.config hn h
  rw [← hconfig] at hfound
  cases root with
  | none =>
    have htop : a.rootWith (some ⟨s.fromTop Config.fileName, none⟩) = defaultRoot :=
      rootWith_default hroot rfl
    have hname : (a.withConfig Config.fileName).rootWith (some ⟨Config.fileName, none⟩) =
        defaultRoot :=
      rootWith_default (a := a.withConfig Config.fileName) hroot rfl
    exact endAlike_of_roots hfound h (by rw [htop, hname]) (by rw [htop, hname]; rfl)
  | some r =>
    have htop := rootWith_of_root hroot (root_fromTop (s := s) r)
    have hname := rootWith_of_root (a := a.withConfig Config.fileName) hroot (root_of_fileName r)
    cases hr : r.isAbsolute with
    | true =>
      rw [hr, if_pos rfl] at htop
      exact endAlike_of_roots hfound h (by rw [htop, hname]) (by rw [htop, hname]; rfl)
    | false =>
      have hrel : r.IsRelative := ⟨hr, fun hb => hne (congrArg (fun b => some (Path.mk b)) hb)⟩
      rw [hr, if_neg Bool.false_ne_true] at htop
      refine endAlike_of_roots hfound h ?_ ?_
      · rw [htop, hname]
        exact Session.node_congr (Session.resolve_fromTop hs hrel (hfits.root r h hr))
      · rw [htop, hname]
        exact after_fromTop hs hrel (hfits.root r h hr) .default (hfits.files r h hr) a.mode

theorem node_of_resolve_error {p : Path} {cause : Cause} (h : s.resolve p = .error cause) :
    s.node p = .error cause := by
  rw [Session.node, h]
  rfl

theorem loadFails_of_resolve_error {p : Path} {cause : Cause} (h : s.resolve p = .error cause) :
    LoadFails s (some p) (.config (.unreadable p cause)) :=
  .unreadable (.named p) (by rw [Session.read, node_of_resolve_error h])

/-- In a working directory that may not be searched a run fails, whether it finds no config or
cannot read the one that is named. -/
theorem endAlike_of_closed (hs : s.InPlace) (hfits : ConfigFits s) (hroot : a.root = none)
    (hconfig : a.config = none) {cause cause' : Cause}
    (hc : s.resolve Config.fileName = .error cause) (hd : s.resolve defaultRoot = .error cause') :
    EndAlike ((migrate a : StateM Session Ending) s)
      ((migrate (a.withConfig Config.fileName) : StateM Session Ending) s) := by
  have htop := (Session.resolve_fromTop hs isRelative_fileName hfits.config).trans hc
  have habsent : Loads s a.config none := by
    rw [hconfig]
    refine .absent (.absent (workingDirectory_eq hs) fun access content => ?_)
    show s.node (s.fromTop Config.fileName) ≠ _
    rw [node_of_resolve_error htop]
    nofun
  have hdefault : ∀ access, s.node (a.rootWith none) ≠ .ok (.directory access) := by
    rw [rootWith_default hroot rfl, node_of_resolve_error hd]
    nofun
  obtain ⟨_, hm⟩ := migrate_of_no_directory habsent hdefault
  rw [hm, migrate_of_fails (a := a.withConfig Config.fileName) (loadFails_of_resolve_error hc)]
  exact ⟨rfl, rfl⟩

theorem exists_root_of_loads {p : Path} {config : Option Config} (h : Loads s (some p) config) :
    ∃ root, config = some ⟨p, root⟩ := by
  cases h with
  | absent hp => nomatch hp
  | loaded hp hb hc =>
    cases hp
    obtain ⟨rfl, _⟩ := ofBytes_path hc p
    exact ⟨_, rfl⟩

/-- A run without a root ends alike whether it finds the config file of the working directory or has
it named, unless the file configures an empty root. -/
theorem migrate_endAlike_iff (hs : s.InPlace) (hfits : ConfigFits s)
    (hfile : s.disk.node? (s.directory ++ [configName]) = some (.file access content))
    (hroot : a.root = none) (hconfig : a.config = none) :
    EndAlike ((migrate a : StateM Session Ending) s)
        ((migrate (a.withConfig Config.fileName) : StateM Session Ending) s) ↔
      ¬ Loads s (some Config.fileName) (some ⟨Config.fileName, some ⟨[]⟩⟩) := by
  rcases node_fileName hs hfile with hn | ⟨⟨cause, hc⟩, ⟨cause', hd⟩⟩
  · rcases loads_or_fails s (some Config.fileName) with ⟨config, hl⟩ | ⟨e, he⟩
    · obtain ⟨root, rfl⟩ := exists_root_of_loads hl
      constructor
      · intro h hempty
        obtain ⟨hzero, hone⟩ := exitCodes_of_empty_root hs hfits.config hn hroot hconfig hempty
        have hcodes := h.1
        rw [hzero, hone] at hcodes
        contradiction
      · intro h
        exact endAlike_of_loads hs hfits hn hroot hconfig hl fun hr => h (hr ▸ hl)
    · refine ⟨fun _ => he.not_loads, fun _ => ?_⟩
      obtain ⟨e', he'⟩ := loadFails_fromTop hs hfits.config hn he
      rw [← hconfig] at he'
      rw [migrate_of_fails he', migrate_of_fails (a := a.withConfig Config.fileName) he]
      exact ⟨rfl, rfl⟩
  · refine ⟨fun _ hl => ?_, fun _ => endAlike_of_closed hs hfits hroot hconfig hc hd⟩
    exact (loadFails_of_resolve_error hc).not_loads hl

/-- Naming the config file of the working directory among the flags of a line without a root makes
no difference to the exit code and to the disk, unless the line asks for a run and the file
configures an empty root. -/
theorem run_config_endAlike_iff (s : Session) (hs : s.InPlace) (hfits : ConfigFits s)
    (access : Access) (content : Bytes)
    (hfile : s.disk.node? (s.directory ++ [configName]) = some (.file access content))
    (front back : List Bytes) (hflags : ∀ w ∈ front ++ back, isFlag w = true) :
    EndAlike ((run (front ++ back) : StateM Session Ending) s)
        ((run (front ++ configOption :: Config.fileName.bytes :: back) :
          StateM Session Ending) s) ↔
      ¬ ((∃ a, parse (front ++ back) = .ok (.run a)) ∧
        Loads s (some Config.fileName) (some ⟨Config.fileName, some ⟨[]⟩⟩)) := by
  have hplain : Word.ofBytes Config.fileName.bytes = .plain := by decide +kernel
  obtain ⟨hparse, hnone⟩ := parse_config_among_flags hflags hplain isRelative_fileName.2
  unfold run
  rw [hparse]
  cases hp : parse (front ++ back) with
  | error e =>
    refine ⟨?_, fun _ => ⟨rfl, rfl⟩⟩
    rintro _ ⟨⟨_, h⟩, _⟩
    nomatch h
  | ok r =>
    cases r with
    | help | version =>
      refine ⟨?_, fun _ => ⟨rfl, rfl⟩⟩
      rintro _ ⟨⟨_, h⟩, _⟩
      nomatch h
    | run a =>
      obtain ⟨hroot, hconfig⟩ := hnone a hp
      refine (migrate_endAlike_iff hs hfits hfile hroot hconfig).trans (not_congr ?_)
      exact ⟨fun h => ⟨⟨a, rfl⟩, h⟩, fun h => h.2⟩

def workDirectory : FileName :=
  ⟨Utf8.encode "work".toList, by decide +kernel⟩

/-- A working directory below the top one, with a config file of the given text and a directory of
sources. -/
def configured (t : Text) : Session where
  disk := ⟨[([], .directory ⟨true, true, true⟩),
    ([workDirectory], .directory ⟨true, true, true⟩),
    ([workDirectory, configName], .file ⟨true, true, false⟩ (Utf8.encode t)),
    ([workDirectory, sourceDirectory], .directory ⟨true, true, true⟩),
    ([workDirectory, sourceDirectory, regular],
      .file ⟨true, true, false⟩ (Utf8.encode legacyImport))], by
    show [[], [workDirectory], [workDirectory, configName], [workDirectory, sourceDirectory],
      [workDirectory, sourceDirectory, regular]].Nodup
    decide +kernel⟩
  directory := [workDirectory]

theorem inPlace_configured (t : Text) : (configured t).InPlace := by
  refine ⟨⟨⟨true, true, true⟩, rfl⟩, ?_⟩
  intro place n hp
  obtain ⟨rest, hd⟩ := hp
  obtain ⟨rfl, rfl⟩ : place = [] ∧ n = workDirectory := by
    cases place with
    | nil => exact ⟨rfl, (List.cons.inj hd).1⟩
    | cons m place => simp [configured] at hd
  exact ⟨⟨_, rfl, rfl⟩, by decide +kernel⟩

theorem node_configured (t : Text) :
    (configured t).node Config.fileName = .ok (.file ⟨true, true, false⟩ (Utf8.encode t)) := by
  have hd : (configured t).disk.node? (configured t).directory =
      some (.directory ⟨true, true, true⟩) := rfl
  exact Session.node_eq_ok_iff.mpr ⟨_, resolve_fileName hd rfl rfl, rfl⟩

theorem loads_named {p : Path} {config : Config} (hb : s.read p = .ok content)
    (h : (Config.ofBytes p content).toOption = some config) : Loads s (some p) (some config) := by
  refine .loaded (.named _) hb ?_
  cases hc : Config.ofBytes p content with
  | error e => rw [hc] at h; contradiction
  | ok config' =>
    rw [hc] at h
    exact congrArg Except.ok (Option.some.inj h)

theorem loads_configured {t : Text} {config : Config}
    (h : (Config.ofBytes Config.fileName (Utf8.encode t)).toOption = some config) :
    Loads (configured t) (some Config.fileName) (some config) := by
  refine loads_named ?_ h
  rw [Session.read, node_configured]
  rfl

def namedRoot : Text :=
  "root = \"src\"\n".toList

theorem loads_namedRoot : Loads (configured namedRoot) (some Config.fileName)
    (some ⟨Config.fileName, some sourceRoot⟩) :=
  loads_configured (by decide +kernel)

theorem eq_sourceRoot_of_loads {r : Path} (h : Loads (configured namedRoot) (some Config.fileName)
    (some ⟨Config.fileName, some r⟩)) : r = sourceRoot := by
  simpa using h.eq loads_namedRoot

theorem itinerary_configured :
    itineraryOf .default (configured namedRoot) sourceRoot =
      [.file (sourceRoot.child regular)] := by
  have hl : (configured namedRoot).list sourceRoot = .ok [⟨regular, .file⟩] := by decide +kernel
  unfold itineraryOf itinerary
  rw [hl]
  dsimp only
  rw [List.mergeSort_singleton]
  decide +kernel

theorem configFits_namedRoot : ConfigFits (configured namedRoot) := by
  refine ⟨by decide +kernel, fun r h _ => ?_, fun r h _ p hp => ?_⟩
  · rw [eq_sourceRoot_of_loads h]
    decide +kernel
  · rw [eq_sourceRoot_of_loads h, itinerary_configured, List.mem_singleton] at hp
    cases hp
    decide +kernel

/-- The sources are migrated alike whether the config file that names them is found or named. -/
theorem namedRoot_ends_alike :
    (configured namedRoot).InPlace ∧ ConfigFits (configured namedRoot) ∧
    EndAlike ((run [Utf8.encode "--summary".toList] : StateM Session Ending) (configured namedRoot))
      ((run [Utf8.encode "--summary".toList, configOption, Config.fileName.bytes] :
        StateM Session Ending) (configured namedRoot)) := by
  refine ⟨inPlace_configured _, configFits_namedRoot, ?_⟩
  refine (run_config_endAlike_iff _ (inPlace_configured _) configFits_namedRoot _ _ rfl
    [Utf8.encode "--summary".toList] [] ?_).mpr ?_
  · decide +kernel
  · rintro ⟨_, h⟩
    exact absurd (eq_sourceRoot_of_loads h) (by decide)

def emptyRoot : Text :=
  "root = \"\"\n".toList

theorem loads_emptyRoot : Loads (configured emptyRoot) (some Config.fileName)
    (some ⟨Config.fileName, some ⟨[]⟩⟩) :=
  loads_configured (by decide +kernel)

/-- Found, a config with an empty root makes a run of the working directory; named, an error. -/
theorem emptyRoot_ends_differently :
    (configured emptyRoot).InPlace ∧
    (configured emptyRoot).disk.node? ((configured emptyRoot).directory ++ [configName]) =
      some (.file ⟨true, true, false⟩ (Utf8.encode emptyRoot)) ∧
    ((run [] : StateM Session Ending) (configured emptyRoot)).1.exitCode = 0 ∧
    ((run [configOption, Config.fileName.bytes] : StateM Session Ending)
      (configured emptyRoot)).1.exitCode = 1 := by
  have hs := inPlace_configured emptyRoot
  have hfit : (configured emptyRoot).Fits Config.fileName := by decide +kernel
  have hcodes := exitCodes_of_empty_root (a := {}) hs hfit (node_configured emptyRoot) rfl rfl
    loads_emptyRoot
  have hparse : parse [configOption, Config.fileName.bytes] =
      .ok (.run (Arguments.withConfig Config.fileName {})) := by
    decide +kernel
  refine ⟨hs, rfl, hcodes.1, ?_⟩
  unfold run
  rw [hparse]
  exact hcodes.2

end ImportMigration.CommandLine
