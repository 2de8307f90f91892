import ImportMigration.Config.Basic
import ImportMigration.Proofs.Requests

/-!
Command lines of flags alone, the same with a config named somewhere among the flags
(`NamesConfig`), and the same with a root behind them. The name of the config is all that the first
changes, and the root all that the second does: the lines have the same usage errors, and all are
answered or all run.
-/

namespace ImportMigration.CommandLine

open Utf8

variable {s s' t : State} {w : Bytes} {front back flags words rest : List Bytes} {o : Opt}
  {value : Option Bytes}

/-- A word that is an option, right or wrong, but not `--config`. -/
def isFlag (w : Bytes) : Bool :=
  match Word.ofBytes w with
  | .short _ => true
  | .long name _ => name != encode Opt.config.name
  | _ => false

def Arguments.withConfig (c : Path) (a : Arguments) : Arguments :=
  { a with config := some c }

def State.withConfig (c : Path) (s : State) : State :=
  { s with accepted := s.accepted.withConfig c }

/-- The same request, but for the config of a run. -/
def Request.withConfig (c : Path) : Request → Request
  | run a => run (a.withConfig c)
  | r => r

/-- What changes runs alone leaves all else that a line can come to. -/
theorem map_eq_of_no_run {f : Request → Request} (hhelp : f .help = .help)
    (hversion : f .version = .version) {result : Except UsageError Request}
    (h : ∀ a, result ≠ .ok (.run a)) : result.map f = result := by
  cases result with
  | error e => rfl
  | ok r =>
    cases r with
    | run a => exact absurd rfl (h a)
    | help => exact congrArg Except.ok hhelp
    | version => exact congrArg Except.ok hversion

theorem settle_of_no_pending (h : s.pending = none) : s.settle = .ok s := by
  rw [State.settle, h]

theorem takeSetting_dryRun (h : s.settle = .ok t) :
    s.takeSetting .dryRun none =
      if t.accepted.dryRun then .error (.repeated .dryRun)
      else .ok { accepted := { t.accepted with dryRun := true } } := by
  simp only [State.takeSetting, h]
  show (if t.accepted.dryRun then _ else _) = _
  split <;> rfl

theorem takeSetting_summary (h : s.settle = .ok t) :
    s.takeSetting .summary none =
      if t.accepted.summary then .error (.repeated .summary)
      else .ok { accepted := { t.accepted with summary := true } } := by
  simp only [State.takeSetting, h]
  show (if t.accepted.summary then _ else _) = _
  split <;> rfl

/-- What was accepted had not been given before. -/
theorem eq_of_once {given : Bool} {e : UsageError}
    (h : (if given then .error e else .ok s : Except UsageError State) = .ok t) : s = t := by
  cases given with
  | true => contradiction
  | false => exact Except.ok.inj h

/-- A flag adds neither a root nor a config to what has been accepted. -/
theorem takeSetting_flag (hs : s.pending = none) (ho : o ≠ .config)
    (h : s.takeSetting o value = .ok t) :
    t.pending = none ∧ t.accepted.root = s.accepted.root ∧
      t.accepted.config = s.accepted.config := by
  have hsettle := settle_of_no_pending hs
  cases value with
  | some value => cases o <;> contradiction
  | none =>
    cases o with
    | config => contradiction
    | help | version =>
      obtain rfl := Except.ok.inj (hsettle.symm.trans h)
      exact ⟨hs, rfl, rfl⟩
    | dryRun =>
      rw [takeSetting_dryRun hsettle] at h
      obtain rfl := eq_of_once h
      exact ⟨rfl, rfl, rfl⟩
    | summary =>
      rw [takeSetting_summary hsettle] at h
      obtain rfl := eq_of_once h
      exact ⟨rfl, rfl, rfl⟩

/-- A config that is named beside a flag makes no difference to what the flag does. -/
theorem takeSetting_withConfig {c : Path} (hs : s.pending = none)
    (hs' : s'.settle = .ok (s.withConfig c)) (ho : o ≠ .config) :
    s'.takeSetting o value = (s.takeSetting o value).map (State.withConfig c) := by
  have hsettle := settle_of_no_pending hs
  cases value with
  | some value => cases o <;> first | contradiction | rfl
  | none =>
    cases o with
    | config => contradiction
    | help | version => exact hs'.trans (congrArg (Except.map _) hsettle.symm)
    | dryRun =>
      rw [takeSetting_dryRun hsettle, takeSetting_dryRun hs']
      show (if s.accepted.dryRun then _ else _) = _
      split <;> rfl
    | summary =>
      rw [takeSetting_summary hsettle, takeSetting_summary hs']
      show (if s.accepted.summary then _ else _) = _
      split <;> rfl

theorem exists_of_isFlag (h : isFlag w = true) : (∃ flags, Word.ofBytes w = .short flags) ∨
    ∃ name value, Word.ofBytes w = .long name value ∧
      ∀ o, (decode? name).bind Opt.ofName? = some o → o ≠ .config := by
  unfold isFlag at h
  split at h
  · exact .inl ⟨_, ‹_›⟩
  · refine .inr ⟨_, _, ‹_›, ?_⟩
    rintro o ho rfl
    exact bne_iff_ne.mp h (Opt.eq_encode_of_ofName? ho)
  · contradiction

/-- A flag decides what the line comes to, or it leaves the rest of the line to be taken, with no
more of a root or a config than before. -/
theorem parseWords_flag (hw : isFlag w = true) (hs : s.pending = none) :
    (∃ result, (∀ a, result ≠ .ok (.run a)) ∧ ∀ ws, parseWords s (w :: ws) = result) ∨
    ∃ t, t.pending = none ∧ t.accepted.root = s.accepted.root ∧
      t.accepted.config = s.accepted.config ∧ ∀ ws, parseWords s (w :: ws) = parseWords t ws := by
  have hsettle := settle_of_no_pending hs
  rcases exists_of_isFlag hw with ⟨flags, hw⟩ | ⟨name, value, hw, hname⟩
  · left
    refine ⟨parseShort s flags, ?_, fun ws => by rw [parseWords, hw]⟩
    intro a ha
    unfold parseShort at ha
    split at ha
    · simp [hsettle, Except.map] at ha
    · simp [hsettle, Except.map] at ha
    · contradiction
    · contradiction
  · simp only [parseWords, hw]
    cases ho : (decode? name).bind Opt.ofName? with
    | none => exact .inl ⟨.error _, by simp, fun ws => rfl⟩
    | some o =>
      dsimp only
      cases ht : s.takeSetting o value with
      | error e => exact .inl ⟨.error e, by simp, fun ws => rfl⟩
      | ok t =>
        obtain ⟨hp, hr, hc⟩ := takeSetting_flag hs (hname o ho) ht
        cases o with
        | help => exact .inl ⟨.ok .help, by simp, fun ws => rfl⟩
        | version => exact .inl ⟨.ok .version, by simp, fun ws => rfl⟩
        | config => exact absurd rfl (hname _ ho)
        | dryRun | summary => exact .inr ⟨t, hp, hr, hc, fun ws => rfl⟩

theorem parseWords_flags (hf : ∀ w ∈ front, isFlag w = true) (hs : s.pending = none) :
    (∃ result, (∀ a, result ≠ .ok (.run a)) ∧ ∀ ws, parseWords s (front ++ ws) = result) ∨
    ∃ t, t.pending = none ∧ t.accepted.root = s.accepted.root ∧
      t.accepted.config = s.accepted.config ∧
      ∀ ws, parseWords s (front ++ ws) = parseWords t ws := by
  induction front generalizing s with
  | nil => exact .inr ⟨s, hs, rfl, rfl, fun ws => rfl⟩
  | cons w front ih =>
    simp only [List.cons_append]
    rcases parseWords_flag (hf w List.mem_cons_self) hs with ⟨result, hr, hw⟩ | ⟨t, hp, hr, hc, hw⟩
    · exact .inl ⟨result, hr, fun ws => hw _⟩
    · simp only [hw]
      rcases ih (fun v hv => hf v (List.mem_cons_of_mem w hv)) hp with h | ⟨t', hp', hr', hc', hw'⟩
      · exact .inl h
      · exact .inr ⟨t', hp', hr'.trans hr, hc'.trans hc, hw'⟩

/-- Whether a root has been given is not changed by looking at the value. -/
theorem hasRoot_of_settle (h : s.settle = .ok t) : s.hasRoot = t.accepted.root.isSome := by
  unfold State.settle State.setConfig at h
  unfold State.hasRoot
  grind

/-- Arguments come to the same after a config has been named. -/
theorem parseArguments_withConfig {c : Path} (hs : s'.settle = s.settle.map (State.withConfig c))
    (hroot : s'.hasRoot = s.hasRoot) (ws : List Bytes) :
    parseArguments s' ws = (parseArguments s ws).map (Request.withConfig c) := by
  induction ws generalizing s s' with
  | nil =>
    rw [parseArguments_nil, parseArguments_nil, parseWords_nil, parseWords_nil, hs]
    cases s.settle <;> rfl
  | cons w ws ih =>
    simp only [parseArguments, State.takeArgument, hroot, hs]
    cases s.hasRoot with
    | true => rfl
    | false =>
      cases s.settle with
      | error e => rfl
      | ok t =>
        refine ih ?_ rfl
        simp only [State.settle]
        split <;> rfl

/-- What may follow the options of a line: nothing, or arguments behind a `--`. -/
inductive Trailing : List Bytes → Prop where
  | none : Trailing []
  | arguments (ws : List Bytes) : Trailing (optionsEnd :: ws)

/-- Flags, and the arguments after them, come to the same after a config has been named. -/
theorem parseWords_withConfig {c : Path} (hf : ∀ w ∈ back, isFlag w = true) (hr : Trailing rest)
    (hs : s.pending = none) (hs' : s'.settle = .ok (s.withConfig c)) :
    parseWords s' (back ++ rest) =
      (parseWords s (back ++ rest)).map (Request.withConfig c) := by
  induction back generalizing s s' with
  | nil =>
    have hsettle : s'.settle = s.settle.map (State.withConfig c) := by
      rw [hs', settle_of_no_pending hs]
      rfl
    cases hr with
    | none =>
      rw [List.append_nil, parseWords_nil, parseWords_nil, hsettle]
      cases s.settle <;> rfl
    | arguments ws =>
      rw [List.nil_append, parseWords_optionsEnd, parseWords_optionsEnd]
      refine parseArguments_withConfig hsettle ?_ ws
      rw [hasRoot_of_settle hs', hasRoot_of_settle (settle_of_no_pending hs)]
      rfl
  | cons w back ih =>
    have hsettle := settle_of_no_pending hs
    rw [List.cons_append]
    rcases exists_of_isFlag (hf w List.mem_cons_self) with ⟨flags, hw⟩ | ⟨name, value, hw, hname⟩
    · simp only [parseWords, hw]
      unfold parseShort
      rw [hs', hsettle]
      split <;> rfl
    · simp only [parseWords, hw]
      cases ho : (decode? name).bind Opt.ofName? with
      | none => rfl
      | some o =>
        dsimp only
        rw [takeSetting_withConfig hs hs' (hname o ho)]
        cases ht : s.takeSetting o value with
        | error e => rfl
        | ok t =>
          obtain ⟨hp, -⟩ := takeSetting_flag hs (hname o ho) ht
          have ht' : (t.withConfig c).settle = .ok (t.withConfig c) := settle_of_no_pending hp
          cases o with
          | help | version => rfl
          | config => exact absurd rfl (hname _ ho)
          | dryRun | summary => exact ih (fun v hv => hf v (List.mem_cons_of_mem w hv)) hp ht'

/-- The word of the option that names a config. -/
def configOption : Bytes :=
  encode "--config".toList

theorem ofBytes_configOption : Word.ofBytes configOption = .long (encode Opt.config.name) none := by
  decide +kernel

theorem ofBytes_configOption_equals (c : Bytes) :
    Word.ofBytes (configOption ++ equals :: c) = .long (encode Opt.config.name) (some c) := by
  have hoption : configOption = hyphen :: hyphen :: encode Opt.config.name := by decide +kernel
  have hname : encode Opt.config.name = [0x63, 0x6F, 0x6E, 0x66, 0x69, 0x67] := by decide +kernel
  rw [hoption, hname]
  simp [Word.ofBytes, equals]

theorem ofName?_config : (decode? (encode Opt.config.name)).bind Opt.ofName? = some .config := by
  decide +kernel

/-- A line of flags and the same line with a config named somewhere among them, the name of the
config being a word of its own or the rest of the option's word. A word that looks like an option
is taken for one, so such a name can only be joined to the option. -/
inductive NamesConfig (c : Bytes) : List Bytes → List Bytes → Prop where
  | apart (front back : List Bytes) (hc : Word.ofBytes c = .plain) :
    NamesConfig c (front ++ back) (front ++ configOption :: c :: back)
  | joined (front back : List Bytes) :
    NamesConfig c (front ++ back) (front ++ (configOption ++ equals :: c) :: back)

variable {c : Bytes}

theorem parseWords_config_apart (hs : s.pending = none) (hc : s.accepted.config = none)
    (hw : Word.ofBytes c = .plain) (hne : c ≠ []) :
    ∃ s', s'.settle = .ok (s.withConfig ⟨c⟩) ∧
      ∀ ws, parseWords s (configOption :: c :: ws) = parseWords s' ws := by
  have hset : s.takeSetting .config none = .ok { s with pending := some (.config none) } := by
    simp only [State.takeSetting, settle_of_no_pending hs]
    rfl
  refine ⟨{ s with pending := some (.config (some c)) }, ?_, ?_⟩
  · unfold State.settle State.setConfig State.withConfig Arguments.withConfig
    simp [hs, hc, hne]
  · intro ws
    rw [parseWords, ofBytes_configOption]
    dsimp only
    rw [ofName?_config]
    dsimp only
    rw [hset]
    show parseWords { s with pending := some (.config none) } (c :: ws) = _
    rw [parseWords, hw]

theorem parseWords_config_joined (hs : s.pending = none) (hc : s.accepted.config = none)
    (hne : c ≠ []) (ws : List Bytes) :
    parseWords s ((configOption ++ equals :: c) :: ws) = parseWords (s.withConfig ⟨c⟩) ws := by
  have hset : s.takeSetting .config (some c) = .ok (s.withConfig ⟨c⟩) := by
    simp only [State.takeSetting, settle_of_no_pending hs]
    show s.setConfig c = _
    unfold State.setConfig State.withConfig Arguments.withConfig
    simp [hs, hc, hne]
  rw [parseWords, ofBytes_configOption_equals]
  dsimp only
  rw [ofName?_config]
  dsimp only
  rw [hset]
  rfl

theorem NamesConfig.parseWords_eq (hn : NamesConfig c flags words)
    (hf : ∀ w ∈ flags, isFlag w = true) (hne : c ≠ []) (hr : Trailing rest)
    (hs : s.pending = none) (hc : s.accepted.config = none) :
    parseWords s (words ++ rest) =
      (parseWords s (flags ++ rest)).map (Request.withConfig ⟨c⟩) := by
  obtain ⟨front, back, named, rfl, rfl, hnamed⟩ : ∃ front back named,
      flags = front ++ back ∧ words = front ++ named ++ back ∧
        ∀ t : State, t.pending = none → t.accepted.config = none →
          ∃ t', t'.settle = .ok (t.withConfig ⟨c⟩) ∧
            ∀ ws, parseWords t (named ++ ws) = parseWords t' ws := by
    cases hn with
    | apart front back hw =>
      exact ⟨front, back, [configOption, c], rfl, by simp, fun t ht htc =>
        parseWords_config_apart ht htc hw hne⟩
    | joined front back =>
      exact ⟨front, back, [configOption ++ equals :: c], rfl, by simp, fun t ht htc =>
        ⟨_, settle_of_no_pending ht, parseWords_config_joined ht htc hne⟩⟩
  have hfront : ∀ w ∈ front, isFlag w = true := fun v hv => hf v (List.mem_append_left back hv)
  have hback : ∀ w ∈ back, isFlag w = true := fun v hv => hf v (List.mem_append_right front hv)
  simp only [List.append_assoc]
  rcases parseWords_flags hfront hs with ⟨result, hres, h⟩ | ⟨t, hp, _, htc, h⟩
  · rw [h, h, map_eq_of_no_run rfl rfl hres]
  · obtain ⟨t', ht', hw⟩ := hnamed t hp (htc.trans hc)
    rw [h, h, hw, parseWords_withConfig hback hr hp ht']

/-- Naming a config among the flags of a line changes nothing but the config of a run. -/
theorem NamesConfig.parse_eq (hn : NamesConfig c flags words) (hf : ∀ w ∈ flags, isFlag w = true)
    (hne : c ≠ []) (hr : Trailing rest) :
    parse (words ++ rest) = (parse (flags ++ rest)).map (Request.withConfig ⟨c⟩) :=
  hn.parseWords_eq hf hne hr rfl rfl

/-- A line of flags that runs has neither a root nor a config. -/
theorem parse_flags_run (hf : ∀ w ∈ flags, isFlag w = true) {a : Arguments}
    (h : parse flags = .ok (.run a)) : a.root = none ∧ a.config = none := by
  unfold parse at h
  rw [← List.append_nil flags] at h
  rcases parseWords_flags hf (s := {}) rfl with ⟨result, hr, hw⟩ | ⟨t, hp, hroot, hconfig, hw⟩
  · rw [hw] at h
    exact absurd h (hr a)
  · rw [hw, parseWords_nil, settle_of_no_pending hp] at h
    cases h
    exact ⟨hroot, hconfig⟩

/-- Naming a config between flags changes nothing else, and the flags alone name neither a root nor
a config. -/
theorem parse_config_among_flags (hf : ∀ w ∈ front ++ back, isFlag w = true)
    (hw : Word.ofBytes w = .plain) (hne : w ≠ []) :
    parse (front ++ configOption :: w :: back) =
      (parse (front ++ back)).map (Request.withConfig ⟨w⟩) ∧
    ∀ a, parse (front ++ back) = .ok (.run a) → a.root = none ∧ a.config = none := by
  have hparse := (NamesConfig.apart front back hw).parse_eq hf hne .none
  rw [List.append_nil, List.append_nil] at hparse
  exact ⟨hparse, fun a ha => parse_flags_run hf ha⟩

/-- The same request, but for the root of a run. -/
def Request.withRoot (root : Path) : Request → Request
  | run a => run { a with root := some root }
  | r => r

theorem parseWords_root (hs : s.pending = none) (hroot : s.accepted.root = none) (w : Bytes) :
    parseWords s [optionsEnd, w] =
      if w = [] then .error (.missingValue .root)
      else .ok (.run { s.accepted with root := some ⟨w⟩ }) := by
  have hno : s.hasRoot = false := by simp [State.hasRoot, hs, hroot]
  rw [parseWords_optionsEnd, parseArguments]
  simp only [State.takeArgument, hno, settle_of_no_pending hs]
  show parseArguments { s with pending := some (.root w) } [] = _
  rw [parseArguments_nil, parseWords_nil]
  unfold State.settle
  dsimp only
  split <;> rfl

/-- A line of flags that runs with a root behind them has that root, which is not empty. -/
theorem parse_root_run (hf : ∀ w ∈ flags, isFlag w = true) {a : Arguments}
    (h : parse (flags ++ [optionsEnd, w]) = .ok (.run a)) : a.root = some ⟨w⟩ := by
  unfold parse at h
  rcases parseWords_flags hf (s := {}) rfl with ⟨result, hr, hw⟩ | ⟨t, hp, hroot, _, hw⟩
  · rw [hw] at h
    exact absurd h (hr a)
  · rw [hw, parseWords_root hp hroot] at h
    split at h
    · nomatch h
    · cases h
      rfl

/-- A root behind a line of flags changes nothing but the root of a run. -/
theorem parse_root (hf : ∀ w ∈ flags, isFlag w = true) (hne : w ≠ []) :
    parse (flags ++ [optionsEnd, w]) = (parse flags).map (Request.withRoot ⟨w⟩) := by
  have hflags : parseWords {} (flags ++ []) = parseWords {} flags := by rw [List.append_nil]
  unfold parse
  rw [← hflags]
  rcases parseWords_flags hf (s := {}) rfl with ⟨result, hr, hw⟩ | ⟨t, hp, hroot, _, hw⟩
  · rw [hw, hw, map_eq_of_no_run rfl rfl hr]
  · rw [hw, hw, parseWords_root hp hroot, if_neg hne, parseWords_nil, settle_of_no_pending hp]
    rfl

end ImportMigration.CommandLine
