import ImportMigration.Proofs.ConfigRoot
import Mathlib.Data.List.Perm.Basic

/-!
Command lines as they are written: options with their values and an argument, in any order, and
arguments behind a `--`. Whatever the order, such a line is read as the arguments that it was
written for, and one that gives anything twice is refused (`line_written`).

What the words up to some point have given is the same whether the last value has been looked at or
not (`State.given`), so each item adds to it by itself (`Arguments.give`), and two items add the
same in either order.
-/

namespace ImportMigration.CommandLine

open Utf8

/-- What can stand before a `--`. The value of `--config` is a word of its own or the rest of the
option's word. -/
inductive Item where
  | dryRun
  | summary
  | config (apart : Bool) (value : Bytes)
  | root (value : Bytes)
  deriving DecidableEq

/-- The word is a value wherever one can stand: it does not begin with a hyphen, or is a hyphen
alone. -/
def StandsAlone (w : Bytes) : Prop :=
  w.head? ≠ some hyphen ∨ w = [hyphen]

instance (w : Bytes) : Decidable (StandsAlone w) :=
  inferInstanceAs (Decidable (_ ∨ _))

def dryRunOption : Bytes :=
  encode "--dry-run".toList

namespace Item

def words : Item → List Bytes
  | dryRun => [dryRunOption]
  | summary => [summaryOption]
  | config true value => [configOption, value]
  | config false value => [configOption ++ equals :: value]
  | root value => [value]

/-- What the item gives. -/
def parameter : Item → Parameter
  | dryRun => .dryRun
  | summary => .summary
  | config _ _ => .config
  | root _ => .root

/-- Whether the value of the item is empty. -/
def isEmpty : Item → Bool
  | config _ value => value.isEmpty
  | root value => value.isEmpty
  | _ => false

/-- A value that is a word of its own looks like no option. -/
def IsProper : Item → Prop
  | config true value => StandsAlone value
  | root value => StandsAlone value
  | _ => True

end Item

/-- The words of a line without a `--`. -/
def wordsOf (items : List Item) : List Bytes :=
  items.flatMap Item.words

/-- What follows the items of a line: nothing, or arguments behind a `--`. -/
def trailing (arguments : List Bytes) : List Bytes :=
  if arguments = [] then [] else optionsEnd :: arguments

namespace Arguments

/-- The options that give the arguments, with the config as a word of its own or not. -/
def options (a : Arguments) (apart : Bool) : List Item :=
  (if a.dryRun then [.dryRun] else []) ++ (if a.summary then [.summary] else []) ++
    a.config.toList.map (.config apart ·.bytes)

/-- The arguments name no empty path. -/
def Named (a : Arguments) : Prop :=
  (∀ root ∈ a.root, root.bytes ≠ []) ∧ ∀ config ∈ a.config, config.bytes ≠ []

/-- Whether something has been given. -/
def has (a : Arguments) : Parameter → Bool
  | .root => a.root.isSome
  | .config => a.config.isSome
  | .dryRun => a.dryRun
  | .summary => a.summary

def put (a : Arguments) : Item → Arguments
  | .dryRun => { a with dryRun := true }
  | .summary => { a with summary := true }
  | .config _ value => { a with config := some ⟨value⟩ }
  | .root value => { a with root := some ⟨value⟩ }

/-- The arguments with what an item gives, which must not have been given before and must not be
empty. -/
def give (a : Arguments) (i : Item) : Option Arguments :=
  if a.has i.parameter || i.isEmpty then none else some (a.put i)

end Arguments

/-- A line for the arguments. The options stand in any order, with the config in one word or in two;
the root stands anywhere among them, or last behind a `--`. -/
inductive Written (a : Arguments) : List Bytes → Prop where
  | amid (apart : Bool) (items : List Item)
    (hconfig : apart → ∀ config ∈ a.config, StandsAlone config.bytes)
    (hroot : ∀ root ∈ a.root, StandsAlone root.bytes)
    (h : items.Perm (a.root.toList.map (.root ·.bytes) ++ a.options apart)) :
    Written a (wordsOf items)
  | last (apart : Bool) (items : List Item) (root : Path)
    (hconfig : apart → ∀ config ∈ a.config, StandsAlone config.bytes) (hroot : a.root = some root)
    (h : items.Perm (a.options apart)) :
    Written a (wordsOf items ++ trailing [root.bytes])

variable {s t : State} {a b : Arguments} {i j : Item} {items : List Item} {w : Bytes}

theorem ofBytes_eq_plain_iff : Word.ofBytes w = .plain ↔ StandsAlone w := by
  unfold Word.ofBytes StandsAlone
  grind

theorem give_dryRun (a : Arguments) :
    a.give .dryRun = if a.dryRun then none else some { a with dryRun := true } := by
  simp [Arguments.give, Arguments.has, Arguments.put, Item.parameter, Item.isEmpty]

theorem give_summary (a : Arguments) :
    a.give .summary = if a.summary then none else some { a with summary := true } := by
  simp [Arguments.give, Arguments.has, Arguments.put, Item.parameter, Item.isEmpty]

theorem give_config (a : Arguments) (apart : Bool) (value : Bytes) :
    a.give (.config apart value) =
      if a.config.isSome then none
      else if value = [] then none
      else some { a with config := some ⟨value⟩ } := by
  cases h : a.config <;>
    simp [Arguments.give, Arguments.has, Arguments.put, Item.parameter, Item.isEmpty, h]

theorem give_root (a : Arguments) (value : Bytes) :
    a.give (.root value) =
      if a.root.isSome then none
      else if value = [] then none
      else some { a with root := some ⟨value⟩ } := by
  cases h : a.root <;>
    simp [Arguments.give, Arguments.has, Arguments.put, Item.parameter, Item.isEmpty, h]

/-- What the words that led to a state have given. It is missing if something is wrong with it. -/
def State.given (s : State) : Option Arguments :=
  s.settle.toOption.map State.accepted

/-- What has been given where a word may have been refused. -/
def given (result : Except UsageError State) : Option Arguments :=
  result.toOption.bind State.given

theorem given_of_settle (h : s.settle = .ok t) : s.given = some t.accepted := by
  rw [State.given, h]
  rfl

theorem given_of_settle_error {e : UsageError} (h : s.settle = .error e) : s.given = none := by
  rw [State.given, h]
  rfl

@[simp] theorem given_ok (t : State) : given (.ok t) = t.given :=
  rfl

@[simp] theorem given_error (e : UsageError) : given (.error e) = none :=
  rfl

@[simp] theorem given_accepted (a : Arguments) : State.given { accepted := a } = some a :=
  rfl

theorem given_pending_root (a : Arguments) (value : Bytes) :
    State.given { accepted := a, pending := some (.root value) } =
      if value = [] then none else some { a with root := some ⟨value⟩ } := by
  unfold State.given State.settle
  dsimp only
  split <;> rfl

theorem given_setConfig (t : State) (value : Bytes) (apart : Bool) :
    given (t.setConfig value) = t.accepted.give (.config apart value) := by
  rw [give_config]
  unfold State.setConfig
  split
  · rfl
  · split <;> rfl

theorem given_pending_config (a : Arguments) (value : Bytes) (apart : Bool) :
    State.given { accepted := a, pending := some (.config (some value)) } =
      a.give (.config apart value) := by
  rw [give_config]
  unfold State.given State.settle State.setConfig
  dsimp only
  split
  · rfl
  · split <;> rfl

/-- What an item's words lead to: a state that has been given what the item gives as well, or an
error. No option waits for its value there. -/
structure Leads (s : State) (i : Item) (result : Except UsageError State) : Prop where
  parseWords_eq : ∀ ws, parseWords s (i.words ++ ws) = result >>= (parseWords · ws)
  given_eq : given result = s.given.bind (·.give i)
  complete : ∀ t, result = .ok t → t.pending ≠ some (.config none)

/-- A step that looks at the last value before it does anything of its own. -/
theorem leads_of_settle {f : State → Except UsageError State}
    (hwords : ∀ ws, parseWords s (i.words ++ ws) = (s.settle >>= f) >>= (parseWords · ws))
    (hgiven : ∀ t, given (f t) = t.accepted.give i)
    (hcomplete : ∀ t u, f t = .ok u → u.pending ≠ some (.config none)) :
    Leads s i (s.settle >>= f) := by
  refine ⟨hwords, ?_, fun u hu => ?_⟩
  · cases hs : s.settle with
    | error e =>
      rw [given_of_settle_error hs]
      rfl
    | ok t =>
      rw [given_of_settle hs]
      exact hgiven t
  · cases hs : s.settle with
    | error e =>
      rw [hs] at hu
      nomatch hu
    | ok t =>
      rw [hs] at hu
      exact hcomplete t u hu

theorem ofBytes_dryRunOption : Word.ofBytes dryRunOption = .long (encode Opt.dryRun.name) none := by
  decide +kernel

theorem ofBytes_summaryOption :
    Word.ofBytes summaryOption = .long (encode Opt.summary.name) none := by
  decide +kernel

theorem ofName?_name (o : Opt) : (decode? (encode o.name)).bind Opt.ofName? = some o := by
  cases o <;> decide +kernel

theorem exists_leads_dryRun : ∃ result, Leads s .dryRun result := by
  refine ⟨_, leads_of_settle (f := fun t => if t.accepted.dryRun then .error (.repeated .dryRun)
    else .ok { accepted := { t.accepted with dryRun := true } }) (fun ws => ?_) (fun t => ?_) ?_⟩
  · rw [Item.words, List.singleton_append, parseWords, ofBytes_dryRunOption]
    dsimp only
    rw [ofName?_name]
    dsimp only
    cases hs : s.settle with
    | error e => simp only [State.takeSetting, hs]; rfl
    | ok t => rw [takeSetting_dryRun hs]; rfl
  · rw [give_dryRun]
    split <;> rfl
  · intro t u hu
    rw [← eq_of_once hu]
    simp

theorem exists_leads_summary : ∃ result, Leads s .summary result := by
  refine ⟨_, leads_of_settle (f := fun t => if t.accepted.summary then .error (.repeated .summary)
    else .ok { accepted := { t.accepted with summary := true } }) (fun ws => ?_) (fun t => ?_) ?_⟩
  · rw [Item.words, List.singleton_append, parseWords, ofBytes_summaryOption]
    dsimp only
    rw [ofName?_name]
    dsimp only
    cases hs : s.settle with
    | error e => simp only [State.takeSetting, hs]; rfl
    | ok t => rw [takeSetting_summary hs]; rfl
  · rw [give_summary]
    split <;> rfl
  · intro t u hu
    rw [← eq_of_once hu]
    simp

theorem exists_leads_config {apart : Bool} {value : Bytes} (hvalue : apart → StandsAlone value) :
    ∃ result, Leads s (.config apart value) result := by
  cases apart with
  | false =>
    refine ⟨_, leads_of_settle (f := (·.setConfig value)) (fun ws => ?_)
      (given_setConfig · value false) ?_⟩
    · rw [Item.words, List.singleton_append, parseWords, ofBytes_configOption_equals]
      dsimp only
      rw [ofName?_config]
      rfl
    · intro t u hu
      unfold State.setConfig at hu
      grind
  | true =>
    refine ⟨_, leads_of_settle
      (f := fun t => .ok { t with pending := some (.config (some value)) }) (fun ws => ?_)
      (given_pending_config ·.accepted value true) ?_⟩
    · rw [Item.words, List.cons_append, List.singleton_append, parseWords, ofBytes_configOption]
      dsimp only
      rw [ofName?_config]
      simp only [State.takeSetting]
      cases s.settle with
      | error e => rfl
      | ok t =>
        show parseWords { t with pending := some (.config none) } (value :: ws) = _
        rw [parseWords, ofBytes_eq_plain_iff.mpr (hvalue rfl)]
        rfl
    · intro t u hu
      rw [← Except.ok.inj hu]
      simp

theorem takeArgument_eq : s.takeArgument w =
    if s.hasRoot then .error (.unexpectedArgument (lossy w))
    else s.settle >>= fun t => .ok { t with pending := some (.root w) } := by
  unfold State.takeArgument
  cases s.hasRoot <;> rfl

theorem given_takeArgument : given (s.takeArgument w) = s.given.bind (·.give (.root w)) := by
  rw [takeArgument_eq]
  cases hs : s.settle with
  | error e =>
    rw [given_of_settle_error hs]
    split <;> rfl
  | ok t =>
    rw [given_of_settle hs, hasRoot_of_settle hs, Option.bind_some, give_root]
    split
    · rfl
    · exact given_pending_root t.accepted w

theorem leads_root (hw : StandsAlone w) (hs : s.pending ≠ some (.config none)) :
    Leads s (.root w) (s.takeArgument w) := by
  refine ⟨fun ws => ?_, given_takeArgument, fun t ht => ?_⟩
  · rw [Item.words, List.singleton_append, parseWords, ofBytes_eq_plain_iff.mpr hw]
    dsimp only
    split
    · contradiction
    · rfl
  · rw [takeArgument_eq] at ht
    split at ht
    · contradiction
    · cases hsettle : s.settle with
      | error e =>
        rw [hsettle] at ht
        contradiction
      | ok u =>
        rw [hsettle] at ht
        rw [← Except.ok.inj ht]
        simp

theorem exists_leads (hi : i.IsProper) (hs : s.pending ≠ some (.config none)) :
    ∃ result, Leads s i result := by
  cases i with
  | dryRun => exact exists_leads_dryRun
  | summary => exact exists_leads_summary
  | config apart value =>
    refine exists_leads_config fun h => ?_
    subst h
    exact hi
  | root value => exact ⟨_, leads_root hi hs⟩

/-- What the items give, one after the other, on top of what has been given before. -/
def gather (a : Option Arguments) (items : List Item) : Option Arguments :=
  items.foldl (fun a i => a.bind (·.give i)) a

theorem gather_none (items : List Item) : gather none items = none := by
  induction items with
  | nil => rfl
  | cons i items ih => exact ih

theorem parseWords_items (hi : ∀ i ∈ items, i.IsProper) (hs : s.pending ≠ some (.config none)) :
    ∃ result, (∀ ws, parseWords s (wordsOf items ++ ws) = result >>= (parseWords · ws)) ∧
      given result = gather s.given items := by
  induction items generalizing s with
  | nil => exact ⟨.ok s, fun ws => rfl, rfl⟩
  | cons i items ih =>
    obtain ⟨hfirst, hrest⟩ := List.forall_mem_cons.mp hi
    obtain ⟨result, hwords, hgiven, hcomplete⟩ := exists_leads hfirst hs
    have hgather : gather s.given (i :: items) = gather (given result) items := by
      rw [hgiven]
      rfl
    simp only [wordsOf, List.flatMap_cons, List.append_assoc, hwords, hgather]
    cases result with
    | error e => exact ⟨.error e, fun ws => rfl, (gather_none items).symm⟩
    | ok t => exact ih hrest (hcomplete t rfl)

theorem toOption_parseWords_nil : (parseWords s []).toOption = s.given.map .run := by
  rw [parseWords_nil, State.given]
  cases s.settle <;> rfl

theorem toOption_parseArguments (ws : List Bytes) :
    (parseArguments s ws).toOption = (gather s.given (ws.map .root)).map .run := by
  induction ws generalizing s with
  | nil =>
    rw [parseArguments_nil]
    exact toOption_parseWords_nil
  | cons w ws ih =>
    rw [parseArguments, List.map_cons]
    show _ = (gather (s.given.bind (·.give (.root w))) (ws.map .root)).map _
    rw [← given_takeArgument]
    cases s.takeArgument w with
    | error e =>
      rw [given_error, gather_none]
      rfl
    | ok t => exact ih

/-- A line comes to what its items and its arguments give together. -/
theorem toOption_parse (hi : ∀ i ∈ items, i.IsProper) (arguments : List Bytes) :
    (parse (wordsOf items ++ trailing arguments)).toOption =
      (gather (some {}) (items ++ arguments.map .root)).map .run := by
  obtain ⟨result, hwords, hgiven⟩ := parseWords_items (s := {}) hi nofun
  have hgather : gather (some {}) (items ++ arguments.map .root) =
      gather (given result) (arguments.map .root) := by
    rw [hgiven, gather, List.foldl_append]
    rfl
  unfold parse
  rw [hwords, hgather]
  cases result with
  | error e =>
    rw [given_error, gather_none]
    rfl
  | ok t =>
    show (parseWords t (trailing arguments)).toOption = _
    unfold trailing
    split
    · rename_i h
      rw [toOption_parseWords_nil, h]
      rfl
    · rw [parseWords_optionsEnd]
      exact toOption_parseArguments arguments

/-- An item gives its own parameter and leaves the others as they are. -/
theorem has_put (a : Arguments) (i : Item) (p : Parameter) :
    (a.put i).has p = (a.has p || p == i.parameter) := by
  cases i <;> cases p <;> simp [Arguments.put, Arguments.has, Item.parameter]

theorem put_comm (h : i.parameter ≠ j.parameter) (a : Arguments) :
    (a.put i).put j = (a.put j).put i := by
  cases i <;> cases j <;> first | rfl | contradiction

theorem give_eq_some_iff : a.give i = some b ↔
    (a.has i.parameter || i.isEmpty) = false ∧ a.put i = b := by
  unfold Arguments.give
  cases a.has i.parameter || i.isEmpty <;> simp

theorem has_of_give (h : a.give i = some b) (p : Parameter) :
    b.has p = (a.has p || p == i.parameter) := by
  rw [← (give_eq_some_iff.mp h).2, has_put]

theorem give_of_has (h : a.has i.parameter) : a.give i = none := by
  rw [Arguments.give, h, Bool.true_or, if_pos rfl]

/-- Of two items it does not matter which comes first. -/
theorem give_comm (a : Arguments) (i j : Item) :
    (a.give i).bind (·.give j) = (a.give j).bind (·.give i) := by
  by_cases h : i.parameter = j.parameter
  · have hnone : ∀ {i j : Item}, i.parameter = j.parameter →
        (a.give i).bind (·.give j) = none := by
      intro i j h
      rw [Option.bind_eq_none_iff]
      exact fun b hb => give_of_has (by simp [has_of_give hb, h])
    rw [hnone h, hnone h.symm]
  · have hi : (a.put i).has j.parameter = a.has j.parameter := by simp [has_put, Ne.symm h]
    have hj : (a.put j).has i.parameter = a.has i.parameter := by simp [has_put, h]
    unfold Arguments.give
    cases hgi : a.has i.parameter || i.isEmpty <;>
      cases hgj : a.has j.parameter || j.isEmpty <;>
        simp only [hi, hj, hgi, hgj, put_comm h a, Bool.false_eq_true, if_true, if_false,
          Option.bind_some, Option.bind_none]

theorem gather_perm {items' : List Item} (h : items.Perm items') (a : Option Arguments) :
    gather a items = gather a items' := by
  refine h.foldl_eq' (fun i _ j _ a => ?_) a
  cases a with
  | none => rfl
  | some a => exact give_comm a i j

/-- Nothing is given twice, and nothing again that was given before. -/
theorem once_of_gather (h : gather (some a) items = some b) :
    (items.map Item.parameter).Nodup ∧ ∀ i ∈ items, a.has i.parameter = false := by
  induction items generalizing a with
  | nil => exact ⟨.nil, nofun⟩
  | cons i items ih =>
    change gather (a.give i) items = some b at h
    cases hi : a.give i with
    | none =>
      rw [hi, gather_none] at h
      nomatch h
    | some c =>
      rw [hi] at h
      obtain ⟨hnodup, hnew⟩ := ih h
      have hhas : ∀ j ∈ items, a.has j.parameter = false ∧ j.parameter ≠ i.parameter := by
        intro j hj
        simpa [has_of_give hi] using hnew j hj
      rw [List.map_cons, List.nodup_cons, List.forall_mem_cons]
      refine ⟨⟨?_, hnodup⟩, (Bool.or_eq_false_iff.mp (give_eq_some_iff.mp hi).1).1,
        fun j hj => (hhas j hj).1⟩
      intro hmem
      obtain ⟨j, hj, heq⟩ := List.mem_map.mp hmem
      exact (hhas j hj).2 heq

/-- The items that the arguments are written with give the arguments. -/
theorem gather_written (h : a.Named) (apart : Bool) :
    gather (some {}) (a.root.toList.map (.root ·.bytes) ++ a.options apart) = some a := by
  obtain ⟨root, config, dryRun, summary⟩ := a
  obtain ⟨hroot, hconfig⟩ := h
  have hoptions : ∀ b : Arguments, b.config = none → b.dryRun = false → b.summary = false →
      gather (some b) (Arguments.options ⟨root, config, dryRun, summary⟩ apart) =
        some ⟨b.root, config, dryRun, summary⟩ := by
    rintro ⟨_, _, _, _⟩ rfl rfl rfl
    cases config <;> cases dryRun <;> cases summary <;>
      simp_all [gather, Arguments.options, give_dryRun, give_summary, give_config]
  cases root with
  | none => exact hoptions {} rfl rfl rfl
  | some root =>
    have hgive : Arguments.give {} (.root root.bytes) = some { root := some root } := by
      rw [give_root]
      simpa using hroot
    show gather (Arguments.give {} (.root root.bytes)) _ = _
    rw [hgive]
    exact hoptions { root := some root } rfl rfl rfl

theorem isProper_options {apart : Bool}
    (h : apart → ∀ config ∈ a.config, StandsAlone config.bytes) :
    ∀ i ∈ a.options apart, i.IsProper := by
  intro i hi
  simp only [Arguments.options, List.mem_append, List.mem_map, Option.mem_toList] at hi
  rcases hi with (hi | hi) | ⟨config, hc, rfl⟩
  · split at hi <;> simp_all [Item.IsProper]
  · split at hi <;> simp_all [Item.IsProper]
  · cases apart with
    | false => trivial
    | true => exact h rfl config hc

theorem parse_of_toOption {words : List Bytes} {r : Request}
    (h : (parse words).toOption = some r) : parse words = .ok r := by
  cases hp : parse words with
  | error e =>
    rw [hp] at h
    nomatch h
  | ok r' =>
    rw [hp] at h
    exact congrArg Except.ok (Option.some.inj h)

theorem Written.parse_eq {words : List Bytes} (h : Written a words) (ha : a.Named) :
    parse words = .ok (.run a) := by
  apply parse_of_toOption
  cases h with
  | amid apart items hconfig hroot h =>
    have hproper : ∀ i ∈ items, i.IsProper := by
      intro i hi
      rcases List.mem_append.mp (h.mem_iff.mp hi) with hi | hi
      · obtain ⟨root, hr, rfl⟩ := List.mem_map.mp hi
        exact hroot root (Option.mem_toList.mp hr)
      · exact isProper_options hconfig i hi
    have hparse := toOption_parse hproper []
    rw [trailing, if_pos rfl, List.append_nil, List.map_nil, List.append_nil, gather_perm h,
      gather_written ha] at hparse
    exact hparse
  | last apart items root hconfig hroot h =>
    have hproper : ∀ i ∈ items, i.IsProper := fun i hi =>
      isProper_options hconfig i (h.mem_iff.mp hi)
    have hperm : (items ++ [root.bytes].map Item.root).Perm
        (a.root.toList.map (.root ·.bytes) ++ a.options apart) := by
      rw [hroot]
      exact (h.append_right _).trans List.perm_append_comm
    rw [toOption_parse hproper, gather_perm hperm, gather_written ha]
    rfl

theorem run_of_repeated (hi : ∀ i ∈ items, i.IsProper) {arguments : List Bytes}
    (h : ¬ (items.map Item.parameter ++ arguments.map fun _ => Parameter.root).Nodup)
    (s : Session) : ∃ e, runFrom s (wordsOf items ++ trailing arguments) = (.usage e, s) := by
  have hparse := toOption_parse hi arguments
  cases hg : gather (some {}) (items ++ arguments.map .root) with
  | some a =>
    have hnodup := (once_of_gather hg).1
    rw [List.map_append, List.map_map] at hnodup
    exact absurd hnodup h
  | none =>
    rw [hg] at hparse
    cases hp : parse (wordsOf items ++ trailing arguments) with
    | ok r =>
      rw [hp] at hparse
      nomatch hparse
    | error e =>
      refine ⟨e, ?_⟩
      unfold runFrom run
      rw [hp]
      rfl

/-- A line that is written for some arguments is read as them, in whatever order it has them; and a
line that gives an option twice, or more than one argument, is wrong and changes nothing. -/
theorem line_written :
    (∀ (a : Arguments) (words : List Bytes), a.Named → Written a words →
      parse words = .ok (.run a)) ∧
    ∀ (items : List Item) (arguments : List Bytes) (s : Session), (∀ i ∈ items, i.IsProper) →
      ¬ (items.map Item.parameter ++ arguments.map fun _ => Parameter.root).Nodup →
        ∃ e, runFrom s (wordsOf items ++ trailing arguments) = (.usage e, s) :=
  ⟨fun _ _ ha h => h.parse_eq ha, fun _ _ s hi h => run_of_repeated hi h s⟩

def helpOption : Bytes :=
  encode "--help".toList

/-- Values that look like options are safe in a word with their option and behind a `--`, and so is
a hyphen anywhere. The third line gives two configs, one of them empty. -/
theorem hyphened_line_written :
    parse [summaryOption, [hyphen], configOption ++ equals :: helpOption, dryRunOption] =
        .ok (.run ⟨some ⟨[hyphen]⟩, some ⟨helpOption⟩, true, true⟩) ∧
      parse [dryRunOption, configOption, [hyphen], optionsEnd, helpOption] =
        .ok (.run ⟨some ⟨helpOption⟩, some ⟨[hyphen]⟩, true, false⟩) ∧
      ∃ e, runFrom twoConfigs
        [configOption ++ [equals], dryRunOption, configOption, configName.bytes, optionsEnd,
          Migration.sourceRoot.bytes] = (.usage e, twoConfigs) := by
  obtain ⟨hread, hrefused⟩ := line_written
  have hhelp : helpOption ≠ [] := by decide +kernel
  have hname : StandsAlone configName.bytes := by decide +kernel
  refine ⟨hread ⟨some ⟨[hyphen]⟩, some ⟨helpOption⟩, true, true⟩ _ ?_
      (.amid false [.summary, .root [hyphen], .config false helpOption, .dryRun] nofun ?_ ?_),
    hread ⟨some ⟨helpOption⟩, some ⟨[hyphen]⟩, true, false⟩ _ ?_
      (.last true [.dryRun, .config true [hyphen]] ⟨helpOption⟩ ?_ rfl ?_),
    hrefused [.config false [], .dryRun, .config true configName.bytes]
      [Migration.sourceRoot.bytes] twoConfigs ?_ (by decide)⟩
  · simpa [Arguments.Named] using hhelp
  · simp [StandsAlone]
  · decide +kernel
  · simpa [Arguments.Named] using hhelp
  · simp [StandsAlone]
  · decide +kernel
  · simpa [Item.IsProper] using hname

end ImportMigration.CommandLine
