import ImportMigration.CommandLine.Arguments
import ImportMigration.Proofs.Utf8Coding

/-!
When a command line is answered with the help or the version. Only the words before the first one
that asks count: they must be in order, and what follows may be anything.
-/

namespace ImportMigration.CommandLine

open Utf8

variable {s : State} {w : Bytes} {ws words : List Bytes} {r : Request}

/-- The word asks for the help or for the version. A flag may have anything after it. -/
inductive Asks : Bytes → Request → Prop where
  | help : Asks (encode "--help".toList) .help
  | helpFlag (more : Bytes) : Asks (encode "-h".toList ++ more) .help
  | version : Asks (encode "--version".toList) .version
  | versionFlag (more : Bytes) : Asks (encode "-V".toList ++ more) .version

theorem Asks.ne_run {a : Arguments} (h : Asks w r) : r ≠ .run a := by
  cases h <;> nofun

/-- The word that ends the options. -/
def optionsEnd : Bytes :=
  encode "--".toList

/-- What an option asks for, where that is not a run. -/
def Opt.request? : Opt → Option Request
  | help => some .help
  | version => some .version
  | _ => none

def flagRequest? (c : Char) : Option Request :=
  if c = 'h' then some .help else if c = 'V' then some .version else none

/-- What a word asks for, where that is not a run. -/
def asked? (w : Bytes) : Option Request :=
  match Word.ofBytes w with
  | .long name none => ((decode? name).bind Opt.ofName?).bind Opt.request?
  | .short flags => (units flags).head?.join.bind flagRequest?
  | _ => none

theorem Word.eq_of_ofBytes_short {flags : Bytes} (h : Word.ofBytes w = .short flags) :
    w = hyphen :: flags := by
  unfold Word.ofBytes at h
  grind

theorem Word.eq_of_ofBytes_long {name : Bytes} (h : Word.ofBytes w = .long name none) :
    w = hyphen :: hyphen :: name := by
  unfold Word.ofBytes at h
  grind

theorem Word.ofBytes_eq_endOfOptions_iff : Word.ofBytes w = .endOfOptions ↔ w = optionsEnd := by
  have he : optionsEnd = [hyphen, hyphen] := by decide +kernel
  rw [he]
  unfold Word.ofBytes
  grind

theorem Opt.eq_encode_of_ofName? {name : Bytes} {o : Opt}
    (h : (decode? name).bind Opt.ofName? = some o) : name = encode o.name := by
  obtain ⟨t, ht, ho⟩ := Option.bind_eq_some_iff.mp h
  unfold Opt.ofName? at ho
  have hname := List.find?_some ho
  rw [decode?_eq_some_iff.mp ht, eq_of_beq hname]

theorem append_of_head?_units {c : Char} (h : (units w).head? = some (some c)) :
    ∃ more, w = encode [c] ++ more := by
  cases w with
  | nil => simp [units] at h
  | cons b t =>
    rw [units, List.head?_cons, Option.some.injEq] at h
    refine ⟨(unit b t).2, ?_⟩
    rw [append_of_unit (Prod.ext h rfl)]
    simp [encode]

theorem head?_units_of_append {b : UInt8} {t more : Bytes} {c : Char}
    (h : b :: t = encode [c] ++ more) : (units (b :: t)).head? = some (some c) := by
  have hb : b :: t = String.utf8EncodeChar c ++ more := by simpa [encode] using h
  rw [units, unit_of_append hb]
  rfl

/-- A word of flags that begins with the given one. -/
theorem asked?_flag {b : UInt8} {c : Char} (hc : encode [c] = [b]) (hb : b ≠ hyphen)
    (more : Bytes) : asked? (hyphen :: b :: more) = flagRequest? c := by
  have hw : Word.ofBytes (hyphen :: b :: more) = .short (b :: more) := by
    simp [Word.ofBytes, hb]
  have hh : (units (b :: more)).head? = some (some c) :=
    head?_units_of_append (by rw [hc, List.singleton_append])
  unfold asked?
  rw [hw]
  dsimp only
  rw [hh]
  rfl

theorem asked?_eq_some_iff : asked? w = some r ↔ Asks w r := by
  constructor
  · intro h
    unfold asked? at h
    split at h
    · rename_i name hw
      obtain ⟨o, ho, hr⟩ := Option.bind_eq_some_iff.mp h
      rw [Word.eq_of_ofBytes_long hw, Opt.eq_encode_of_ofName? ho]
      cases o <;> cases hr
      · exact .help
      · exact .version
    · rename_i flags hw
      obtain ⟨c, hc, hr⟩ := Option.bind_eq_some_iff.mp h
      obtain ⟨more, hm⟩ := append_of_head?_units (Option.join_eq_some_iff.mp hc)
      rw [Word.eq_of_ofBytes_short hw, hm]
      unfold flagRequest? at hr
      split at hr
      · rename_i hh
        obtain rfl := Option.some.inj hr
        exact hh ▸ .helpFlag more
      · split at hr
        · rename_i hv
          obtain rfl := Option.some.inj hr
          exact hv ▸ .versionFlag more
        · nomatch hr
    · nomatch h
  · rintro (_ | more | _ | more)
    · decide +kernel
    · exact asked?_flag (c := 'h') (by decide +kernel) (by decide) more
    · decide +kernel
    · exact asked?_flag (c := 'V') (by decide +kernel) (by decide) more

theorem map_settle_eq_ok_iff {f : State → Request} :
    s.settle.map f = .ok r ↔ ∃ s', s.settle = .ok s' ∧ f s' = r := by
  cases h : s.settle with
  | error e => simp [Except.map]
  | ok s' => simp [Except.map]

theorem parseWords_nil : parseWords s [] = s.settle.map fun s' => .run s'.accepted := by
  unfold parseWords
  cases s.settle <;> rfl

theorem parseArguments_nil : parseArguments s [] = parseWords s [] := by
  rw [parseArguments, parseWords]

theorem parseArguments_eq_run (h : parseArguments s words = .ok r) : ∃ a, r = .run a := by
  induction words generalizing s with
  | nil =>
    rw [parseArguments_nil, parseWords_nil, map_settle_eq_ok_iff] at h
    obtain ⟨s', _, rfl⟩ := h
    exact ⟨_, rfl⟩
  | cons w words ih =>
    unfold parseArguments at h
    cases hs : s.takeArgument w with
    | error e => rw [hs] at h; nomatch h
    | ok s' =>
      rw [hs] at h
      exact ih h

/-- A word that asks is answered, whatever follows it. -/
theorem parseWords_of_asked (h : asked? w = some r) :
    parseWords s (w :: ws) = s.settle.map fun _ => r := by
  unfold asked? at h
  unfold parseWords
  split at h
  · rename_i name hw
    obtain ⟨o, ho, hr⟩ := Option.bind_eq_some_iff.mp h
    rw [hw]
    dsimp only
    rw [ho]
    cases o <;> cases hr <;> rfl
  · rename_i flags hw
    obtain ⟨c, hc, hr⟩ := Option.bind_eq_some_iff.mp h
    rw [hw]
    dsimp only
    unfold parseShort
    rw [Option.join_eq_some_iff.mp hc]
    unfold flagRequest? at hr
    grind
  · nomatch h

theorem parseShort_of_no_request {flags : Bytes}
    (h : (units flags).head?.join.bind flagRequest? = none) :
    ∃ e, parseShort s flags = .error e := by
  unfold parseShort
  split
  · rename_i hc
    rw [hc] at h
    nomatch h
  · rename_i hc
    rw [hc] at h
    nomatch h
  · exact ⟨_, rfl⟩
  · exact ⟨_, rfl⟩

/-- Another word is wrong, whatever follows it, or it is taken, unless it ends the options. -/
theorem parseWords_of_not_asked (h : asked? w = none) (hw : w ≠ optionsEnd) :
    (∃ e, ∀ ws, parseWords s (w :: ws) = .error e) ∨
      ∃ s', ∀ ws, parseWords s (w :: ws) = parseWords s' ws := by
  have hend : Word.ofBytes w ≠ .endOfOptions := mt Word.ofBytes_eq_endOfOptions_iff.mp hw
  unfold asked? at h
  simp only [parseWords]
  cases hword : Word.ofBytes w with
  | endOfOptions => exact absurd hword hend
  | long name value =>
    dsimp only
    cases ho : (decode? name).bind Opt.ofName? with
    | none => exact .inl ⟨_, fun _ => rfl⟩
    | some o =>
      dsimp only
      cases hs : s.takeSetting o value with
      | error e => exact .inl ⟨e, fun _ => rfl⟩
      | ok s' =>
        refine .inr ⟨s', fun ws => ?_⟩
        -- A value makes an error of an option that asks.
        cases o with
        | help | version =>
          cases value with
          | none => simp [hword, ho, Opt.request?] at h
          | some value => contradiction
        | config | dryRun | summary => rfl
  | short flags =>
    left
    dsimp only
    rw [hword] at h
    dsimp only at h
    obtain ⟨e, he⟩ := parseShort_of_no_request (s := s) h
    exact ⟨e, fun _ => he⟩
  | plain =>
    dsimp only
    split
    · exact .inr ⟨_, fun _ => rfl⟩
    · cases hs : s.takeArgument w with
      | error e => exact .inl ⟨e, fun _ => rfl⟩
      | ok s' => exact .inr ⟨s', fun _ => rfl⟩

theorem parseWords_optionsEnd : parseWords s (optionsEnd :: ws) = parseArguments s ws := by
  have h : Word.ofBytes optionsEnd = .endOfOptions := Word.ofBytes_eq_endOfOptions_iff.mpr rfl
  rw [parseWords, h]

/-- A word of the line asks for something, and the words before it are in order: as a line of their
own they would make a run, and none of them ends the options. -/
def AsksInTime (s : State) (words : List Bytes) (r : Request) : Prop :=
  ∃ front w rest a, words = front ++ w :: rest ∧ optionsEnd ∉ front ∧
    parseWords s front = .ok (.run a) ∧ Asks w r

theorem AsksInTime.ne_run (h : AsksInTime s words r) (a : Arguments) : r ≠ .run a := by
  obtain ⟨_, _, _, _, _, _, _, hw⟩ := h
  exact hw.ne_run

theorem asksInTime_cons : AsksInTime s (w :: words) r ↔
    (Asks w r ∧ ∃ a, parseWords s [] = .ok (.run a)) ∨
      (w ≠ optionsEnd ∧ ∃ front v rest a, words = front ++ v :: rest ∧ optionsEnd ∉ front ∧
        parseWords s (w :: front) = .ok (.run a) ∧ Asks v r) := by
  constructor
  · rintro ⟨front, v, rest, a, he, hend, hp, hv⟩
    cases front with
    | nil =>
      obtain ⟨rfl, rfl⟩ := List.cons.inj he
      exact .inl ⟨hv, a, hp⟩
    | cons u front =>
      obtain ⟨rfl, rfl⟩ := List.cons.inj he
      rw [List.mem_cons, not_or] at hend
      exact .inr ⟨Ne.symm hend.1, front, v, rest, a, rfl, hend.2, hp, hv⟩
  · rintro (⟨hw, a, hp⟩ | ⟨hw, front, v, rest, a, rfl, hend, hp, hv⟩)
    · exact ⟨[], w, words, a, rfl, List.not_mem_nil, hp, hw⟩
    · refine ⟨w :: front, v, rest, a, rfl, ?_, hp, hv⟩
      rw [List.mem_cons, not_or]
      exact ⟨Ne.symm hw, hend⟩

/-- A line is answered if a word asks in time, and in no other case. -/
theorem parseWords_eq_answer_iff (hr : ∀ a, r ≠ .run a) :
    parseWords s words = .ok r ↔ AsksInTime s words r := by
  induction words generalizing s with
  | nil =>
    constructor
    · intro h
      rw [parseWords_nil, map_settle_eq_ok_iff] at h
      obtain ⟨s', _, h⟩ := h
      exact absurd h.symm (hr _)
    · rintro ⟨front, w, rest, a, he, _⟩
      simp at he
  | cons w words ih =>
    rw [asksInTime_cons]
    cases hw : asked? w with
    | some r' =>
      -- The line has its answer here, so nothing behind this word can be asked in time.
      have hasks := asked?_eq_some_iff.mp hw
      have hw' : Asks w r ↔ r' = r := by
        rw [← asked?_eq_some_iff, hw, Option.some.injEq]
      rw [parseWords_of_asked hw, parseWords_nil, hw', map_settle_eq_ok_iff]
      constructor
      · rintro ⟨s', hs, rfl⟩
        exact .inl ⟨rfl, s'.accepted, by rw [hs]; rfl⟩
      · rintro (⟨rfl, a, ha⟩ | ⟨_, front, v, rest, a, _, _, hp, _⟩)
        · obtain ⟨s', hs, _⟩ := map_settle_eq_ok_iff.mp ha
          exact ⟨s', hs, rfl⟩
        · rw [parseWords_of_asked hw, map_settle_eq_ok_iff] at hp
          obtain ⟨_, _, hp⟩ := hp
          exact absurd hp hasks.ne_run
    | none =>
      have hno : ¬ Asks w r := by
        rw [← asked?_eq_some_iff, hw]
        nofun
      by_cases hend : w = optionsEnd
      · -- What follows is taken for arguments, and a line of arguments runs.
        subst hend
        rw [parseWords_optionsEnd]
        constructor
        · intro h
          obtain ⟨a, rfl⟩ := parseArguments_eq_run h
          exact absurd rfl (hr a)
        · rintro (⟨h, _⟩ | ⟨h, _⟩)
          · exact absurd h hno
          · exact absurd rfl h
      · rcases parseWords_of_not_asked (s := s) hw hend with ⟨e, he⟩ | ⟨s', hs'⟩
        · simp [he, hno]
        · simp only [hs', ih, hno, hend, false_and, false_or, ne_eq, not_false_eq_true, true_and]
          rfl

theorem exists_asksInTime_iff :
    (∃ r, AsksInTime {} words r) ↔ parse words = .ok .help ∨ parse words = .ok .version := by
  constructor
  · rintro ⟨r, h⟩
    have hr := h.ne_run
    rw [← parseWords_eq_answer_iff hr] at h
    cases r with
    | run a => exact absurd rfl (hr a)
    | help => exact .inl h
    | version => exact .inr h
  · rintro (h | h)
    · exact ⟨.help, (parseWords_eq_answer_iff (by simp)).mp h⟩
    · exact ⟨.version, (parseWords_eq_answer_iff (by simp)).mp h⟩

end ImportMigration.CommandLine
