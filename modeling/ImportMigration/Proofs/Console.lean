import ImportMigration.Proofs.DryRun

/-!
What a migration prints, and how it agrees with the report. A run is the list of its events, each a
file with what became of it or a directory that could not be listed. Every event has its line, if
it has one, on one of the two streams, and the lines stand in the order of the walk.
-/

namespace ImportMigration

theorem printed_append (stream : Stream) (n n' : List Notice) :
    printed stream (n ++ n') = printed stream n ++ printed stream n' := by
  simp [printed]

theorem printed_singleton {stream : Stream} {n : Notice} (h : n.stream = stream) :
    printed stream [n] = n.text ++ ['\n'] := by
  simp [printed, h]

theorem printed_of_other_stream {stream : Stream} {n : Notice} (h : n.stream ≠ stream) :
    printed stream [n] = [] := by
  simp [printed, h]

theorem printed_filterMap {α : Type} (stream : Stream) (f : α → Option Notice) (l : List α) :
    printed stream (l.filterMap f) = l.flatMap fun x => printed stream (f x).toList := by
  induction l with
  | nil => rfl
  | cons x l ih =>
    rw [List.filterMap_cons, List.flatMap_cons, ← ih]
    cases f x with
    | none => rfl
    | some n => exact printed_append stream [n] _

/-- What became of the file that a notice is about. -/
def Notice.outcome? : Notice → Option Migration.Outcome
  | skipping _ => some .skipped
  | updated _ | wouldUpdate _ => some .updated
  | writeFailed _ _ => some .writeFailed
  | unreadableDirectory _ _ => none

/-- The path that a notice is about. -/
def Notice.path : Notice → Path
  | skipping p | updated p | wouldUpdate p | writeFailed p _ | unreadableDirectory p _ => p

/-- The visit that a notice is about: a file and what became of it. -/
def Notice.visit? (n : Notice) : Option (Path × Migration.Outcome) :=
  n.outcome?.map fun o => (n.path, o)

namespace Migration

open Import Utf8 Source

variable {rules : List Rule} {mode : Mode} {s₀ s s' : Session} {p : Path} {o : Outcome}
  {causeOf : Path → Cause}

/-- What a run met: a file with what became of it, or a directory that cannot be listed. -/
inductive Event where
  | visited (p : Path) (o : Outcome)
  | unreadable (directory : Path) (cause : Cause)
  deriving DecidableEq, Repr

/-- What a walk meets, with the outcomes of its visits. -/
def events : List Encounter → List Outcome → List Event
  | .unreadable directory cause :: es, os => .unreadable directory cause :: events es os
  | .file p :: es, o :: os => .visited p o :: events es os
  | _, _ => []

/-- The line on standard output that says what became of a file. -/
def outputLine (mode : Mode) (p : Path) : Outcome → Text
  | .skipped => "Skipping binary or unreadable file: ".toList ++ p.display ++ ['\n']
  | .updated =>
    match mode with
    | .write => "Updated: ".toList ++ p.display ++ ['\n']
    | .dryRun => "Would update: ".toList ++ p.display ++ ['\n']
  | .unchanged | .writeFailed => []

def writeFailedLine (p : Path) (cause : Cause) : Text :=
  "Warning: failed to write ".toList ++ p.display ++ ": ".toList ++ cause.text ++ ['\n']

def unreadableLine (directory : Path) (cause : Cause) : Text :=
  "Warning: skipping unreadable directory ".toList ++ directory.display ++ ": ".toList ++
    cause.text ++ ['\n']

/-- The line on standard error about an event. -/
def errorLine (causeOf : Path → Cause) : Event → Text
  | .visited p .writeFailed => writeFailedLine p (causeOf p)
  | .visited _ _ => []
  | .unreadable directory cause => unreadableLine directory cause

def outcomeNotice? (mode : Mode) (p : Path) (cause : Cause) : Outcome → Option Notice
  | .skipped => some (.skipping p)
  | .unchanged => none
  | .updated =>
    match mode with
    | .write => some (.updated p)
    | .dryRun => some (.wouldUpdate p)
  | .writeFailed => some (.writeFailed p cause)

def Event.notice? (mode : Mode) (causeOf : Path → Cause) : Event → Option Notice
  | visited p o => outcomeNotice? mode p (causeOf p) o
  | unreadable directory cause => some (.unreadableDirectory directory cause)

/-- Why a path cannot be written through. -/
def refusal (s : Session) (p : Path) : Cause :=
  match (s.write p []).1 with
  | .error cause => cause
  | .ok () => .other []

/-- A file that cannot be written refuses every content, on each disk of the same shape. -/
theorem Visit.write_eq_refusal (hv : Visit rules p s mode .writeFailed s') (h : s.Alike s₀)
    (content : Bytes) : (s₀.write p content).1 = .error (refusal s₀ p) := by
  cases hv with
  | @writeFailed t cause _ _ hw =>
    have hw₀ (content : Bytes) : (s₀.write p content).1 = .error cause :=
      (h.write_eq p content content).symm.trans (hw content)
    rw [refusal, hw₀, hw₀]

/-- A visit says what its outcome asks for and nothing else. -/
theorem Visit.notices (hv : Visit rules p s mode o s') (h : s.Alike s₀) :
    s'.notices = s.notices ++ (outcomeNotice? mode p (refusal s₀ p) o).toList := by
  cases hv with
  | skipped => rfl
  | unchanged => simp [outcomeNotice?]
  | wouldUpdate => rfl
  | updated => rfl
  | @writeFailed t cause ht hrw hw =>
    have hcause : cause = refusal s₀ p := by
      have hr := (Visit.writeFailed ht hrw hw).write_eq_refusal h []
      rw [← h.write_eq p [] [], hw []] at hr
      exact Except.error.inj hr
    rw [hcause]
    rfl

/-- A run of visits says what its events ask for, in their order. -/
theorem notices_meet (rules : List Rule) (mode : Mode) (es : List Encounter) (h : s.Alike s₀) :
    (meet (rewriteFile rules mode) es s).2.notices = s.notices ++
      (events es (meet (rewriteFile rules mode) es s).1).filterMap
        (Event.notice? mode (refusal s₀)) := by
  induction es generalizing s with
  | nil => exact (List.append_nil _).symm
  | cons e es ih =>
    cases e with
    | file p =>
      have hv := visit_rewriteFile rules mode p s
      rw [meet_file, ih (hv.alike.trans h), hv.notices h, List.append_assoc]
      simp only [events, List.filterMap_cons, Event.notice?]
      cases outcomeNotice? mode p (refusal s₀ p)
        ((rewriteFile rules mode p : StateM Session Outcome) s).1 <;> rfl
    | unreadable directory cause =>
      rw [meet_unreadable, ih ((Session.Alike.tell s _).trans h)]
      exact List.append_assoc ..

theorem printed_output_notice? (mode : Mode) (causeOf : Path → Cause) (e : Event) :
    printed .output (e.notice? mode causeOf).toList =
      match e with
      | .visited p o => outputLine mode p o
      | .unreadable _ _ => [] := by
  cases e with
  | visited p o =>
    cases o with
    | skipped => exact printed_singleton rfl
    | unchanged => rfl
    | updated => cases mode <;> exact printed_singleton rfl
    | writeFailed => exact printed_of_other_stream nofun
  | unreadable directory cause => exact printed_of_other_stream nofun

theorem printed_error_notice? (mode : Mode) (causeOf : Path → Cause) (e : Event) :
    printed .error (e.notice? mode causeOf).toList = errorLine causeOf e := by
  cases e with
  | visited p o =>
    cases o with
    | skipped => exact printed_of_other_stream nofun
    | unchanged => rfl
    | updated => cases mode <;> exact printed_of_other_stream nofun
    | writeFailed => exact printed_singleton rfl
  | unreadable directory cause => exact printed_singleton rfl

/-- Standard output has the lines of the visits, in their order. -/
theorem printed_output_events (mode : Mode) (causeOf : Path → Cause) (es : List Encounter)
    (os : List Outcome) :
    printed .output ((events es os).filterMap (Event.notice? mode causeOf)) =
      ((es.filterMap Encounter.path?).zip os).flatMap fun x => outputLine mode x.1 x.2 := by
  simp only [printed_filterMap, printed_output_notice?]
  induction es generalizing os with
  | nil => rfl
  | cons e es ih =>
    cases e with
    | unreadable directory cause => exact ih os
    | file p =>
      cases os with
      | nil => rfl
      | cons o os => exact congrArg (outputLine mode p o ++ ·) (ih os)

/-- The notices about files tell the visits in order, apart from those of files that are as they
were. -/
theorem filterMap_visit_events (mode : Mode) (causeOf : Path → Cause) (es : List Encounter)
    (os : List Outcome) :
    ((events es os).filterMap (Event.notice? mode causeOf)).filterMap Notice.visit? =
      ((es.filterMap Encounter.path?).zip os).filter (·.2 != .unchanged) := by
  induction es generalizing os with
  | nil => rfl
  | cons e es ih =>
    cases e with
    | unreadable directory cause => exact ih os
    | file p =>
      cases os with
      | nil => rfl
      | cons o os =>
        cases o with
        | unchanged => exact ih os
        | updated => cases mode <;> exact congrArg ((p, Outcome.updated) :: ·) (ih os)
        | skipped => exact congrArg ((p, Outcome.skipped) :: ·) (ih os)
        | writeFailed => exact congrArg ((p, Outcome.writeFailed) :: ·) (ih os)

/-- They tell all outcomes in order, apart from files that are as they were. -/
theorem filterMap_outcome_events (mode : Mode) (causeOf : Path → Cause) (es : List Encounter)
    (os : List Outcome) (h : os.length = (es.filterMap Encounter.path?).length) :
    ((events es os).filterMap (Event.notice? mode causeOf)).filterMap Notice.outcome? =
      os.filter (· != .unchanged) := by
  have hvisit : Notice.outcome? = fun n => n.visit?.map Prod.snd := by
    funext n
    cases n <;> rfl
  rw [hvisit, ← List.map_filterMap, filterMap_visit_events]
  conv_rhs => rw [← List.map_snd_zip h.le, List.filter_map]
  rfl

/-- The other notices are the warnings of the walk. -/
theorem filter_warning_events (mode : Mode) (causeOf : Path → Cause) (es : List Encounter)
    (os : List Outcome) (h : os.length = (es.filterMap Encounter.path?).length) :
    ((events es os).filterMap (Event.notice? mode causeOf)).filter (·.outcome?.isNone) =
      es.filterMap Encounter.notice? := by
  induction es generalizing os with
  | nil => rw [List.eq_nil_of_length_eq_zero h]; rfl
  | cons e es ih =>
    cases e with
    | unreadable directory cause =>
      exact congrArg (Notice.unreadableDirectory directory cause :: ·) (ih os h)
    | file p =>
      cases os with
      | nil => contradiction
      | cons o os =>
        have ih := ih os (Nat.succ.inj h)
        cases o with
        | updated => cases mode <;> exact ih
        | _ => exact ih

/-- Of an outcome that is told at all, there are as many notices as files. -/
theorem countP_outcome {told : List Notice} {os : List Outcome} {o : Outcome}
    (h : told.filterMap Notice.outcome? = os.filter (· != .unchanged)) (ho : o ≠ .unchanged) :
    told.countP (·.outcome? == some o) = os.count o := by
  have hfilter : (os.filter (· != .unchanged)).count o = os.count o :=
    List.count_filter (by simpa using ho)
  rw [← hfilter, ← h, List.count_filterMap]

theorem write_of_mem_logged (h : s.Alike s₀) (es : List Encounter)
    (hp : (p, .writeFailed) ∈ (meet (logged rules mode) es s).1) (content : Bytes) :
    (s₀.write p content).1 = .error (refusal s₀ p) := by
  induction es generalizing s with
  | nil => exact absurd hp List.not_mem_nil
  | cons e es ih =>
    cases e with
    | unreadable directory cause => exact ih ((Session.Alike.tell s _).trans h) hp
    | file q =>
      have hv := visit_rewriteFile rules mode q s
      rw [meet_file, logged_run] at hp
      rcases List.mem_cons.mp hp with heq | hp
      · obtain ⟨rfl, ho⟩ := Prod.mk.inj heq
        exact (ho ▸ hv).write_eq_refusal h content
      · exact ih (hv.alike.trans h) hp

/-- Of the causes only those of failed writes are printed. -/
theorem flatMap_errorLine_congr {f g : Path → Cause} {l : List Event}
    (h : ∀ p, .visited p .writeFailed ∈ l → f p = g p) :
    l.flatMap (errorLine f) = l.flatMap (errorLine g) := by
  refine List.flatMap_congr fun e he => ?_
  cases e with
  | unreadable directory cause => rfl
  | visited p o =>
    cases o with
    | writeFailed => rw [errorLine, errorLine, h p he]
    | _ => rfl

/-- A migration of a directory reports the tally of the outcomes that rewriting the files of a bare
walk has, one after the other. It prints one line for each file that it updates, would update or
skips, in the order of the walk. It warns of each file that cannot be written, and why, and of each
directory that cannot be listed, in the order of the walk. -/
theorem run_tells_outcomes (filter : Filter) (root : Path) (mode : Mode) (s : Session)
    (access : Access) (h : s.node root = .ok (.directory access)) :
    ∃ visited warnings outcomes report s' causeOf told,
      (itineraryOf filter s root).filterMap Encounter.path? = visited ∧
      (itineraryOf filter s root).filterMap Encounter.notice? = warnings ∧
      (walk filter pure root : StateM Session (Except RootError (List Path))) s =
        (.ok visited, { s with notices := s.notices ++ warnings }) ∧
      (rewriteFiles defaultRules mode visited s).1 = outcomes ∧
      (run ⟨root, filter, mode⟩ : StateM Session (Except RootError Report)) s = (.ok report, s') ∧
      report = outcomes.foldl Report.record .empty ∧
      report.visited = visited.length ∧
      s'.printed .output = s.printed .output ++
        (visited.zip outcomes).flatMap (fun x => outputLine mode x.1 x.2) ∧
      s'.printed .error = s.printed .error ++
        (events (itineraryOf filter s root) outcomes).flatMap (errorLine causeOf) ∧
      (∀ p, (p, .writeFailed) ∈ visited.zip outcomes →
        ∀ content, (s.write p content).1 = .error (causeOf p)) ∧
      s'.notices = s.notices ++ told ∧
      told.countP (·.outcome? == some .updated) = report.updated ∧
      told.countP (·.outcome? == some .skipped) = report.skipped ∧
      told.countP (·.outcome? == some .writeFailed) = report.failed ∧
      told.filter (·.outcome?.isNone) = warnings := by
  obtain ⟨hos, -⟩ := meet_eq_rewriteFiles defaultRules mode (itineraryOf filter s root)
    (Session.SameDisk.refl s)
  have hlen := length_meet (rewriteFile defaultRules mode) (itineraryOf filter s root) s
  have htold := notices_meet defaultRules mode (itineraryOf filter s root) (.refl s)
  have hlogged := congrArg Prod.fst (meet_logged defaultRules mode (itineraryOf filter s root) s)
  dsimp only at hlogged
  have hout (stream : Stream) := (congrArg (ImportMigration.printed stream) htold).trans
    (printed_append stream _ _)
  have houtcome := filterMap_outcome_events mode (refusal s) (itineraryOf filter s root) _ hlen
  have hcount (o : Outcome) (ho : o ≠ .unchanged) := countP_outcome houtcome ho
  refine ⟨_, _, _, _, _, refusal s, _, rfl, rfl, ?_, hos.symm, run_of_directory h, rfl, ?_, ?_,
    ?_, ?_, htold, ?_, ?_, ?_, filter_warning_events mode _ _ _ hlen⟩
  · rw [walk_eq_meet keepsShape_pure h, meet_pure, state_meet_pure]
  · rw [Report.visited_foldl_record, Report.visited_empty, Nat.zero_add, hlen]
  · rw [← printed_output_events mode (refusal s)]
    exact hout .output
  · refine (hout .error).trans (congrArg _ ?_)
    simp only [printed_filterMap, printed_error_notice?]
  · intro p hp
    rw [← hlogged] at hp
    exact write_of_mem_logged (.refl s) (itineraryOf filter s root) hp
  · rw [hcount .updated nofun, Report.foldl_record]
    exact (Nat.zero_add _).symm
  · rw [hcount .skipped nofun, Report.foldl_record]
    exact (Nat.zero_add _).symm
  · rw [hcount .writeFailed nofun, Report.foldl_record]
    exact (Nat.zero_add _).symm

/-- Every kind of line is printed, each in its place. -/
theorem motley_tells :
    motley.node top = .ok (.directory ⟨true, true, true⟩) ∧
    ∃ s', (run ⟨top, .default, .write⟩ : StateM Session (Except RootError Report)) motley =
        (.ok ⟨1, 1, 1, 1⟩, s') ∧
      s'.printed .output =
        "Updated: /a.js\nSkipping binary or unreadable file: /f.js\n".toList ∧
      s'.printed .error = "Warning: failed to write /e.js: Permission denied (os error 13)
Warning: skipping unreadable directory /lib: Permission denied (os error 13)\n".toList := by
  have h : motley.node top = .ok (.directory ⟨true, true, true⟩) := by decide +kernel
  obtain ⟨_, _, outcomes, _, s', causeOf, _, rfl, _, _, hos, hrun, rfl, _, hout, herr, hcause, _⟩ :=
    run_tells_outcomes .default top .write motley _ h
  rw [itinerary_motley] at hos hout herr hcause
  obtain rfl : [.updated, .unchanged, .writeFailed, .skipped] = outcomes := by
    rw [← hos]
    decide +kernel
  have hlocked : causeOf (top.child lockedName) = .notPermitted := by
    have hw := hcause (top.child lockedName) (by decide +kernel) []
    have hw' : (motley.write (top.child lockedName) []).1 = .error .notPermitted := by
      decide +kernel
    exact Except.error.inj (hw.symm.trans hw')
  refine ⟨h, s', hrun, ?_, ?_⟩
  · rw [hout]
    decide +kernel
  · have hlines := flatMap_errorLine_congr (f := causeOf) (g := fun _ => .notPermitted)
      (l := events [.file (top.child sourceName), .file (top.child aliasName),
        .file (top.child lockedName), .file (top.child binaryName),
        .unreadable (top.child closedDirectory) .notPermitted]
        [.updated, .unchanged, .writeFailed, .skipped]) (by
      intro p hp
      have hp : p = top.child lockedName := by simpa [events] using hp
      rw [hp, hlocked])
    rw [herr, hlines]
    decide +kernel

end Migration

end ImportMigration
