import ImportMigration.Proofs.Scope

/-!
A dry run foretells a run that writes. Both visit the same paths, since a visit keeps the shape of
the disk. What a dry run says of a path is what the other run does with it, unless that one has
written the file before, through another path: only then has the text changed
(`Migration.Since`).
-/

namespace ImportMigration

/-- Two paths that lead to one place. -/
def Session.SamePlace (s : Session) (p q : Path) : Prop :=
  ∃ place, s.resolve p = .ok place ∧ s.resolve q = .ok place

namespace Migration

open Import Utf8 Source

variable {rules : List Rule} {mode : Mode} {s₀ s s' : Session} {p : Path} {o : Outcome}
  {l : List (Path × Outcome)}

/-- A visit that keeps the path with what became of the file. -/
def logged (rules : List Rule) (mode : Mode) (p : Path) : StateM Session (Path × Outcome) := do
  return (p, ← rewriteFile rules mode p)

/-- A migration that keeps each visited path with what became of the file. -/
def log (options : Options) : StateM Session (Except RootError (List (Path × Outcome))) :=
  walk options.filter (logged defaultRules options.mode) options.root

def tally (l : List (Path × Outcome)) : Report :=
  (l.map Prod.snd).foldl Report.record .empty

theorem keepsShape_logged (rules : List Rule) (mode : Mode) : KeepsShape (logged rules mode) :=
  keepsShape_rewriteFile rules mode

theorem logged_run (rules : List Rule) (mode : Mode) (p : Path) (s : Session) :
    logged rules mode p s = ((p, ((rewriteFile rules mode p : StateM Session Outcome) s).1),
      ((rewriteFile rules mode p : StateM Session Outcome) s).2) :=
  rfl

theorem length_meet {α : Type} (visit : Path → StateM Session α) (es : List Encounter)
    (s : Session) : (meet visit es s).1.length = (es.filterMap Encounter.path?).length := by
  induction es generalizing s with
  | nil => rfl
  | cons e es ih =>
    cases e with
    | file p => exact congrArg (· + 1) (ih _)
    | unreadable directory cause => exact ih _

theorem meet_logged (rules : List Rule) (mode : Mode) (es : List Encounter) (s : Session) :
    meet (logged rules mode) es s =
      ((es.filterMap Encounter.path?).zip (meet (rewriteFile rules mode) es s).1,
        (meet (rewriteFile rules mode) es s).2) := by
  induction es generalizing s with
  | nil => rfl
  | cons e es ih =>
    cases e with
    | file p =>
      rw [meet_file, meet_file, logged_run, ih]
      rfl
    | unreadable directory cause => exact ih _

theorem map_fst_meet_logged (rules : List Rule) (mode : Mode) (es : List Encounter) (s : Session) :
    (meet (logged rules mode) es s).1.map Prod.fst = es.filterMap Encounter.path? := by
  rw [meet_logged, List.map_fst_zip (length_meet _ _ _).ge]

theorem log_of_directory {filter : Filter} {root : Path} {access : Access} (mode : Mode)
    (h : s.node root = .ok (.directory access)) : log ⟨root, filter, mode⟩ s =
      (.ok (meet (logged defaultRules mode) (itineraryOf filter s root) s).1,
        (meet (logged defaultRules mode) (itineraryOf filter s root) s).2) :=
  walk_eq_meet (keepsShape_logged defaultRules mode) h

/-- A migration of a directory gives the tally of its log. -/
theorem run_eq_tally_log {filter : Filter} {root : Path} {access : Access} (mode : Mode)
    (h : s.node root = .ok (.directory access)) :
    (run ⟨root, filter, mode⟩ : StateM Session (Except RootError Report)) s =
      (.ok (tally (meet (logged defaultRules mode) (itineraryOf filter s root) s).1),
        (meet (logged defaultRules mode) (itineraryOf filter s root) s).2) := by
  rw [run_of_directory h, tally, meet_logged, List.map_snd_zip (length_meet _ _ _).le]

theorem meet_logged_dryRun (rules : List Rule) (es : List Encounter) (s : Session) :
    ∃ said, meet (logged rules .dryRun) es s =
      ((es.filterMap Encounter.path?).map fun p => (p, foretold rules s p),
        { s with notices := said }) := by
  obtain ⟨said, h⟩ := meet_dryRun rules es s
  exact ⟨said, by rw [meet_logged, h, List.map_prod_left_eq_zip]⟩

/-- What a run that writes makes of what a dry run says. -/
inductive Foretells : Outcome → Outcome → Prop
  | skipped : Foretells .skipped .skipped
  | unchanged : Foretells .unchanged .unchanged
  | updated : Foretells .updated .updated
  | writeFailed : Foretells .updated .writeFailed

/-- A run that writes, with its log so far: each place is as it was at the start, or has been
rewritten through a path of the log. -/
structure Since (rules : List Rule) (s₀ s : Session) (l : List (Path × Outcome)) : Prop where
  alike : s.Alike s₀
  place : ∀ place, s.disk.node? place = s₀.disk.node? place ∨
    ∃ q access t t', (q, .updated) ∈ l ∧ s₀.resolve q = .ok place ∧ rewrite rules t ≠ t ∧
      s₀.disk.node? place = some (.file access (encode t)) ∧
      s.disk.node? place = some (.file access (encode t'))

theorem Since.start (rules : List Rule) (s : Session) : Since rules s s [] :=
  ⟨.refl s, fun _ => .inl rfl⟩

theorem Since.of_disk_eq {x : Path × Outcome} (h : Since rules s₀ s l)
    (hd : s'.disk = s.disk) (hw : s'.directory = s.directory) : Since rules s₀ s' (l ++ [x]) := by
  refine ⟨⟨hd ▸ h.alike.disk, hw.trans h.alike.directory⟩, fun place => ?_⟩
  rw [hd]
  rcases h.place place with hsame | ⟨q, access, t, t', hq, hrest⟩
  · exact .inl hsame
  · exact .inr ⟨q, access, t, t', List.mem_append_left _ hq, hrest⟩

/-- The text at a path, if it has changed, is that of a file that was rewritten before. -/
theorem Since.text?_eq (h : Since rules s₀ s l) (p : Path) : s.text? p = s₀.text? p ∨
    foretold rules s₀ p = .skipped ∧ s.text? p = none ∨
    foretold rules s₀ p = .updated ∧ ∃ q, (q, .updated) ∈ l ∧ s₀.SamePlace q p := by
  cases hp : s.resolve p with
  | error cause =>
    left
    have hp₀ := (h.alike.resolve_eq p).symm.trans hp
    simp [Session.text?, Session.read, Session.node, hp, hp₀, Except.bind]
  | ok place =>
    have hp₀ := (h.alike.resolve_eq p).symm.trans hp
    rcases h.place place with hsame | ⟨q, access, t, t', hq, hplace, ht, hn₀, hn⟩
    · left
      simp [Session.text?, Session.read, Session.node, hp, hp₀, hsame, Except.bind]
    · right
      have htext := Session.text?_of_file hp hn
      have htext₀ := Session.text?_of_file hp₀ hn₀
      cases hr : access.read with
      | false =>
        simp only [hr, Bool.false_eq_true, if_false] at htext htext₀
        exact .inl ⟨foretold_of_no_text htext₀, htext⟩
      | true =>
        simp only [hr, if_true, decode?_encode] at htext₀
        refine .inr ⟨?_, q, hq, place, hplace, hp₀⟩
        rw [foretold_of_text htext₀, if_neg ht]

/-- A visit does what was foretold, unless the file has been rewritten before. -/
theorem Since.foretells (h : Since rules s₀ s l) (hv : Visit rules p s .write o s') :
    Foretells (foretold rules s₀ p) o ∨
      foretold rules s₀ p = .updated ∧ ∃ q, (q, .updated) ∈ l ∧ s₀.SamePlace q p := by
  rcases h.text?_eq p with he | ⟨hf, hnone⟩ | hbefore
  · left
    cases hv with
    | skipped ht =>
      rw [foretold_of_no_text (he ▸ ht)]
      exact .skipped
    | unchanged ht hr =>
      rw [foretold_of_text (he ▸ ht), if_pos hr]
      exact .unchanged
    | writeFailed ht hr =>
      rw [foretold_of_text (he ▸ ht), if_neg hr]
      exact .writeFailed
    | updated ht hr =>
      rw [foretold_of_text (he ▸ ht), if_neg hr]
      exact .updated
  · left
    cases hv with
    | skipped =>
      rw [hf]
      exact .skipped
    | _ => simp_all
  · exact .inr hbefore

/-- A visit leaves each place as it was, or rewritten through a path of the log. -/
theorem Since.visit (h : Since rules s₀ s l) (hv : Visit rules p s .write o s') :
    Since rules s₀ s' (l ++ [(p, o)]) := by
  have hk := hv.alike.trans h.alike
  cases hv with
  | skipped => exact h.of_disk_eq rfl rfl
  | unchanged => exact h.of_disk_eq rfl rfl
  | writeFailed => exact h.of_disk_eq rfl rfl
  | @updated t place access ht hr hp hn =>
    refine ⟨hk, fun place' => ?_⟩
    have hput : ((s.writeAt place access (encode (rewrite rules t))).tell (.updated p)).disk =
      s.disk.put place (.file access (encode (rewrite rules t))) := rfl
    rw [hput, Disk.node?_put]
    by_cases hplace : place' = place
    · subst hplace
      right
      rw [if_pos rfl]
      rcases h.place place' with hsame | ⟨q, access', t₀, t', hq, hq₀, ht₀, hn₀, hn'⟩
      · exact ⟨p, access, t, _, by simp, (h.alike.resolve_eq p).symm.trans hp, hr,
          hsame ▸ hn, rfl⟩
      · obtain ⟨rfl, _⟩ := Node.file.inj (Option.some.inj (hn'.symm.trans hn))
        exact ⟨q, access', t₀, _, List.mem_append_left _ hq, hq₀, ht₀, hn₀, rfl⟩
    · rw [if_neg hplace]
      rcases h.place place' with hsame | ⟨q, access', t₀, t', hq, hrest⟩
      · exact .inl hsame
      · exact .inr ⟨q, access', t₀, t', List.mem_append_left _ hq, hrest⟩

/-- A run that writes does with each path what was foretold, unless it has rewritten the file
before. -/
theorem Since.foretells_run (h : Since rules s₀ s l) (es : List Encounter) :
    ∀ (i : Nat) (p : Path) (o : Outcome),
      (meet (logged rules .write) es s).1[i]? = some (p, o) →
      Foretells (foretold rules s₀ p) o ∨ foretold rules s₀ p = .updated ∧
        ∃ q, ((q, .updated) ∈ l ∨
            ∃ j < i, (meet (logged rules .write) es s).1[j]? = some (q, Outcome.updated)) ∧
          s₀.SamePlace q p := by
  induction es generalizing s l with
  | nil =>
    intro i p o hi
    exact absurd (show (none : Option (Path × Outcome)) = some (p, o) from hi) (by simp)
  | cons e es ih =>
    cases e with
    | unreadable directory cause =>
      have hs : Since rules s₀ (s.tell (.unreadableDirectory directory cause)) l :=
        ⟨(Session.Alike.tell s _).trans h.alike, h.place⟩
      exact ih hs
    | file p₀ =>
      have hv := visit_rewriteFile rules .write p₀ s
      simp only [meet_file]
      intro i p o hi
      cases i with
      | zero =>
        obtain ⟨rfl, rfl⟩ := Prod.mk.inj (Option.some.inj hi)
        rcases h.foretells hv with hf | ⟨hf, q, hq, hp⟩
        · exact .inl hf
        · exact .inr ⟨hf, q, .inl hq, hp⟩
      | succ i =>
        rcases ih (h.visit hv) i p o hi with hf | ⟨hf, q, hq, hp⟩
        · exact .inl hf
        · refine .inr ⟨hf, q, ?_, hp⟩
          rcases hq with hq | ⟨j, hj, hq⟩
          · rcases List.mem_append.mp hq with hq | hq
            · exact .inl hq
            · exact .inr ⟨0, by omega, congrArg some (List.mem_singleton.mp hq).symm⟩
          · exact .inr ⟨j + 1, by omega, hq⟩

theorem foretells_getElem? {es : List Encounter} {i : Nat} {o' : Outcome}
    (hd : (meet (logged rules .dryRun) es s).1[i]? = some (p, o))
    (ha : (meet (logged rules .write) es s).1[i]? = some (p, o')) :
    Foretells o o' ∨ o = .updated ∧ ∃ j < i, ∃ q,
      (meet (logged rules .write) es s).1[j]? = some (q, .updated) ∧ s.SamePlace q p := by
  obtain ⟨said, hsaid⟩ := meet_logged_dryRun rules es s
  rw [hsaid, List.getElem?_map] at hd
  obtain ⟨p', _, hp⟩ := Option.map_eq_some_iff.mp hd
  obtain ⟨rfl, rfl⟩ := Prod.mk.inj hp
  rcases (Since.start rules s).foretells_run es i p' o' ha with
    hf | ⟨hf, q, hq | ⟨j, hj, hq⟩, hsame⟩
  · exact .inl hf
  · exact absurd hq List.not_mem_nil
  · exact .inr ⟨hf, j, hj, q, hq, hsame⟩

/-- Outcomes that were foretold one by one add up as foretold. -/
theorem count_of_foretells {os os' : List Outcome} (h : List.Forall₂ Foretells os os') :
    os.count .skipped = os'.count .skipped ∧ os.count .unchanged = os'.count .unchanged ∧
      os.count .updated = os'.count .updated + os'.count .writeFailed := by
  induction h with
  | nil => simp
  | cons hf _ ih =>
    obtain ⟨hs, hu, hw⟩ := ih
    cases hf <;> simp [hs, hu, hw] <;> omega

/-- Where no two paths lead to one file, all comes as foretold. -/
theorem forall₂_foretells {dry actual : List (Path × Outcome)}
    (hpaths : dry.map Prod.fst = actual.map Prod.fst) (hnodup : (dry.map Prod.fst).Nodup)
    (h : ∀ (i : Nat) (p : Path) (o o' : Outcome), dry[i]? = some (p, o) →
      actual[i]? = some (p, o') → Foretells o o' ∨ o = .updated ∧
        ∃ j < i, ∃ q, actual[j]? = some (q, .updated) ∧ s.SamePlace q p)
    (hone : ∀ p ∈ dry.map Prod.fst, ∀ q ∈ dry.map Prod.fst, s.SamePlace p q → p = q) :
    List.Forall₂ Foretells (dry.map Prod.snd) (actual.map Prod.snd) := by
  have hlen : dry.length = actual.length := by simpa using congrArg List.length hpaths
  refine List.forall₂_iff_get.mpr ⟨by simpa using hlen, ?_⟩
  intro i hd ha
  rw [List.length_map] at hd ha
  simp only [List.get_eq_getElem, List.getElem_map]
  have hfst (j : Nat) : (dry.map Prod.fst)[j]? = (actual.map Prod.fst)[j]? :=
    congrArg (·[j]?) hpaths
  have hp : dry[i].1 = actual[i].1 := by simpa [hd, ha] using hfst i
  rcases h i dry[i].1 dry[i].2 actual[i].2 (by simp [hd]) (by simp [ha, hp]) with
    hf | ⟨_, j, hj, q, hq, hsame⟩
  · exact hf
  · have hjq : (dry.map Prod.fst)[j]? = some q := by rw [hfst, List.getElem?_map, hq]; rfl
    have hjp : (dry.map Prod.fst)[i]? = some dry[i].1 := by simp [hd]
    obtain rfl := hone q (List.mem_of_getElem? hjq) _ (List.mem_of_getElem? hjp) hsame
    have hij := (List.getElem?_inj (by simpa using hj.trans hd) hnodup).mp (hjq.trans hjp.symm)
    omega

/-- A dry run of a directory changes nothing but the notices, and visits what a run that writes
visits. It foretells what becomes of each path there, but for the paths of a file that the other
run has rewritten before. So where no two paths lead to one file, the tallies agree. -/
theorem dryRun_foretells (filter : Filter) (root : Path) (s : Session) (access : Access)
    (h : s.node root = .ok (.directory access)) :
    ∃ dry actual said s',
      (run ⟨root, filter, .dryRun⟩ : StateM Session (Except RootError Report)) s =
        (.ok (tally dry), { s with notices := said }) ∧
      log ⟨root, filter, .dryRun⟩ s = (.ok dry, { s with notices := said }) ∧
      (run ⟨root, filter, .write⟩ : StateM Session (Except RootError Report)) s =
        (.ok (tally actual), s') ∧
      log ⟨root, filter, .write⟩ s = (.ok actual, s') ∧
      dry.map Prod.fst = actual.map Prod.fst ∧
      (dry.map Prod.fst).Nodup ∧
      (∀ (i : Nat) (p : Path) (o o' : Outcome), dry[i]? = some (p, o) →
        actual[i]? = some (p, o') →
          Foretells o o' ∨ o = .updated ∧
            ∃ j < i, ∃ q, actual[j]? = some (q, .updated) ∧ s.SamePlace q p) ∧
      ((∀ p ∈ dry.map Prod.fst, ∀ q ∈ dry.map Prod.fst, s.SamePlace p q → p = q) →
        (tally dry).skipped = (tally actual).skipped ∧
        (tally dry).unchanged = (tally actual).unchanged ∧
        (tally dry).updated = (tally actual).updated + (tally actual).failed) := by
  obtain ⟨said, hsaid⟩ := meet_logged_dryRun defaultRules (itineraryOf filter s root) s
  have hdry := map_fst_meet_logged defaultRules .dryRun (itineraryOf filter s root) s
  have hpaths := hdry.trans
    (map_fst_meet_logged defaultRules .write (itineraryOf filter s root) s).symm
  have hstate : (meet (logged defaultRules .dryRun) (itineraryOf filter s root) s).2 =
    { s with notices := said } := congrArg Prod.snd hsaid
  have hnodup := hdry ▸ nodup_paths filter s root
  refine ⟨_, _, said, _, hstate ▸ run_eq_tally_log .dryRun h, hstate ▸ log_of_directory .dryRun h,
    run_eq_tally_log .write h, log_of_directory .write h, hpaths, hnodup,
    fun i p o o' => foretells_getElem?, ?_⟩
  intro hone
  have hcount := count_of_foretells
    (forall₂_foretells hpaths hnodup (fun i p o o' => foretells_getElem?) hone)
  simpa [tally, Report.foldl_record, Report.empty] using hcount

def lockedName : FileName :=
  ⟨encode "e.js".toList, by decide +kernel⟩

def binaryName : FileName :=
  ⟨encode "f.js".toList, by decide +kernel⟩

/-- A directory with a source file, a link to it, a source file that cannot be written, one without
a text, and a directory that cannot be listed. -/
def motley : Session where
  disk := ⟨[([], .directory ⟨true, true, true⟩),
    ([sourceName], .file ⟨true, true, false⟩ (encode legacyImport)),
    ([aliasName], .link ⟨sourceName.bytes⟩),
    ([lockedName], .file ⟨true, false, false⟩ (encode legacyImport)),
    ([binaryName], .file ⟨true, true, false⟩ [0xFF]),
    ([closedDirectory], .directory ⟨false, true, true⟩)], by decide +kernel⟩
  directory := []

theorem itinerary_motley :
    itineraryOf .default motley top = [.file (top.child sourceName), .file (top.child aliasName),
      .file (top.child lockedName), .file (top.child binaryName),
      .unreadable (top.child closedDirectory) .notPermitted] := by
  have hl : motley.list top = .ok [⟨sourceName, .file⟩, ⟨aliasName, .link⟩, ⟨lockedName, .file⟩,
      ⟨binaryName, .file⟩, ⟨closedDirectory, .directory⟩] := by
    decide +kernel
  unfold itineraryOf itinerary
  rw [hl]
  dsimp only
  rw [List.mergeSort_of_pairwise (by decide +kernel)]
  decide +kernel

/-- Three updates are foretold: one file is rewritten, found rewritten through the link, and the
other one cannot be written. -/
theorem motley_foretold :
    motley.node top = .ok (.directory ⟨true, true, true⟩) ∧
    ∃ dry actual said s',
      (run ⟨top, .default, .dryRun⟩ : StateM Session (Except RootError Report)) motley =
        (.ok (tally dry), { motley with notices := said }) ∧
      (run ⟨top, .default, .write⟩ : StateM Session (Except RootError Report)) motley =
        (.ok (tally actual), s') ∧
      dry = [(top.child sourceName, .updated), (top.child aliasName, .updated),
        (top.child lockedName, .updated), (top.child binaryName, .skipped)] ∧
      actual = [(top.child sourceName, .updated), (top.child aliasName, .unchanged),
        (top.child lockedName, .writeFailed), (top.child binaryName, .skipped)] ∧
      motley.SamePlace (top.child sourceName) (top.child aliasName) := by
  have h : motley.node top = .ok (.directory ⟨true, true, true⟩) := by decide +kernel
  obtain ⟨dry, actual, said, s', hdryrun, hdrylog, hrun, hlog, _, _, hall, _⟩ :=
    dryRun_foretells .default top motley _ h
  rw [log_of_directory _ h, itinerary_motley] at hdrylog hlog
  obtain rfl := Except.ok.inj (Prod.mk.inj hdrylog).1
  obtain rfl := Except.ok.inj (Prod.mk.inj hlog).1
  have hactual : (meet (logged defaultRules .write) [.file (top.child sourceName),
      .file (top.child aliasName), .file (top.child lockedName), .file (top.child binaryName),
      .unreadable (top.child closedDirectory) .notPermitted] motley).1 =
      [(top.child sourceName, .updated), (top.child aliasName, .unchanged),
        (top.child lockedName, .writeFailed), (top.child binaryName, .skipped)] := by
    decide +kernel
  refine ⟨h, _, _, said, s', hdryrun, hrun, by decide +kernel, hactual, ?_⟩
  rcases hall 1 (top.child aliasName) .updated .unchanged (by decide +kernel)
      (by rw [hactual]; rfl) with hf | ⟨_, j, hj, q, hq, hsame⟩
  · cases hf
  · obtain rfl : j = 0 := by omega
    rw [hactual] at hq
    obtain ⟨rfl, _⟩ := Prod.mk.inj (Option.some.inj hq)
    exact hsame

end Migration

end ImportMigration
