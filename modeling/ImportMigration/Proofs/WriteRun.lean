import ImportMigration.Migration.Run
import ImportMigration.Proofs.Convergence
import ImportMigration.Proofs.FileAccess
import ImportMigration.Proofs.Utf8Coding
import Mathlib.Logic.Function.Iterate

/-!
What a migration that writes leaves on the disk. A visit rewrites the file that its path leads to
if the file can be read and written through the path; a file that several paths lead to is
rewritten once for each of them. Nothing else on the disk changes.
-/

namespace ImportMigration.Migration

open Import Utf8 Source

variable {rules : List Rule} {s : Session} {p : Path} {place : Place}

/-- The content of a file after a visit: rewritten if it is a text. -/
def revised (rules : List Rule) (content : Bytes) : Bytes :=
  (decode? content).elim content fun t => encode (rewrite rules t)

/-- A node after a visit. -/
def revise (rules : List Rule) : Node → Node
  | .file access content => .file access (revised rules content)
  | n => n

theorem rewriteFile_run (rules : List Rule) (mode : Mode) (p : Path) (s : Session) :
    (rewriteFile rules mode p : StateM Session Outcome) s =
      match (s.read p).toOption.bind decode? with
      | none => (.skipped, s.tell (.skipping p))
      | some before =>
        if rewrite rules before = before then (.unchanged, s)
        else
          match mode with
          | .dryRun => (.updated, s.tell (.wouldUpdate p))
          | .write =>
            match s.write p (encode (rewrite rules before)) with
            | (.error cause, s) => (.writeFailed, s.tell (.writeFailed p cause))
            | (.ok (), s) => (.updated, s.tell (.updated p)) := by
  unfold rewriteFile
  rw [bind_run, read_run]
  cases (s.read p).toOption.bind decode? with
  | none => rfl
  | some before =>
    dsimp only
    split
    · rfl
    · cases mode with
      | dryRun => rfl
      | write =>
        dsimp only
        rw [bind_run, write_run]
        rcases s.write p (encode (rewrite rules before)) with ⟨_ | _, s'⟩
        · rfl
        · rfl

/-- A visit changes at most the contents of files, in either mode. -/
theorem keepsShape_rewriteFile (rules : List Rule) (mode : Mode) :
    KeepsShape (rewriteFile rules mode : Path → StateM Session Outcome) := by
  intro p s
  rw [rewriteFile_run]
  cases (s.read p).toOption.bind decode? with
  | none => exact .tell s _
  | some before =>
    dsimp only
    split
    · exact .refl s
    · cases mode with
      | dryRun => exact .tell s _
      | write =>
        have hw := s.alike_write p (encode (rewrite rules before))
        revert hw
        rcases s.write p (encode (rewrite rules before)) with ⟨_ | _, s'⟩
        · exact fun hw => (Session.Alike.tell s' _).trans hw
        · exact fun hw => (Session.Alike.tell s' _).trans hw

theorem disk_rewriteFile_write (rules : List Rule) (p : Path) (s : Session) :
    ((rewriteFile rules .write p : StateM Session Outcome) s).2.disk =
      match (s.read p).toOption.bind decode? with
      | none => s.disk
      | some before =>
        if rewrite rules before = before then s.disk
        else (s.write p (encode (rewrite rules before))).2.disk := by
  rw [rewriteFile_run]
  cases (s.read p).toOption.bind decode? with
  | none => rfl
  | some before =>
    dsimp only
    split
    · rfl
    · rcases s.write p (encode (rewrite rules before)) with ⟨_ | _, s'⟩
      · rfl
      · rfl

theorem revised_encode (rules : List Rule) (t : Text) :
    revised rules (encode t) = encode (rewrite rules t) := by
  rw [revised, decode?_encode]
  rfl

theorem revised_of_not_text {content : Bytes} (h : ∀ t, content ≠ encode t) :
    revised rules content = content := by
  have hd : decode? content = none := by
    cases hd : decode? content with
    | none => rfl
    | some t => exact absurd (decode?_eq_some_iff.mp hd) (h t)
  rw [revised, hd]
  rfl

theorem map_revise_of_no_file {x : Option Node}
    (h : ∀ access content, x ≠ some (.file access content)) : x.map (revise rules) = x := by
  cases x with
  | none => rfl
  | some n =>
    cases n with
    | file access content => exact absurd rfl (h access content)
    | _ => rfl

/-- A visit by which no text changes leaves what can be edited as it is. -/
theorem map_revise_of_editable (he : s.editable place p = true)
    (h : ∀ t, (s.read p).toOption.bind decode? = some t → rewrite rules t = t) :
    (s.disk.node? place).map (revise rules) = s.disk.node? place := by
  cases hn : s.disk.node? place with
  | none => rfl
  | some n =>
    cases n with
    | file access content =>
      obtain ⟨hp, hr, _⟩ := (Session.editable_file_iff hn).mp he
      rw [Session.read_of_file hp hn, if_pos hr] at h
      cases hd : decode? content with
      | none => simp [revise, revised, hd]
      | some t =>
        have ht := h t hd
        obtain rfl := decode?_eq_some_iff.mp hd
        simp [revise, revised_encode, ht]
    | _ => rfl

theorem node?_of_written {before : Text} (hb : (s.read p).toOption.bind decode? = some before) :
    (s.write p (encode (rewrite rules before))).2.disk.node? place =
      if s.editable place p then (s.disk.node? place).map (revise rules)
      else s.disk.node? place := by
  rcases s.write_cases p (encode (rewrite rules before)) with
    ⟨q, access, old, hq, hn, hw, hs⟩ | ⟨hs, hw⟩
  · rw [hs]
    show (s.disk.put q _).node? place = _
    rw [Disk.node?_put]
    by_cases hplace : place = q
    · subst hplace
      rw [Session.read_of_file hq hn] at hb
      cases hr : access.read with
      | false => simp [hr, Except.toOption] at hb
      | true =>
        have hd : decode? old = some before := by simpa [hr, Except.toOption] using hb
        obtain rfl := decode?_eq_some_iff.mp hd
        have he := (Session.editable_file_iff hn).mpr ⟨hq, hr, hw⟩
        rw [if_pos rfl, if_pos he, hn]
        simp [revise, revised_encode]
    · have he : ¬ s.editable place p = true := by
        intro he
        simp only [Session.editable_eq, hq, Bool.and_eq_true, decide_eq_true_eq] at he
        exact hplace (Except.ok.inj he.1).symm
      rw [if_neg hplace, if_neg he]
  · rw [hs]
    split
    · rename_i he
      symm
      apply map_revise_of_no_file
      intro access content hn
      obtain ⟨hp, _, hw'⟩ := (Session.editable_file_iff hn).mp he
      simp [hw place access content hp hn] at hw'
    · rfl

/-- One visit rewrites what it can edit, and nothing else. -/
theorem node?_rewriteFile (rules : List Rule) (p : Path) (s : Session) (place : Place) :
    ((rewriteFile rules .write p : StateM Session Outcome) s).2.disk.node? place =
      if s.editable place p then (s.disk.node? place).map (revise rules)
      else s.disk.node? place := by
  have hsame : (∀ t, (s.read p).toOption.bind decode? = some t → rewrite rules t = t) →
      s.disk.node? place =
        if s.editable place p then (s.disk.node? place).map (revise rules)
        else s.disk.node? place := by
    intro h
    split
    · rename_i he
      exact (map_revise_of_editable he h).symm
    · rfl
  rw [disk_rewriteFile_write]
  cases hb : (s.read p).toOption.bind decode? with
  | none => exact hsame (by simp [hb])
  | some before =>
    dsimp only
    by_cases ht : rewrite rules before = before
    · rw [if_pos ht]
      apply hsame
      intro t h
      rw [hb] at h
      exact Option.some.inj h ▸ ht
    · rw [if_neg ht]
      exact node?_of_written hb

/-- A run of visits rewrites each file as often as one of them can edit it. -/
theorem node?_meet (rules : List Rule) (es : List Encounter) (s : Session) (place : Place) :
    (meet (rewriteFile rules .write) es s).2.disk.node? place =
      (Option.map (revise rules))^[(es.filterMap Encounter.path?).countP (s.editable place)]
        (s.disk.node? place) := by
  induction es generalizing s with
  | nil => rfl
  | cons e es ih =>
    cases e with
    | file p =>
      have hk := keepsShape_rewriteFile rules .write p s
      have he : ((rewriteFile rules .write p : StateM Session Outcome) s).2.editable place =
          s.editable place := funext (hk.editable_eq place)
      have hc : (Encounter.file p :: es).filterMap Encounter.path? =
          p :: es.filterMap Encounter.path? := rfl
      rw [meet_file, ih, he, node?_rewriteFile, hc, List.countP_cons]
      split
      · rw [Function.iterate_succ_apply]
      · rfl
    | unreadable directory cause =>
      have hk := Session.Alike.tell s (.unreadableDirectory directory cause)
      have he : (s.tell (.unreadableDirectory directory cause)).editable place =
          s.editable place := funext (hk.editable_eq place)
      rw [meet_unreadable, ih, he]
      rfl

theorem iterate_revise_text (rules : List Rule) (n : Nat) (access : Access) (t : Text) :
    (Option.map (revise rules))^[n] (some (.file access (encode t))) =
      some (.file access (encode ((rewrite rules)^[n] t))) := by
  have h : Function.Semiconj (fun t => some (Node.file access (encode t))) (rewrite rules)
      (Option.map (revise rules)) := by
    intro t
    simp [revise, revised_encode]
  exact ((h.iterate_right n).eq t).symm

theorem run_of_directory {filter : Filter} {root : Path} {access : Access} {mode : Mode}
    (h : s.node root = .ok (.directory access)) :
    (run ⟨root, filter, mode⟩ : StateM Session (Except RootError Report)) s =
      (.ok ((meet (rewriteFile defaultRules mode) (itineraryOf filter s root) s).1.foldl
          Report.record .empty),
        (meet (rewriteFile defaultRules mode) (itineraryOf filter s root) s).2) := by
  unfold run
  rw [bind_run, walk_eq_meet (keepsShape_rewriteFile defaultRules mode) h]
  rfl

/-- A migration of a directory that writes succeeds. It rewrites each file with a text in it once
for each path of a bare walk through which the file can be edited, keeps the bytes of every other
file, and changes nothing else. -/
theorem run_write_disk (filter : Filter) (root : Path) (s : Session) (access : Access)
    (h : s.node root = .ok (.directory access)) :
    ∃ visited report s',
      ((walk filter pure root : StateM Session (Except RootError (List Path))) s).1 =
        .ok visited ∧
      (run ⟨root, filter, .write⟩ : StateM Session (Except RootError Report)) s =
        (.ok report, s') ∧
      (∀ place access t, s.disk.node? place = some (.file access (encode t)) →
        s'.disk.node? place = some (.file access
          (encode ((rewrite defaultRules)^[visited.countP (s.editable place)] t)))) ∧
      (∀ place access content, s.disk.node? place = some (.file access content) →
        (∀ t, content ≠ encode t) → s'.disk.node? place = some (.file access content)) ∧
      (∀ place, (∀ access content, s.disk.node? place ≠ some (.file access content)) →
        s'.disk.node? place = s.disk.node? place) := by
  refine ⟨(itineraryOf filter s root).filterMap Encounter.path?, _, _, ?_, run_of_directory h,
    ?_, ?_, ?_⟩
  · rw [walk_eq_meet keepsShape_pure h, meet_pure]
  · intro place access t hn
    rw [node?_meet, hn, iterate_revise_text]
  · intro place access content hn ht
    rw [node?_meet, hn]
    exact Function.iterate_fixed (by simp [revise, revised_of_not_text ht]) _
  · intro place hn
    rw [node?_meet]
    exact Function.iterate_fixed (map_revise_of_no_file hn) _

def sourceName : FileName :=
  ⟨[0x61, 0x2E, 0x6A, 0x73], by decide⟩

def aliasName : FileName :=
  ⟨[0x62, 0x2E, 0x6A, 0x73], by decide⟩

/-- A directory with a source file and a link to it, in which a first pass leaves an import. -/
def aliased : Session where
  disk := ⟨[([], .directory ⟨true, true, true⟩),
    ([sourceName], .file ⟨true, true, false⟩ (encode unclosedImport)),
    ([aliasName], .link ⟨sourceName.bytes⟩)], by decide⟩
  directory := []

def top : Path :=
  ⟨[Path.slash]⟩

theorem itinerary_aliased :
    itineraryOf .default aliased top =
      [.file (top.child sourceName), .file (top.child aliasName)] := by
  have hl : aliased.list top = .ok [⟨sourceName, .file⟩, ⟨aliasName, .link⟩] := by
    decide +kernel
  unfold itineraryOf itinerary
  rw [hl]
  dsimp only
  rw [List.mergeSort_of_pairwise (by decide +kernel)]
  decide +kernel

/-- The file is reached by its name and by the link, so one run rewrites it twice. -/
theorem aliased_rewritten_twice :
    aliased.node top = .ok (.directory ⟨true, true, true⟩) ∧
    ∃ report s',
      (run ⟨top, .default, .write⟩ : StateM Session (Except RootError Report)) aliased =
        (.ok report, s') ∧
      s'.disk.node? [sourceName] = some (.file ⟨true, true, false⟩
        (encode (rewrite defaultRules (rewrite defaultRules unclosedImport)))) ∧
      s'.disk.node? [aliasName] = some (.link ⟨sourceName.bytes⟩) := by
  have h : aliased.node top = .ok (.directory ⟨true, true, true⟩) := by decide +kernel
  obtain ⟨visited, report, s', hv, hr, htext, _, hrest⟩ := run_write_disk .default top aliased _ h
  have hn : visited.countP (aliased.editable [sourceName]) = 2 := by
    rw [walk_eq_meet keepsShape_pure h, meet_pure, itinerary_aliased] at hv
    obtain rfl := Except.ok.inj hv
    decide +kernel
  have hsource := htext [sourceName] ⟨true, true, false⟩ unclosedImport (by decide +kernel)
  have halias : aliased.disk.node? [aliasName] = some (.link ⟨sourceName.bytes⟩) := by
    decide +kernel
  rw [hn] at hsource
  exact ⟨h, report, s', hr, hsource, (hrest [aliasName] (by simp [halias])).trans halias⟩

end ImportMigration.Migration
