import ImportMigration.Proofs.Outcome
import ImportMigration.Proofs.Visits

/-!
How far a migration reaches. It changes nothing but the contents of files, and only those of
candidates: of files below the root, or of those that links below the root lead to. Such a link may
lead anywhere, and to a file of any name.
-/

namespace ImportMigration

namespace Source

variable {s : Session} {root : Path} {place : Place}

/-- The link with the name in the directory leads to the place. -/
def LinkLeadsTo (s : Session) (root : Path) (base : Place) (names : List FileName)
    (last : FileName) (place : Place) : Prop :=
  (∃ target, s.disk.node? (base ++ names ++ [last]) = some (.link target)) ∧
    s.resolve (root.below (names ++ [last])) = .ok place

theorem Candidate.place_or_link {base : Place} {names : List FileName} {last : FileName}
    (hc : Candidate s root base names last) (h : s.LeadsOnlyTo root base)
    (hp : s.resolve (root.below (names ++ [last])) = .ok place) :
    place = base ++ names ++ [last] ∨ LinkLeadsTo s root base names last place := by
  rcases hc.file with ⟨access, content, hn⟩ | ⟨hn, _⟩
  · left
    obtain ⟨entries, hl⟩ := hc.listed
    have hd := hc.reached.leadsOnlyTo h
    rw [Path.below_append] at hp
    exact hd.child (isOk_resolve_of_list hl) hn (by simp) place hp
  · exact .inr ⟨hn, hp⟩

end Source

namespace Migration

open Import Utf8 Source

variable {rules : List Rule} {s : Session} {place : Place}

theorem disk_meet_dryRun (rules : List Rule) (es : List Encounter) (s : Session) :
    (meet (rewriteFile rules .dryRun) es s).2.disk = s.disk := by
  obtain ⟨said, h⟩ := meet_dryRun rules es s
  rw [h]

/-- The session after a migration. -/
def after (options : Options) (s : Session) : Session :=
  ((run options : StateM Session (Except RootError Report)) s).2

theorem after_of_directory {options : Options} {access : Access}
    (h : s.node options.root = .ok (.directory access)) :
    after options s =
      (meet (rewriteFile defaultRules options.mode)
        (itineraryOf options.filter s options.root) s).2 :=
  congrArg Prod.snd (run_of_directory h)

theorem run_of_no_directory {options : Options}
    (h : ∀ access, s.node options.root ≠ .ok (.directory access)) :
    ∃ e, (run options : StateM Session (Except RootError Report)) s = (.error e, s) := by
  unfold run walk
  rw [bind_run, bind_run, kind_run]
  cases hn : s.node options.root with
  | error cause => exact ⟨_, rfl⟩
  | ok node =>
    cases node with
    | directory access => exact absurd hn (h access)
    | _ => exact ⟨_, rfl⟩

theorem after_of_no_directory {options : Options}
    (h : ∀ access, s.node options.root ≠ .ok (.directory access)) : after options s = s := by
  obtain ⟨e, he⟩ := run_of_no_directory h
  exact congrArg Prod.snd he

/-- What a run of visits changes can be edited through the path of one of them. -/
theorem exists_editable_of_changed {es : List Encounter}
    (h : (meet (rewriteFile rules .write) es s).2.disk.node? place ≠ s.disk.node? place) :
    ∃ p, .file p ∈ es ∧ s.editable place p = true := by
  have hpos : 0 < (es.filterMap Encounter.path?).countP (s.editable place) := by
    rw [Nat.pos_iff_ne_zero]
    intro h0
    rw [node?_meet, h0] at h
    exact h rfl
  obtain ⟨p, hp, he⟩ := List.countP_pos_iff.mp hpos
  rw [List.mem_filterMap] at hp
  obtain ⟨e, hmem, hp⟩ := hp
  exact ⟨p, Encounter.path?_eq_some_iff.mp hp ▸ hmem, he⟩

/-- A run of visits changes nothing but the contents of files. -/
theorem exists_file_of_changed {mode : Mode} {es : List Encounter}
    (h : (meet (rewriteFile rules mode) es s).2.disk.node? place ≠ s.disk.node? place) :
    ∃ access content content', s.disk.node? place = some (.file access content) ∧
      (meet (rewriteFile rules mode) es s).2.disk.node? place = some (.file access content') := by
  rcases ((keepsShape_rewriteFile rules mode).meet es s).disk.cases place with
    ⟨access, content, content', hn, hn'⟩ | hsame
  · exact ⟨access, content', content, hn', hn⟩
  · exact absurd hsame h

/-- What a migration changes is the content of a file, and it does so only if it writes. The file
has a source file's name and is reached from the root through real directories, or a link that has
such a name and is reached so leads to it. -/
theorem run_changes_candidates (s : Session) (root : Path) (mode : Mode) (place : Place)
    (h : (after ⟨root, .default, mode⟩ s).disk.node? place ≠ s.disk.node? place) :
    mode = .write ∧
    (∃ access content content', s.disk.node? place = some (.file access content) ∧
      (after ⟨root, .default, mode⟩ s).disk.node? place = some (.file access content')) ∧
    ∃ base access names last, s.resolve root = .ok base ∧
      s.disk.node? base = some (.directory access) ∧ Candidate s root base names last ∧
      (place = base ++ names ++ [last] ∨ LinkLeadsTo s root base names last place) := by
  by_cases hroot : ∃ access, s.node root = .ok (.directory access)
  · obtain ⟨access, hroot⟩ := hroot
    obtain ⟨base, hb, hbase⟩ := Session.node_eq_ok_iff.mp hroot
    rw [after_of_directory hroot] at h ⊢
    cases mode with
    | dryRun =>
      dsimp only at h
      rw [disk_meet_dryRun] at h
      exact absurd rfl h
    | write =>
      refine ⟨rfl, exists_file_of_changed h, ?_⟩
      have honly := Session.leadsOnlyTo_of_resolve hb
      obtain ⟨p, hp, he⟩ := exists_editable_of_changed h
      obtain ⟨names, last, rfl, hc⟩ := (file_mem_itineraryOf_iff honly).mp hp
      rw [Session.editable_eq, Bool.and_eq_true, decide_eq_true_eq] at he
      exact ⟨base, access, names, last, hb, hbase, hc, hc.place_or_link honly he.1⟩
  · rw [after_of_no_directory fun access ha => hroot ⟨access, ha⟩] at h
    exact absurd rfl h

def notesName : FileName :=
  ⟨encode "notes.txt".toList, by decide +kernel⟩

def legacyImport : Text :=
  "import A from '@material-ui/core';".toList

/-- A directory with a link that has a source file's name and leads to the notes beside it. -/
def linked : Session where
  disk := ⟨[([], .directory ⟨true, true, true⟩),
    ([notesName], .file ⟨true, true, false⟩ (encode legacyImport)),
    ([sourceDirectory], .directory ⟨true, true, true⟩),
    ([sourceDirectory, regular], .link ⟨encode "../notes.txt".toList⟩)], by decide +kernel⟩
  directory := []

def sourceRoot : Path :=
  ⟨sourceDirectory.bytes⟩

theorem itinerary_linked :
    itineraryOf .default linked sourceRoot = [.file (sourceRoot.child regular)] := by
  have hl : linked.list sourceRoot = .ok [⟨regular, .link⟩] := by decide +kernel
  unfold itineraryOf itinerary
  rw [hl]
  dsimp only
  rw [List.mergeSort_singleton]
  decide +kernel

theorem node?_after_linked :
    (after ⟨sourceRoot, .default, .write⟩ linked).disk.node? [notesName] =
      (linked.disk.node? [notesName]).map (revise defaultRules) := by
  have h : linked.node sourceRoot = .ok (.directory ⟨true, true, true⟩) := by decide +kernel
  have hcount : ([Encounter.file (sourceRoot.child regular)].filterMap Encounter.path?).countP
      (linked.editable [notesName]) = 1 := by
    decide +kernel
  rw [after_of_directory h, node?_meet, itinerary_linked, hcount]
  rfl

/-- A migration changes the notes, which are not below the root and have no source file's name. -/
theorem linked_changes_beyond_root :
    ∃ content content', content ≠ content' ∧
      linked.disk.node? [notesName] = some (.file ⟨true, true, false⟩ content) ∧
      (after ⟨sourceRoot, .default, .write⟩ linked).disk.node? [notesName] =
        some (.file ⟨true, true, false⟩ content') ∧
      linked.resolve sourceRoot = .ok [sourceDirectory] ∧
      ¬ [sourceDirectory] <+: [notesName] ∧ ¬ notesName.IsSource := by
  have hn : linked.disk.node? [notesName] =
      some (.file ⟨true, true, false⟩ (encode legacyImport)) := by
    decide +kernel
  refine ⟨encode legacyImport, encode (rewrite defaultRules legacyImport), ?_, hn, ?_, ?_, ?_, ?_⟩
  · decide +kernel
  · rw [node?_after_linked, hn, Option.map_some, revise, revised_encode]
  · decide +kernel
  · decide
  · decide +kernel

theorem linked_changes_candidate :
    (after ⟨sourceRoot, .default, .write⟩ linked).disk.node? [notesName] ≠
      linked.disk.node? [notesName] ∧
    ∃ names last, Candidate linked sourceRoot [sourceDirectory] names last ∧
      LinkLeadsTo linked sourceRoot [sourceDirectory] names last [notesName] := by
  have hchanged : (after ⟨sourceRoot, .default, .write⟩ linked).disk.node? [notesName] ≠
      linked.disk.node? [notesName] := by
    rw [node?_after_linked]
    decide +kernel
  refine ⟨hchanged, ?_⟩
  obtain ⟨_, _, base, _, names, last, hb, _, hc, hp⟩ :=
    run_changes_candidates linked sourceRoot .write _ hchanged
  have hbase : linked.resolve sourceRoot = .ok [sourceDirectory] := by decide +kernel
  obtain rfl := Except.ok.inj (hbase.symm.trans hb)
  rcases hp with hp | hp
  · exact absurd (congrArg List.length hp) (by simp)
  · exact ⟨names, last, hc, hp⟩

end Migration

end ImportMigration
