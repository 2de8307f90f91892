import ImportMigration.Proofs.Leading
import ImportMigration.Proofs.LossyText
import ImportMigration.Proofs.WalkOrder
import Mathlib.Data.List.Nodup
import Mathlib.Data.List.Perm.Subperm

/-!
Which files a walk visits: those that have a source file's name in a directory that the walk
reaches and can list, or that a link with such a name leads to (`Source.Candidate`). The walk
reaches the root and, from there on, real directories only, so it meets nothing twice, and the
depth that it is given suffices for every disk.
-/

namespace ImportMigration

/-- A file name that ends with `.js` or `.jsx`. -/
def FileName.IsSource (n : FileName) : Prop :=
  Utf8.encode ".js".toList <:+ n.bytes ∨ Utf8.encode ".jsx".toList <:+ n.bytes

instance (n : FileName) : Decidable n.IsSource :=
  inferInstanceAs (Decidable (_ ∨ _))

/-- The suffixes of source files are in ASCII. -/
theorem Source.toNat_lt_of_mem_suffixes {suffix : Text} (h : suffix ∈ Filter.default.suffixes) :
    ∀ c ∈ suffix, c.toNat < 0x80 := by
  simp only [Filter.default, List.mem_cons, List.not_mem_nil, or_false] at h
  rcases h with rfl | rfl <;> simp

/-- A path is accepted by the bytes of its file name. -/
theorem Source.accepts_iff {p : Path} : Filter.default.accepts p = true ↔
    ∃ name, p.fileName? = some name ∧
      (Utf8.encode ".js".toList <:+ name ∨ Utf8.encode ".jsx".toList <:+ name) := by
  have hbytes : ∀ suffix ∈ Filter.default.suffixes, ∀ name : Bytes,
      suffix.isSuffixOf (Utf8.lossy name) = true ↔ Utf8.encode suffix <:+ name := by
    intro suffix h name
    rw [List.isSuffixOf_iff_suffix, Utf8.isSuffix_lossy_iff (toNat_lt_of_mem_suffixes h)]
  have hjs := hbytes ".js".toList (.head _)
  have hjsx := hbytes ".jsx".toList (.tail _ (.head _))
  simp only [Filter.accepts, Option.any_eq_true, Filter.default, List.any_cons, List.any_nil,
    Bool.or_false, Bool.or_eq_true, hjs, hjsx]

theorem Source.accepts_child_iff {p : Path} {n : FileName} :
    Filter.default.accepts (p.child n) = true ↔ n.IsSource := by
  simp [accepts_iff, Path.fileName?_child, FileName.IsSource]

namespace Session

variable {s : Session} {p : Path} {place : Place}

/-- If the path leads anywhere, it leads to the place. -/
def LeadsOnlyTo (s : Session) (p : Path) (place : Place) : Prop :=
  ∀ q, s.resolve p = .ok q → q = place

theorem node_eq_ok_iff {n : Node} : s.node p = .ok n ↔
    ∃ place, s.resolve p = .ok place ∧ s.disk.node? place = some n := by
  unfold node
  cases s.resolve p with
  | error cause => simp [Except.bind]
  | ok place => cases hn : s.disk.node? place <;> simp [hn, Except.bind]

theorem leadsOnlyTo_of_resolve (h : s.resolve p = .ok place) : s.LeadsOnlyTo p place :=
  fun _ hq => Except.ok.inj (hq.symm.trans h)

theorem LeadsOnlyTo.child {n : FileName} {node : Node} (h : s.LeadsOnlyTo p place)
    (hp : (s.resolve p).isOk = true) (hn : s.disk.node? (place ++ [n]) = some node)
    (hl : ∀ target, node ≠ .link target) : s.LeadsOnlyTo (p.child n) (place ++ [n]) := by
  cases hq : s.resolve p with
  | error cause => simp [hq, Except.isOk, Except.toBool] at hp
  | ok q =>
    obtain rfl := h q hq
    obtain ⟨links, hchild⟩ := Disk.resolve_child hq n
    intro q' hq'
    rw [resolve, hchild] at hq'
    split at hq'
    · contradiction
    · exact Disk.follow_name hn hl hq'

theorem mem_listed_iff (h : s.LeadsOnlyTo p place) {entries : List Entry}
    (hl : s.list p = .ok entries) {e : Entry} :
    e ∈ entries ↔ ∃ node, s.disk.node? (place ++ [e.name]) = some node ∧ node.kind = e.kind := by
  obtain ⟨q, access, hq, _, _, rfl⟩ := list_eq_ok_iff.mp hl
  obtain rfl := h q hq
  exact s.disk.mem_entries_iff

end Session

namespace Source

/-- A walk below the root, which stands at `base`, reaches the directory with the names: all on the
way are real directories, and those before it can be listed through their paths. -/
structure Reached (s : Session) (root : Path) (base : Place) (names : List FileName) : Prop where
  directory : ∀ front, front <+: names → front ≠ [] →
    ∃ access, s.disk.node? (base ++ front) = some (.directory access)
  listed : ∀ front, front <+: names → front ≠ names →
    ∃ entries, s.list (root.below front) = .ok entries

/-- The name in the directory bears a source file, or a link that leads to a file. -/
structure Candidate (s : Session) (root : Path) (base : Place) (names : List FileName)
    (last : FileName) : Prop where
  reached : Reached s root base names
  listed : ∃ entries, s.list (root.below names) = .ok entries
  file : (∃ access content, s.disk.node? (base ++ names ++ [last]) = some (.file access content)) ∨
    (∃ target, s.disk.node? (base ++ names ++ [last]) = some (.link target)) ∧
      ∃ access content, s.node (root.below (names ++ [last])) = .ok (.file access content)
  source : last.IsSource

variable {s : Session} {root : Path} {base : Place}

theorem Reached.nil : Reached s root base [] := by
  refine ⟨?_, ?_⟩
  · intro front hf hne
    exact absurd (List.prefix_nil.mp hf) hne
  · intro front hf hne
    exact absurd (List.prefix_nil.mp hf) hne

theorem reached_cons_iff {n : FileName} {names : List FileName} :
    Reached s root base (n :: names) ↔ (∃ entries, s.list root = .ok entries) ∧
      (∃ access, s.disk.node? (base ++ [n]) = some (.directory access)) ∧
      Reached s (root.child n) (base ++ [n]) names := by
  constructor
  · intro h
    have hn : [n] <+: n :: names := ⟨names, rfl⟩
    refine ⟨h.listed [] List.nil_prefix (by simp), h.directory [n] hn (by simp), ?_, ?_⟩
    · intro front hf _
      rw [List.append_assoc]
      exact h.directory (n :: front) (List.cons_prefix_cons.mpr ⟨rfl, hf⟩) (by simp)
    · intro front hf hne
      exact h.listed (n :: front) (List.cons_prefix_cons.mpr ⟨rfl, hf⟩) (by simpa using hne)
  · intro he
    obtain ⟨hlist, hdir, h⟩ := he
    refine ⟨?_, ?_⟩
    · intro front hf hne
      rcases List.prefix_cons_iff.mp hf with rfl | ⟨front, rfl, hf'⟩
      · contradiction
      · cases front with
        | nil => exact hdir
        | cons n' front => simpa using h.directory (n' :: front) hf' (by simp)
    · intro front hf hne
      rcases List.prefix_cons_iff.mp hf with rfl | ⟨front, rfl, hf'⟩
      · exact hlist
      · exact h.listed front hf' (by simpa using hne)

theorem isOk_resolve_of_list {p : Path} {entries : List Entry} (hl : s.list p = .ok entries) :
    (s.resolve p).isOk = true := by
  obtain ⟨place, _, hp, _⟩ := Session.list_eq_ok_iff.mp hl
  simp [hp, Except.isOk, Except.toBool]

theorem exists_directory_of_mem {p : Path} {place : Place} (h : s.LeadsOnlyTo p place)
    {entries : List Entry} (hl : s.list p = .ok entries) {e : Entry} (he : e ∈ entries)
    (hk : e.kind = .directory) :
    ∃ access, s.disk.node? (place ++ [e.name]) = some (.directory access) := by
  obtain ⟨node, hn, hkind⟩ := (Session.mem_listed_iff h hl).mp he
  rw [hk] at hkind
  cases node with
  | directory access => exact ⟨access, hn⟩
  | _ => contradiction

/-- A chain of directories is no longer than the disk has nodes. -/
theorem Reached.length_le {names : List FileName} (h : Reached s root base names) :
    names.length ≤ s.disk.nodes.length := by
  let places := (List.range names.length).map fun k => base ++ names.take (k + 1)
  have hnodup : places.Nodup := by
    refine List.nodup_range.map_on ?_
    intro k hk k' hk' he
    rw [List.mem_range] at hk hk'
    have := congrArg List.length he
    simp only [List.length_append, List.length_take] at this
    omega
  have hsub : places ⊆ s.disk.nodes.map Prod.fst := by
    intro place hp
    obtain ⟨k, hk, rfl⟩ := List.mem_map.mp hp
    rw [List.mem_range] at hk
    have hne : names.take (k + 1) ≠ [] := by
      rw [ne_eq, List.take_eq_nil_iff]
      rintro (h | rfl)
      · contradiction
      · simp at hk
    obtain ⟨access, ha⟩ := h.directory _ (List.take_prefix _ _) hne
    exact List.mem_map.mpr ⟨_, s.disk.mem_nodes_iff.mpr ha, rfl⟩
  simpa [places] using (List.Nodup.subperm hnodup hsub).length_le

theorem Reached.leadsOnlyTo {names : List FileName} (hr : Reached s root base names)
    (h : s.LeadsOnlyTo root base) : s.LeadsOnlyTo (root.below names) (base ++ names) := by
  induction names generalizing root base with
  | nil => simpa using h
  | cons n names ih =>
    obtain ⟨⟨entries, hl⟩, ⟨access, hn⟩, hr⟩ := reached_cons_iff.mp hr
    have hchild := h.child (isOk_resolve_of_list hl) hn (by simp)
    simpa using ih hr hchild

/-- What a walk meets in a directory that it has reached, apart from what lies further below. -/
def MetIn (filter : Filter) (s : Session) (directory : Path) (e : Encounter) : Prop :=
  (∃ cause, s.list directory = .error cause ∧ e = .unreadable directory cause) ∨
    ∃ entries, s.list directory = .ok entries ∧ ∃ entry ∈ entries, entry.kind ≠ .directory ∧
      leadsToFile s (directory.child entry.name) entry.kind = true ∧
      filter.accepts (directory.child entry.name) = true ∧
      e = .file (directory.child entry.name)

/-- A walk meets what is in the directories that it reaches within its depth. -/
theorem mem_itinerary_iff (filter : Filter) {depth : Nat} (h : s.LeadsOnlyTo root base)
    {e : Encounter} : e ∈ itinerary filter s depth root ↔
      ∃ names, names.length < depth ∧ Reached s root base names ∧
        MetIn filter s (root.below names) e := by
  induction depth generalizing root base with
  | zero => simp [itinerary]
  | succ depth ih =>
    cases hl : s.list root with
    | error cause =>
      rw [itinerary_of_error hl]
      constructor
      · intro he
        exact ⟨[], by simp, .nil, .inl ⟨cause, hl, List.mem_singleton.mp he⟩⟩
      · intro he
        obtain ⟨names, _, hr, hm⟩ := he
        cases names with
        | nil =>
          rcases hm with ⟨cause', hc, rfl⟩ | ⟨entries, hc, _⟩
          · rw [Path.below_nil, hl] at hc
            simp [Except.error.inj hc]
          · simp [hl] at hc
        | cons n names =>
          obtain ⟨⟨entries, hc⟩, _⟩ := reached_cons_iff.mp hr
          simp [hl] at hc
    | ok entries =>
      have hchild {n : FileName} {access : Access}
          (hn : s.disk.node? (base ++ [n]) = some (.directory access)) :
          s.LeadsOnlyTo (root.child n) (base ++ [n]) :=
        h.child (isOk_resolve_of_list hl) hn (by simp)
      rw [itinerary_of_ok hl]
      simp only [List.mem_flatMap, List.mem_mergeSort]
      constructor
      · intro he
        obtain ⟨entry, hentry, he⟩ := he
        rcases mem_encounters_iff.mp he with ⟨hk, he⟩ | ⟨hk, hf, ha, he⟩
        · obtain ⟨access, hn⟩ := exists_directory_of_mem h hl hentry hk
          obtain ⟨names, hlen, hr, hm⟩ := (ih (hchild hn)).mp he
          exact ⟨entry.name :: names, by simpa using hlen,
            reached_cons_iff.mpr ⟨⟨entries, hl⟩, ⟨access, hn⟩, hr⟩, hm⟩
        · exact ⟨[], by simp, .nil, .inr ⟨entries, hl, entry, hentry, hk, hf, ha, he⟩⟩
      · intro he
        obtain ⟨names, hlen, hr, hm⟩ := he
        cases names with
        | nil =>
          rcases hm with ⟨cause, hc, _⟩ | ⟨entries', hc, entry, hentry, hk, hf, ha, he⟩
          · simp [hl] at hc
          · rw [Path.below_nil] at hc hf ha he
            obtain rfl := Except.ok.inj (hl.symm.trans hc)
            exact ⟨entry, hentry, mem_encounters_iff.mpr (.inr ⟨hk, hf, ha, he⟩)⟩
        | cons n names =>
          obtain ⟨_, ⟨access, hn⟩, hr⟩ := reached_cons_iff.mp hr
          have he := (ih (hchild hn)).mpr ⟨names, by simpa using hlen, hr, hm⟩
          exact ⟨⟨n, .directory⟩, (Session.mem_listed_iff h hl).mpr ⟨_, hn, rfl⟩,
            mem_encounters_iff.mpr (.inl ⟨rfl, he⟩)⟩

theorem metIn_unreadable_iff {filter : Filter} {directory d : Path} {cause : Cause} :
    MetIn filter s directory (.unreadable d cause) ↔
      d = directory ∧ s.list directory = .error cause := by
  constructor
  · intro h
    rcases h with ⟨cause', hl, he⟩ | ⟨_, _, _, _, _, _, _, he⟩
    · obtain ⟨rfl, rfl⟩ := Encounter.unreadable.inj he
      exact ⟨rfl, hl⟩
    · contradiction
  · intro he
    obtain ⟨rfl, hl⟩ := he
    exact .inl ⟨cause, hl, rfl⟩

theorem leadsToFile_link_iff {p : Path} : leadsToFile s p .link = true ↔
    ∃ access content, s.node p = .ok (.file access content) := by
  unfold leadsToFile
  cases s.node p with
  | error cause => simp [Except.map, Except.toOption]
  | ok node => cases node <;> simp [Except.map, Except.toOption, Node.kind]

/-- The files met in a directory are the candidates in it. -/
theorem metIn_file_iff (h : s.LeadsOnlyTo root base) {names : List FileName}
    (hr : Reached s root base names) {p : Path} :
    MetIn .default s (root.below names) (.file p) ↔
      ∃ last, p = root.below (names ++ [last]) ∧ Candidate s root base names last := by
  have hd := hr.leadsOnlyTo h
  have hbelow (n : FileName) : root.below (names ++ [n]) = (root.below names).child n :=
    Path.below_append ..
  simp only [hbelow]
  constructor
  · intro hm
    rcases hm with ⟨_, _, he⟩ | ⟨entries, hl, entry, hentry, hk, hf, ha, he⟩
    · contradiction
    obtain rfl := Encounter.file.inj he
    refine ⟨entry.name, rfl, hr, ⟨entries, hl⟩, ?_, accepts_child_iff.mp ha⟩
    obtain ⟨node, hn, hkind⟩ := (Session.mem_listed_iff hd hl).mp hentry
    rw [hbelow, ← leadsToFile_link_iff, hn]
    rw [← hkind] at hk hf
    cases node with
    | file access content => exact .inl ⟨access, content, rfl⟩
    | directory access => exact absurd rfl hk
    | link target => exact .inr ⟨⟨target, rfl⟩, hf⟩
    | sink => contradiction
  · intro he
    obtain ⟨last, rfl, hc⟩ := he
    obtain ⟨entries, hl⟩ := hc.listed
    have ha : Filter.default.accepts ((root.below names).child last) = true :=
      accepts_child_iff.mpr hc.source
    rcases hc.file with ⟨access, content, hn⟩ | ⟨⟨target, hn⟩, hfile⟩
    · exact .inr ⟨entries, hl, ⟨last, .file⟩, (Session.mem_listed_iff hd hl).mpr ⟨_, hn, rfl⟩,
        by simp, rfl, ha, rfl⟩
    · rw [hbelow] at hfile
      exact .inr ⟨entries, hl, ⟨last, .link⟩, (Session.mem_listed_iff hd hl).mpr ⟨_, hn, rfl⟩,
        by simp, leadsToFile_link_iff.mpr hfile, ha, rfl⟩

theorem mem_itineraryOf_iff (filter : Filter) (h : s.LeadsOnlyTo root base) {e : Encounter} :
    e ∈ itineraryOf filter s root ↔
      ∃ names, Reached s root base names ∧ MetIn filter s (root.below names) e := by
  rw [itineraryOf, mem_itinerary_iff filter h]
  constructor
  · intro he
    obtain ⟨names, _, he⟩ := he
    exact ⟨names, he⟩
  · intro he
    obtain ⟨names, hr, hm⟩ := he
    exact ⟨names, Nat.lt_succ_of_le hr.length_le, hr, hm⟩

/-- The files that a walk meets are the candidates. -/
theorem file_mem_itineraryOf_iff (h : s.LeadsOnlyTo root base) {p : Path} :
    .file p ∈ itineraryOf .default s root ↔
      ∃ names last, p = root.below (names ++ [last]) ∧ Candidate s root base names last := by
  rw [mem_itineraryOf_iff .default h]
  constructor
  · intro he
    obtain ⟨names, hr, hm⟩ := he
    exact ⟨names, (metIn_file_iff h hr).mp hm⟩
  · intro he
    obtain ⟨names, last, hp, hc⟩ := he
    exact ⟨names, hc.reached, (metIn_file_iff h hc.reached).mpr ⟨last, hp, hc⟩⟩

/-- The directories that a walk reports are those that it reaches and that cannot be listed. -/
theorem unreadable_mem_itineraryOf_iff (filter : Filter) (h : s.LeadsOnlyTo root base)
    {directory : Path} {cause : Cause} :
    .unreadable directory cause ∈ itineraryOf filter s root ↔
      ∃ names, directory = root.below names ∧ Reached s root base names ∧
        s.list (root.below names) = .error cause := by
  rw [mem_itineraryOf_iff filter h]
  simp only [metIn_unreadable_iff]
  constructor
  · intro he
    obtain ⟨names, hr, hd, hl⟩ := he
    exact ⟨names, hd, hr, hl⟩
  · intro he
    obtain ⟨names, hd, hr, hl⟩ := he
    exact ⟨names, hr, hd, hl⟩

theorem Candidate.list_of_isPrefix {names front : List FileName} {last : FileName}
    (hc : Candidate s root base names last) (hf : front <+: names) :
    ∃ entries, s.list (root.below front) = .ok entries := by
  by_cases hn : front = names
  · exact hn ▸ hc.listed
  · exact hc.reached.listed front hf hn

/-- No candidate is a directory that the walk reaches. -/
theorem Candidate.not_reached {names : List FileName} {last : FileName}
    (hc : Candidate s root base names last) : ¬ Reached s root base (names ++ [last]) := by
  intro hr
  obtain ⟨access, hd⟩ := hr.directory _ List.prefix_rfl (by simp)
  rw [← List.append_assoc] at hd
  rcases hc.file with ⟨_, _, hn⟩ | ⟨⟨_, hn⟩, _⟩
  · simpa using hd.symm.trans hn
  · simpa using hd.symm.trans hn

/-- Nothing below a directory that cannot be listed is a candidate. -/
theorem Candidate.ne_below_unreadable {names names' rest : List FileName} {last : FileName}
    {cause : Cause} (hc : Candidate s root base names last) (hr : Reached s root base names')
    (hl : s.list (root.below names') = .error cause) : names ++ [last] ≠ names' ++ rest := by
  intro he
  rcases List.eq_nil_or_concat rest with rfl | ⟨rest, last', rfl⟩
  · rw [List.append_nil] at he
    exact hc.not_reached (he ▸ hr)
  · rw [List.concat_eq_append, ← List.append_assoc] at he
    obtain ⟨rfl, _⟩ := List.append_inj' he rfl
    obtain ⟨entries, hok⟩ := hc.list_of_isPrefix (List.prefix_append ..)
    simp [hl] at hok

def Encounter.notice? : Encounter → Option Notice
  | file _ => none
  | unreadable directory cause => some (.unreadableDirectory directory cause)

theorem Encounter.notice?_eq_some_iff {e : Encounter} {n : Notice} :
    e.notice? = some n ↔
      ∃ directory cause, e = .unreadable directory cause ∧
        n = .unreadableDirectory directory cause := by
  cases e <;> simp [notice?, eq_comm]

/-- Visits that do nothing leave the warnings. -/
theorem state_meet_pure (es : List Encounter) (s : Session) :
    (meet (pure : Path → StateM Session Path) es s).2 =
      { s with notices := s.notices ++ es.filterMap Encounter.notice? } := by
  induction es generalizing s with
  | nil =>
    rw [List.filterMap_nil, List.append_nil]
    rfl
  | cons e es ih =>
    cases e with
    | file p => exact ih s
    | unreadable directory cause =>
      rw [meet_unreadable, ih]
      simp [Session.tell, Encounter.notice?]

/-- A walk of a root that leads to a directory visits each candidate once and nothing else. It
warns once of each directory that it reaches and cannot list, and visits nothing below it. Visits
that change at most the contents of files leave what the walk meets, and its order, as they are. -/
theorem walk_visits_candidates (s : Session) (root : Path) (access : Access)
    (h : s.node root = .ok (.directory access)) :
    ∃ base visited warnings,
      s.resolve root = .ok base ∧
      (walk .default pure root : StateM Session (Except RootError (List Path))) s =
        (.ok visited, { s with notices := s.notices ++ warnings }) ∧
      visited.Nodup ∧
      (∀ p, p ∈ visited ↔
        ∃ names last, p = root.below (names ++ [last]) ∧ Candidate s root base names last) ∧
      warnings.Nodup ∧
      (∀ n, n ∈ warnings ↔ ∃ names cause, n = .unreadableDirectory (root.below names) cause ∧
        Reached s root base names ∧ s.list (root.below names) = .error cause) ∧
      (∀ names cause, Reached s root base names → s.list (root.below names) = .error cause →
        ∀ rest, root.below (names ++ rest) ∉ visited) ∧
      ∃ es : List Encounter, es.filterMap Encounter.path? = visited ∧
        es.filterMap Encounter.notice? = warnings ∧
        ∀ (α : Type) (visit : Path → StateM Session α), KeepsShape visit →
          walk .default visit root s = (.ok (meet visit es s).1, (meet visit es s).2) := by
  obtain ⟨base, hb, _⟩ := Session.node_eq_ok_iff.mp h
  have hroot := Session.leadsOnlyTo_of_resolve hb
  have hvisited (p : Path) :
      p ∈ (itineraryOf .default s root).filterMap Encounter.path? ↔
        ∃ names last, p = root.below (names ++ [last]) ∧ Candidate s root base names last := by
    simp only [List.mem_filterMap, Encounter.path?_eq_some_iff, exists_eq_right,
      file_mem_itineraryOf_iff hroot]
  refine ⟨base, _, _, hb, ?_, ?_, hvisited, ?_, ?_, ?_, itineraryOf .default s root, rfl, rfl,
    fun _ _ hv => walk_eq_meet hv h⟩
  · rw [walk_eq_meet keepsShape_pure h, meet_pure, state_meet_pure]
  · exact nodup_paths .default s root
  · refine List.Nodup.filterMap ?_ (nodup_itinerary .default s _ root)
    intro e e' n he he'
    obtain ⟨d, c, rfl, rfl⟩ := Encounter.notice?_eq_some_iff.mp he
    obtain ⟨d', c', rfl, hn⟩ := Encounter.notice?_eq_some_iff.mp he'
    obtain ⟨rfl, rfl⟩ := Notice.unreadableDirectory.inj hn
    rfl
  · intro n
    rw [List.mem_filterMap]
    constructor
    · intro hn
      obtain ⟨e, he, hn⟩ := hn
      obtain ⟨d, cause, rfl, rfl⟩ := Encounter.notice?_eq_some_iff.mp hn
      obtain ⟨names, rfl, hr, hl⟩ := (unreadable_mem_itineraryOf_iff .default hroot).mp he
      exact ⟨names, cause, rfl, hr, hl⟩
    · intro hn
      obtain ⟨names, cause, rfl, hr, hl⟩ := hn
      exact ⟨_, (unreadable_mem_itineraryOf_iff .default hroot).mpr ⟨names, rfl, hr, hl⟩, rfl⟩
  · intro names cause hr hl rest hp
    obtain ⟨names', last, he, hc⟩ := (hvisited _).mp hp
    exact hc.ne_below_unreadable hr hl (Path.below_inj he).symm

def sourceDirectory : FileName :=
  ⟨Utf8.encode "src".toList, by decide +kernel⟩

def linkedDirectory : FileName :=
  ⟨Utf8.encode "www".toList, by decide +kernel⟩

def closedDirectory : FileName :=
  ⟨Utf8.encode "lib".toList, by decide +kernel⟩

def regular : FileName :=
  ⟨Utf8.encode "a.js".toList, by decide +kernel⟩

def mirrored : FileName :=
  ⟨Utf8.encode "b.jsx".toList, by decide +kernel⟩

def cyclic : FileName :=
  ⟨Utf8.encode "c.js".toList, by decide +kernel⟩

def upward : FileName :=
  ⟨Utf8.encode "d.js".toList, by decide +kernel⟩

/-- A directory with a file, links to the file, to themselves and back to the directory, and a
directory in it that cannot be listed. A link beside it leads to it. -/
def tangled : Session where
  disk := ⟨[([], .directory ⟨true, true, true⟩),
    ([linkedDirectory], .link ⟨sourceDirectory.bytes⟩),
    ([sourceDirectory], .directory ⟨true, true, true⟩),
    ([sourceDirectory, regular], .file ⟨true, true, false⟩ []),
    ([sourceDirectory, mirrored], .link ⟨regular.bytes⟩),
    ([sourceDirectory, cyclic], .link ⟨cyclic.bytes⟩),
    ([sourceDirectory, upward], .link ⟨Path.slash :: sourceDirectory.bytes⟩),
    ([sourceDirectory, closedDirectory], .directory ⟨false, true, true⟩),
    ([sourceDirectory, closedDirectory, regular], .file ⟨true, true, false⟩ [])],
    by decide +kernel⟩
  directory := []

def front : Path :=
  ⟨linkedDirectory.bytes⟩

/-- The walk visits the file by its name and by the link to it, and warns of the directory. -/
theorem tangled_visits :
    tangled.node front = .ok (.directory ⟨true, true, true⟩) ∧
    ∃ visited warnings,
      (walk .default pure front : StateM Session (Except RootError (List Path))) tangled =
        (.ok visited, { tangled with notices := warnings }) ∧
      visited.count (front.child regular) = 1 ∧
      visited.count (front.child mirrored) = 1 ∧
      front.child cyclic ∉ visited ∧
      front.child upward ∉ visited ∧
      warnings.count
        (.unreadableDirectory (front.child closedDirectory) .notPermitted) = 1 ∧
      (front.child closedDirectory).child regular ∉ visited ∧
      ∃ contents, (walk .default
        (fun p => (Machine.read p : StateM Session (Except Cause Bytes))) front tangled).1 =
          .ok contents := by
  have h : tangled.node front = .ok (.directory ⟨true, true, true⟩) := by decide +kernel
  obtain ⟨base, visited, warnings, hb, hwalk, hnodup, hvisited, hwarned, hwarnings, hbeneath, es,
    rfl, rfl, hall⟩ := walk_visits_candidates tangled front _ h
  have hbase : tangled.resolve front = .ok [sourceDirectory] := by decide +kernel
  obtain rfl := Except.ok.inj (hbase.symm.trans hb)
  have hlist : ∃ entries, tangled.list front = .ok entries :=
    ⟨_, Session.list_eq_ok_iff.mpr
      ⟨[sourceDirectory], ⟨true, true, true⟩, hbase, by decide +kernel, rfl, rfl⟩⟩
  have hregular : Candidate tangled front [sourceDirectory] [] regular :=
    ⟨.nil, hlist, .inl ⟨⟨true, true, false⟩, [], by decide +kernel⟩, by decide +kernel⟩
  have hmirrored : Candidate tangled front [sourceDirectory] [] mirrored :=
    ⟨.nil, hlist, .inr ⟨⟨⟨regular.bytes⟩, by decide +kernel⟩, ⟨true, true, false⟩, [],
      by decide +kernel⟩, by decide +kernel⟩
  have hno {n : FileName} (target : Path)
      (hn : tangled.disk.node? [sourceDirectory, n] = some (.link target))
      (hf : (tangled.node (front.child n)).map Node.kind ≠ .ok .file) :
      front.child n ∉ es.filterMap Encounter.path? := by
    intro hp
    obtain ⟨names, last, he, hc⟩ := (hvisited _).mp hp
    have hnames : [n] = names ++ [last] := Path.below_inj he
    cases names with
    | cons _ names => simp at hnames
    | nil =>
      obtain rfl := List.singleton_inj.mp hnames
      rcases hc.file with ⟨_, _, hfile⟩ | ⟨_, _, _, hfile⟩
      · exact absurd (hn.symm.trans hfile) (by simp)
      · exact hf (congrArg (Except.map Node.kind) hfile)
  have hclosed : Reached tangled front [sourceDirectory] [closedDirectory] :=
    reached_cons_iff.mpr ⟨hlist, ⟨⟨false, true, true⟩, by decide +kernel⟩, .nil⟩
  have hcause : tangled.list (front.below [closedDirectory]) = .error .notPermitted := by
    decide +kernel
  refine ⟨h, _, _, hwalk, ?_, ?_, ?_, ?_, ?_, ?_, ?_⟩
  · exact List.count_eq_one_of_mem hnodup ((hvisited _).mpr ⟨[], regular, rfl, hregular⟩)
  · exact List.count_eq_one_of_mem hnodup ((hvisited _).mpr ⟨[], mirrored, rfl, hmirrored⟩)
  · exact hno ⟨cyclic.bytes⟩ (by decide +kernel) (by decide +kernel)
  · exact hno ⟨Path.slash :: sourceDirectory.bytes⟩ (by decide +kernel) (by decide +kernel)
  · exact List.count_eq_one_of_mem hwarned
      ((hwarnings _).mpr ⟨[closedDirectory], .notPermitted, rfl, hclosed, hcause⟩)
  · exact hbeneath [closedDirectory] .notPermitted hclosed hcause [regular]
  · rw [hall _ _ fun _ s => .refl s]
    exact ⟨_, rfl⟩

end Source

end ImportMigration
