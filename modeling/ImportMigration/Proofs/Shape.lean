import ImportMigration.Disk.Session
import ImportMigration.Source.Walk
import Mathlib.Data.List.Basic

/-!
The shape of a disk is all that stands on it but the contents of its files. Where a path leads and
what a directory lists depend on the shape alone.

The nodes of a disk are kept in no particular order, so two disks of one shape list a directory in
two orders; sorting the entries makes them one.
-/

namespace ImportMigration

namespace Source

theorem entryLE_iff {x y : Entry} : entryLE x y = true ↔ x.name.bytes ≤ y.name.bytes := by
  simp [entryLE, List.not_lt]

theorem entryLE_trans (x y z : Entry) (h : entryLE x y = true) (h' : entryLE y z = true) :
    entryLE x z = true := by
  rw [entryLE_iff] at *
  exact List.le_trans h h'

theorem entryLE_total (x y : Entry) : (entryLE x y || entryLE y x) = true := by
  simp only [Bool.or_eq_true, entryLE_iff]
  exact List.le_total _ _

theorem entryLE_antisymm {x y : Entry} (h : entryLE x y = true) (h' : entryLE y x = true) :
    x.name = y.name := by
  rw [entryLE_iff] at *
  have hb := List.le_antisymm h h'
  cases hx : x.name
  cases hy : y.name
  simp_all

end Source

/-- A node without the content that it has as a file. -/
def Node.shape : Node → Node
  | .file access _ => .file access []
  | n => n

theorem Node.shape_eq_iff {n n' : Node} :
    n.shape = n'.shape ↔ (∃ access content content', n = .file access content ∧
      n' = .file access content') ∨ n = n' := by
  cases n <;> cases n' <;> simp [shape, eq_comm]
  all_goals grind

namespace Disk

theorem mem_nodes_iff (d : Disk) {p : Place} {n : Node} :
    (p, n) ∈ d.nodes ↔ d.node? p = some n := by
  obtain ⟨nodes, hd⟩ := d
  show (p, n) ∈ nodes ↔ nodes.lookup p = some n
  induction nodes with
  | nil => simp
  | cons x nodes ih =>
    obtain ⟨q, m⟩ := x
    rw [List.map_cons, List.nodup_cons] at hd
    rw [List.mem_cons, List.lookup_cons]
    by_cases hq : p = q
    · subst hq
      have hn : ¬ (p, n) ∈ nodes := fun h => hd.1 (List.mem_map.mpr ⟨_, h, rfl⟩)
      simp [hn, eq_comm]
    · have hb : (p == q) = false := by simpa using hq
      simpa [hb, hq] using ih hd.2

theorem mem_places_iff (d : Disk) {p : Place} :
    p ∈ d.nodes.map Prod.fst ↔ (d.node? p).isSome = true := by
  simp only [List.mem_map, Prod.exists, mem_nodes_iff, Option.isSome_iff_exists]
  grind

theorem entry_eq_some_iff {p q : Place} {n : Node} {e : Entry} :
    (match q.getLast? with
      | some name => if q.dropLast = p then some (⟨name, n.kind⟩ : Entry) else none
      | none => none) = some e ↔ q = p ++ [e.name] ∧ n.kind = e.kind := by
  constructor
  · intro he
    cases hl : q.getLast? with
    | none => simp [hl] at he
    | some name =>
      simp only [hl] at he
      split at he
      · rename_i hp
        obtain rfl := Option.some.inj he
        exact ⟨hp ▸ (List.dropLast_append_getLast? _ hl).symm, rfl⟩
      · contradiction
  · intro h
    obtain ⟨hq, hk⟩ := h
    simp [hq, hk]

theorem mem_entries_iff (d : Disk) {p : Place} {e : Entry} :
    e ∈ d.entries p ↔ ∃ n, d.node? (p ++ [e.name]) = some n ∧ n.kind = e.kind := by
  rw [entries, List.mem_filterMap]
  constructor
  · intro h
    obtain ⟨⟨q, n⟩, hm, he⟩ := h
    obtain ⟨rfl, hk⟩ := entry_eq_some_iff.mp he
    exact ⟨n, d.mem_nodes_iff.mp hm, hk⟩
  · intro h
    obtain ⟨n, hn, hk⟩ := h
    exact ⟨(p ++ [e.name], n), d.mem_nodes_iff.mpr hn, entry_eq_some_iff.mpr ⟨rfl, hk⟩⟩

theorem nodup_entries (d : Disk) (p : Place) : (d.entries p).Nodup := by
  have hd : d.nodes.Pairwise fun x y => x.1 ≠ y.1 := List.pairwise_map.mp d.nodup
  apply List.pairwise_filterMap.mpr
  apply hd.imp
  intro x x' hne e he e' he' heq
  obtain ⟨q, n⟩ := x
  obtain ⟨q', n'⟩ := x'
  obtain ⟨rfl, _⟩ := entry_eq_some_iff.mp he
  obtain ⟨rfl, _⟩ := entry_eq_some_iff.mp he'
  exact hne (by rw [heq])

/-- A directory lists a name once. -/
theorem entry_eq_of_name_eq {d : Disk} {p : Place} {e e' : Entry} (h : e ∈ d.entries p)
    (h' : e' ∈ d.entries p) (hn : e.name = e'.name) : e = e' := by
  obtain ⟨n, he, hk⟩ := d.mem_entries_iff.mp h
  obtain ⟨n', he', hk'⟩ := d.mem_entries_iff.mp h'
  rw [hn, he'] at he
  obtain rfl := Option.some.inj he
  cases e
  cases e'
  simp_all

/-- Two disks that differ at most in the contents of their files. -/
def SameShape (d d' : Disk) : Prop :=
  ∀ p, (d.node? p).map Node.shape = (d'.node? p).map Node.shape

namespace SameShape

variable {d d' d'' : Disk}

theorem refl (d : Disk) : d.SameShape d :=
  fun _ => rfl

theorem trans (h : d.SameShape d') (h' : d'.SameShape d'') : d.SameShape d'' :=
  fun p => (h p).trans (h' p)

/-- The order in which the nodes are kept is no part of the shape. -/
theorem of_perm (h : d.nodes.Perm d'.nodes) : d.SameShape d' := by
  intro p
  have hnode : d.node? p = d'.node? p :=
    Option.ext fun n => by rw [← mem_nodes_iff, ← mem_nodes_iff, h.mem_iff]
  rw [hnode]

/-- At a place, both disks have a file that grants the same, or the same node, or nothing. -/
theorem cases (h : d.SameShape d') (p : Place) :
    (∃ access content content', d.node? p = some (.file access content) ∧
      d'.node? p = some (.file access content')) ∨ d.node? p = d'.node? p := by
  have hp := h p
  cases hn : d.node? p with
  | none =>
    rw [hn] at hp
    exact .inr (Option.map_eq_none_iff.mp hp.symm).symm
  | some n =>
    rw [hn] at hp
    obtain ⟨n', hn', he⟩ := Option.map_eq_some_iff.mp hp.symm
    rcases Node.shape_eq_iff.mp he with ⟨access, content', content, rfl, rfl⟩ | rfl
    · exact .inl ⟨access, content, content', rfl, hn'⟩
    · exact .inr hn'.symm

/-- A change of a file's content leaves the shape. -/
theorem put_file {p : Place} {access : Access} {content content' : Bytes}
    (h : d.node? p = some (.file access content)) :
    (d.put p (.file access content')).SameShape d := by
  intro q
  rw [node?_put]
  split
  · rename_i hq
    rw [hq, h]
    rfl
  · rfl

theorem advance_eq (h : d.SameShape d') (authority : Bool) (p : Place) (steps : List Step) :
    d.advance authority p steps = d'.advance authority p steps := by
  induction steps generalizing p with
  | nil => rfl
  | cons step rest ih =>
    unfold advance
    rcases h.cases p with ⟨access, content, content', hp, hp'⟩ | hp
    · rw [hp, hp']
    · rw [hp]
      cases step with
      | name n =>
        rcases h.cases (p ++ [n]) with ⟨access, content, content', hn, hn'⟩ | hn
        · simp only [hn, hn', ih]
        · simp only [hn, ih]
      | up => simp only [ih]
      | stay => simp only [ih]
      | directory => simp only [ih]

theorem follow_eq (h : d.SameShape d') (authority : Bool) (links : Nat) (p : Place)
    (steps : List Step) :
    d.follow authority links p steps = d'.follow authority links p steps := by
  induction links generalizing p steps with
  | zero =>
    unfold follow
    rw [h.advance_eq]
  | succ links ih =>
    unfold follow
    simp only [h.advance_eq, ih]

theorem resolve_eq (h : d.SameShape d') (authority : Bool) (start : Place) (p : Path) :
    d.resolve authority start p = d'.resolve authority start p := by
  simp only [Disk.resolve, h.follow_eq]

theorem kind_eq (h : d.SameShape d') (p : Place) :
    (d.node? p).map Node.kind = (d'.node? p).map Node.kind := by
  rcases h.cases p with ⟨access, content, content', hp, hp'⟩ | hp
  · rw [hp, hp']
    rfl
  · rw [hp]

theorem entries_perm (h : d.SameShape d') (p : Place) : (d.entries p).Perm (d'.entries p) := by
  apply (List.perm_ext_iff_of_nodup (d.nodup_entries p) (d'.nodup_entries p)).mpr
  intro e
  have hk := h.kind_eq (p ++ [e.name])
  simp only [mem_entries_iff, ← Option.map_eq_some_iff, hk]

theorem length_nodes_eq (h : d.SameShape d') : d.nodes.length = d'.nodes.length := by
  have hp : (d.nodes.map Prod.fst).Perm (d'.nodes.map Prod.fst) := by
    refine (List.perm_ext_iff_of_nodup d.nodup d'.nodup).mpr ?_
    intro p
    rw [mem_places_iff, mem_places_iff, ← Option.isSome_map, h p, Option.isSome_map]
  simpa using hp.length_eq

/-- Sorted by name, the entries of a directory are the same on both disks. -/
theorem mergeSort_entries_eq (h : d.SameShape d') (p : Place) :
    (d.entries p).mergeSort Source.entryLE = (d'.entries p).mergeSort Source.entryLE := by
  have hs := List.pairwise_mergeSort Source.entryLE_trans Source.entryLE_total (d.entries p)
  have hs' := List.pairwise_mergeSort Source.entryLE_trans Source.entryLE_total (d'.entries p)
  have hp := ((d.entries p).mergeSort_perm Source.entryLE).trans
    ((h.entries_perm p).trans ((d'.entries p).mergeSort_perm Source.entryLE).symm)
  refine List.Perm.eq_of_pairwise ?_ hs hs' hp
  intro e e' he he' hle hle'
  rw [List.mem_mergeSort] at he he'
  exact entry_eq_of_name_eq he ((h.entries_perm p).mem_iff.mpr he')
    (Source.entryLE_antisymm hle hle')

end SameShape

end Disk

end ImportMigration
