import ImportMigration.Proofs.Below
import ImportMigration.Proofs.Itinerary

/-!
The order of a walk. What lies below a directory is ordered by the names on the way, each compared
by its bytes, so all that is in a directory stands at the place of the directory's name. A walk
meets things in this order, because it sorts the entries of each directory; so it meets nothing
twice.
-/

namespace ImportMigration

namespace Path

variable {root p q : Path}

/-- The order of what lies below a root: the first name in which the ways differ decides. -/
def Precedes (root p q : Path) : Prop :=
  ∃ names names', p = root.below names ∧ q = root.below names' ∧
    List.Lex (fun n n' => n.bytes < n'.bytes) names names'

theorem Precedes.ne (h : root.Precedes p q) : p ≠ q := by
  obtain ⟨names, names', rfl, rfl, hlex⟩ := h
  intro he
  rw [below_inj he] at hlex
  exact List.lex_irrefl (fun n => List.lt_irrefl n.bytes) names' hlex

theorem Precedes.of_child {n : FileName} (h : (root.child n).Precedes p q) : root.Precedes p q := by
  obtain ⟨names, names', hp, hq, hlex⟩ := h
  exact ⟨n :: names, n :: names', hp, hq, .cons hlex⟩

/-- All that bears a name in a directory, or lies below it, precedes what does so with a later
name. -/
theorem precedes_of_lt {n n' : FileName} (h : n.bytes < n'.bytes) (names names' : List FileName) :
    root.Precedes (root.below (n :: names)) (root.below (n' :: names')) :=
  ⟨_, _, rfl, rfl, .rel h⟩

end Path

namespace Disk

open Source

/-- Sorted, the entries of a directory are in the strict order of their names. -/
theorem pairwise_lt_entries (d : Disk) (p : Place) :
    ((d.entries p).mergeSort entryLE).Pairwise fun e e' => e.name.bytes < e'.name.bytes := by
  have hle := List.pairwise_mergeSort entryLE_trans entryLE_total (d.entries p)
  have hnodup : ((d.entries p).mergeSort entryLE).Nodup :=
    (List.mergeSort_perm _ _).nodup_iff.mpr (d.nodup_entries p)
  refine List.Pairwise.imp_of_mem ?_ (hle.and hnodup)
  intro e e' he he' h
  obtain ⟨hle, hne⟩ := h
  rw [List.mem_mergeSort] at he he'
  by_contra hlt
  have hle' : entryLE e' e = true := by simpa [entryLE] using hlt
  exact hne (entry_eq_of_name_eq he he' (entryLE_antisymm hle hle'))

end Disk

namespace Session

variable {s : Session} {p : Path} {place : Place}

theorem list_eq_ok_iff {entries : List Entry} : s.list p = .ok entries ↔
    ∃ place access, s.resolve p = .ok place ∧ s.disk.node? place = some (.directory access) ∧
      access.read = true ∧ s.disk.entries place = entries := by
  unfold list
  cases s.resolve p with
  | error cause => simp
  | ok place =>
    cases hn : s.disk.node? place with
    | none => simp [hn]
    | some node =>
      cases node with
      | directory access => cases hr : access.read <;> simp [hn, hr]
      | _ => simp [hn]

end Session

namespace Source

variable {s : Session} {root : Path}

/-- All that a walk meets has a path below its root. -/
theorem exists_below_of_mem {filter : Filter} {depth : Nat} {e : Encounter}
    (he : e ∈ itinerary filter s depth root) : ∃ names, e.path = root.below names := by
  induction depth generalizing root with
  | zero => exact absurd he List.not_mem_nil
  | succ depth ih =>
    cases hl : s.list root with
    | error cause =>
      rw [itinerary_of_error hl, List.mem_singleton] at he
      exact ⟨[], congrArg Encounter.path he⟩
    | ok entries =>
      rw [itinerary_of_ok hl, List.mem_flatMap] at he
      obtain ⟨entry, _, he⟩ := he
      rcases mem_encounters_iff.mp he with ⟨_, he⟩ | ⟨_, _, _, he⟩
      · obtain ⟨names, hp⟩ := ih he
        exact ⟨entry.name :: names, hp⟩
      · exact ⟨[entry.name], congrArg Encounter.path he⟩

theorem exists_below_of_mem_encounters {filter : Filter} {depth : Nat} {entry : Entry}
    {e : Encounter} (he : e ∈ encounters filter s depth root entry) :
    ∃ names, e.path = root.below (entry.name :: names) := by
  rcases mem_encounters_iff.mp he with ⟨_, he⟩ | ⟨_, _, _, he⟩
  · exact exists_below_of_mem he
  · exact ⟨[], congrArg Encounter.path he⟩

/-- A walk meets things in order: those below one name before those below a later one, and those
below one name in the order that they have there. -/
theorem pairwise_itinerary (filter : Filter) (s : Session) (depth : Nat) (root : Path) :
    (itinerary filter s depth root).Pairwise fun e e' => root.Precedes e.path e'.path := by
  induction depth generalizing root with
  | zero => exact .nil
  | succ depth ih =>
    cases hl : s.list root with
    | error cause =>
      rw [itinerary_of_error hl]
      exact List.pairwise_singleton _ _
    | ok entries =>
      obtain ⟨place, _, _, _, _, rfl⟩ := Session.list_eq_ok_iff.mp hl
      rw [itinerary_of_ok hl, List.pairwise_flatMap]
      refine ⟨?_, (s.disk.pairwise_lt_entries place).imp ?_⟩
      · intro entry _
        unfold encounters
        dsimp only
        split
        · exact (ih _).imp .of_child
        · split
          · exact List.pairwise_singleton _ _
          · exact .nil
      · intro entry entry' hlt e he e' he'
        obtain ⟨names, hp⟩ := exists_below_of_mem_encounters he
        obtain ⟨names', hp'⟩ := exists_below_of_mem_encounters he'
        rw [hp, hp']
        exact Path.precedes_of_lt hlt names names'

/-- Nothing is met twice. -/
theorem nodup_itinerary (filter : Filter) (s : Session) (depth : Nat) (root : Path) :
    (itinerary filter s depth root).Nodup :=
  (pairwise_itinerary filter s depth root).imp fun h he => h.ne (congrArg Encounter.path he)

/-- The files of a walk are visited in order. -/
theorem pairwise_paths (filter : Filter) (s : Session) (root : Path) :
    ((itineraryOf filter s root).filterMap Encounter.path?).Pairwise root.Precedes := by
  refine List.pairwise_filterMap.mpr ((pairwise_itinerary filter s _ root).imp ?_)
  intro e e' h p hp p' hp'
  obtain rfl := Encounter.path?_eq_some_iff.mp hp
  obtain rfl := Encounter.path?_eq_some_iff.mp hp'
  exact h

/-- No path is visited twice. -/
theorem nodup_paths (filter : Filter) (s : Session) (root : Path) :
    ((itineraryOf filter s root).filterMap Encounter.path?).Nodup :=
  (pairwise_paths filter s root).imp Path.Precedes.ne

end Source

end ImportMigration
