import ImportMigration.Config.Read
import ImportMigration.Proofs.ByteOrder
import ImportMigration.Proofs.Tables

/-!
Of a table's entries, sorted by their keys, the one that is reported is the first that may not be
there, and none has a key that is less byte by byte.
-/

namespace ImportMigration.Config

open Toml

variable {entries : Entries} {e e' : Key × Value} {fault : Fault} {root : Option Path}

/-! ## Entries -/

/-- What is wrong with an entry, if it may not be there. -/
def offence? : Key × Value → Option Fault
  | (key, v) =>
    if key = rootKey then
      match v with
      | .string _ => none
      | v => some (.wrongRoot v)
    else some (.unknownKey key)

/-- The entry may not be there, and no other that may not has a key as small, byte by byte. -/
structure IsLeastEntry (entries : Entries) (e : Key × Value) (fault : Fault) : Prop where
  mem : e ∈ entries
  offence : offence? e = some fault
  least : ∀ e' ∈ entries, offence? e' ≠ none → e' = e ∨ Utf8.encode e.1 < Utf8.encode e'.1

theorem eq_root_of_offence? (h : offence? e = none) : ∃ s, e = (rootKey, .string s) := by
  obtain ⟨key, v⟩ := e
  unfold offence? at h
  simp only at h
  split at h
  · rename_i hkey
    split at h
    · exact ⟨_, congrArg (·, _) hkey⟩
    · nomatch h
  · nomatch h

theorem offence?_ne_malformed (h : offence? e = some fault) : fault ≠ .malformed := by
  obtain ⟨key, v⟩ := e
  unfold offence? at h
  simp only at h
  split at h
  · split at h
    · nomatch h
    · cases h
      nofun
  · cases h
    nofun

/-- An entry that may not be there is reported, and any other is passed over. -/
theorem rootOf_cons : rootOf (e :: entries) =
    match offence? e with
    | some fault => .error fault
    | none => (rootOf entries).bind fun _ => rootOf [e] := by
  cases he : offence? e with
  | none =>
    obtain ⟨s, rfl⟩ := eq_root_of_offence? he
    simp only [rootOf, ↓reduceIte]
    cases rootOf entries <;> rfl
  | some fault =>
    obtain ⟨key, v⟩ := e
    unfold offence? at he
    simp only at he
    split at he
    · rename_i hkey
      split at he
      · contradiction
      · cases he
        simp only [rootOf, if_pos hkey]
    · rename_i hkey
      cases he
      simp only [rootOf, if_neg hkey]

/-- Of the entries the first that may not be there is reported. -/
theorem rootOf_eq_error_iff :
    rootOf entries = .error fault ↔ entries.findSome? offence? = some fault := by
  induction entries with
  | nil => simp [rootOf]
  | cons e entries ih =>
    rw [rootOf_cons]
    cases he : offence? e with
    | some fault' => simp [he]
    | none =>
      obtain ⟨s, rfl⟩ := eq_root_of_offence? he
      rw [List.findSome?_cons_of_isNone (by simp [he]), ← ih]
      cases rootOf entries with
      | error => simp [Except.bind]
      | ok => simp [Except.bind, rootOf, bind, pure, Except.pure]

theorem rootOf_eq_ok_iff (hnodup : entries.keys.Nodup) : rootOf entries = .ok root ↔
    root = none ∧ entries = [] ∨
      ∃ s, root = some (.ofText s) ∧ entries = [(rootKey, .string s)] := by
  constructor
  · intro h
    have hnone : ∀ e ∈ entries, offence? e = none := by
      refine List.findSome?_eq_none_iff.mp ?_
      cases hfault : entries.findSome? offence? with
      | none => rfl
      | some fault =>
        rw [rootOf_eq_error_iff.mpr hfault] at h
        nomatch h
    match entries, h, hnone, hnodup with
    | [], h, _, _ =>
      exact .inl ⟨(Except.ok.inj h).symm, rfl⟩
    | [e], h, hnone, _ =>
      obtain ⟨s, rfl⟩ := eq_root_of_offence? (hnone e List.mem_cons_self)
      rw [rootOf, if_pos rfl] at h
      exact .inr ⟨s, (Except.ok.inj h).symm, rfl⟩
    | e :: e' :: _, _, hnone, hnodup =>
      obtain ⟨s, rfl⟩ := eq_root_of_offence? (hnone e List.mem_cons_self)
      obtain ⟨s', rfl⟩ := eq_root_of_offence?
        (hnone e' (List.mem_cons_of_mem _ List.mem_cons_self))
      exact absurd List.mem_cons_self (List.nodup_cons.mp hnodup).1
  · rintro (⟨rfl, rfl⟩ | ⟨s, rfl, rfl⟩)
    · rfl
    · rw [rootOf, if_pos rfl]
      rfl

/-! ## The order of the keys -/

theorem keyLE_iff : keyLE e e' = true ↔ ¬ e'.1 < e.1 := by
  simp [keyLE]

theorem keyLE_trans (e e' e'' : Key × Value) (h : keyLE e e' = true) (h' : keyLE e' e'' = true) :
    keyLE e e'' = true :=
  keyLE_iff.mpr (List.not_lt.mpr (List.le_trans (List.not_lt.mp (keyLE_iff.mp h))
    (List.not_lt.mp (keyLE_iff.mp h'))))

theorem keyLE_total (e e' : Key × Value) : (keyLE e e' || keyLE e' e) = true := by
  rw [Bool.or_eq_true, keyLE_iff, keyLE_iff, List.not_lt, List.not_lt]
  exact List.le_total e.1 e'.1

/-- Sorted, the entries of a table are in the strict order of their keys. -/
theorem pairwise_lt_keys (hnodup : entries.keys.Nodup) :
    (entries.mergeSort keyLE).Pairwise fun e e' => e.1 < e'.1 := by
  have hkeys : (entries.mergeSort keyLE).Pairwise fun e e' => e.1 ≠ e'.1 :=
    List.pairwise_map.mp
      (((List.mergeSort_perm entries keyLE).map Prod.fst).nodup_iff.mpr hnodup)
  refine ((List.pairwise_mergeSort keyLE_trans keyLE_total entries).and hkeys).imp ?_
  intro e e' h
  obtain ⟨hle, hne⟩ := h
  refine Decidable.byContradiction fun hlt => hne ?_
  exact List.le_antisymm (List.not_lt.mp (keyLE_iff.mp hle)) (List.not_lt.mp hlt)

/-- In the order of the keys, the first entry that may not be there is the least. -/
theorem findSome?_sorted_iff (hnodup : entries.keys.Nodup) :
    (entries.mergeSort keyLE).findSome? offence? = some fault ↔
      ∃ e, IsLeastEntry entries e fault := by
  have hsorted := pairwise_lt_keys hnodup
  have hmem : ∀ e, e ∈ entries.mergeSort keyLE ↔ e ∈ entries := fun e => List.mem_mergeSort
  constructor
  · intro h
    obtain ⟨before, e, after, hsplit, he, hbefore⟩ := List.findSome?_eq_some_iff.mp h
    refine ⟨e, (hmem e).mp (by simp [hsplit]), he, fun e' he' hoffence => ?_⟩
    rw [← hmem, hsplit] at he'
    rw [hsplit] at hsorted
    rcases List.mem_append.mp he' with he' | he'
    · exact absurd (hbefore e' he') hoffence
    · rcases List.mem_cons.mp he' with rfl | he'
      · exact .inl rfl
      · have hlt := (List.pairwise_cons.mp (List.pairwise_append.mp hsorted).2.1).1 e' he'
        exact .inr (Utf8.encode_lt_encode hlt)
  · rintro ⟨e, he, hoffence, hleast⟩
    obtain ⟨before, after, hsplit⟩ := List.append_of_mem ((hmem e).mpr he)
    refine List.findSome?_eq_some_iff.mpr ⟨before, e, after, hsplit, hoffence, fun e' he' => ?_⟩
    refine Decidable.byContradiction fun hne => ?_
    rw [hsplit] at hsorted
    have hlt := (List.pairwise_append.mp hsorted).2.2 e' he' e List.mem_cons_self
    have he'' : e' ∈ entries := (hmem e').mp (by simp [hsplit, he'])
    rcases hleast e' he'' hne with rfl | hlt'
    · exact List.lt_irrefl _ hlt
    · exact List.lt_asymm hlt (Utf8.encode_lt_encode_iff.mp hlt')

end ImportMigration.Config
