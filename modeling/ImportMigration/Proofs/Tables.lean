import ImportMigration.Toml.Document
import Mathlib.Data.List.Nodup

/-!
A table never has two entries with one key. Every line of a document changes the value of one key of
the table that it belongs to, or adds one key to it, and leaves the others alone.
-/

namespace ImportMigration.Toml.Entries

variable {entries entries' : Entries} {key : Key}

/-- The keys of a table, in the order of its entries. -/
def keys (entries : Entries) : List Key :=
  entries.map Prod.fst

/-- With distinct keys, what a key leads to is its one entry. -/
theorem lookup_iff {v : Value} (hnodup : entries.keys.Nodup) :
    entries.lookup key = some v ↔ (key, v) ∈ entries := by
  rw [List.lookup_eq_some_iff]
  constructor
  · rintro ⟨before, after, rfl, _⟩
    exact List.mem_append_right _ List.mem_cons_self
  · intro hmem
    obtain ⟨before, after, rfl⟩ := List.append_of_mem hmem
    refine ⟨before, after, rfl, fun e he => bne_iff_ne.mpr ?_⟩
    rintro rfl
    rw [keys, List.map_append, List.nodup_append] at hnodup
    exact hnodup.2.2 _ (List.mem_map_of_mem he) _ List.mem_cons_self rfl

/-- A change of one entry keeps the keys, or adds the one key at the end. -/
theorem keys_update? {f : Option Value → Option Value}
    (h : update? f key entries = some entries') : keys entries' = keys entries ∨
      key ∉ keys entries ∧ keys entries' = keys entries ++ [key] := by
  induction entries generalizing entries' with
  | nil =>
    obtain ⟨v, _, rfl⟩ := Option.map_eq_some_iff.mp h
    exact .inr ⟨nofun, rfl⟩
  | cons e entries ih =>
    obtain ⟨k, v⟩ := e
    rw [update?] at h
    split at h
    · obtain ⟨v', _, rfl⟩ := Option.map_eq_some_iff.mp h
      exact .inl rfl
    · rename_i hk
      obtain ⟨after, hafter, rfl⟩ := Option.map_eq_some_iff.mp h
      rcases ih hafter with hkeys | ⟨hnot, hkeys⟩
      · exact .inl (congrArg (k :: ·) hkeys)
      · refine .inr ⟨?_, congrArg (k :: ·) hkeys⟩
        intro hmem
        rcases List.mem_cons.mp hmem with he | hmem
        · exact hk he.symm
        · exact hnot hmem

/-- Whatever the operation makes of a table with distinct keys has distinct keys again. -/
def KeepsDistinct (f : Entries → Option Entries) : Prop :=
  ∀ {entries entries' : Entries}, f entries = some entries' → entries.keys.Nodup →
    entries'.keys.Nodup

theorem keepsDistinct_update? (f : Option Value → Option Value) (key : Key) :
    KeepsDistinct (update? f key) := by
  intro entries entries' h hnodup
  rcases keys_update? h with hkeys | ⟨hnot, hkeys⟩
  · rwa [hkeys]
  · rw [hkeys, List.nodup_append]
    refine ⟨hnodup, List.nodup_singleton key, ?_⟩
    rintro k hk _ hkey rfl
    rw [List.mem_singleton] at hkey
    exact hnot (hkey ▸ hk)

theorem keepsDistinct_within? {f : Origin → Entries → Option Entries}
    (hf : ∀ origin, KeepsDistinct (f origin)) (made : Origin) (path : List Key) (origin : Origin) :
    KeepsDistinct (within? f made path origin) := by
  intro entries entries' h
  cases path with
  | nil =>
    rw [within?] at h
    exact hf origin h
  | cons key path =>
    rw [within?] at h
    exact keepsDistinct_update? _ key h

theorem keepsDistinct_assign? (ks : List Key) (v : Value) (origin : Origin) :
    KeepsDistinct (assign? ks v origin) := by
  intro entries entries' h
  unfold assign? at h
  split at h
  · nomatch h
  · refine keepsDistinct_within? (fun origin entries entries' h => ?_) _ _ _ h
    unfold insert? at h
    split at h
    · exact keepsDistinct_update? _ _ h
    · nomatch h

theorem keepsDistinct_openTable? (ks : List Key) : KeepsDistinct (openTable? ks) := by
  intro entries entries' h
  obtain ⟨key, _, h⟩ := Option.bind_eq_some_iff.mp h
  exact keepsDistinct_within? (fun _ => keepsDistinct_update? _ key) _ _ _ h

theorem keepsDistinct_appendTable? (ks : List Key) : KeepsDistinct (appendTable? ks) := by
  intro entries entries' h
  obtain ⟨key, _, h⟩ := Option.bind_eq_some_iff.mp h
  exact keepsDistinct_within? (fun _ => keepsDistinct_update? _ key) _ _ _ h

/-- By the expressions: each of them keeps the keys of the document's own table distinct. -/
theorem keepsDistinct_fill? (header : List Key) (es : List Expression) :
    KeepsDistinct (fill? header es) := by
  induction es generalizing header with
  | nil =>
    intro entries entries' h hnodup
    rw [fill?] at h
    cases h
    exact hnodup
  | cons e es ih =>
    intro entries entries' h hnodup
    cases e with
    | assign ks v =>
      obtain ⟨after, hafter, h⟩ := Option.bind_eq_some_iff.mp h
      exact ih header h
        (keepsDistinct_within? (keepsDistinct_assign? ks v) _ _ _ hafter hnodup)
    | table ks =>
      obtain ⟨after, hafter, h⟩ := Option.bind_eq_some_iff.mp h
      exact ih ks h (keepsDistinct_openTable? ks hafter hnodup)
    | element ks =>
      obtain ⟨after, hafter, h⟩ := Option.bind_eq_some_iff.mp h
      exact ih ks h (keepsDistinct_appendTable? ks hafter hnodup)

end ImportMigration.Toml.Entries
