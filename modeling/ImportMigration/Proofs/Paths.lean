import ImportMigration.Proofs.Marks

/-!
What a path of keys leads to in a table. A change at the end of one path makes the tables on the way
that are not there yet, and leaves alone what other paths lead to.
-/

namespace ImportMigration.Toml

variable {v v' w w' : Value} {p q r path : List Key} {key : Key} {made origin : Origin}

def Value.kind : Value → Kind
  | .table origin _ => .table origin
  | .tables _ _ => .tables
  | v => .value v

/-- The table in which a path goes on. -/
def Value.inner? : Value → Option Entries
  | .table _ entries => some entries
  | .tables _ last => some last
  | _ => none

/-- The value at the end of a path. -/
def Value.at? (v : Value) : List Key → Option Value
  | [] => some v
  | key :: p => (v.inner?.bind (List.lookup key)).bind (Value.at? · p)

/-- The kind of a value that may not be there. -/
def kindOf (found : Option Value) : Kind :=
  (found.map Value.kind).getD .nothing

/-- The kind of what a path leads to from a value on. -/
def Value.kindAt (v : Value) (p : List Key) : Kind :=
  kindOf (v.at? p)

/-- What a kind becomes where a path goes on in it. -/
def Kind.enter? (made : Origin) : Kind → Option Kind
  | .nothing => some (.table made)
  | .table origin => if made = .dotted ∧ origin = .header then none else some (.table origin)
  | .tables => some .tables
  | .value _ => none

namespace Entries

variable {entries entries' : Entries} {f : Origin → Entries → Option Entries}

theorem lookup_update? {f : Option Value → Option Value}
    (h : update? f key entries = some entries') : ∃ v, f (entries.lookup key) = some v ∧
      entries'.lookup key = some v ∧ ∀ k, k ≠ key → entries'.lookup k = entries.lookup k := by
  induction entries generalizing entries' with
  | nil =>
    obtain ⟨v, hv, rfl⟩ := Option.map_eq_some_iff.mp h
    refine ⟨v, hv, by simp, fun k hk => ?_⟩
    have hne : (k == key) = false := by simpa using hk
    rw [List.lookup_cons, hne]
  | cons e entries ih =>
    obtain ⟨k, w⟩ := e
    rw [update?] at h
    split at h
    · rename_i hk
      subst hk
      obtain ⟨v, hv, rfl⟩ := Option.map_eq_some_iff.mp h
      refine ⟨v, by simpa using hv, by simp, fun k' hk' => ?_⟩
      have hne : (k' == k) = false := by simpa using hk'
      rw [List.lookup_cons, List.lookup_cons, hne]
    · rename_i hk
      obtain ⟨after, hafter, rfl⟩ := Option.map_eq_some_iff.mp h
      obtain ⟨v, hv, hlookup, hothers⟩ := ih hafter
      have hne : (key == k) = false := by simpa using Ne.symm hk
      refine ⟨v, ?_, ?_, fun k' hk' => ?_⟩
      · rwa [List.lookup_cons, hne]
      · rwa [List.lookup_cons, hne]
      · rw [List.lookup_cons, List.lookup_cons, hothers k' hk']

theorem isSome_update? {f : Option Value → Option Value} :
    (update? f key entries).isSome = (f (entries.lookup key)).isSome := by
  induction entries with
  | nil => simp [update?]
  | cons e entries ih =>
    obtain ⟨k, w⟩ := e
    rw [update?, List.lookup_cons]
    split
    · rename_i hk
      simp [hk]
    · rename_i hk
      have hne : (key == k) = false := by simpa using Ne.symm hk
      rw [hne, Option.isSome_map, ih]

end Entries

namespace Value

variable {f : Origin → Entries → Option Entries} {found : Option Value}

theorem at?_cons (v : Value) (key : Key) (p : List Key) :
    v.at? (key :: p) = (v.inner?.bind (List.lookup key)).bind (at? · p) :=
  rfl

theorem kindAt_nil (v : Value) : v.kindAt [] = v.kind :=
  rfl

theorem kindAt_cons {entries : Entries} (hv : v.inner? = some entries) (key : Key)
    (p : List Key) : v.kindAt (key :: p) = kindOf ((entries.lookup key).bind (at? · p)) := by
  rw [kindAt, at?_cons, hv]
  rfl

/-- A change of a table changes its entries and not its kind. -/
theorem of_edit? (h : v.edit? f = some v') : ∃ origin entries entries',
    f origin entries = some entries' ∧ v.inner? = some entries ∧ v'.inner? = some entries' ∧
      v'.kind = v.kind ∧
      (v.kind = .table origin ∨ v.kind = .tables ∧ origin = .header) := by
  cases v with
  | table origin entries =>
    obtain ⟨entries', hentries, rfl⟩ := Option.map_eq_some_iff.mp h
    exact ⟨origin, entries, entries', hentries, rfl, rfl, rfl, .inl rfl⟩
  | tables earlier last =>
    obtain ⟨last', hlast, rfl⟩ := Option.map_eq_some_iff.mp h
    exact ⟨.header, last, last', hlast, rfl, rfl, rfl, .inr ⟨rfl, rfl⟩⟩
  | _ => contradiction

theorem isSome_edit? (hv : v.inner?.isSome)
    (h : ∀ origin entries, v.inner? = some entries →
      (v.kind = .table origin ∨ v.kind = .tables ∧ origin = .header) →
      (f origin entries).isSome) : (v.edit? f).isSome := by
  cases v with
  | table origin entries =>
    rw [edit?, Option.isSome_map]
    exact h origin entries rfl (.inl rfl)
  | tables earlier last =>
    rw [edit?, Option.isSome_map]
    exact h .header last rfl (.inr ⟨rfl, rfl⟩)
  | _ => contradiction

/-! ## Going on in what a key leads to -/

theorem kind_of_enter? (h : Entries.enter? made found = some w) :
    (kindOf found).enter? made = some w.kind := by
  unfold Entries.enter? at h
  split at h
  · cases h
    rfl
  · split at h
    · contradiction
    · rename_i hmade
      cases h
      exact if_neg hmade
  · cases h
    rfl
  · contradiction

theorem isSome_enter? (h : ((kindOf found).enter? made).isSome) :
    ∃ w, Entries.enter? made found = some w ∧ w.inner?.isSome := by
  cases found with
  | none => exact ⟨_, rfl, rfl⟩
  | some v =>
    cases v with
    | table origin entries =>
      have hmade : ¬ (made = .dotted ∧ origin = .header) := by
        intro hmade
        simp [kindOf, kind, Kind.enter?, hmade] at h
      exact ⟨_, if_neg hmade, rfl⟩
    | tables earlier last => exact ⟨_, rfl, rfl⟩
    | _ => contradiction

theorem kindOf_bind_of_enter? (h : Entries.enter? made found = some w) (hp : p ≠ []) :
    kindOf (found.bind (at? · p)) = w.kindAt p := by
  obtain ⟨key, p, rfl⟩ := List.exists_cons_of_ne_nil hp
  unfold Entries.enter? at h
  split at h
  · cases h
    rfl
  · split at h
    · contradiction
    · cases h
      rfl
  · cases h
    rfl
  · contradiction

/-! ## Going along a path -/

/-- Going along a path from one value, and making the tables that are not there, one arrives at
another. -/
inductive Arrives (made : Origin) : List Key → Value → Value → Prop where
  | here (v : Value) : Arrives made [] v v
  | step {key : Key} {path : List Key} {v u w : Value} {entries : Entries}
    (hv : v.inner? = some entries) (hu : Entries.enter? made (entries.lookup key) = some u)
    (h : Arrives made path u w) : Arrives made (key :: path) v w

theorem Arrives.kindAt_append (h : Arrives made path v w) (hr : r ≠ []) :
    v.kindAt (path ++ r) = w.kindAt r := by
  induction h with
  | here v => rfl
  | step hv hu _ ih =>
    rw [List.cons_append, kindAt_cons hv, kindOf_bind_of_enter? hu (by simp [hr]), ih]

theorem Arrives.enter?_kindAt (h : Arrives made path v w) (hpath : path ≠ []) :
    (v.kindAt path).enter? made = some w.kind := by
  induction h with
  | here v => exact absurd rfl hpath
  | @step key path v u w entries hv hu h ih =>
    rw [kindAt_cons hv]
    cases path with
    | nil =>
      cases h
      simpa [at?] using kind_of_enter? hu
    | cons key' path =>
      rw [kindOf_bind_of_enter? hu (List.cons_ne_nil _ _)]
      exact ih (List.cons_ne_nil _ _)

theorem exists_arrives (hv : v.inner?.isSome)
    (h : ∀ q, q ≠ [] → q <+: path → ((v.kindAt q).enter? made).isSome) :
    ∃ w, Arrives made path v w ∧ w.inner?.isSome := by
  induction path generalizing v with
  | nil => exact ⟨v, .here v, hv⟩
  | cons key path ih =>
    obtain ⟨entries, hentries⟩ := Option.isSome_iff_exists.mp hv
    have hkey := h [key] (List.cons_ne_nil _ _) (by simp)
    rw [kindAt_cons hentries] at hkey
    have henter : ((kindOf (entries.lookup key)).enter? made).isSome := by simpa [at?] using hkey
    obtain ⟨u, hu, hinner⟩ := isSome_enter? henter
    obtain ⟨w, hw, hw'⟩ := ih hinner fun q hq hprefix => by
      have hstep := h (key :: q) (List.cons_ne_nil _ _) (List.cons_prefix_cons.mpr ⟨rfl, hprefix⟩)
      rwa [kindAt_cons hentries, kindOf_bind_of_enter? hu hq] at hstep
    exact ⟨w, .step hentries hu hw, hw'⟩

/-! ## A change at the end of a path -/

theorem isSome_edit?_within? (h : Arrives made path v w) (hw : (w.edit? f).isSome) :
    (v.edit? (Entries.within? f made path)).isSome := by
  induction h with
  | here v => exact hw
  | @step key path v u w entries hv hu _ ih =>
    refine isSome_edit? (by rw [hv]; rfl) fun origin entries' hentries' _ => ?_
    rw [hv] at hentries'
    cases hentries'
    rw [Entries.within?, Entries.isSome_update?, hu]
    exact ih hw

/-- A change at the end of a path is made in what is there, or is made for it, and changes nothing
else but that the tables on the way are there afterwards. -/
theorem of_edit?_within? (h : v.edit? (Entries.within? f made path) = some v') : ∃ w w',
    Arrives made path v w ∧ w.edit? f = some w' ∧ v'.at? path = some w' ∧ v'.kind = v.kind ∧
      (∀ q, q ≠ [] → q <+: path → (v.kindAt q).enter? made = some (v'.kindAt q)) ∧
      ∀ q, ¬ q <+: path → ¬ path <+: q → v'.kindAt q = v.kindAt q := by
  induction path generalizing v v' with
  | nil =>
    obtain ⟨_, _, _, _, _, _, hkind, _⟩ := of_edit? h
    refine ⟨v, v', .here v, h, rfl, hkind, ?_, ?_⟩
    · intro q hq hprefix
      exact absurd (List.prefix_nil.mp hprefix) hq
    · intro q _ hnot
      exact absurd (List.nil_prefix) hnot
  | cons key path ih =>
    obtain ⟨origin, entries, entries', hwithin, hv, hv', hkind, _⟩ := of_edit? h
    rw [Entries.within?] at hwithin
    obtain ⟨u', hu', hlookup, hothers⟩ := Entries.lookup_update? hwithin
    obtain ⟨u, hu, hu'⟩ := Option.bind_eq_some_iff.mp hu'
    obtain ⟨w, w', harrives, hw, hat, hkind', halong, haside⟩ := ih hu'
    have hkindAt' (p : List Key) : v'.kindAt (key :: p) = u'.kindAt p := by
      rw [kindAt_cons hv', hlookup]
      rfl
    refine ⟨w, w', .step hv hu harrives, hw, ?_, hkind, ?_, ?_⟩
    · rw [at?_cons, hv', Option.bind_some, hlookup, Option.bind_some, hat]
    · intro q hq hprefix
      obtain ⟨k, q, rfl⟩ := List.exists_cons_of_ne_nil hq
      obtain ⟨rfl, hbelow⟩ := List.cons_prefix_cons.mp hprefix
      rw [hkindAt', kindAt_cons hv]
      by_cases hnil : q = []
      · subst hnil
        rw [kindAt_nil, hkind', ← kind_of_enter? hu]
        simp [at?]
      · rw [kindOf_bind_of_enter? hu hnil]
        exact halong q hnil hbelow
    · intro q hprefix hprefix'
      cases q with
      | nil => exact absurd List.nil_prefix hprefix
      | cons k q =>
        by_cases hk : k = key
        · subst hk
          rw [List.cons_prefix_cons] at hprefix hprefix'
          have hq : q ≠ [] := by
            rintro rfl
            exact hprefix ⟨rfl, List.nil_prefix⟩
          rw [hkindAt', kindAt_cons hv, kindOf_bind_of_enter? hu hq]
          exact haside q (fun hprefix₁ => hprefix ⟨rfl, hprefix₁⟩)
            fun hprefix₁ => hprefix' ⟨rfl, hprefix₁⟩
        · rw [kindAt_cons hv, kindAt_cons hv', hothers k hk]

end Value

end ImportMigration.Toml
