import ImportMigration.Proofs.Histories

/-!
A document defines nothing twice just when what its expressions make of each path is accepted.
What a path leads to at any time is what its history makes of it.
-/

namespace ImportMigration.Toml

variable {p q r path ks : List Key} {key : Key} {made : Origin} {kind kind' : Kind}

/-! ## What a path leads to after a change -/

theorem Kind.eq_of_enter? (h : kind.enter? made = some kind') (hne : kind ≠ .nothing) :
    kind' = kind := by
  cases kind with
  | nothing => exact absurd rfl hne
  | value v => cases h
  | table origin =>
    rw [enter?] at h
    split at h
    · contradiction
    · exact (Option.some.inj h).symm
  | tables =>
    cases h
    rfl

namespace Value

variable {v v' w w' : Value} {f : Origin → Entries → Option Entries}
  {g : Option Value → Option Value}

theorem at?_append (v : Value) (q r : List Key) : v.at? (q ++ r) = (v.at? q).bind (at? · r) := by
  induction q generalizing v with
  | nil => rfl
  | cons key q ih =>
    rw [List.cons_append, at?_cons, at?_cons]
    cases v.inner?.bind (List.lookup key) with
    | none => rfl
    | some u => exact ih u

theorem isSome_enter?_of_inner? (h : w.inner?.isSome) : (w.kind.enter? .implied).isSome := by
  cases w with
  | table origin entries => rfl
  | tables earlier last => rfl
  | _ => contradiction

/-- What lies in something is in a table. -/
theorem isSome_enter?_of_isPrefix (h : ((v.kindAt path).enter? .implied).isSome)
    (hthere : v.kindAt path ≠ .nothing) (hq : q <+: path) :
    v.kindAt q ≠ .nothing ∧ ((v.kindAt q).enter? .implied).isSome := by
  obtain ⟨r, rfl⟩ := hq
  cases r with
  | nil =>
    rw [List.append_nil] at h hthere
    exact ⟨hthere, h⟩
  | cons key r =>
    rw [kindAt, at?_append] at hthere
    cases hat : v.at? q with
    | none =>
      rw [hat] at hthere
      exact absurd rfl hthere
    | some w =>
      rw [hat, Option.bind_some, at?_cons] at hthere
      have hinner : w.inner?.isSome := by
        cases hw : w.inner? with
        | none =>
          rw [hw] at hthere
          exact absurd rfl hthere
        | some entries => rfl
      rw [kindAt, hat]
      refine ⟨?_, isSome_enter?_of_inner? hinner⟩
      show w.kind ≠ .nothing
      cases w <;> simp [kind]

/-- A change of what one key leads to at the end of a path. -/
theorem of_edit?_update?
    (hf : ∀ {origin entries entries'}, f origin entries = some entries' →
      Entries.update? g key entries = some entries')
    (h : v.edit? (Entries.within? f made path) = some v') : ∃ found u, g found = some u ∧
      (∀ r, v.kindAt (path ++ key :: r) = kindOf (found.bind (at? · r))) ∧
      (∀ r, v'.kindAt (path ++ key :: r) = u.kindAt r) ∧
      (∀ q, q ≠ [] → q <+: path → (v.kindAt q).enter? made = some (v'.kindAt q)) ∧
      ∀ q, ¬ q <+: path → ¬ path ++ [key] <+: q → v'.kindAt q = v.kindAt q := by
  obtain ⟨w, w', harrives, hw, hat, _, halong, haside⟩ := of_edit?_within? h
  obtain ⟨origin, entries, entries', hentries, hinner, hinner', _, _⟩ := of_edit? hw
  obtain ⟨u, hu, hlookup, hothers⟩ := Entries.lookup_update? (hf hentries)
  have hbefore : ∀ k r, v.kindAt (path ++ k :: r) =
      kindOf ((entries.lookup k).bind (at? · r)) := by
    intro k r
    rw [harrives.kindAt_append (List.cons_ne_nil k r), kindAt_cons hinner]
  have hafter : ∀ k r, v'.kindAt (path ++ k :: r) =
      kindOf ((entries'.lookup k).bind (at? · r)) := by
    intro k r
    rw [kindAt, at?_append, hat, Option.bind_some]
    exact kindAt_cons hinner' k r
  refine ⟨entries.lookup key, u, hu, hbefore key, fun r => ?_, halong, fun q hq hkey => ?_⟩
  · rw [hafter, hlookup]
    rfl
  · by_cases hbelow : path <+: q
    · obtain ⟨r, rfl⟩ := hbelow
      cases r with
      | nil => exact absurd (by simp) hq
      | cons k r =>
        have hk : k ≠ key := by
          rintro rfl
          exact hkey ⟨r, by simp⟩
        rw [hafter, hbefore, hothers k hk]
    · exact haside q hq hbelow

theorem isSome_edit?_update? (hv : v.inner?.isSome)
    (halong : ∀ q, q ≠ [] → q <+: path → ((v.kindAt q).enter? made).isSome)
    (hg : ∀ found, kindOf found = v.kindAt (path ++ [key]) → (g found).isSome) :
    (v.edit? (Entries.within? (fun _ => Entries.update? g key) made path)).isSome := by
  obtain ⟨w, harrives, hw⟩ := exists_arrives hv halong
  refine isSome_edit?_within? harrives (isSome_edit? hw fun origin entries hentries _ => ?_)
  rw [Entries.isSome_update?]
  refine hg _ ?_
  rw [harrives.kindAt_append (List.cons_ne_nil key []), kindAt_cons hentries]
  simp [at?]

end Value

/-! ## What a path leads to after an expression -/

namespace Expression

variable {header : List Key} {e : Expression} {v : Value}

/-- What an expression makes of the table of a document. -/
def define? (header : List Key) : Expression → Entries → Option Entries
  | assign ks v => Entries.within? (Entries.assign? ks v) .implied header .header
  | table ks => Entries.openTable? ks
  | element ks => Entries.appendTable? ks

/-- What a path leads to after an expression, if this is accepted. -/
def kindAfter? (header p : List Key) (e : Expression) (kind : Kind) : Option Kind :=
  match e.mark? header p with
  | some m => kind.next? m
  | none => some (if e.Renews p then .nothing else kind)

theorem kindAfter?_of_mark? {m : Mark} (h : e.mark? header p = some m) :
    e.kindAfter? header p kind = kind.next? m := by
  rw [kindAfter?, h]

theorem kindAfter?_of_mark?_eq_none (h : e.mark? header p = none) :
    e.kindAfter? header p kind = some (if e.Renews p then .nothing else kind) := by
  rw [kindAfter?, h]

/-! ### Headers -/

/-- The one that a header in single brackets puts in place of what it names, or one in double
brackets, is what the mark says. -/
theorem next?_of_opened? {found : Option Value} {u : Value} (h : Entries.opened? found = some u) :
    (kindOf found).next? .header = some u.kind ∧
      ∀ r, r ≠ [] → u.kindAt r = kindOf (found.bind (Value.at? · r)) := by
  unfold Entries.opened? at h
  split at h
  · cases h
    refine ⟨rfl, fun r hr => ?_⟩
    obtain ⟨k, r, rfl⟩ := List.exists_cons_of_ne_nil hr
    rfl
  · cases h
    refine ⟨rfl, fun r hr => ?_⟩
    obtain ⟨k, r, rfl⟩ := List.exists_cons_of_ne_nil hr
    rfl
  · contradiction

theorem isSome_opened? {found : Option Value} (h : ((kindOf found).next? .header).isSome) :
    (Entries.opened? found).isSome := by
  cases found with
  | none => rfl
  | some v =>
    cases v with
    | table origin entries => cases origin <;> first | rfl | contradiction
    | _ => contradiction

theorem next?_of_extended? {found : Option Value} {u : Value}
    (h : Entries.extended? found = some u) :
    (kindOf found).next? .element = some u.kind ∧ ∀ r, r ≠ [] → u.kindAt r = .nothing := by
  unfold Entries.extended? at h
  split at h
  · cases h
    refine ⟨rfl, fun r hr => ?_⟩
    obtain ⟨k, r, rfl⟩ := List.exists_cons_of_ne_nil hr
    rfl
  · cases h
    refine ⟨rfl, fun r hr => ?_⟩
    obtain ⟨k, r, rfl⟩ := List.exists_cons_of_ne_nil hr
    rfl
  · contradiction

theorem isSome_extended? {found : Option Value} (h : ((kindOf found).next? .element).isSome) :
    (Entries.extended? found).isSome := by
  cases found with
  | none => rfl
  | some v =>
    cases v with
    | table origin entries => cases origin <;> contradiction
    | tables earlier last => rfl
    | _ => contradiction

section

variable {m : Mark} {g : Option Value → Option Value} {w w' : Value}

/-- Both kinds of headers: what one makes of what it names is what its mark says, and of what lies
below, what the expression says. -/
theorem kindAfter?_header
    (hmark : ∀ p, e.mark? header p = if p = path ++ [key] then some m
      else if p ≠ [] ∧ p <+: path ++ [key] then some .above else none)
    (hrenews : ∀ p, e.Renews p → path ++ [key] <+: p)
    (hg : ∀ {found u}, g found = some u → (kindOf found).next? m = some u.kind ∧
      ∀ r, r ≠ [] → u.kindAt r = if e.Renews (path ++ key :: r) then .nothing
        else kindOf (found.bind (Value.at? · r)))
    (h : w.edit? (Entries.within? (fun _ => Entries.update? g key) .implied path) = some w')
    (hp : p ≠ []) : e.kindAfter? header p (w.kindAt p) = some (w'.kindAt p) := by
  obtain ⟨found, u, hu, hbefore, hafter, halong, haside⟩ := Value.of_edit?_update? id h
  obtain ⟨hnext, hbelow⟩ := hg hu
  by_cases hkey : path ++ [key] <+: p
  · obtain ⟨r, rfl⟩ := hkey
    rw [List.append_assoc, List.singleton_append, hbefore, hafter]
    by_cases hr : r = []
    · subst hr
      rw [kindAfter?_of_mark? ((hmark _).trans (if_pos rfl)), Value.kindAt_nil, ← hnext]
      simp [Value.at?]
    · have hnone : e.mark? header (path ++ key :: r) = none := by
        rw [hmark, if_neg, if_neg]
        · rintro ⟨_, hprefix⟩
          have hlength := hprefix.length_le
          simp at hlength
          exact hr hlength
        · simpa using hr
      rw [kindAfter?_of_mark?_eq_none hnone, hbelow r hr]
  · by_cases hprefix : p <+: path
    · have habove : e.mark? header p = some .above := by
        rw [hmark, if_neg, if_pos ⟨hp, hprefix.trans (List.prefix_append _ _)⟩]
        rintro rfl
        exact hkey List.prefix_rfl
      rw [kindAfter?_of_mark? habove, Kind.next?_above]
      exact halong p hp hprefix
    · have hnone : e.mark? header p = none := by
        rw [hmark, if_neg, if_neg]
        · rintro ⟨_, hle⟩
          rcases List.prefix_concat_iff.mp hle with rfl | hle
          · exact hkey List.prefix_rfl
          · exact hprefix hle
        · rintro rfl
          exact hkey List.prefix_rfl
      rw [kindAfter?_of_mark?_eq_none hnone, if_neg (fun hr => hkey (hrenews p hr)),
        haside p hprefix hkey]

theorem isSome_edit?_header
    (hmark : ∀ p, e.mark? header p = if p = path ++ [key] then some m
      else if p ≠ [] ∧ p <+: path ++ [key] then some .above else none)
    (hg : ∀ {found}, ((kindOf found).next? m).isSome → (g found).isSome)
    (hw : w.inner?.isSome) (h : ∀ p, p ≠ [] → (e.kindAfter? header p (w.kindAt p)).isSome) :
    (w.edit? (Entries.within? (fun _ => Entries.update? g key) .implied path)).isSome := by
  refine Value.isSome_edit?_update? hw (fun q hq hprefix => ?_) fun found hfound => hg ?_
  · have habove : e.mark? header q = some .above := by
      rw [hmark, if_neg, if_pos ⟨hq, hprefix.trans (List.prefix_append _ _)⟩]
      rintro rfl
      exact absurd hprefix.length_le (by simp)
    have hnext := h q hq
    rwa [kindAfter?_of_mark? habove, Kind.next?_above] at hnext
  · have hnext := h (path ++ [key]) (by simp)
    rwa [kindAfter?_of_mark? ((hmark _).trans (if_pos rfl)), ← hfound] at hnext

end

/-! ### Assignments -/

section

variable {w w' : Value} {before : List Key}

theorem mark?_assign_append (header r : List Key) :
    (assign ks v).mark? header (header ++ r) = (assign ks v).mark? [] r := by
  simp [mark?, List.prefix_append_right_inj]

theorem mark?_assign_of_not_isPrefix (h : ¬ header <+: p) :
    (assign ks v).mark? header p = none := by
  rw [mark?, if_neg, if_neg]
  · rintro ⟨hle, _⟩
    exact h hle
  · rintro rfl
    exact h (List.prefix_append _ _)

/-- In the table that an assignment belongs to, the mark of a path is told by the keys alone. -/
theorem mark?_assign_snoc (hr : r ≠ []) : (assign (before ++ [key]) v).mark? [] r =
    if r = before ++ [key] then some (.value v)
    else if r <+: before then some (if r = before then .dotted else .through) else none := by
  rw [mark?]
  simp only [List.nil_append, List.nil_prefix, true_and, List.dropLast_concat]
  split
  · rfl
  · rename_i hne
    have hiff : (r ≠ [] ∧ r <+: before ++ [key]) ↔ r <+: before := by
      rw [List.prefix_concat_iff]
      exact ⟨fun h => h.2.resolve_left hne, fun h => ⟨hr, .inr h⟩⟩
    simp only [hiff]

theorem assign?_snoc (before : List Key) (key : Key) (v : Value) :
    Entries.assign? (before ++ [key]) v =
      Entries.within? (Entries.insert? (1 < (before ++ [key]).length) key v) .dotted before := by
  funext origin entries
  simp [Entries.assign?]

theorem update?_of_insert? {dotted : Bool} {origin : Origin} {entries entries' : Entries}
    (h : Entries.insert? dotted key v origin entries = some entries') :
    (origin == .dotted) = dotted ∧
      Entries.update? (fun found => if found.isNone then some v else none) key entries =
        some entries' := by
  unfold Entries.insert? at h
  split at h
  · rename_i horigin
    exact ⟨horigin, h⟩
  · contradiction

/-- Dotted keys put an entry into a table that dotted keys have made. -/
theorem kindAt_of_insert? (hbefore : before ≠ [])
    (h : w.edit? (Entries.within? (Entries.insert? (1 < (before ++ [key]).length) key v) .dotted
      before) = some w') : w'.kindAt before = .table .dotted := by
  obtain ⟨u, u', _, hu, hat, _⟩ := Value.of_edit?_within? h
  obtain ⟨origin, entries, entries', hinsert, _, _, hkind, horigin⟩ := Value.of_edit? hu
  have hdotted : (origin == .dotted) = true := by
    rw [(update?_of_insert? hinsert).1]
    simpa [List.length_pos_iff] using hbefore
  obtain rfl : origin = .dotted := by simpa using hdotted
  rw [Value.kindAt, hat]
  show u'.kind = _
  rcases horigin with horigin | ⟨_, horigin⟩
  · exact hkind.trans horigin
  · contradiction

/-- In the table that an assignment belongs to, what it makes of each path is what its mark says. -/
theorem kindAfter?_assign_within (hv : v.kind = .value v)
    (h : w.edit? (Entries.assign? (before ++ [key]) v) = some w') (hr : r ≠ []) :
    (assign (before ++ [key]) v).kindAfter? [] r (w.kindAt r) = some (w'.kindAt r) := by
  rw [assign?_snoc] at h
  obtain ⟨found, u, hu, hbefore, hafter, halong, haside⟩ :=
    Value.of_edit?_update? (fun h => (update?_of_insert? h).2) h
  obtain ⟨rfl, rfl⟩ : found = none ∧ v = u := by simpa using hu
  have hmark : (assign (before ++ [key]) v).mark? [] r = _ := mark?_assign_snoc hr
  by_cases hkey : before ++ [key] <+: r
  · obtain ⟨r', rfl⟩ := hkey
    rw [List.append_assoc, List.singleton_append] at hmark ⊢
    rw [hbefore, hafter]
    cases r' with
    | nil =>
      rw [if_pos rfl] at hmark
      rw [kindAfter?_of_mark? hmark, Value.kindAt_nil, hv]
      rfl
    | cons k r' =>
      have hnone : (assign (before ++ [key]) v).mark? [] (before ++ key :: k :: r') = none := by
        rw [hmark, if_neg (by simp), if_neg]
        intro hprefix
        exact absurd hprefix.length_le (by simp)
      rw [kindAfter?_of_mark?_eq_none hnone, if_neg (by simp [Renews])]
      have hinner : v.inner? = none := by
        cases v <;> first | rfl | contradiction
      rw [Value.kindAt, Value.at?_cons, hinner]
      rfl
  · have hne : r ≠ before ++ [key] := by
      rintro rfl
      exact hkey List.prefix_rfl
    rw [if_neg hne] at hmark
    by_cases hprefix : r <+: before
    · rw [if_pos hprefix] at hmark
      have henter := halong r hr hprefix
      rw [kindAfter?_of_mark? hmark]
      split
      · rename_i hlast
        subst hlast
        rw [kindAt_of_insert? hr h] at henter ⊢
        -- A table of dotted keys has been made here, or was one before.
        cases hkind : w.kindAt r with
        | nothing => rfl
        | table origin =>
          rw [hkind] at henter
          rw [← Kind.eq_of_enter? henter (by simp)]
          rfl
        | _ =>
          rw [hkind] at henter
          cases henter
      · rw [Kind.next?_through]
        exact henter
    · rw [if_neg hprefix] at hmark
      rw [kindAfter?_of_mark?_eq_none hmark, if_neg (by simp [Renews]), haside r hprefix hkey]

theorem isSome_assign_within (hw : w.inner?.isSome)
    (hkind : w.kind = .table .header ∨ w.kind = .tables)
    (h : ∀ r, r ≠ [] →
      ((assign (before ++ [key]) v).kindAfter? [] r (w.kindAt r)).isSome) :
    (w.edit? (Entries.assign? (before ++ [key]) v)).isSome := by
  have hnext : ∀ q, q ≠ [] → q <+: before →
      ((w.kindAt q).next? (if q = before then .dotted else .through)).isSome := by
    intro q hq hprefix
    have hmark : (assign (before ++ [key]) v).mark? [] q = _ := mark?_assign_snoc hq
    have hne : q ≠ before ++ [key] := by
      rintro rfl
      exact absurd hprefix.length_le (by simp)
    rw [if_neg hne, if_pos hprefix] at hmark
    have hafter := h q hq
    rwa [kindAfter?_of_mark? hmark] at hafter
  obtain ⟨u, harrives, hu⟩ : ∃ u, Value.Arrives .dotted before w u ∧ u.inner?.isSome := by
    refine Value.exists_arrives hw fun q hq hprefix => ?_
    have hstep := hnext q hq hprefix
    split at hstep
    · rcases Kind.of_next?_dotted hstep with hfound | hfound <;> (rw [hfound]; rfl)
    · rwa [Kind.next?_through] at hstep
  rw [assign?_snoc]
  refine Value.isSome_edit?_within? harrives (Value.isSome_edit? hu ?_)
  intro origin entries hentries horigin
  have hright : (origin == .dotted) = decide (1 < (before ++ [key]).length) := by
    by_cases hbefore : before = []
    · subst hbefore
      cases harrives
      obtain rfl : origin = .header := by
        rcases hkind with hkind | hkind <;> (rw [hkind] at horigin; simpa [eq_comm] using horigin)
      rfl
    · have hlast := hnext before hbefore List.prefix_rfl
      have henter := harrives.enter?_kindAt hbefore
      rw [if_pos rfl] at hlast
      have hmade : u.kind = .table .dotted := by
        rcases Kind.of_next?_dotted hlast with hfound | hfound <;>
          (rw [hfound] at henter; exact (Option.some.inj henter).symm)
      rw [hmade] at horigin
      obtain rfl : origin = .dotted := by simpa [eq_comm] using horigin
      simpa [List.length_pos_iff] using hbefore
  have hvalue := h (before ++ [key]) (by simp)
  rw [kindAfter?_of_mark? (mark?_assign_snoc (by simp) |>.trans (if_pos rfl)),
    harrives.kindAt_append (List.cons_ne_nil key []), Value.kindAt_cons hentries] at hvalue
  rw [Entries.insert?, if_pos hright, Entries.isSome_update?]
  cases hfound : entries.lookup key with
  | none => rfl
  | some found =>
    rw [hfound] at hvalue
    cases found with
    | table origin entries => cases origin <;> contradiction
    | _ => contradiction

end

/-! ### All expressions -/

/-- The table of a document as a value. -/
abbrev document (entries : Entries) : Value :=
  .table .header entries

/-- A header has been written, so that assignments can follow. -/
def IsOpen (w : Value) (header : List Key) : Prop :=
  w.kindAt header = .table .header ∨ w.kindAt header = .tables

section

variable {entries entries' : Entries}

theorem IsOpen.entered {w : Value} (h : IsOpen w header) (hq : q <+: header) :
    w.kindAt q ≠ .nothing ∧ ((w.kindAt q).enter? .implied).isSome := by
  refine Value.isSome_enter?_of_isPrefix ?_ ?_ hq
  · rcases h with h | h <;> (rw [h]; rfl)
  · rcases h with h | h <;> (rw [h]; simp)

theorem define?_table (path : List Key) (key : Key) (entries : Entries) :
    (document entries).edit? (Entries.within? (fun _ => Entries.update? Entries.opened? key)
      .implied path) = ((table (path ++ [key])).define? header entries).map document := by
  simp [define?, Entries.openTable?, Entries.header?, Value.edit?]

theorem define?_element (path : List Key) (key : Key) (entries : Entries) :
    (document entries).edit? (Entries.within? (fun _ => Entries.update? Entries.extended? key)
      .implied path) = ((element (path ++ [key])).define? header entries).map document := by
  simp [define?, Entries.appendTable?, Entries.header?, Value.edit?]

/-- The first part of a path that an assignment goes along is there already. -/
theorem kindAfter?_assign_above {w : Value} (hopen : IsOpen w header) (hks : ks ≠ [])
    (hp : p <+: header) (henter : (w.kindAt p).enter? .implied = some kind) :
    (assign ks v).kindAfter? header p (w.kindAt p) = some kind := by
  have hnone : (assign ks v).mark? header p = none := by
    by_cases hle : header <+: p
    · obtain rfl := hle.eq_of_length_le hp.length_le
      have hmark : (assign ks v).mark? header (header ++ []) = _ := mark?_assign_append header []
      rw [List.append_nil] at hmark
      rw [hmark, mark?, if_neg (by simpa using hks.symm), if_neg (by simp)]
    · exact mark?_assign_of_not_isPrefix hle
  rw [kindAfter?_of_mark?_eq_none hnone, if_neg (by simp [Renews]),
    Kind.eq_of_enter? henter (hopen.entered hp).1]

theorem kindAfter?_of_define? (hproper : e.IsProper) (hopen : IsOpen (document entries) header)
    (h : e.define? header entries = some entries') (hp : p ≠ []) :
    e.kindAfter? header p ((document entries).kindAt p) =
      some ((document entries').kindAt p) := by
  cases e with
  | assign ks v =>
    obtain ⟨hks, hv⟩ := hproper
    obtain ⟨before, key, rfl⟩ := (List.eq_nil_or_concat' ks).resolve_left hks
    have hedit : (document entries).edit? (Entries.within?
        (Entries.assign? (before ++ [key]) v) .implied header) = some (document entries') :=
      congrArg (Option.map document) h
    obtain ⟨w, w', harrives, hw, hat, _, halong, haside⟩ := Value.of_edit?_within? hedit
    by_cases habove : p <+: header
    · exact kindAfter?_assign_above hopen hks habove (halong p hp habove)
    · by_cases hbelow : header <+: p
      · obtain ⟨r, rfl⟩ := hbelow
        have hr : r ≠ [] := by
          rintro rfl
          exact habove (by simp)
        have hafter : (document entries').kindAt (header ++ r) = w'.kindAt r := by
          rw [Value.kindAt, Value.at?_append, hat]
          rfl
        have hwithin := kindAfter?_assign_within hv hw hr
        rw [hafter, harrives.kindAt_append hr, ← hwithin]
        simp only [kindAfter?, mark?_assign_append, Renews]
      · rw [kindAfter?_of_mark?_eq_none (mark?_assign_of_not_isPrefix hbelow),
          if_neg (by simp [Renews]), haside p habove hbelow]
  | table ks =>
    obtain ⟨path, key, rfl⟩ := (List.eq_nil_or_concat' ks).resolve_left hproper
    refine kindAfter?_header (m := .header) (g := Entries.opened?) (fun _ => rfl)
      (fun _ hrenews => absurd hrenews id) (fun hu => ?_)
      ((define?_table path key entries).trans (congrArg _ h)) hp
    obtain ⟨hnext, hbelow⟩ := next?_of_opened? hu
    exact ⟨hnext, fun r hr => (hbelow r hr).trans (if_neg id).symm⟩
  | element ks =>
    obtain ⟨path, key, rfl⟩ := (List.eq_nil_or_concat' ks).resolve_left hproper
    refine kindAfter?_header (m := .element) (g := Entries.extended?) (fun _ => rfl)
      (fun _ hrenews => hrenews) (fun hu => ?_)
      ((define?_element path key entries).trans (congrArg _ h)) hp
    obtain ⟨hnext, hbelow⟩ := next?_of_extended? hu
    exact ⟨hnext, fun r hr => (hbelow r hr).trans (if_pos ⟨r, by simp⟩).symm⟩

theorem isSome_define? (hproper : e.IsProper) (hopen : IsOpen (document entries) header)
    (h : ∀ p, p ≠ [] → (e.kindAfter? header p ((document entries).kindAt p)).isSome) :
    (e.define? header entries).isSome := by
  rw [← Option.isSome_map (f := document)]
  cases e with
  | assign ks v =>
    obtain ⟨hks, _⟩ := hproper
    obtain ⟨before, key, rfl⟩ := (List.eq_nil_or_concat' ks).resolve_left hks
    obtain ⟨w, harrives, hw⟩ : ∃ w, Value.Arrives .implied header (document entries) w ∧
        w.inner?.isSome :=
      Value.exists_arrives rfl fun q _ hprefix => (hopen.entered hprefix).2
    have hkind : w.kind = .table .header ∨ w.kind = .tables := by
      by_cases hheader : header = []
      · subst hheader
        cases harrives
        exact .inl rfl
      · have henter := harrives.enter?_kindAt hheader
        have hthere := (hopen.entered List.prefix_rfl).1
        rw [Kind.eq_of_enter? henter hthere]
        exact hopen
    show ((document entries).edit? (Entries.within? (Entries.assign? _ v) .implied header)).isSome
    refine Value.isSome_edit?_within? harrives (isSome_assign_within hw hkind fun r hr => ?_)
    have hafter := h (header ++ r) (by simp [hr])
    rw [harrives.kindAt_append hr] at hafter
    simpa only [kindAfter?, mark?_assign_append, Renews] using hafter
  | table ks =>
    obtain ⟨path, key, rfl⟩ := (List.eq_nil_or_concat' ks).resolve_left hproper
    rw [← define?_table]
    exact isSome_edit?_header (fun _ => rfl) isSome_opened? rfl h
  | element ks =>
    obtain ⟨path, key, rfl⟩ := (List.eq_nil_or_concat' ks).resolve_left hproper
    rw [← define?_element]
    exact isSome_edit?_header (fun _ => rfl) isSome_extended? rfl h

theorem isOpen_next (hproper : e.IsProper) (hopen : IsOpen (document entries) header)
    (h : e.define? header entries = some entries') :
    IsOpen (document entries') (e.next header) := by
  cases e with
  | assign ks v =>
    by_cases hheader : header = []
    · subst hheader
      exact .inl rfl
    · have hafter := kindAfter?_of_define? hproper hopen h hheader
      have henter := Option.eq_some_of_isSome (hopen.entered List.prefix_rfl).2
      rw [Kind.eq_of_enter? henter (hopen.entered List.prefix_rfl).1] at henter
      rw [kindAfter?_assign_above hopen hproper.1 List.prefix_rfl henter] at hafter
      rw [IsOpen, next, ← Option.some.inj hafter]
      exact hopen
  | table ks =>
    have hafter := kindAfter?_of_define? hproper hopen h hproper
    have hmark : (table ks).mark? header ks = some .header := if_pos rfl
    rw [kindAfter?_of_mark? hmark] at hafter
    exact .inl (Kind.eq_of_next?_header hafter)
  | element ks =>
    have hafter := kindAfter?_of_define? hproper hopen h hproper
    have hmark : (element ks).mark? header ks = some .element := if_pos rfl
    rw [kindAfter?_of_mark? hmark] at hafter
    exact .inr (Kind.eq_of_next?_element hafter)

end

theorem foldlM_record {ms : List Mark} (h : ms.foldlM Kind.next? .nothing = some kind) :
    (e.record header p ms).foldlM Kind.next? .nothing = e.kindAfter? header p kind := by
  rw [record, kindAfter?]
  cases e.mark? header p with
  | some m =>
    simp only [List.foldlM_append, h]
    simp
  | none =>
    simp only
    split
    · rfl
    · exact h

end Expression

/-! ## Documents -/

open Expression

variable {es es' : List Expression} {e : Expression} {entries entries' : Entries}

theorem fill?_cons (header : List Key) :
    fill? header (e :: es) entries =
      (e.define? header entries).bind (fill? (e.next header) es) := by
  cases e <;> rfl

theorem fill?_append (header : List Key) : fill? header (es ++ es') entries =
    (fill? header es entries).bind (fill? (es.foldl next header) es') := by
  induction es generalizing header entries with
  | nil => rfl
  | cons e es ih =>
    rw [List.cons_append, fill?_cons, fill?_cons, Option.bind_assoc]
    exact Option.bind_congr fun _ _ => ih (e.next header)

theorem fill?_snoc : fill? [] (es ++ [e]) [] =
    (fill? [] es []).bind (e.define? (lastHeader es)) := by
  rw [fill?_append]
  refine Option.bind_congr fun entries _ => ?_
  rw [fill?_cons]
  exact Option.bind_fun_some _

/-- By the expressions: after each of them, every path leads to what its history makes of it. -/
theorem makes_of_fill? (hproper : ∀ e ∈ es, e.IsProper) (h : fill? [] es [] = some entries) :
    IsOpen (document entries) (lastHeader es) ∧
      ∀ p, p ≠ [] → Makes (history p es) ((document entries).kindAt p) := by
  induction es using List.reverseRecOn generalizing entries with
  | nil =>
    cases h
    refine ⟨.inl rfl, fun p hp => ?_⟩
    obtain ⟨k, p, rfl⟩ := List.exists_cons_of_ne_nil hp
    exact .nothing
  | append_singleton es e ih =>
    rw [fill?_snoc] at h
    obtain ⟨before, hbefore, hafter⟩ := Option.bind_eq_some_iff.mp h
    have he := hproper e (by simp)
    obtain ⟨hopen, hmakes⟩ := ih (fun e he => hproper e (List.mem_append_left _ he)) hbefore
    refine ⟨?_, fun p hp => ?_⟩
    · rw [lastHeader, List.foldl_append]
      exact isOpen_next he hopen hafter
    · rw [makes_iff, history_snoc, foldlM_record (makes_iff.mp (hmakes p hp))]
      exact kindAfter?_of_define? he hopen hafter hp

/-- The reader refuses expressions just when one of them makes something of a path that is not
accepted. -/
theorem isSome_fill?_iff (hproper : ∀ e ∈ es, e.IsProper) :
    (fill? [] es []).isSome ↔ Consistent IsAcceptedHistory es := by
  constructor
  · rintro h before p ⟨after, rfl⟩ hp
    rw [fill?_append] at h
    obtain ⟨entries, hentries⟩ := Option.isSome_iff_exists.mp (Option.isSome_of_isSome_bind h)
    exact ⟨_, (makes_of_fill? (fun e he => hproper e (List.mem_append_left _ he)) hentries).2 p hp⟩
  · intro h
    induction es using List.reverseRecOn with
    | nil => rfl
    | append_singleton es e ih =>
      have hes : ∀ e ∈ es, e.IsProper := fun e he => hproper e (List.mem_append_left _ he)
      obtain ⟨entries, hentries⟩ := Option.isSome_iff_exists.mp
        (ih hes fun before p hbefore => h before p (hbefore.trans (List.prefix_append _ _)))
      obtain ⟨hopen, hmakes⟩ := makes_of_fill? hes hentries
      rw [fill?_snoc, hentries, Option.bind_some]
      refine isSome_define? (hproper e (by simp)) hopen fun p hp => ?_
      obtain ⟨kind, hkind⟩ := h (es ++ [e]) p List.prefix_rfl hp
      rw [history_snoc, makes_iff, foldlM_record (makes_iff.mp (hmakes p hp))] at hkind
      rw [hkind]
      rfl

theorem ofAssignments?_eq (assignments : List (List Key × Value)) :
    Entries.ofAssignments? assignments = fill? [] (assignmentLines assignments) [] := by
  have hgo : ∀ entries : Entries, assignments.foldlM
      (fun entries x => Entries.assign? x.1 x.2 .header entries) entries =
        fill? [] (assignmentLines assignments) entries := by
    induction assignments with
    | nil => exact fun _ => rfl
    | cons x assignments ih =>
      intro entries
      rw [List.foldlM_cons, assignmentLines, List.map_cons, fill?_cons]
      exact Option.bind_congr fun entries' _ => ih entries'
  exact hgo []

end ImportMigration.Toml
