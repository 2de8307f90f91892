import ImportMigration.Proofs.Documents
import ImportMigration.Proofs.Offences

/-!
A config file's text is accepted just when it is a TOML document whose table is empty or has a root
that is a string, and nothing else (`parse_schema`). What is reported of another document depends on
the keys of its table alone: it is the least of those that may not be there.
-/

namespace ImportMigration.Config

open Toml

variable {t : Text} {es es' : List Expression} {entries : Entries} {e e' : Key × Value} {k : Key}
  {fault : Fault} {root : Option Path}

/-! ## The schema -/

/-- The expressions give the root a string or nothing, and make nothing of any other key. -/
structure SetsOnly (root : Option Path) (es : List Expression) : Prop where
  others : ∀ k, k ≠ rootKey → history [k] es = []
  root : root = none ∧ history [rootKey] es = [] ∨
    ∃ s, root = some (.ofText s) ∧ history [rootKey] es = [.value (.string s)]

/-- Something is made of a key of the document's table that is not the root, or of the root other
than giving it a string. -/
def IsOffence (es : List Expression) (k : Key) : Prop :=
  history [k] es ≠ [] ∧ ∀ s, k = rootKey → history [k] es ≠ [.value (.string s)]

/-- No other offence has a key as small, byte by byte. -/
structure IsLeastOffence (es : List Expression) (k : Key) : Prop where
  offence : IsOffence es k
  least : ∀ k', IsOffence es k' → k' = k ∨ Utf8.encode k < Utf8.encode k'

/-- The fault is that of the key. That of the root tells what kind of thing it is instead of a
string. -/
def Fault.Blames (es : List Expression) (k : Key) : Fault → Prop
  | malformed => False
  | unknownKey key => key = k ∧ k ≠ rootKey
  | wrongRoot v => k = rootKey ∧ Makes (history [k] es) v.kind

/-- Each key of the two documents' tables leads to the same kind of thing, or to the same value. -/
def AreAlike (es es' : List Expression) : Prop :=
  ∀ k kind, Makes (history [k] es) kind ↔ Makes (history [k] es') kind

/-! ## The table of a document -/

theorem keys_nodup_of_fill? (h : fill? [] es [] = some entries) : entries.keys.Nodup :=
  Entries.keepsDistinct_fill? _ _ h List.nodup_nil

theorem parse_of_read? (h : read? t = some entries) :
    parse t = rootOf (entries.mergeSort keyLE) := by
  rw [parse, h]

theorem makes_lookup (hproper : ∀ e ∈ es, e.IsProper) (h : fill? [] es [] = some entries)
    (k : Key) : Makes (history [k] es) (kindOf (entries.lookup k)) := by
  have hmakes := (makes_of_fill? hproper h).2 [k] (List.cons_ne_nil k [])
  rw [Value.kindAt_cons rfl] at hmakes
  simpa [Value.at?] using hmakes

theorem eq_nil_of_makes {ms : List Mark} (h : Makes ms .nothing) : ms = [] := by
  cases h
  rfl

theorem eq_value_of_makes {ms : List Mark} {v : Value} (h : Makes ms (.value v)) :
    ms = [.value v] := by
  cases h
  rfl

theorem kind_eq_string_iff {v : Value} {s : Text} :
    v.kind = .value (.string s) ↔ v = .string s := by
  cases v <;> simp [Value.kind]

/-- An entry may not be there just when the document offends with its key. -/
theorem offence?_ne_none_iff {v : Value} (h : Makes (history [k] es) v.kind) :
    offence? (k, v) ≠ none ↔ IsOffence es k := by
  have hthere : history [k] es ≠ [] := by
    intro hnil
    rw [hnil] at h
    cases v <;> cases h
  have hstring : ∀ s, history [k] es = [.value (.string s)] ↔ v = .string s := by
    intro s
    rw [← kind_eq_string_iff]
    constructor
    · intro hms
      rw [hms] at h
      exact Option.some.inj ((makes_iff.mp h).symm.trans rfl)
    · intro hv
      rw [hv] at h
      exact eq_value_of_makes h
  unfold IsOffence offence?
  simp only [ne_eq, hthere, hstring, not_false_eq_true, true_and]
  by_cases hk : k = rootKey
  · cases v <;> simp [hk]
  · simp [hk]

theorem exists_entry_iff (hproper : ∀ e ∈ es, e.IsProper) (h : fill? [] es [] = some entries) :
    IsOffence es k ↔ ∃ v, (k, v) ∈ entries ∧ offence? (k, v) ≠ none := by
  have hmakes := makes_lookup hproper h k
  have hnodup := keys_nodup_of_fill? h
  constructor
  · intro hoffence
    cases hlookup : entries.lookup k with
    | none =>
      rw [hlookup] at hmakes
      exact absurd (eq_nil_of_makes hmakes) hoffence.1
    | some v =>
      rw [hlookup] at hmakes
      exact ⟨v, (Entries.lookup_iff hnodup).mp hlookup, (offence?_ne_none_iff hmakes).mpr hoffence⟩
  · rintro ⟨v, hmem, hoffence⟩
    rw [(Entries.lookup_iff hnodup).mpr hmem] at hmakes
    exact (offence?_ne_none_iff hmakes).mp hoffence

/-- The fault of an entry is that of its key and of no other. -/
theorem blames_iff_of_offence? {v : Value} {k' : Key} (h : offence? (k, v) = some fault)
    (hmakes : Makes (history [k] es) v.kind) : fault.Blames es k' ↔ k' = k := by
  unfold offence? at h
  simp only at h
  split at h
  · rename_i hk
    subst hk
    split at h
    · contradiction
    · cases h
      refine ⟨fun hblames => hblames.1, ?_⟩
      rintro rfl
      exact ⟨rfl, hmakes⟩
  · rename_i hk
    cases h
    refine ⟨fun hblames => hblames.1.symm, ?_⟩
    rintro rfl
    exact ⟨rfl, hk⟩

/-- The entry that is reported is that of the least offence. -/
theorem isLeastOffence_iff (hproper : ∀ e ∈ es, e.IsProper) (h : fill? [] es [] = some entries) :
    IsLeastOffence es k ↔ ∃ fault, (∃ e, IsLeastEntry entries e fault) ∧ fault.Blames es k := by
  have hnodup := keys_nodup_of_fill? h
  have hmakes : ∀ {k v}, (k, v) ∈ entries → Makes (history [k] es) v.kind := by
    intro k v hmem
    have hmakes := makes_lookup hproper h k
    rwa [(Entries.lookup_iff hnodup).mpr hmem] at hmakes
  constructor
  · rintro ⟨hoffence, hleast⟩
    obtain ⟨v, hmem, hsome⟩ := (exists_entry_iff hproper h).mp hoffence
    obtain ⟨fault, hfault⟩ := Option.ne_none_iff_exists'.mp hsome
    refine ⟨fault, ⟨(k, v), hmem, hfault, ?_⟩,
      (blames_iff_of_offence? hfault (hmakes hmem)).mpr rfl⟩
    rintro ⟨k', v'⟩ hmem' hsome'
    refine (hleast k' ((exists_entry_iff hproper h).mpr ⟨v', hmem', hsome'⟩)).imp_left ?_
    rintro rfl
    have hlookup := (Entries.lookup_iff hnodup).mpr hmem'
    rw [(Entries.lookup_iff hnodup).mpr hmem] at hlookup
    rw [Option.some.inj hlookup]
  · rintro ⟨fault, ⟨⟨k', v⟩, hmem, hfault, hleast⟩, hblames⟩
    obtain rfl := (blames_iff_of_offence? hfault (hmakes hmem)).mp hblames
    refine ⟨(exists_entry_iff hproper h).mpr ⟨v, hmem, by rw [hfault]; simp⟩, fun k' hk' => ?_⟩
    obtain ⟨v', hmem', hsome'⟩ := (exists_entry_iff hproper h).mp hk'
    exact (hleast _ hmem' hsome').imp_left (congrArg Prod.fst)

/-! ## Documents -/

theorem parse_eq_malformed_iff :
    parse t = .error .malformed ↔ ¬ ∃ es, IsDocument .accepted t es := by
  rw [← isSome_read?_iff, parse]
  cases hread : read? t with
  | none => simp
  | some entries =>
    simp only [Option.isSome_some, not_true_eq_false, iff_false]
    intro h
    obtain ⟨e, _, he⟩ := List.exists_of_findSome?_eq_some (rootOf_eq_error_iff.mp h)
    exact offence?_ne_malformed he rfl

theorem parse_eq_error_iff (h : IsDocument .accepted t es) :
    (∃ fault, parse t = .error fault ∧ fault.Blames es k) ↔ IsLeastOffence es k := by
  obtain ⟨entries, hread, hfill⟩ := h.exists_entries
  rw [isLeastOffence_iff h.lines.isProper hfill, parse_of_read? hread]
  simp only [rootOf_eq_error_iff, findSome?_sorted_iff (keys_nodup_of_fill? hfill)]

theorem setsOnly_iff (hproper : ∀ e ∈ es, e.IsProper) (h : fill? [] es [] = some entries) :
    SetsOnly root es ↔ root = none ∧ entries = [] ∨
      ∃ s, root = some (.ofText s) ∧ entries = [(rootKey, .string s)] := by
  have hnodup := keys_nodup_of_fill? h
  have hmakes := makes_lookup hproper h
  have hkey : ∀ {k v}, (k, v) ∈ entries → Makes (history [k] es) v.kind := by
    intro k v hmem
    have hlookup := hmakes k
    rwa [(Entries.lookup_iff hnodup).mpr hmem] at hlookup
  have hthere : ∀ {k v}, (k, v) ∈ entries → history [k] es ≠ [] := by
    intro k v hmem hnil
    have hkind := hkey hmem
    rw [hnil] at hkind
    cases v <;> cases hkind
  constructor
  · rintro ⟨hothers, ⟨hroot, hhistory⟩ | ⟨s, hroot, hhistory⟩⟩
    · refine .inl ⟨hroot, List.eq_nil_iff_forall_not_mem.mpr fun e he => hthere he ?_⟩
      by_cases hk : e.1 = rootKey
      · rw [hk]
        exact hhistory
      · exact hothers e.1 hk
    · refine .inr ⟨s, hroot, ?_⟩
      have hall : ∀ e ∈ entries, e = (rootKey, .string s) := by
        rintro ⟨k, v⟩ hmem
        obtain rfl : k = rootKey := by
          by_contra hk
          exact hthere hmem (hothers k hk)
        have hkind := hkey hmem
        rw [hhistory] at hkind
        rw [kind_eq_string_iff.mp (Option.some.inj (makes_iff.mp hkind)).symm]
      match entries, hall, hnodup, hmakes rootKey with
      | [], _, _, hroot =>
        rw [hhistory] at hroot
        cases hroot
      | [e], hall, _, _ => rw [hall e List.mem_cons_self]
      | e :: e' :: _, hall, hnodup, _ =>
        rw [hall e List.mem_cons_self,
          hall e' (List.mem_cons_of_mem _ List.mem_cons_self)] at hnodup
        exact absurd List.mem_cons_self (List.nodup_cons.mp hnodup).1
  · rintro (⟨hroot, rfl⟩ | ⟨s, hroot, rfl⟩)
    · exact ⟨fun k _ => eq_nil_of_makes (hmakes k), .inl ⟨hroot, eq_nil_of_makes (hmakes rootKey)⟩⟩
    · refine ⟨fun k hk => ?_, .inr ⟨s, hroot, ?_⟩⟩
      · have hlookup := hmakes k
        have hne : (k == rootKey) = false := by simpa using hk
        rw [List.lookup_cons, hne] at hlookup
        exact eq_nil_of_makes hlookup
      · have hlookup := hmakes rootKey
        rw [List.lookup_cons, beq_self_eq_true] at hlookup
        exact eq_value_of_makes hlookup

theorem parse_eq_ok_iff_of_accepted (h : IsDocument .accepted t es) :
    parse t = .ok root ↔ SetsOnly root es := by
  obtain ⟨entries, hread, hfill⟩ := h.exists_entries
  have hperm := List.mergeSort_perm entries keyLE
  have hnodup := keys_nodup_of_fill? hfill
  have hsorted : Entries.keys (entries.mergeSort keyLE) |>.Nodup :=
    (hperm.map Prod.fst).nodup_iff.mpr hnodup
  have hnil : entries.mergeSort keyLE = [] ↔ entries = [] :=
    ⟨fun hs => List.nil_perm.mp (hs ▸ hperm), fun he => by rw [he, List.mergeSort_nil]⟩
  have hroot : ∀ s, entries.mergeSort keyLE = [(rootKey, .string s)] ↔
      entries = [(rootKey, .string s)] := fun s =>
    ⟨fun hs => (List.singleton_perm.mp (hs ▸ hperm)).symm, fun he => by
      rw [he, List.mergeSort_singleton]⟩
  rw [parse_of_read? hread, rootOf_eq_ok_iff hsorted, setsOnly_iff h.lines.isProper hfill, hnil]
  simp only [hroot]

/-! ## Accepted documents -/

/-- By the expressions: nothing but one assignment can set the root and nothing else. -/
theorem eq_of_setsOnly (hproper : ∀ e ∈ es, e.IsProper) (h : SetsOnly root es) :
    root = none ∧ es = [] ∨
      ∃ s, root = some (.ofText s) ∧ es = [.assign [rootKey] (.string s)] := by
  induction es using List.reverseRecOn generalizing root with
  | nil =>
    rcases h.root with ⟨hroot, _⟩ | ⟨s, _, hs⟩
    · exact .inl ⟨hroot, rfl⟩
    · contradiction
  | append_singleton es e ih =>
    have he := hproper e (by simp)
    have hbefore : ∃ root', SetsOnly root' es := by
      have hothers : ∀ k, k ≠ rootKey → history [k] es = [] := fun k hk =>
        List.prefix_nil.mp (h.others k hk ▸ history_isPrefix he k)
      rcases h.root with ⟨_, hnil⟩ | ⟨s, _, hs⟩
      · exact ⟨none, hothers, .inl ⟨rfl, List.prefix_nil.mp (hnil ▸ history_isPrefix he rootKey)⟩⟩
      · have hprefix : history [rootKey] es <+: _ := history_isPrefix he rootKey
        rw [hs] at hprefix
        rcases prefix_singleton hprefix with hnil | heq
        · exact ⟨none, hothers, .inl ⟨rfl, hnil⟩⟩
        · exact ⟨_, hothers, .inr ⟨s, rfl, heq⟩⟩
    obtain ⟨root', hbefore⟩ := hbefore
    have hes := ih (fun e he => hproper e (List.mem_append_left _ he)) hbefore
    have hheader : lastHeader es = [] := by
      rcases hes with ⟨_, rfl⟩ | ⟨s, _, rfl⟩ <;> rfl
    obtain ⟨k, m, hmark, hvalue⟩ := exists_mark? he
    have hhistory : history [k] (es ++ [e]) = history [k] es ++ [m] := by
      rw [history_snoc, hheader, Expression.record, hmark]
    obtain rfl : k = rootKey := by
      by_contra hk
      rw [h.others k hk] at hhistory
      simp at hhistory
    rcases h.root with ⟨_, hnil⟩ | ⟨s, hroot, hs⟩
    · rw [hnil] at hhistory
      simp at hhistory
    · rw [hs] at hhistory
      refine .inr ⟨s, hroot, ?_⟩
      rcases hes with ⟨_, rfl⟩ | ⟨s', _, rfl⟩
      · rw [hvalue _ (List.cons.inj hhistory).1.symm, List.nil_append]
      · rw [history_singleton rootKey _ (List.cons_ne_nil _ _), if_pos rfl] at hhistory
        exact absurd (congrArg List.length hhistory) (by simp)

/-! ## Documents of TOML 1.1 -/

section

variable {D D' : Dialect} {q : Text} {s : Text}

/-- A string is assigned in the same way in all dialects. -/
theorem isExpression_string {ks : List Key} (hks : D'.IsWithin ks.length) (hdepth : D'.IsWithin 0)
    (h : IsExpression D q (.assign ks (.string s))) :
    IsExpression D' q (.assign ks (.string s)) := by
  have hplain : ∀ {w}, IsPlain D w (.string s) → IsPlain D' w (.string s) := by
    intro w h
    cases h with
    | string hq => exact .string hq
    | scalar hw => cases hw
  have hvalue : ∀ {depth w}, IsValue D depth w (.string s) → IsValue D' 0 w (.string s) := by
    intro depth w h
    cases depth with
    | zero => exact hplain h
    | succ depth =>
      cases h with
      | plain h => exact hplain h
  cases h with
  | assign _ h =>
    obtain ⟨hpath, ha, hb, hv⟩ := h
    exact .assign hdepth (.mk ⟨hpath.keys, hks⟩ ha hb (hvalue hv))

/-- Documents with no expression, or with one that gives a key a string, are the same in all
dialects. -/
theorem isDocument_string {k : Key} (hwithin : ∀ n ≤ 1, D'.IsWithin n) (hnil : D'.IsHistory [])
    (hvalue : ∀ v, D'.IsHistory [.value v]) (h : IsDocument D t es)
    (hes : es = [] ∨ ∃ s, es = [.assign [k] (.string s)]) : IsDocument D' t es := by
  refine ⟨h.lines.imp fun _ he hq => ?_, fun before p hbefore hp => ?_⟩
  · rcases hes with rfl | ⟨s, rfl⟩
    · contradiction
    · obtain rfl := List.mem_singleton.mp he
      exact isExpression_string (hwithin 1 (by decide)) (hwithin 0 (by decide)) hq
  · rcases hes with rfl | ⟨s, rfl⟩
    · rw [List.prefix_nil.mp hbefore]
      exact hnil
    · rcases prefix_singleton hbefore with rfl | rfl
      · exact hnil
      · rw [history_singleton k _ hp]
        split
        · exact hvalue _
        · exact hnil

end

theorem parse_eq_ok_iff :
    parse t = .ok root ↔ ∃ es, IsDocument .standard t es ∧ SetsOnly root es := by
  constructor
  · intro h
    have hdocument : ∃ es, IsDocument .accepted t es := by
      by_contra hnot
      rw [parse_eq_malformed_iff.mpr hnot] at h
      contradiction
    obtain ⟨es, hes⟩ := hdocument
    have hsets := (parse_eq_ok_iff_of_accepted hes).mp h
    refine ⟨es, isDocument_string (k := rootKey) (fun _ _ => trivial) (.dotted (by simp)) .value
      hes ?_, hsets⟩
    exact (eq_of_setsOnly hes.lines.isProper hsets).imp And.right
      fun ⟨s, _, hs⟩ => ⟨s, hs⟩
  · rintro ⟨es, hes, hsets⟩
    refine (parse_eq_ok_iff_of_accepted ?_).mpr hsets
    refine isDocument_string (k := rootKey) (fun n hn => Nat.le_trans hn (by decide)) ⟨_, .nothing⟩
      (fun v => ⟨_, .value v⟩) hes ?_
    exact (eq_of_setsOnly hes.lines.isProper hsets).imp And.right
      fun ⟨s, _, hs⟩ => ⟨s, hs⟩

/-- Nothing is defined twice by one expression. -/
theorem consistent_one (e : Expression) : Consistent IsStandardHistory [e] := by
  intro before p hbefore _
  rcases prefix_singleton hbefore with rfl | rfl
  · exact .dotted (List.forall_mem_nil _)
  rw [history_one]
  cases e.mark? [] p with
  | none => exact .dotted (List.forall_mem_nil _)
  | some m =>
    cases m with
    | value v => exact .value v
    | header =>
      show IsStandardHistory ([] ++ .header :: [])
      exact .header (List.forall_mem_nil _) (List.forall_mem_nil _)
    | element => exact .elements (List.forall_mem_nil _)
    | _ => exact .dotted (by simp)

/-! ## What is said of a document -/

theorem valueText?_of_kind {v v' : Value} (h : v.kind = v'.kind) :
    valueText? v = valueText? v' := by
  cases v <;> cases v' <;> cases h <;> rfl

namespace AreAlike

theorem eq_nil_iff (h : AreAlike es es') : history [k] es = [] ↔ history [k] es' = [] :=
  ⟨fun hk => eq_nil_of_makes ((h k _).mp (hk ▸ .nothing)),
    fun hk => eq_nil_of_makes ((h k _).mpr (hk ▸ .nothing))⟩

theorem eq_value_iff (h : AreAlike es es') {v : Value} :
    history [k] es = [.value v] ↔ history [k] es' = [.value v] :=
  ⟨fun hk => eq_value_of_makes ((h k _).mp (hk ▸ .value v)),
    fun hk => eq_value_of_makes ((h k _).mpr (hk ▸ .value v))⟩

theorem isOffence_iff (h : AreAlike es es') : IsOffence es k ↔ IsOffence es' k :=
  and_congr (not_congr h.eq_nil_iff)
    (forall_congr' fun _ => imp_congr_right fun _ => not_congr h.eq_value_iff)

theorem isLeastOffence (h : AreAlike es es') (hk : IsLeastOffence es k) : IsLeastOffence es' k where
  offence := h.isOffence_iff.mp hk.offence
  least k' hk' := hk.least k' (h.isOffence_iff.mpr hk')

/-- What is said of a key is the same if it leads to the same kind of thing. -/
theorem text?_eq {fault' : Fault} (h : AreAlike es es') (hfault : fault.Blames es k)
    (hfault' : fault'.Blames es' k) : fault.text? = fault'.text? := by
  cases fault with
  | malformed => exact absurd hfault id
  | unknownKey key =>
    obtain ⟨rfl, hk⟩ := hfault
    cases fault' with
    | malformed => exact absurd hfault' id
    | unknownKey key' => rw [hfault'.1]
    | wrongRoot v' => exact absurd hfault'.1 hk
  | wrongRoot v =>
    obtain ⟨rfl, hv⟩ := hfault
    cases fault' with
    | malformed => exact absurd hfault' id
    | unknownKey key' => exact absurd rfl hfault'.2
    | wrongRoot v' =>
      have hsame := (makes_iff.mp hfault'.2).symm.trans (makes_iff.mp ((h _ _).mp hv))
      rw [Fault.text?, Fault.text?, valueText?_of_kind (Option.some.inj hsame)]

end AreAlike

/-- An unknown key, and after it the root twice. -/
def repeated : Text :=
  "R=true\nroot=''\n'root'=''\n".toList

/-- Something is made of one key of the document's table, which is not the root, and of no other. -/
structure IsOnly (es : List Expression) (k : Key) : Prop where
  not_root : k ≠ rootKey
  made : history [k] es ≠ []
  others : ∀ k', k' ≠ k → history [k'] es = []

theorem IsOnly.isLeastOffence (h : IsOnly es k) : IsLeastOffence es k where
  offence := ⟨h.made, fun _ hroot => absurd hroot h.not_root⟩
  least k' hk' := .inl (Decidable.byContradiction fun hne => hk'.1 (h.others k' hne))

theorem IsOnly.parse_eq (h : IsOnly es k) (hes : IsDocument .accepted t es) :
    parse t = .error (.unknownKey k) := by
  obtain ⟨fault, hparse, hblames⟩ := (parse_eq_error_iff hes).mpr h.isLeastOffence
  cases fault with
  | malformed => exact absurd hblames id
  | unknownKey key => rw [hparse, hblames.1]
  | wrongRoot v => exact absurd hblames.1 h.not_root

/-- So many arrays in one another. -/
def nested : Nat → Text
  | 0 => ['\'', '\'']
  | n + 1 => '[' :: (nested n ++ [']'])

end ImportMigration.Config
