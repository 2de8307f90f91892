import ImportMigration.Proofs.Paths
import Mathlib.Data.List.Basic
import Mathlib.Data.List.Induction

/-!
What is known of the history of a path. What it leads to can be told from mark to mark
(`makes_iff`), and what has been made of a path stays unless an array of tables begins another.
-/

namespace ImportMigration.Toml

variable {p : List Key} {k : Key} {kind kind' : Kind} {ms ms' : List Mark}
  {es es' before : List Expression}

/-! ## What a path leads to -/

/-- What a path leads to becomes, if what is made of it is accepted. -/
def Kind.next? : Kind → Mark → Option Kind
  | .nothing, .value v => some (.value v)
  | .nothing, .header | .table .implied, .header => some (.table .header)
  | .nothing, .element | .tables, .element => some .tables
  | .nothing, .dotted | .table .dotted, .dotted => some (.table .dotted)
  | kind, .above => kind.enter? .implied
  | kind, .through => kind.enter? .dotted
  | _, _ => none

theorem Kind.next?_above (kind : Kind) : kind.next? .above = kind.enter? .implied := by
  cases kind with
  | table origin => cases origin <;> rfl
  | _ => rfl

theorem Kind.next?_through (kind : Kind) : kind.next? .through = kind.enter? .dotted := by
  cases kind with
  | table origin => cases origin <;> rfl
  | _ => rfl

theorem Kind.of_next?_dotted (h : (kind.next? .dotted).isSome) :
    kind = .nothing ∨ kind = .table .dotted := by
  cases kind with
  | nothing => exact .inl rfl
  | table origin => cases origin <;> first | exact .inr rfl | contradiction
  | _ => contradiction

theorem Kind.eq_of_next?_header (h : kind.next? .header = some kind') : kind' = .table .header := by
  cases kind with
  | nothing => exact (Option.some.inj h).symm
  | table origin => cases origin <;> first | exact (Option.some.inj h).symm | contradiction
  | _ => contradiction

theorem Kind.eq_of_next?_element (h : kind.next? .element = some kind') : kind' = .tables := by
  cases kind with
  | table origin => cases origin <;> contradiction
  | value v => contradiction
  | _ => exact (Option.some.inj h).symm

theorem foldlM_next?_eq {ms : List Mark} (h : ∀ m ∈ ms, kind.next? m = some kind) :
    ms.foldlM Kind.next? kind = some kind := by
  induction ms with
  | nil => rfl
  | cons m ms ih =>
    obtain ⟨hm, hms⟩ := List.forall_mem_cons.mp h
    rw [List.foldlM_cons, hm]
    exact ih hms

theorem foldlM_of_makes {ms : List Mark} (h : Makes ms kind) :
    ms.foldlM Kind.next? .nothing = some kind := by
  cases h with
  | nothing => rfl
  | value v => rfl
  | @implied ms h =>
    show ms.foldlM Kind.next? (.table .implied) = _
    refine foldlM_next?_eq fun m hm => ?_
    obtain rfl | rfl : m = .above ∨ m = .through := by simpa using h m hm
    all_goals rfl
  | @header ms h =>
    show ms.foldlM Kind.next? (.table .header) = _
    refine foldlM_next?_eq fun m hm => ?_
    rw [h m hm]
    rfl
  | @opened before after hbefore hafter =>
    show (before ++ .header :: after).foldlM Kind.next? (.table .implied) = _
    have hstart : before.foldlM Kind.next? (.table .implied) = some (.table .implied) := by
      refine foldlM_next?_eq fun m hm => ?_
      obtain rfl | rfl : m = .above ∨ m = .through := by simpa using hbefore m hm
      all_goals rfl
    rw [List.foldlM_append, hstart]
    show after.foldlM Kind.next? (.table .header) = _
    refine foldlM_next?_eq fun m hm => ?_
    rw [hafter m hm]
    rfl
  | @dotted m ms hm h =>
    have hfirst : Kind.next? .nothing m = some (.table .dotted) := by
      obtain rfl | rfl : m = .dotted ∨ m = .through := by simpa using hm
      all_goals rfl
    rw [List.foldlM_cons, hfirst]
    show ms.foldlM Kind.next? (.table .dotted) = _
    refine foldlM_next?_eq fun m hm => ?_
    obtain rfl | rfl | rfl : m = .above ∨ m = .dotted ∨ m = .through := by simpa using h m hm
    all_goals rfl
  | @elements ms h =>
    show ms.foldlM Kind.next? .tables = _
    refine foldlM_next?_eq fun m hm => ?_
    obtain rfl | rfl | rfl : m = .above ∨ m = .element ∨ m = .through := by simpa using h m hm
    all_goals rfl

theorem forall_mem_snoc {P : Mark → Prop} {ms : List Mark} {m : Mark} (h : ∀ x ∈ ms, P x)
    (hm : P m) : ∀ x ∈ ms ++ [m], P x := by
  intro x hx
  rcases List.mem_append.mp hx with hx | hx
  · exact h x hx
  · rwa [List.mem_singleton.mp hx]

/-- By what has been made of the path so far, and what is made of it next. -/
theorem Makes.snoc {ms : List Mark} {m : Mark} (h : Makes ms kind)
    (hm : kind.next? m = some kind') : Makes (ms ++ [m]) kind' := by
  cases h with
  | nothing =>
    cases m <;> cases hm
    · exact .value _
    · exact .header (List.forall_mem_nil _)
    · exact .elements (List.forall_mem_nil _)
    · exact .implied (List.forall_mem_nil _)
    · exact .dotted (by simp) (List.forall_mem_nil _)
    · exact .dotted (by simp) (List.forall_mem_nil _)
  | value v => cases m <;> cases hm
  | implied h =>
    cases m <;> cases hm
    · exact .opened h (List.forall_mem_nil _)
    · exact .implied (forall_mem_snoc h (by simp))
    · exact .implied (forall_mem_snoc h (by simp))
  | header h =>
    cases m <;> cases hm
    exact .header (forall_mem_snoc h rfl)
  | @opened before after hbefore hafter =>
    cases m <;> cases hm
    rw [List.cons_append, List.append_assoc]
    exact .opened hbefore (forall_mem_snoc hafter rfl)
  | dotted hm' h =>
    cases m <;> cases hm
    all_goals exact .dotted hm' (forall_mem_snoc h (by simp))
  | elements h =>
    cases m <;> cases hm
    all_goals exact .elements (forall_mem_snoc h (by simp))

theorem makes_iff {ms : List Mark} :
    Makes ms kind ↔ ms.foldlM Kind.next? .nothing = some kind := by
  refine ⟨foldlM_of_makes, fun h => ?_⟩
  induction ms using List.reverseRecOn generalizing kind with
  | nil =>
    cases h
    exact .nothing
  | append_singleton ms m ih =>
    rw [List.foldlM_append] at h
    obtain ⟨before, hbefore, hm⟩ := Option.bind_eq_some_iff.mp h
    exact (ih hbefore).snoc (by simpa using hm)

/-! ## From expression to expression -/

open Expression

/-- The expression names something, and gives it no value that is a table of the document. -/
def Expression.IsProper : Expression → Prop
  | assign ks v => ks ≠ [] ∧ v.kind = .value v
  | table ks | element ks => ks ≠ []

theorem history_snoc (p : List Key) (es : List Expression) (e : Expression) :
    history p (es ++ [e]) = e.record (lastHeader es) p (history p es) := by
  have hgo : ∀ header marks, history.go p header marks (es ++ [e]) =
      e.record (es.foldl next header) p (history.go p header marks es) := by
    induction es with
    | nil => exact fun _ _ => rfl
    | cons e' es ih => exact fun header marks => ih (e'.next header) (e'.record header p marks)
  exact hgo [] []

theorem prefix_singleton {α : Type} {x : α} {l : List α} (h : l <+: [x]) : l = [] ∨ l = [x] := by
  refine (List.prefix_cons_iff.mp h).imp_right ?_
  rintro ⟨l, rfl, hnil⟩
  rw [List.prefix_nil.mp hnil]

/-- Without a header, every expression makes something of some key of the document's table, and only
one that assigns to the key itself makes it a value. -/
theorem exists_mark? {e : Expression} (h : e.IsProper) :
    ∃ k m, e.mark? [] [k] = some m ∧ ∀ v, m = .value v → e = .assign [k] v := by
  have habove : ∀ (k : Key) r, [k] <+: k :: r := fun k r => ⟨r, rfl⟩
  cases e with
  | assign ks v =>
    obtain ⟨k, r, rfl⟩ := List.exists_cons_of_ne_nil h.1
    cases r with
    | nil =>
      refine ⟨k, .value v, if_pos rfl, ?_⟩
      rintro v' ⟨⟩
      rfl
    | cons k' r =>
      refine ⟨k, if [k] = (k :: k' :: r).dropLast then .dotted else .through, ?_, ?_⟩
      · rw [mark?, if_neg (by simp), if_pos ⟨List.nil_prefix, by simp, habove _ _⟩]
        rfl
      · intro v' hv'
        split at hv' <;> contradiction
  | table ks =>
    obtain ⟨k, r, rfl⟩ := List.exists_cons_of_ne_nil h
    cases r with
    | nil => exact ⟨k, .header, if_pos rfl, by simp⟩
    | cons k' r =>
      refine ⟨k, .above, ?_, by simp⟩
      rw [mark?, if_neg (by simp), if_pos ⟨by simp, habove _ _⟩]
  | element ks =>
    obtain ⟨k, r, rfl⟩ := List.exists_cons_of_ne_nil h
    cases r with
    | nil => exact ⟨k, .element, if_pos rfl, by simp⟩
    | cons k' r =>
      refine ⟨k, .above, ?_, by simp⟩
      rw [mark?, if_neg (by simp), if_pos ⟨by simp, habove _ _⟩]

theorem prefix_record {e : Expression} {header : List Key} (ms : List Mark)
    (h : e.mark? header p = none → ¬ e.Renews p) : ms <+: e.record header p ms := by
  rw [record]
  cases hmark : e.mark? header p with
  | some m => exact List.prefix_append _ _
  | none =>
    simp only [if_neg (h hmark)]
    exact List.prefix_rfl

/-- What has been made of a key of the document's table stays. -/
theorem history_isPrefix {e : Expression} (h : e.IsProper) (k : Key) :
    history [k] es <+: history [k] (es ++ [e]) := by
  rw [history_snoc]
  refine prefix_record _ fun hmark hrenews => ?_
  cases e with
  | element ks =>
    obtain rfl := (prefix_singleton hrenews).resolve_left h
    rw [mark?, if_pos rfl] at hmark
    contradiction
  | _ => exact hrenews

/-- One expression makes of each path what its mark says. -/
theorem history_one (p : List Key) (e : Expression) : history p [e] = (e.mark? [] p).toList := by
  show e.record [] p [] = _
  rw [record]
  cases e.mark? [] p with
  | some m => rfl
  | none => exact ite_self []

theorem lastHeader_assigns (xs : List (Key × Value)) :
    lastHeader (xs.map fun x => .assign [x.1] x.2) = [] := by
  unfold lastHeader
  induction xs with
  | nil => rfl
  | cons x xs ih => exact ih

/-- Assignments to keys of the document's own table give each key its values. -/
theorem history_assigns (xs : List (Key × Value)) {p : List Key} (hp : p ≠ []) :
    history p (xs.map fun x => .assign [x.1] x.2) =
      (xs.filter fun x => p = [x.1]).map fun x => .value x.2 := by
  induction xs using List.reverseRecOn with
  | nil => rfl
  | append_singleton xs x ih =>
    rw [List.map_append, List.map_singleton, history_snoc, lastHeader_assigns, ih,
      record, mark?, List.nil_append]
    by_cases hx : p = [x.1]
    · simp [hx]
    · have hnot : ¬ ([] <+: p ∧ p ≠ [] ∧ p <+: [x.1]) := fun h =>
        (prefix_singleton h.2.2).elim hp hx
      rw [if_neg hx, if_neg hnot]
      simp [hx, Renews]

theorem history_singleton (k : Key) (v : Value) {p : List Key} (hp : p ≠ []) :
    history p [.assign [k] v] = if p = [k] then [.value v] else [] := by
  refine (history_assigns [(k, v)] hp).trans ?_
  split <;> simp [*]

/-- What assignments make of a path without any header. -/
theorem history_assignmentLines {before : List Expression} {p : List Key}
    (h : ∀ e ∈ before, ∃ ks v, e = .assign ks v) : ∀ m ∈ history p before,
      (∃ v, m = .value v) ∨ m = .dotted ∨ m = .through := by
  induction before using List.reverseRecOn with
  | nil => exact List.forall_mem_nil _
  | append_singleton before e ih =>
    obtain ⟨ks, v, rfl⟩ := h e (by simp)
    have hbefore := ih fun e he => h e (List.mem_append_left _ he)
    rw [history_snoc, record]
    cases hmark : (assign ks v).mark? (lastHeader before) p with
    | none =>
      simp only
      split
      · exact List.forall_mem_nil _
      · exact hbefore
    | some m =>
      simp only
      intro m' hm'
      rcases List.mem_append.mp hm' with hm' | hm'
      · exact hbefore m' hm'
      · obtain rfl := List.mem_singleton.mp hm'
        rw [mark?] at hmark
        split at hmark
        · exact .inl ⟨v, (Option.some.inj hmark).symm⟩
        · split at hmark
          · rw [← Option.some.inj hmark]
            split
            · exact .inr (.inl rfl)
            · exact .inr (.inr rfl)
          · contradiction

/-! ## What TOML allows -/

end ImportMigration.Toml
