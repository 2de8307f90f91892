import ImportMigration.Proofs.Expression

/-!
What the named groups of an expression capture. A match of an expression at a position says, for
each named group that takes part, where the group's text begins and what it is; the texts that are
matched at all are the expression's language (`Expression.mem_language_iff_matches`), and greed has
no say in what is a match (`Expression.matches_congr`).
-/

namespace ImportMigration.Import

open Text Computability

/-- What a named group has matched. -/
structure Capture where
  name : Text
  /-- The position of the first character. -/
  start : Nat
  text : Text
  deriving DecidableEq, Repr

namespace Expression

/-- Which texts are matched at which positions, and what is captured then. -/
abbrev Matching := Nat → Text → List Capture → Prop

namespace Matching

def andThen (m m' : Matching) : Matching := fun i t g =>
  ∃ u v a b, t = u ++ v ∧ g = a ++ b ∧ m i u a ∧ m' (i + u.length) v b

/-- Any number of matches, one behind the other. One that takes no character is not repeated. -/
inductive Rounds (m : Matching) : Matching where
  | done {i : Nat} : Rounds m i [] []
  | next {i : Nat} {t u : Text} {g h : List Capture} (first : m i t g) (moves : t ≠ [])
      (rest : Rounds m (i + t.length) u h) : Rounds m i (t ++ u) (g ++ h)

theorem rounds_iff {m : Matching} {i : Nat} {t : Text} {g : List Capture} : Rounds m i t g ↔
    t = [] ∧ g = [] ∨ ∃ u v a b, t = u ++ v ∧ g = a ++ b ∧ m i u a ∧ u ≠ [] ∧
      Rounds m (i + u.length) v b := by
  constructor
  · intro h
    cases h with
    | done => exact .inl ⟨rfl, rfl⟩
    | next first moves rest => exact .inr ⟨_, _, _, _, rfl, rfl, first, moves, rest⟩
  · intro h
    cases h with
    | inl h =>
      obtain ⟨rfl, rfl⟩ := h
      exact .done
    | inr h =>
      obtain ⟨u, v, a, b, rfl, rfl, first, moves, rest⟩ := h
      exact .next first moves rest

end Matching

/-- How an expression matches a text that begins at a position. -/
def Matches : Expression → Matching
  | empty, _, t, g => t = [] ∧ g = []
  | char c, _, t, g => t = [c] ∧ g = []
  | oneOf s, _, t, g => (∃ c, s.holds c = true ∧ t = [c]) ∧ g = []
  | cat e e', i, t, g => Matching.andThen e.Matches e'.Matches i t g
  | alt e e', i, t, g => e.Matches i t g ∨ e'.Matches i t g
  | times .atMostOnce _ e, i, t, g => t = [] ∧ g = [] ∨ e.Matches i t g
  | times .anyNumber _ e, i, t, g => Matching.Rounds e.Matches i t g
  | times .atLeastOnce _ e, i, t, g =>
    Matching.andThen e.Matches (Matching.Rounds e.Matches) i t g
  | group none e, i, t, g => e.Matches i t g
  | group (some name) e, i, t, g => ∃ inner, g = ⟨name, i, t⟩ :: inner ∧ e.Matches i t inner

/-- The matches of an expression make up a language, wherever the text begins. -/
def Matching.Spans (m : Matching) (l : Language Char) : Prop :=
  ∀ i t, t ∈ l ↔ ∃ g, m i t g

namespace Matching.Spans

variable {m m' : Matching} {l l' : Language Char}

theorem andThen (h : m.Spans l) (h' : m'.Spans l') : (m.andThen m').Spans (l * l') := by
  intro i t
  rw [Language.mem_mul]
  constructor
  · rintro ⟨u, hu, v, hv, rfl⟩
    obtain ⟨a, ha⟩ := (h i u).mp hu
    obtain ⟨b, hb⟩ := (h' (i + u.length) v).mp hv
    exact ⟨a ++ b, u, v, a, b, rfl, rfl, ha, hb⟩
  · rintro ⟨_, u, v, a, b, rfl, rfl, ha, hb⟩
    exact ⟨u, (h i u).mpr ⟨a, ha⟩, v, (h' _ v).mpr ⟨b, hb⟩, rfl⟩

theorem rounds (h : m.Spans l) : (Rounds m).Spans l∗ := by
  intro i t
  rw [Language.mem_kstar_iff_exists_nonempty]
  constructor
  · rintro ⟨parts, rfl, hparts⟩
    induction parts generalizing i with
    | nil => exact ⟨[], .done⟩
    | cons u parts ih =>
      obtain ⟨⟨hu, hne⟩, hparts⟩ := List.forall_mem_cons.mp hparts
      obtain ⟨g, hg⟩ := (h i u).mp hu
      obtain ⟨g', hg'⟩ := ih (i + u.length) hparts
      exact ⟨g ++ g', .next hg hne hg'⟩
  · rintro ⟨g, hg⟩
    induction hg with
    | done => exact ⟨[], rfl, by simp⟩
    | @next i t u g h' first moves rest ih =>
      obtain ⟨parts, rfl, hparts⟩ := ih
      exact ⟨t :: parts, rfl, List.forall_mem_cons.mpr ⟨⟨(h i t).mpr ⟨g, first⟩, moves⟩, hparts⟩⟩

end Matching.Spans

/-- What is matched, with whatever captures, is the language. -/
theorem spans (e : Expression) : Matching.Spans e.Matches e.language := by
  induction e with
  | empty => intro i t; simp [Matches, language, Language.mem_one]
  | char c => intro i t; simp [Matches, language, mem_singleton_iff]
  | oneOf s => intro i t; simp [Matches, mem_oneOf_iff]
  | cat e e' ih ih' => exact ih.andThen ih'
  | alt e e' ih ih' =>
    intro i t
    rw [language, Language.mem_add, ih i t, ih' i t, ← exists_or]
    rfl
  | times n greedy e ih =>
    cases n with
    | atMostOnce =>
      intro i t
      rw [language, Language.mem_add, ih i t, Language.mem_one]
      simp [Matches, exists_or]
    | anyNumber => exact ih.rounds
    | atLeastOnce => exact ih.andThen ih.rounds
  | group name e ih =>
    cases name with
    | none => exact ih
    | some name =>
      intro i t
      rw [language, ih i t]
      simp [Matches]

theorem mem_language_iff_matches {e : Expression} (i : Nat) {t : Text} :
    t ∈ e.language ↔ ∃ g, e.Matches i t g :=
  e.spans i t

/-- Whether an expression has a group with a name. -/
def capturing : Expression → Bool
  | empty | char _ | oneOf _ => false
  | cat e e' | alt e e' => e.capturing || e'.capturing
  | times _ _ e => e.capturing
  | group name e => name.isSome || e.capturing

theorem Matching.Rounds.captures_eq_nil {m : Matching} (hm : ∀ {i t g}, m i t g → g = [])
    {i : Nat} {t : Text} {g : List Capture} (h : Rounds m i t g) : g = [] := by
  induction h with
  | done => rfl
  | next first _ _ ih => rw [hm first, ih, List.append_nil]

theorem captures_eq_nil {e : Expression} (he : e.capturing = false) {i : Nat} {t : Text}
    {g : List Capture} (h : e.Matches i t g) : g = [] := by
  induction e generalizing i t g with
  | empty => exact h.2
  | char c => exact h.2
  | oneOf s => exact h.2
  | cat e e' ih ih' =>
    obtain ⟨he, he'⟩ := Bool.or_eq_false_iff.mp he
    obtain ⟨u, v, a, b, _, rfl, ha, hb⟩ := h
    rw [ih he ha, ih' he' hb, List.append_nil]
  | alt e e' ih ih' =>
    obtain ⟨he, he'⟩ := Bool.or_eq_false_iff.mp he
    cases h with
    | inl h => exact ih he h
    | inr h => exact ih' he' h
  | times n greedy e ih =>
    cases n with
    | atMostOnce =>
      cases h with
      | inl h => exact h.2
      | inr h => exact ih he h
    | anyNumber => exact Matching.Rounds.captures_eq_nil (ih he) h
    | atLeastOnce =>
      obtain ⟨u, v, a, b, _, rfl, ha, hb⟩ := h
      rw [ih he ha, Matching.Rounds.captures_eq_nil (ih he) hb, List.append_nil]
  | group name e ih =>
    obtain ⟨hname, he⟩ := Bool.or_eq_false_iff.mp he
    obtain rfl := Option.isSome_eq_false_iff.mp hname |> Option.isNone_iff_eq_none.mp
    exact ih he h

/-- Without a named group, a match is no more than membership in the language. -/
theorem matches_iff_mem {e : Expression} (he : e.capturing = false) {i : Nat} {t : Text}
    {g : List Capture} : e.Matches i t g ↔ t ∈ e.language ∧ g = [] := by
  rw [mem_language_iff_matches i]
  constructor
  · intro h
    exact ⟨⟨g, h⟩, captures_eq_nil he h⟩
  · intro h
    obtain ⟨⟨g', hg'⟩, rfl⟩ := h
    exact captures_eq_nil he hg' ▸ hg'

theorem matches_group {name : Text} {e : Expression} (he : e.capturing = false) {i : Nat} {t : Text}
    {g : List Capture} :
    (group (some name) e).Matches i t g ↔ t ∈ e.language ∧ g = [⟨name, i, t⟩] := by
  simp only [Matches, matches_iff_mem he]
  constructor
  · intro h
    obtain ⟨inner, rfl, ht, rfl⟩ := h
    exact ⟨ht, rfl⟩
  · intro h
    exact ⟨[], h.2, h.1, rfl⟩

theorem matches_seq_nil {i : Nat} {t : Text} {g : List Capture} :
    (seq []).Matches i t g ↔ t = [] ∧ g = [] :=
  Iff.rfl

theorem matches_seq_cons {e : Expression} {es : List Expression} {i : Nat} {t : Text}
    {g : List Capture} : (seq (e :: es)).Matches i t g ↔
      ∃ u v a b, t = u ++ v ∧ g = a ++ b ∧ e.Matches i u a ∧ (seq es).Matches (i + u.length) v b :=
  Iff.rfl

theorem matches_seq_append {es es' : List Expression} {i : Nat} {t : Text} {g : List Capture} :
    (seq (es ++ es')).Matches i t g ↔ ∃ u v a b, t = u ++ v ∧ g = a ++ b ∧
      (seq es).Matches i u a ∧ (seq es').Matches (i + u.length) v b := by
  induction es generalizing i t g with
  | nil =>
    constructor
    · intro h
      exact ⟨[], t, [], g, rfl, rfl, ⟨rfl, rfl⟩, h⟩
    · intro h
      obtain ⟨u, v, a, b, rfl, rfl, ⟨rfl, rfl⟩, h⟩ := h
      exact h
  | cons e es ih =>
    rw [List.cons_append, matches_seq_cons]
    simp only [ih, matches_seq_cons]
    constructor
    · intro h
      obtain ⟨u, _, a, _, rfl, rfl, ha, v, w, b, c, rfl, rfl, hb, hc⟩ := h
      refine ⟨u ++ v, w, a ++ b, c, ?_, ?_, ⟨u, v, a, b, rfl, rfl, ha, hb⟩, ?_⟩
      · rw [List.append_assoc]
      · rw [List.append_assoc]
      · rwa [List.length_append, ← Nat.add_assoc]
    · intro h
      obtain ⟨_, w, _, c, rfl, rfl, ⟨u, v, a, b, rfl, rfl, ha, hb⟩, hc⟩ := h
      rw [List.length_append, ← Nat.add_assoc] at hc
      refine ⟨u, v ++ w, a, b ++ c, ?_, ?_, ha, v, w, b, c, rfl, rfl, hb, hc⟩
      · rw [List.append_assoc]
      · rw [List.append_assoc]

/-- The expression with all its repetitions greedy. -/
def greedily : Expression → Expression
  | cat e e' => cat e.greedily e'.greedily
  | alt e e' => alt e.greedily e'.greedily
  | times n _ e => times n true e.greedily
  | group name e => group name e.greedily
  | e => e

theorem matches_greedily (e : Expression) : e.greedily.Matches = e.Matches := by
  induction e with
  | empty => rfl
  | char c => rfl
  | oneOf s => rfl
  | cat e e' ih ih' => funext i t g; rw [greedily, Matches, ih, ih', Matches]
  | alt e e' ih ih' => funext i t g; rw [greedily, Matches, ih, ih', Matches]
  | times n greedy e ih => funext i t g; cases n <;> rw [greedily, Matches, ih, Matches]
  | group name e ih => funext i t g; cases name <;> simp only [greedily, Matches, ih]

/-- Two expressions that differ in greed only have the same matches. -/
theorem matches_congr {e e' : Expression} (h : e'.greedily = e.greedily) :
    e'.Matches = e.Matches := by
  rw [← matches_greedily e', h, matches_greedily]

end Expression

end ImportMigration.Import
