import ImportMigration.Proofs.Captures
import ImportMigration.Proofs.Literal
import Mathlib.Data.List.MinMax

/-!
Searching a text for an expression, and replacing what is found by a template. At each position the
ways to match are tried in an order that greed decides, and the first one is taken, or a longest
one; the ways are the matches, whatever the order (`Expression.mem_ways_iff`).
-/

namespace ImportMigration.Import

open Text

/-- A match at the front of a text. -/
structure Found where
  text : Text
  captures : List Capture
  /-- What stands behind the match. -/
  rest : Text
  deriving DecidableEq, Repr

namespace Found

def nothing (t : Text) : Found :=
  ⟨[], [], t⟩

def append (f f' : Found) : Found :=
  ⟨f.text ++ f'.text, f.captures ++ f'.captures, f'.rest⟩

/-- What a group has captured last, or nothing if it took no part. -/
def captured (f : Found) (name : Text) : Text :=
  ((f.captures.reverse.find? (·.name = name)).map Capture.text).getD []

end Found

namespace Expression

/-- The ways to match at the front of a text that begins at a position, the preferred one first. -/
abbrev Ways := Nat → Text → List Found

namespace Ways

def one (holds : Char → Bool) : Ways
  | _, [] => []
  | _, c :: t => if holds c then [⟨[c], [], t⟩] else []

def andThen (w w' : Ways) : Ways := fun i t =>
  (w i t).flatMap fun f => (w' (i + f.text.length) f.rest).map f.append

/-- A greedy repetition prefers to go on, a lazy one to stop. -/
def prefer (greedy : Bool) (more stop : List Found) : List Found :=
  if greedy then more ++ stop else stop ++ more

/-- Up to so many rounds, of which each takes a character at least. -/
def rounds (w : Ways) (greedy : Bool) : Nat → Ways
  | 0, _, t => [.nothing t]
  | n + 1, i, t =>
    prefer greedy
      (((w i t).filter (·.text ≠ [])).flatMap fun f =>
        (rounds w greedy n (i + f.text.length) f.rest).map f.append)
      [.nothing t]

/-- A text has no more rounds than characters. -/
def allRounds (w : Ways) (greedy : Bool) : Ways := fun i t =>
  w.rounds greedy t.length i t

end Ways

def ways : Expression → Ways
  | empty, _, t => [.nothing t]
  | char c, i, t => Ways.one (· = c) i t
  | oneOf s, i, t => Ways.one s.holds i t
  | cat e e', i, t => Ways.andThen e.ways e'.ways i t
  | alt e e', i, t => e.ways i t ++ e'.ways i t
  | times .atMostOnce greedy e, i, t => Ways.prefer greedy (e.ways i t) [.nothing t]
  | times .anyNumber greedy e, i, t => Ways.allRounds e.ways greedy i t
  | times .atLeastOnce greedy e, i, t => Ways.andThen e.ways (Ways.allRounds e.ways greedy) i t
  | group none e, i, t => e.ways i t
  | group (some name) e, i, t =>
    (e.ways i t).map fun f => { f with captures := ⟨name, i, f.text⟩ :: f.captures }

/-- The ways are the matches at the front of the text. -/
def Ways.Enumerate (w : Ways) (m : Matching) : Prop :=
  ∀ i t f, f ∈ w i t ↔ t = f.text ++ f.rest ∧ m i f.text f.captures

theorem eq_nothing_iff {f : Found} {t : Text} :
    f = .nothing t ↔ t = f.text ++ f.rest ∧ f.text = [] ∧ f.captures = [] := by
  obtain ⟨text, captures, rest⟩ := f
  rw [Found.nothing, Found.mk.injEq]
  constructor
  · intro h
    obtain ⟨rfl, rfl, rfl⟩ := h
    exact ⟨rfl, rfl, rfl⟩
  · intro h
    obtain ⟨rfl, rfl, rfl⟩ := h
    exact ⟨rfl, rfl, rfl⟩

theorem Ways.mem_prefer_iff {greedy : Bool} {more stop : List Found} {f : Found} :
    f ∈ prefer greedy more stop ↔ f ∈ more ∨ f ∈ stop := by
  cases greedy
  · simp [prefer, or_comm]
  · simp [prefer]

namespace Ways.Enumerate

variable {w w' : Ways} {m m' : Matching}

theorem one (holds : Char → Bool) : (Ways.one holds).Enumerate fun _ t g =>
    (∃ c, holds c = true ∧ t = [c]) ∧ g = [] := by
  intro i t f
  obtain ⟨text, captures, rest⟩ := f
  cases t with
  | nil =>
    simp only [Ways.one, List.not_mem_nil, false_iff]
    intro h
    obtain ⟨ht, ⟨c, _, rfl⟩, _⟩ := h
    contradiction
  | cons c t =>
    rw [Ways.one]
    split
    · rename_i hc
      rw [List.mem_singleton, Found.mk.injEq]
      constructor
      · intro h
        obtain ⟨rfl, rfl, rfl⟩ := h
        exact ⟨rfl, ⟨c, hc, rfl⟩, rfl⟩
      · intro h
        obtain ⟨ht, ⟨d, _, rfl⟩, rfl⟩ := h
        obtain ⟨rfl, rfl⟩ := List.cons.inj ht
        exact ⟨rfl, rfl, rfl⟩
    · rename_i hc
      simp only [List.not_mem_nil, false_iff]
      intro h
      obtain ⟨ht, ⟨d, hd, rfl⟩, rfl⟩ := h
      obtain ⟨rfl, rfl⟩ := List.cons.inj ht
      exact hc hd

theorem andThen (h : w.Enumerate m) (h' : w'.Enumerate m') :
    (w.andThen w').Enumerate (m.andThen m') := by
  intro i t f
  rw [Ways.andThen, List.mem_flatMap]
  simp only [List.mem_map]
  constructor
  · intro he
    obtain ⟨f₁, h₁, f₂, h₂, rfl⟩ := he
    obtain ⟨rfl, hm₁⟩ := (h ..).mp h₁
    obtain ⟨hrest, hm₂⟩ := (h' ..).mp h₂
    refine ⟨?_, _, _, _, _, rfl, rfl, hm₁, hm₂⟩
    rw [hrest, ← List.append_assoc]
    rfl
  · intro he
    obtain ⟨ht, u, v, a, b, htext, hcaptures, ha, hb⟩ := he
    refine ⟨⟨u, a, v ++ f.rest⟩, (h ..).mpr ⟨?_, ha⟩, ⟨v, b, f.rest⟩, (h' ..).mpr ⟨rfl, hb⟩, ?_⟩
    · rw [ht, htext, List.append_assoc]
    · rw [Found.append, ← htext, ← hcaptures]

/-- With as many rounds as characters, none is missing. -/
theorem rounds (h : w.Enumerate m) (greedy : Bool) {n i : Nat} {t : Text} {f : Found}
    (hn : t.length ≤ n) : f ∈ w.rounds greedy n i t ↔
      t = f.text ++ f.rest ∧ Matching.Rounds m i f.text f.captures := by
  induction n generalizing i t f with
  | zero =>
    obtain rfl := List.eq_nil_of_length_eq_zero (Nat.le_zero.mp hn)
    rw [Ways.rounds, List.mem_singleton, eq_nothing_iff, Matching.rounds_iff]
    refine and_congr_right fun ht => (or_iff_left ?_).symm
    -- Another round would take a character, and there is none.
    intro he
    obtain ⟨u, v, a, b, htext, _, _, hu, _⟩ := he
    have hnil : u ++ v = [] := htext ▸ (List.append_eq_nil_iff.mp ht.symm).1
    exact hu (List.append_eq_nil_iff.mp hnil).1
  | succ n ih =>
    rw [Ways.rounds, mem_prefer_iff, List.mem_flatMap, List.mem_singleton, eq_nothing_iff,
      Matching.rounds_iff]
    simp only [List.mem_filter, List.mem_map, decide_eq_true_eq]
    constructor
    · intro he
      rcases he with ⟨f₁, ⟨h₁, hne⟩, f₂, h₂, rfl⟩ | he
      · obtain ⟨rfl, hm₁⟩ := (h ..).mp h₁
        have hlength := List.length_pos_iff.mpr hne
        rw [List.length_append] at hn
        obtain ⟨hrest, hm₂⟩ := (ih (by omega)).mp h₂
        refine ⟨?_, .inr ⟨_, _, _, _, rfl, rfl, hm₁, hne, hm₂⟩⟩
        rw [hrest, ← List.append_assoc]
        rfl
      · exact ⟨he.1, .inl he.2⟩
    · intro he
      obtain ⟨ht, he | he⟩ := he
      · exact .inr ⟨ht, he⟩
      · obtain ⟨u, v, a, b, htext, hcaptures, ha, hu, hb⟩ := he
        have hlength := List.length_pos_iff.mpr hu
        rw [ht, htext, List.append_assoc, List.length_append] at hn
        have hrest : (v ++ f.rest).length ≤ n := by omega
        refine .inl ⟨⟨u, a, v ++ f.rest⟩, ⟨(h ..).mpr ⟨?_, ha⟩, hu⟩, ⟨v, b, f.rest⟩, ?_, ?_⟩
        · rw [ht, htext, List.append_assoc]
        · exact (ih hrest).mpr ⟨rfl, hb⟩
        · rw [Found.append, ← htext, ← hcaptures]

end Ways.Enumerate

/-- The ways to match are the matches, in whatever order they are tried. -/
theorem ways_enumerate (e : Expression) : Ways.Enumerate e.ways e.Matches := by
  induction e with
  | empty =>
    intro i t f
    rw [ways, List.mem_singleton, eq_nothing_iff]
    rfl
  | char c =>
    intro i t f
    refine (Ways.Enumerate.one _ i t f).trans ?_
    simp [Matches]
  | oneOf s => exact Ways.Enumerate.one s.holds
  | cat e e' ih ih' => exact ih.andThen ih'
  | alt e e' ih ih' =>
    intro i t f
    rw [ways, List.mem_append, ih i t f, ih' i t f, ← and_or_left]
    rfl
  | times n greedy e ih =>
    have hrounds : (Ways.allRounds e.ways greedy).Enumerate (Matching.Rounds e.Matches) :=
      fun _ _ _ => ih.rounds greedy (Nat.le_refl _)
    cases n with
    | atMostOnce =>
      intro i t f
      rw [ways, Ways.mem_prefer_iff, ih i t f, List.mem_singleton, eq_nothing_iff, ← and_or_left,
        or_comm]
      rfl
    | anyNumber => exact hrounds
    | atLeastOnce => exact ih.andThen hrounds
  | group name e ih =>
    cases name with
    | none => exact ih
    | some name =>
      intro i t f
      rw [ways, List.mem_map]
      constructor
      · intro h
        obtain ⟨f, hf, rfl⟩ := h
        obtain ⟨ht, hm⟩ := (ih ..).mp hf
        exact ⟨ht, _, rfl, hm⟩
      · intro h
        obtain ⟨ht, inner, hcaptures, hm⟩ := h
        refine ⟨⟨f.text, inner, f.rest⟩, (ih ..).mpr ⟨ht, hm⟩, ?_⟩
        rw [← hcaptures]

theorem mem_ways_iff {e : Expression} {i : Nat} {t : Text} {f : Found} :
    f ∈ e.ways i t ↔ t = f.text ++ f.rest ∧ e.Matches i f.text f.captures :=
  e.ways_enumerate i t f

/-- Three blanks before `from` can be shared out in three ways, which come to the same. -/
example : (seq clauseParts).ways 0 "   from ".toList =
    List.replicate 3 ⟨"   from ".toList, [], []⟩ := by
  decide +kernel

/-- Which of the ways to match is taken. -/
inductive Choice where
  /-- The preferred one. -/
  | first
  /-- A longest one, and of these the preferred one. -/
  | longest
  deriving DecidableEq, Repr

namespace Choice

variable {choice : Choice} {f : Found} {fs : List Found}

def pick : Choice → List Found → Option Found
  | first, fs => fs.head?
  | longest, fs => fs.argmax (·.text.length)

theorem mem_of_pick (h : choice.pick fs = some f) : f ∈ fs := by
  cases choice with
  | first => exact List.mem_of_head? h
  | longest => exact List.argmax_mem h

theorem pick_nil (choice : Choice) : choice.pick [] = none := by
  cases choice <;> rfl

theorem pick_eq_none_iff : choice.pick fs = none ↔ fs = [] := by
  cases choice with
  | first => exact List.head?_eq_none_iff
  | longest => exact List.argmax_eq_none

/-- Where all the ways come to the same, so does every choice. -/
theorem pick_eq_some (hf : f ∈ fs) (h : ∀ f' ∈ fs, f' = f) : choice.pick fs = some f := by
  cases hp : choice.pick fs with
  | none =>
    rw [pick_eq_none_iff.mp hp] at hf
    contradiction
  | some f' => rw [h f' (mem_of_pick hp)]

end Choice

theorem length_rest_lt {e : Expression} {choice : Choice} {i : Nat} {c : Char} {t : Text}
    {f : Found} (h : choice.pick (e.ways i (c :: t)) = some f) (hne : f.text ≠ []) :
    f.rest.length < (c :: t).length := by
  have hlength := List.length_pos_iff.mpr hne
  rw [(mem_ways_iff.mp (Choice.mem_of_pick h)).1, List.length_append]
  omega

/-- Replaces the matches in a text that begins at a position, from left to right and each behind the
one before it. Where a match has just ended, the empty text is not matched. -/
def replaceFrom (e : Expression) (choice : Choice) (template : Text) (ended : Bool) (i : Nat) :
    Text → Text
  | [] =>
    match choice.pick (e.ways i []) with
    | none => []
    | some f => if ended then [] else Template.expand f.captured template
  | c :: t =>
    match _h : choice.pick (e.ways i (c :: t)) with
    | none => c :: replaceFrom e choice template false (i + 1) t
    | some f =>
      if _hne : f.text = [] then
        (if ended then [] else Template.expand f.captured template) ++
          c :: replaceFrom e choice template false (i + 1) t
      else
        Template.expand f.captured template ++
          replaceFrom e choice template true (i + f.text.length) f.rest
termination_by t => t.length
decreasing_by
  · exact Nat.lt_succ_self _
  · exact Nat.lt_succ_self _
  · exact length_rest_lt _h _hne

def replaceAll (e : Expression) (choice : Choice) (template t : Text) : Text :=
  e.replaceFrom choice template false 0 t

section replaceFrom

variable {e : Expression} (choice : Choice) (template : Text) (ended : Bool) {i : Nat}

theorem replaceFrom_nil (h : e.ways i [] = []) :
    e.replaceFrom choice template ended i [] = [] := by
  rw [replaceFrom, h, Choice.pick_nil]

/-- A character at which nothing is matched is kept. -/
theorem replaceFrom_cons {c : Char} {t : Text} (h : e.ways i (c :: t) = []) :
    e.replaceFrom choice template ended i (c :: t) =
      c :: e.replaceFrom choice template false (i + 1) t := by
  rw [replaceFrom]
  split
  · rfl
  · rename_i f hf
    rw [h, Choice.pick_nil] at hf
    contradiction

/-- What is matched in one way only is replaced, however the way is chosen. -/
theorem replaceFrom_of_unique {f : Found} {t : Text} (hf : f ∈ e.ways i t)
    (h : ∀ f' ∈ e.ways i t, f' = f) (hne : f.text ≠ []) :
    e.replaceFrom choice template ended i t = Template.expand f.captured template ++
      e.replaceFrom choice template true (i + f.text.length) f.rest := by
  cases t with
  | nil => exact absurd (List.append_eq_nil_iff.mp (mem_ways_iff.mp hf).1.symm).1 hne
  | cons c t =>
    have hpick : choice.pick (e.ways i (c :: t)) = some f := Choice.pick_eq_some hf h
    rw [replaceFrom]
    split
    · rename_i hnone
      rw [hpick] at hnone
      contradiction
    · rename_i f' hf'
      rw [hpick] at hf'
      obtain rfl := Option.some.inj hf'
      rw [dif_neg hne]

end replaceFrom

end Expression

end ImportMigration.Import
