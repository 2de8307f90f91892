import ImportMigration.Toml.Layout
import Mathlib.Data.List.TakeWhile

/-!
Spaces, line breaks and comments as texts that are well formed by themselves, and what the skipping
of them takes off the front of a longer text.
-/

namespace ImportMigration.Toml

variable {t u v k b rest : Text} {c : Char} {comments : Bool}

def IsSpaces (u : Text) : Prop :=
  ∀ c ∈ u, isSpace c = true

inductive IsBreak : Text → Prop where
  | lf : IsBreak ['\n']
  | crlf : IsBreak ['\r', '\n']

inductive IsComment : Text → Prop where
  | mk (body : Text) (h : ∀ c ∈ body, isPrintable c = true) : IsComment ('#' :: body)

/-- Spaces and line breaks, and comments as far as they are allowed, each with its line break. -/
inductive IsBlank (comments : Bool) : Text → Prop where
  | nil : IsBlank comments []
  | space {c : Char} {u : Text} (hc : isSpace c = true) (hu : IsBlank comments u) :
    IsBlank comments (c :: u)
  | lineBreak {b u : Text} (hb : IsBreak b) (hu : IsBlank comments u) : IsBlank comments (b ++ u)
  | comment {k b u : Text} (hc : comments = true) (hk : IsComment k) (hb : IsBreak b)
    (hu : IsBlank comments u) : IsBlank comments (k ++ (b ++ u))

/-- Nothing blank stands at the front of the text. -/
structure IsSolid (comments : Bool) (t : Text) : Prop where
  not_space : ∀ c ∈ t.head?, isSpace c = false
  not_comment : comments = true → t.head? ≠ some '#'
  not_break : lineBreak? t = none

theorem lineBreak?_eq_some_iff : lineBreak? t = some rest ↔ ∃ b, IsBreak b ∧ t = b ++ rest := by
  constructor
  · intro h
    unfold lineBreak? at h
    split at h
    · cases h
      exact ⟨_, .lf, rfl⟩
    · cases h
      exact ⟨_, .crlf, rfl⟩
    · nomatch h
  · rintro ⟨b, hb, rfl⟩
    cases hb <;> rfl

theorem dropWhile_append_of_head {p : Char → Bool} (hu : ∀ c ∈ u, p c = true)
    (hrest : ∀ c ∈ rest.head?, p c = false) : (u ++ rest).dropWhile p = rest := by
  rw [List.dropWhile_append_of_pos hu]
  cases rest with
  | nil => rfl
  | cons c rest => exact List.dropWhile_cons_of_neg (by simp [hrest c rfl])

theorem takeWhile_append_of_head {p : Char → Bool} (hu : ∀ c ∈ u, p c = true)
    (hrest : ∀ c ∈ rest.head?, p c = false) : (u ++ rest).takeWhile p = u := by
  rw [List.takeWhile_append_of_pos hu]
  cases rest with
  | nil => exact List.append_nil u
  | cons c rest => rw [List.takeWhile_cons_of_neg (by simp [hrest c rfl]), List.append_nil]

theorem head?_dropWhile_eq_false (p : Char → Bool) (t : Text) :
    ∀ c ∈ (t.dropWhile p).head?, p c = false := by
  intro c hc
  have h := List.head?_dropWhile_not p t
  rw [Option.mem_def.mp hc] at h
  simpa using h

/-- A text falls into a front of characters of a class, as long as it can be, and the rest. -/
theorem eq_takeWhile_append (p : Char → Bool) (t : Text) :
    t = t.takeWhile p ++ t.dropWhile p ∧ ∀ c ∈ t.takeWhile p, p c = true :=
  ⟨(List.takeWhile_append_dropWhile).symm, fun _ h => List.mem_takeWhile_imp h⟩

theorem skipSpaces_append (hu : IsSpaces u) (hrest : ∀ c ∈ rest.head?, isSpace c = false) :
    skipSpaces (u ++ rest) = rest :=
  dropWhile_append_of_head hu hrest

theorem exists_spaces (t : Text) : ∃ u, IsSpaces u ∧ t = u ++ skipSpaces t ∧
    ∀ c ∈ (skipSpaces t).head?, isSpace c = false :=
  ⟨_, (eq_takeWhile_append isSpace t).2, (eq_takeWhile_append isSpace t).1,
    head?_dropWhile_eq_false isSpace t⟩

theorem IsBreak.head?_append (hb : IsBreak b) (u : Text) :
    ∀ c ∈ (b ++ u).head?, isSpace c = false ∧ isPrintable c = false ∧ c ≠ '#' := by
  cases hb <;> simp [isSpace, isPrintable]

theorem skipBlank_space (hc : isSpace c = true) :
    skipBlank comments (c :: t) = skipBlank comments t := by
  rw [skipBlank, if_pos hc]

theorem skipBlank_comment (hk : IsComment k) (hrest : ∀ c ∈ rest.head?, isPrintable c = false) :
    skipBlank true (k ++ rest) = skipBlank true rest := by
  obtain ⟨body, hbody⟩ := hk
  rw [List.cons_append, skipBlank, if_neg (by decide), if_pos (by decide),
    dropWhile_append_of_head hbody hrest]

theorem skipBlank_lineBreak (hb : IsBreak b) :
    skipBlank comments (b ++ t) = skipBlank comments t := by
  cases hb <;> rw [List.cons_append, skipBlank, if_neg (by decide), if_neg (by simp)] <;> rfl

theorem skipBlank_solid (h : IsSolid comments t) : skipBlank comments t = t := by
  cases t with
  | nil => rw [skipBlank]
  | cons c t =>
    have hspace : ¬ isSpace c = true := by simp [h.not_space c rfl]
    have hcomment : ¬ (comments && c == '#') = true := by
      intro hc
      simp only [Bool.and_eq_true, beq_iff_eq] at hc
      exact h.not_comment hc.1 (congrArg some hc.2)
    rw [skipBlank, if_neg hspace, if_neg hcomment]
    split
    · rename_i hbreak
      rw [h.not_break] at hbreak
      contradiction
    · rfl

/-- Blanks are skipped as far as they go. -/
theorem skipBlank_append (hu : IsBlank comments u) (hrest : IsSolid comments rest) :
    skipBlank comments (u ++ rest) = rest := by
  induction hu with
  | nil => exact skipBlank_solid hrest
  | space hc _ ih => rw [List.cons_append, skipBlank_space hc, ih]
  | lineBreak hb _ ih => rw [List.append_assoc, skipBlank_lineBreak hb, ih]
  | comment hc hk hb _ ih =>
    subst hc
    rw [List.append_assoc, List.append_assoc,
      skipBlank_comment hk fun c h => (hb.head?_append _ c h).2.1, skipBlank_lineBreak hb, ih]

/-- At the end of the text a comment needs no line break. -/
theorem skipBlank_append_comment (hu : IsBlank true u) (hk : IsComment k) :
    skipBlank true (u ++ k) = [] := by
  have hcomment : skipBlank true k = [] := by
    have hskip : skipBlank true (k ++ []) = skipBlank true [] := skipBlank_comment hk nofun
    rwa [List.append_nil, skipBlank] at hskip
  induction hu with
  | nil => exact hcomment
  | space hc _ ih => rw [List.cons_append, skipBlank_space hc, ih]
  | lineBreak hb _ ih => rw [List.append_assoc, skipBlank_lineBreak hb, ih]
  | comment _ hk' hb _ ih =>
    rw [List.append_assoc, List.append_assoc,
      skipBlank_comment hk' fun c h => (hb.head?_append _ c h).2.1, skipBlank_lineBreak hb, ih]

theorem isPrintable_of_isSpace (h : isSpace c = true) : isPrintable c = true := by
  simp only [isSpace, Bool.or_eq_true, beq_iff_eq] at h
  rcases h with rfl | rfl <;> decide

/-- What is blank and begins with no printable character begins with a line break. -/
theorem IsBlank.lineBreak_of_head (hu : IsBlank comments u)
    (h : ∀ c ∈ u.head?, isPrintable c = false) :
    u = [] ∨ ∃ b v, IsBreak b ∧ u = b ++ v ∧ IsBlank comments v := by
  cases hu with
  | nil => exact .inl rfl
  | space hc _ => simp [isPrintable_of_isSpace hc] at h
  | lineBreak hb hv => exact .inr ⟨_, _, hb, rfl, hv⟩
  | comment _ hk =>
    obtain ⟨body, _⟩ := hk
    simp [isPrintable] at h

/-- What is skipped of a text: blanks, and then a comment if it is not followed by a line break. -/
theorem exists_blank (comments : Bool) (t : Text) : IsSolid comments (skipBlank comments t) ∧
    ∃ u k, IsBlank comments u ∧ t = u ++ (k ++ skipBlank comments t) ∧
      (k = [] ∨ comments = true ∧ IsComment k ∧
        ∀ c ∈ (skipBlank comments t).head?, isPrintable c = false) := by
  fun_induction skipBlank comments t with
  | case1 => exact ⟨⟨nofun, nofun, rfl⟩, [], [], .nil, rfl, .inl rfl⟩
  | case2 c t hc ih =>
    obtain ⟨hsolid, u, k, hu, ht, hk⟩ := ih
    exact ⟨hsolid, c :: u, k, .space hc hu, congrArg (c :: ·) ht, hk⟩
  | case3 c t hc hcomment ih =>
    obtain ⟨hcomments, rfl⟩ : comments = true ∧ c = '#' := by simpa using hcomment
    obtain ⟨hsolid, u, k, hu, ht, hk⟩ := ih
    obtain ⟨hsplit, hbody⟩ := eq_takeWhile_append isPrintable t
    have hcomment : IsComment ('#' :: t.takeWhile isPrintable) := .mk _ hbody
    -- The comment ends at a line break, or it is the last thing that can be skipped.
    have hhead := head?_dropWhile_eq_false isPrintable t
    have hheadu : ∀ c ∈ u.head?, isPrintable c = false := by
      intro c hcu
      refine hhead c ?_
      rw [ht, List.head?_append, Option.mem_def.mp hcu]
      rfl
    rcases hu.lineBreak_of_head hheadu with rfl | ⟨b, v, hb, rfl, hv⟩
    · rcases hk with rfl | ⟨_, ⟨body, _⟩, _⟩
      · rw [List.nil_append, List.nil_append] at ht
        refine ⟨hsolid, [], _, .nil, ?_, .inr ⟨hcomments, hcomment, by rwa [← ht]⟩⟩
        rw [List.nil_append, List.cons_append, ← ht, ← hsplit]
      · rw [ht] at hhead
        nomatch hhead '#' rfl
    · refine ⟨hsolid, _, k, .comment hcomments hcomment hb hv, ?_, hk⟩
      rw [List.append_assoc, ← ht, List.cons_append, ← hsplit]
  | case4 c t hc hcomment rest hbreak ih =>
    obtain ⟨hsolid, u, k, hu, ht, hk⟩ := ih
    obtain ⟨b, hb, hbt⟩ := lineBreak?_eq_some_iff.mp hbreak
    exact ⟨hsolid, b ++ u, k, .lineBreak hb hu, by rw [hbt, List.append_assoc, ← ht], hk⟩
  | case5 c t hc hcomment hbreak =>
    refine ⟨⟨?_, ?_, hbreak⟩, [], [], .nil, rfl, .inl rfl⟩
    · simpa using hc
    · simpa using hcomment

end ImportMigration.Toml
