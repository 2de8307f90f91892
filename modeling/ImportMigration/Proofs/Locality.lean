import ImportMigration.Import.Rename
import ImportMigration.Proofs.Division

/-!
Where a text can be cut before it is rewritten. No statement reaches over a semicolon at the end of
a line: a clause ends before the semicolon, and a specifier before the line break. So the scan comes
past such a place in the same way whatever stands on either side of it, and rewriting the parts is
rewriting the whole.
-/

namespace ImportMigration.Import

open Text

/-- The end of a line: blanks, with a line break among them. -/
structure LineEnd (e : Text) : Prop where
  blank : ∀ c ∈ e, isBlank c = true
  lineBreak : '\n' ∈ e

theorem not_isQuote_of_isBlank {c : Char} (h : isBlank c = true) : isQuote c = false := by
  have hc := inClause_of_isBlank h
  simp only [inClause, Bool.and_eq_true, Bool.not_eq_true'] at hc
  exact hc.1

theorem semicolon_not_mem_opening {form : Form} {s : Statement} (hs : s.WellFormed form) :
    ';' ∉ importWord ++ s.clause ++ [s.quote] := by
  have hw : ';' ∉ importWord := by decide
  have hc : ';' ∉ s.clause := fun h => absurd (hs.inClause _ h) (by decide)
  have hq : ';' ≠ s.quote := fun h => absurd (h ▸ hs.quote) (by decide)
  simp [hw, hc, hq]

theorem lineBreak_not_mem_specifier {form : Form} {s : Statement} (hs : s.WellFormed form)
    {package : Text} (hp : '\n' ∉ package) : '\n' ∉ package ++ s.tail ++ [s.closing] := by
  have ht : '\n' ∉ s.tail := by
    cases form with
    | exact => simp [Form.isTail_exact.mp hs.tail]
    | subpath =>
      obtain ⟨sub, htail, _, hsub⟩ := Form.isTail_subpath.mp hs.tail
      rw [htail, List.mem_cons]
      rintro (h | h)
      · exact absurd h (by decide)
      · exact absurd (hsub _ h) (by decide)
  have hq : '\n' ≠ s.closing := fun h => absurd (h ▸ hs.closing) (by decide)
  simp [hp, ht, hq]

namespace Statement.WellFormed

variable {form : Form} {s : Statement} {package : Text}

/-- A semicolon in a statement belongs to its specifier, which stays on its line. -/
theorem lineBreak_not_mem_of_semicolon (hs : s.WellFormed form) (hp : '\n' ∉ package) {u v : Text}
    (h : s.text package = u ++ ';' :: v) : '\n' ∉ v := by
  have htext : s.text package =
      (importWord ++ s.clause ++ [s.quote]) ++ (package ++ s.tail ++ [s.closing]) := by
    simp [text]
  have hopening := semicolon_not_mem_opening hs
  have hspecifier := lineBreak_not_mem_specifier hs hp
  rcases List.append_eq_append_iff.mp (htext.symm.trans h) with ⟨w, _, hv⟩ | ⟨w, hw, hv⟩
  · rw [hv] at hspecifier
    exact fun hn => hspecifier (by simp [hn])
  · cases w with
    | nil =>
      rw [List.nil_append] at hv
      rw [← hv] at hspecifier
      exact fun hn => hspecifier (List.mem_cons_of_mem _ hn)
    | cons c w =>
      rw [hw, ← (List.cons.inj hv).1] at hopening
      exact absurd (by simp) hopening

/-- The closing quote comes after every semicolon. -/
theorem closing_mem_of_semicolon (hs : s.WellFormed form) {u v : Text}
    (h : s.text package = u ++ ';' :: v) : s.closing ∈ v := by
  have hlast : [s.closing] <:+ s.text package :=
    ⟨importWord ++ s.clause ++ s.quote :: (package ++ s.tail), by simp [text]⟩
  have hsuffix : [s.closing] <:+ ';' :: v :=
    List.suffix_of_suffix_length_le hlast ⟨u, h.symm⟩ (by simp)
  rcases List.suffix_cons_iff.mp hsuffix with he | hv
  · have hq := (List.cons.inj he).1 ▸ hs.closing
    exact absurd hq (by decide)
  · exact hv.subset (List.mem_singleton_self _)

/-- A statement that begins before a semicolon at the end of a line is over before it. -/
theorem exists_of_lineEnd (hs : s.WellFormed form) (hp : '\n' ∉ package) {e : Text}
    (he : LineEnd e) {a b rest : Text} (h : a ++ ';' :: (e ++ b) = s.text package ++ rest) :
    ∃ a', a = s.text package ++ a' ∧ rest = a' ++ ';' :: (e ++ b) := by
  rcases List.append_eq_append_iff.mp h with ⟨w, ht, hw⟩ | ha
  · cases w with
    | nil => exact ⟨[], by simpa using ht.symm, by simpa using hw.symm⟩
    | cons c v =>
      -- The statement would hold the semicolon, and then the line break or a quote before it.
      obtain ⟨rfl, hv⟩ := List.cons.inj hw
      rcases List.append_eq_append_iff.mp hv with ⟨x, rfl, _⟩ | ⟨x, rfl, _⟩
      · have hn := hs.lineBreak_not_mem_of_semicolon hp ht
        exact absurd (List.mem_append_left x he.lineBreak) hn
      · have hmem := List.mem_append_left x (hs.closing_mem_of_semicolon ht)
        have hq := not_isQuote_of_isBlank (he.blank _ hmem)
        rw [hs.closing] at hq
        contradiction
  · exact ha

end Statement.WellFormed

variable {e : Text}

theorem read?_append_lineEnd (form : Form) {package : Text} (hp : '\n' ∉ package) (he : LineEnd e)
    (a b : Text) : Statement.read? form package (a ++ ';' :: (e ++ b)) =
      (Statement.read? form package a).map fun x => (x.1, x.2 ++ ';' :: (e ++ b)) := by
  cases h : Statement.read? form package a with
  | some x =>
    obtain ⟨s, rest⟩ := x
    obtain ⟨hs, rfl⟩ := Statement.read?_eq_some_iff.mp h
    exact Statement.read?_eq_some_iff.mpr ⟨hs, by simp⟩
  | none =>
    rw [Option.map_none, ← Option.not_isSome_iff_eq_none, Statement.isSome_read?_iff]
    rintro ⟨s, rest, hs, ht⟩
    obtain ⟨a', rfl, _⟩ := hs.exists_of_lineEnd hp he ht
    rw [Statement.read?_eq_some_iff.mpr ⟨hs, rfl⟩] at h
    contradiction

namespace Rule

variable {r : Rule}

theorem misses_of_not_mem {g : Text} (h : 'i' ∉ g) (after : Text) : r.Misses g after := by
  rintro u v rfl hv s _ ⟨rest, ht⟩
  obtain ⟨c, v, rfl⟩ := List.exists_cons_of_ne_nil hv
  obtain rfl : 'i' = c := (List.cons.inj ht).1
  exact h (by simp)

theorem pieces_append_lineEnd (hr : '\n' ∉ r.old) (he : LineEnd e) (a b : Text) :
    r.pieces (a ++ ';' :: (e ++ b)) = r.pieces a ++ ((';' :: e).map .char ++ r.pieces b) := by
  fun_induction pieces r a with
  | case1 =>
    have hi : 'i' ∉ ';' :: e := by
      rw [List.mem_cons]
      rintro (h | h)
      · exact absurd h (by decide)
      · exact absurd (he.blank _ h) (by decide)
    exact pieces_append_of_misses (misses_of_not_mem hi b)
  | case2 c t s rest h ih =>
    have hread := read?_append_lineEnd r.form hr he (c :: t) b
    rw [h] at hread
    rw [pieces_of_read? hread, ih]
    rfl
  | case3 c t h ih =>
    have hread := read?_append_lineEnd r.form hr he (c :: t) b
    rw [h] at hread
    rw [List.cons_append] at hread ⊢
    rw [pieces_of_read?_eq_none hread, ih]
    rfl

theorem apply_append_lineEnd (hr : '\n' ∉ r.old) (he : LineEnd e) (a b : Text) :
    r.apply (a ++ ';' :: (e ++ b)) = r.apply a ++ ';' :: (e ++ r.apply b) := by
  have hchars (t : Text) : (t.map .char).flatMap (Piece.renamed r.new) = t := by
    rw [List.flatMap_map]
    exact List.flatMap_singleton' t
  rw [apply, pieces_append_lineEnd hr he, List.flatMap_append, List.flatMap_append, hchars]
  rfl

end Rule

/-- Rules for packages without line breaks rewrite what stands on the two sides of a semicolon at
the end of a line each for itself. -/
theorem rewrite_append_lineEnd {rules : List Rule} (h : ∀ r ∈ rules, '\n' ∉ r.old)
    (he : LineEnd e) (a b : Text) :
    rewrite rules (a ++ ';' :: (e ++ b)) = rewrite rules a ++ ';' :: (e ++ rewrite rules b) := by
  induction rules generalizing a b with
  | nil => rfl
  | cons r rules ih =>
    have hr := h r List.mem_cons_self
    simp only [rewrite, List.foldl_cons, Rule.apply_append_lineEnd hr he]
    exact ih (fun r' hr' => h r' (List.mem_cons_of_mem _ hr')) _ _

/-- The legacy rules rewrite a text by the lines that end with a semicolon, each line for itself. -/
theorem rewrite_line_by_line (a b : Text) :
    rewrite defaultRules (a ++ ";\n".toList ++ b) =
        rewrite defaultRules a ++ ";\n".toList ++ rewrite defaultRules b ∧
      rewrite defaultRules (a ++ ";\r\n".toList ++ b) =
        rewrite defaultRules a ++ ";\r\n".toList ++ rewrite defaultRules b := by
  have hold : ∀ r ∈ defaultRules, '\n' ∉ r.old := by decide +kernel
  have hlf : LineEnd ['\n'] := ⟨List.all_eq_true.mp rfl, by decide⟩
  have hcrlf : LineEnd ['\r', '\n'] := ⟨List.all_eq_true.mp rfl, by decide⟩
  constructor
  · simpa using rewrite_append_lineEnd hold hlf a b
  · simpa using rewrite_append_lineEnd hold hcrlf a b

end ImportMigration.Import
