import ImportMigration.Proofs.FromTop
import ImportMigration.Proofs.Scope

/-!
A migration of a directory that is given from the working directory, and one of the same directory
written from the top. Their walks visit the same files in the same order, each through its two
spellings, so they leave the same disk.
-/

namespace ImportMigration

namespace Session

variable {s s' : Session} {p q : Path}

theorem node_congr (h : s.resolve p = s.resolve q) : s.node p = s.node q := by
  rw [node, node, h]

theorem list_congr (h : s.resolve p = s.resolve q) : s.list p = s.list q := by
  rw [list, list, h]

theorem read_congr (h : s.resolve p = s.resolve q) : s.read p = s.read q := by
  rw [read, read, node_congr h]

theorem Fits.empty (hp : p.isAbsolute = false) (h : s.Fits p) : s.Fits ⟨[]⟩ := by
  unfold Fits at h ⊢
  rw [bytes_fromTop hp] at h
  rw [bytes_fromTop rfl]
  simp only [List.length_append, List.length_cons, List.length_nil] at h ⊢
  omega

theorem Fits.of_below (hp : p.IsRelative) {names : List FileName} (h : s.Fits (p.below names)) :
    s.Fits p := by
  induction names generalizing p with
  | nil => exact h
  | cons n names ih =>
    have hn := ih (hp.child n) h
    unfold Fits at hn ⊢
    rw [← child_fromTop hp] at hn
    exact Nat.le_trans (Path.length_le_child _ _) hn

end Session

namespace Source

open Session

variable {s : Session} {p q : Path} {filter : Filter}

theorem accepts_child_congr (filter : Filter) (p q : Path) (n : FileName) :
    filter.accepts (p.child n) = filter.accepts (q.child n) := by
  unfold Filter.accepts
  rw [Path.fileName?_child, Path.fileName?_child]

/-- A walk below a directory meets no file that is within the limit if the directory is not. -/
theorem files_of_not_fits {depth : Nat} (hp : p.IsRelative) (hn : ¬ s.Fits p)
    (hfits : ∀ q, .file q ∈ itinerary filter s depth p → s.Fits q) :
    (itinerary filter s depth p).filterMap Encounter.path? = [] := by
  rw [List.filterMap_eq_nil_iff]
  intro e he
  cases e with
  | unreadable directory cause => rfl
  | file q =>
    obtain ⟨names, hq⟩ := exists_below_of_mem he
    have hfit := hfits q he
    obtain rfl : q = p.below names := hq
    exact absurd (hfit.of_below hp) hn

theorem leadsToFile_fromTop (hs : s.InPlace) {k : Kind} (hp : p.IsRelative)
    (hfit : leadsToFile s p k = true → s.Fits p) :
    leadsToFile s (s.fromTop p) k = leadsToFile s p k := by
  cases k with
  | link =>
    unfold leadsToFile at hfit ⊢
    by_cases h : s.Fits p
    · rw [node_congr (resolve_fromTop hs hp h)]
    · obtain ⟨cause, hc⟩ := resolve_fromTop_of_not_fits hp.1 h
      rw [Bool.eq_false_iff.mpr fun hf => h (hfit hf), node, hc]
      rfl
  | _ => rfl

/-- Of the files that a walk meets, the longer spellings are met in a walk below the longer spelling
of the directory, if they are within the limit for paths. -/
theorem files_fromTop (hs : s.InPlace) {depth : Nat} (hp : p.IsRelative)
    (hfits : ∀ q, .file q ∈ itinerary filter s depth p → s.Fits q) :
    (itinerary filter s depth (s.fromTop p)).filterMap Encounter.path? =
      ((itinerary filter s depth p).filterMap Encounter.path?).map s.fromTop := by
  induction depth generalizing p with
  | zero => rfl
  | succ depth ih =>
    by_cases hfit : s.Fits p
    · have hlist := list_congr (resolve_fromTop hs hp hfit)
      cases hl : s.list p with
      | error cause =>
        rw [itinerary_of_error hl, itinerary_of_error (hlist.trans hl)]
        rfl
      | ok entries =>
        rw [itinerary_of_ok hl] at hfits ⊢
        rw [itinerary_of_ok (hlist.trans hl), List.filterMap_flatMap, List.filterMap_flatMap,
          List.map_flatMap]
        refine List.flatMap_congr fun e he => ?_
        have hfits' : ∀ q, .file q ∈ encounters filter s depth p e → s.Fits q :=
          fun q hq => hfits q (List.mem_flatMap.mpr ⟨e, he, hq⟩)
        unfold encounters at hfits' ⊢
        rw [child_fromTop hp]
        by_cases hk : e.kind = .directory
        · simp only [hk, if_true] at hfits' ⊢
          exact ih (hp.child e.name) hfits'
        · simp only [hk, if_false] at hfits' ⊢
          have ha : filter.accepts (s.fromTop (p.child e.name)) =
              filter.accepts (p.child e.name) := by
            rw [← child_fromTop hp]
            exact accepts_child_congr ..
          by_cases hacc : filter.accepts (p.child e.name) = true
          · simp only [ha, hacc, Bool.and_true] at hfits' ⊢
            rw [leadsToFile_fromTop hs (hp.child e.name) fun hf => hfits' _ (by simp [hf])]
            split <;> rfl
          · simp only [ha, hacc, Bool.and_false]
            rfl
    · -- The longer spelling leads nowhere, and below the shorter one no file is within the limit.
      obtain ⟨cause, hc⟩ := resolve_fromTop_of_not_fits hp.1 hfit
      rw [files_of_not_fits hp hfit hfits, itinerary_of_error (by rw [list, hc])]
      rfl

end Source

namespace Migration

open Import Source

variable {s s' : Session} {root : Path}

/-- Files are rewritten alike through other paths that lead to the same. -/
theorem rewriteFiles_map (rules : List Rule) (mode : Mode) (f : Path → Path) (ps : List Path)
    (h : s.SameDisk s') (hps : ∀ p ∈ ps, s.resolve (f p) = s'.resolve p) :
    (rewriteFiles rules mode (ps.map f) s).1 = (rewriteFiles rules mode ps s').1 ∧
      (rewriteFiles rules mode (ps.map f) s).2.SameDisk (rewriteFiles rules mode ps s').2 := by
  induction ps generalizing s s' with
  | nil => exact ⟨rfl, h⟩
  | cons p ps ih =>
    obtain ⟨ho, hd⟩ := rewriteFile_congr rules mode h (hps p List.mem_cons_self)
    have hrest := ih hd fun q hq => by
      rw [(keepsShape_rewriteFile rules mode (f p) s).resolve_eq,
        (keepsShape_rewriteFile rules mode p s').resolve_eq]
      exact hps q (List.mem_cons_of_mem p hq)
    rw [List.map_cons, rewriteFiles_cons, rewriteFiles_cons]
    exact ⟨congrArg₂ List.cons ho hrest.1, hrest.2⟩

/-- Whether the root is given from the working directory or from the top makes no difference to the
disk, if all files are within the limit for paths when they are written from the top. -/
theorem after_fromTop (hs : s.InPlace) (hroot : root.IsRelative) (hfit : s.Fits root)
    (filter : Filter) (hfits : ∀ p, .file p ∈ itineraryOf filter s root → s.Fits p) (mode : Mode) :
    (after ⟨s.fromTop root, filter, mode⟩ s).disk = (after ⟨root, filter, mode⟩ s).disk := by
  have hnode := Session.node_congr (Session.resolve_fromTop hs hroot hfit)
  by_cases hd : ∃ access, s.node root = .ok (.directory access)
  · obtain ⟨access, hd⟩ := hd
    rw [after_of_directory (hnode.trans hd), after_of_directory hd]
    obtain ⟨-, htop⟩ := meet_eq_rewriteFiles defaultRules mode
      (itineraryOf filter s (s.fromTop root)) (.refl s)
    obtain ⟨-, hrel⟩ := meet_eq_rewriteFiles defaultRules mode (itineraryOf filter s root) (.refl s)
    have hresolve : ∀ p ∈ (itineraryOf filter s root).filterMap Encounter.path?,
        s.resolve (s.fromTop p) = s.resolve p := by
      intro p hp
      have hmem : .file p ∈ itineraryOf filter s root := by
        obtain ⟨e, he, hep⟩ := List.mem_filterMap.mp hp
        exact Encounter.path?_eq_some_iff.mp hep ▸ he
      obtain ⟨names, hp⟩ := exists_below_of_mem hmem
      obtain rfl : p = root.below names := hp
      exact Session.resolve_fromTop hs (hroot.below names) (hfits _ hmem)
    obtain ⟨-, hsame⟩ := rewriteFiles_map defaultRules mode s.fromTop _ (.refl s) hresolve
    rw [itineraryOf, files_fromTop hs hroot hfits] at htop
    exact ((htop.trans hsame).trans hrel.symm).disk
  · have hno : ∀ access, s.node root ≠ .ok (.directory access) := fun access ha => hd ⟨access, ha⟩
    have hno' : ∀ access, s.node (s.fromTop root) ≠ .ok (.directory access) := hnode ▸ hno
    rw [after_of_no_directory hno', after_of_no_directory hno]

end Migration

end ImportMigration
