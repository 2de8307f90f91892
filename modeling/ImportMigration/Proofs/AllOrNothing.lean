import ImportMigration.Proofs.Unchanged

/-!
Rewriting one file is all or nothing. What a path leads to decides the outcome, each of the four in
one case only, and only an update outside a dry run touches the disk: the file that the path leads
to then holds the whole rewritten text, and nothing else differs.
-/

namespace ImportMigration

open Utf8 Import

namespace Session

variable {s s' : Session} {p : Path} {t : Text}

/-- The path leads to a file that may be written. -/
def Writable (s : Session) (p : Path) : Prop :=
  ∃ place access content, s.resolve p = .ok place ∧
    s.disk.node? place = some (.file access content) ∧ access.write = true

/-- No file was written from the one session to the other, not even with the content it had. -/
structure Untouched (s s' : Session) : Prop where
  disk : s'.disk = s.disk
  directory : s'.directory = s.directory
  written : s'.written = s.written

/-- One file was written, and is the only node that differs. -/
structure WroteOnly (s s' : Session) (place : Place) (access : Access) (content : Bytes) : Prop where
  node?_eq : ∀ q, s'.disk.node? q =
    if q = place then some (.file access content) else s.disk.node? q
  directory : s'.directory = s.directory
  written : s'.written = s.written ++ [place]

theorem text?_eq_some_iff : s.text? p = some t ↔ s.read p = .ok (encode t) := by
  unfold text?
  cases s.read p with
  | error cause => simp [Except.toOption]
  | ok content => simp [Except.toOption, decode?_eq_some_iff]

theorem text?_eq_none_iff : s.text? p = none ↔
    (∃ cause, s.read p = .error cause) ∨
      ∃ content, s.read p = .ok content ∧ ∀ t, content ≠ encode t := by
  unfold text?
  cases s.read p with
  | error cause => simp [Except.toOption]
  | ok content =>
    simp [Except.toOption, Option.eq_none_iff_forall_ne_some, decode?_eq_some_iff]

theorem not_writable_of_error {cause : Cause}
    (h : ∀ content, (s.write p content).1 = .error cause) : ¬ s.Writable p := by
  rintro ⟨place, access, content, hp, hn, hw⟩
  have he := h content
  rw [write_of_file hp hn, if_pos hw] at he
  contradiction

end Session

namespace Migration

variable {rules : List Rule} {mode : Mode} {s s' : Session} {p : Path} {o : Outcome}

theorem Visit.skipped_iff (hv : Visit rules p s mode o s') : o = .skipped ↔ s.text? p = none := by
  cases hv with
  | skipped h => simp [h]
  | unchanged h ht => simp [h]
  | wouldUpdate h ht => simp [h]
  | writeFailed h ht hw => simp [h]
  | updated h ht hp hn hw => simp [h]

theorem Visit.updated_iff (hv : Visit rules p s mode o s') : o = .updated ↔
    ∃ t, s.text? p = some t ∧ rewrite rules t ≠ t ∧ (mode = .dryRun ∨ s.Writable p) := by
  cases hv with
  | skipped h => simp [h]
  | unchanged h ht => simp [h, ht]
  | wouldUpdate h ht => simp [h, ht]
  | writeFailed h ht hw =>
    have hn : ¬ s.Writable p := Session.not_writable_of_error hw
    simp [h, hn]
  | updated h ht hp hn hw =>
    have hw : s.Writable p := ⟨_, _, _, hp, hn, hw⟩
    simp [h, ht, hw]

theorem Visit.writeFailed_iff (hv : Visit rules p s mode o s') : o = .writeFailed ↔
    ∃ t, s.text? p = some t ∧ rewrite rules t ≠ t ∧ mode = .write ∧ ¬ s.Writable p := by
  cases hv with
  | skipped h => simp [h]
  | unchanged h ht => simp [h, ht]
  | wouldUpdate h ht => simp
  | writeFailed h ht hw =>
    have hn : ¬ s.Writable p := Session.not_writable_of_error hw
    simp [h, ht, hn]
  | updated h ht hp hn hw =>
    have hw : s.Writable p := ⟨_, _, _, hp, hn, hw⟩
    simp [hw]

/-- Only an update outside a dry run touches the disk. -/
theorem Visit.touches (hv : Visit rules p s mode o s') :
    (mode = .write ∧ o = .updated ∧ ∃ place access t, s.resolve p = .ok place ∧
      s.disk.node? place = some (.file access (encode t)) ∧
      s.WroteOnly s' place access (encode (rewrite rules t))) ∨
    ¬ (mode = .write ∧ o = .updated) ∧ s.Untouched s' := by
  cases hv with
  | skipped h => exact .inr ⟨by simp, rfl, rfl, rfl⟩
  | unchanged h ht => exact .inr ⟨by simp, rfl, rfl, rfl⟩
  | wouldUpdate h ht => exact .inr ⟨by simp, rfl, rfl, rfl⟩
  | writeFailed h ht hw => exact .inr ⟨by simp, rfl, rfl, rfl⟩
  | updated h ht hp hn hw =>
    exact .inl ⟨rfl, rfl, _, _, _, hp, hn, fun q => s.disk.node?_put _ q _, rfl, rfl⟩

/-- A file is skipped if it cannot be read or is no text, and is left unchanged if its text is left
as it is by the rules. Any other file is updated, unless it should be written and may not be. Only
where a file is updated outside a dry run anything is written, and that is the whole rewritten text
to the file that the path leads to. -/
theorem rewriteFile_all_or_nothing (rules : List Rule) (mode : Mode) (p : Path) (s : Session) :
    ∃ o s', (rewriteFile rules mode p : StateM Session Outcome) s = (o, s') ∧
      (o = .skipped ↔ (∃ cause, s.read p = .error cause) ∨
        ∃ content, s.read p = .ok content ∧ ∀ t, content ≠ encode t) ∧
      (o = .unchanged ↔ ∃ t, s.read p = .ok (encode t) ∧ rewrite rules t = t) ∧
      (o = .updated ↔ ∃ t, s.read p = .ok (encode t) ∧ rewrite rules t ≠ t ∧
        (mode = .dryRun ∨ s.Writable p)) ∧
      (o = .writeFailed ↔ ∃ t, s.read p = .ok (encode t) ∧ rewrite rules t ≠ t ∧
        mode = .write ∧ ¬ s.Writable p) ∧
      ((mode = .write ∧ o = .updated ∧ ∃ place access t, s.resolve p = .ok place ∧
          s.disk.node? place = some (.file access (encode t)) ∧
          s.WroteOnly s' place access (encode (rewrite rules t))) ∨
        ¬ (mode = .write ∧ o = .updated) ∧ s.Untouched s') := by
  have hv := visit_rewriteFile rules mode p s
  simp only [← Session.text?_eq_some_iff, ← Session.text?_eq_none_iff]
  exact ⟨_, _, rfl, hv.skipped_iff, hv.unchanged_iff, hv.updated_iff, hv.writeFailed_iff, hv.touches⟩

/-- Rules that undo one another find their statements and still leave the text as it is. -/
example :
    steps (rulesOf [⟨['a'], ['b'], false⟩, ⟨['b'], ['a'], false⟩]) "import x from 'a'".toList =
      [some "import x from 'b'".toList, some "import x from 'a'".toList] := by
  decide +kernel

end Migration

end ImportMigration
