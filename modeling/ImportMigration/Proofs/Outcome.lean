import ImportMigration.Proofs.WriteRun

/-!
What becomes of one visited file. The text that a path leads to decides whether the file is skipped
or left as it is; any other file is reported in a dry run, and is written or refuses to be in a run
that writes (`Migration.Visit`).

Nothing else matters to a visit: not what was said before it, and not how the path is spelled
(`Migration.rewriteFile_congr`). So the warnings of a walk can be left out between its visits.
-/

namespace ImportMigration

open Utf8 Import

namespace Session

variable {s s' s'' : Session} {p p' : Path} {place : Place} {t : Text}

/-- Two sessions with one disk and one working directory. What was said and written may differ. -/
structure SameDisk (s s' : Session) : Prop where
  disk : s.disk = s'.disk
  directory : s.directory = s'.directory

namespace SameDisk

theorem refl (s : Session) : s.SameDisk s :=
  ⟨rfl, rfl⟩

theorem symm (h : s.SameDisk s') : s'.SameDisk s :=
  ⟨h.disk.symm, h.directory.symm⟩

theorem trans (h : s.SameDisk s') (h' : s'.SameDisk s'') : s.SameDisk s'' :=
  ⟨h.disk.trans h'.disk, h.directory.trans h'.directory⟩

theorem tell (s : Session) (n : Notice) : (s.tell n).SameDisk s :=
  ⟨rfl, rfl⟩

theorem alike (h : s.SameDisk s') : s.Alike s' :=
  ⟨h.disk ▸ .refl _, h.directory⟩

theorem read_eq (h : s.SameDisk s') (hp : s.resolve p = s'.resolve p') : s.read p = s'.read p' := by
  simp only [read, node, hp, h.disk]

/-- A write through two paths to one place ends alike. -/
theorem write_eq (h : s.SameDisk s') (hp : s.resolve p = s'.resolve p') (content : Bytes) :
    (s.write p content).1 = (s'.write p' content).1 ∧
      (s.write p content).2.SameDisk (s'.write p' content).2 := by
  unfold write
  rw [hp]
  cases s'.resolve p' with
  | error cause => exact ⟨rfl, h⟩
  | ok place =>
    dsimp only
    rw [h.disk]
    cases s'.disk.node? place with
    | none => exact ⟨rfl, h⟩
    | some n =>
      cases n with
      | file access old =>
        dsimp only
        split
        · exact ⟨rfl, by simp only [writeAt, h.disk], h.directory⟩
        · exact ⟨rfl, h⟩
      | _ => exact ⟨rfl, h⟩

end SameDisk

/-- The text that a path leads to. -/
def text? (s : Session) (p : Path) : Option Text :=
  (s.read p).toOption.bind decode?

/-- A text is that of a file that may be read, or that of a sink, which is empty. -/
theorem text?_eq_some (h : s.text? p = some t) : ∃ place, s.resolve p = .ok place ∧
    ((∃ access, s.disk.node? place = some (.file access (encode t)) ∧ access.read = true) ∨
      s.disk.node? place = some .sink ∧ t = []) := by
  unfold text? read node at h
  cases hp : s.resolve p with
  | error cause => simp [hp, Except.bind, Except.toOption] at h
  | ok place =>
    refine ⟨place, rfl, ?_⟩
    cases hn : s.disk.node? place with
    | none => simp [hp, hn, Except.bind, Except.toOption] at h
    | some n =>
      cases n with
      | file access content =>
        cases hr : access.read with
        | false => simp [hp, hn, hr, Except.bind, Except.toOption] at h
        | true =>
          have hd : decode? content = some t := by
            simpa [hp, hn, hr, Except.bind, Except.toOption] using h
          obtain rfl := decode?_eq_some_iff.mp hd
          exact .inl ⟨access, rfl, hr⟩
      | sink =>
        have hd : decode? [] = some t := by simpa [hp, hn, Except.bind, Except.toOption] using h
        exact .inr ⟨rfl, (Option.some.inj (hd.symm.trans (decode?_encode [])))⟩
      | directory access => simp [hp, hn, Except.bind, Except.toOption] at h
      | link target => simp [hp, hn, Except.bind, Except.toOption] at h

theorem text?_of_file {access : Access} {content : Bytes} (hp : s.resolve p = .ok place)
    (hn : s.disk.node? place = some (.file access content)) :
    s.text? p = if access.read then decode? content else none := by
  rw [text?, read_of_file hp hn]
  split <;> rfl

/-- Why a path cannot be written through lies in the shape of the disk, not in what is written. -/
theorem Alike.write_eq (h : s.Alike s') (p : Path) (content content' : Bytes) :
    (s.write p content).1 = (s'.write p content').1 := by
  unfold write
  rw [h.resolve_eq]
  cases s'.resolve p with
  | error cause => rfl
  | ok place =>
    dsimp only
    rcases h.disk.cases place with ⟨access, old, old', hn, hn'⟩ | hn
    · rw [hn, hn']
      cases hw : access.write <;> simp [hw]
    · rw [hn]
      cases s'.disk.node? place with
      | none => rfl
      | some n =>
        cases n with
        | file access old => cases hw : access.write <;> simp [hw]
        | _ => rfl

end Session

theorem Import.rewrite_nil (rules : List Rule) : rewrite rules [] = [] := by
  have h (r : Rule) : r.apply [] = [] := by rw [Rule.apply, Rule.pieces_nil, List.flatMap_nil]
  induction rules with
  | nil => rfl
  | cons r rules ih => rw [rewrite, List.foldl_cons, h, ← rewrite, ih]

namespace Migration

open Source

variable {rules : List Rule} {mode : Mode} {s s' : Session} {p p' : Path}

/-- What a visit can do: the outcome, and the session after it. -/
inductive Visit (rules : List Rule) (p : Path) (s : Session) : Mode → Outcome → Session → Prop
  | skipped {mode : Mode} (h : s.text? p = none) :
    Visit rules p s mode .skipped (s.tell (.skipping p))
  | unchanged {mode : Mode} {t : Text} (h : s.text? p = some t) (ht : rewrite rules t = t) :
    Visit rules p s mode .unchanged s
  | wouldUpdate {t : Text} (h : s.text? p = some t) (ht : rewrite rules t ≠ t) :
    Visit rules p s .dryRun .updated (s.tell (.wouldUpdate p))
  | writeFailed {t : Text} {cause : Cause} (h : s.text? p = some t) (ht : rewrite rules t ≠ t)
      (hw : ∀ content, (s.write p content).1 = .error cause) :
    Visit rules p s .write .writeFailed (s.tell (.writeFailed p cause))
  | updated {t : Text} {place : Place} {access : Access} (h : s.text? p = some t)
      (ht : rewrite rules t ≠ t) (hp : s.resolve p = .ok place)
      (hn : s.disk.node? place = some (.file access (encode t))) (hw : access.write = true) :
    Visit rules p s .write .updated
      ((s.writeAt place access (encode (rewrite rules t))).tell (.updated p))

theorem visit_rewriteFile (rules : List Rule) (mode : Mode) (p : Path) (s : Session) :
    Visit rules p s mode ((rewriteFile rules mode p : StateM Session Outcome) s).1
      ((rewriteFile rules mode p : StateM Session Outcome) s).2 := by
  rw [rewriteFile_run, ← Session.text?]
  cases h : s.text? p with
  | none => exact .skipped h
  | some t =>
    dsimp only
    by_cases ht : rewrite rules t = t
    · rw [if_pos ht]
      exact .unchanged h ht
    · rw [if_neg ht]
      cases mode with
      | dryRun => exact .wouldUpdate h ht
      | write =>
        obtain ⟨place, hp, ⟨access, hn, _⟩ | ⟨_, rfl⟩⟩ := Session.text?_eq_some h
        · cases hw : access.write with
          | true =>
            have he : s.write p (encode (rewrite rules t)) =
                (.ok (), s.writeAt place access (encode (rewrite rules t))) := by
              rw [Session.write_of_file hp hn, if_pos hw]
            rw [he]
            exact .updated h ht hp hn hw
          | false =>
            have he (content : Bytes) : s.write p content = (.error .notPermitted, s) := by
              rw [Session.write_of_file hp hn, hw, if_neg Bool.false_ne_true]
            rw [he]
            exact .writeFailed h ht fun content => congrArg Prod.fst (he content)
        · exact absurd (rewrite_nil rules) ht

theorem Visit.alike {o : Outcome} (hv : Visit rules p s mode o s') : s'.Alike s := by
  cases hv with
  | unchanged => exact .refl s
  | updated h ht hp hn hw => exact (Session.Alike.tell _ _).trans ⟨.put_file hn, rfl⟩
  | _ => exact .tell s _

/-- What a dry run says of what a path leads to. -/
def foretold (rules : List Rule) (s : Session) (p : Path) : Outcome :=
  match s.text? p with
  | none => .skipped
  | some t => if rewrite rules t = t then .unchanged else .updated

theorem foretold_of_text {t : Text} (h : s.text? p = some t) :
    foretold rules s p = if rewrite rules t = t then .unchanged else .updated := by
  rw [foretold, h]

theorem foretold_of_no_text (h : s.text? p = none) : foretold rules s p = .skipped := by
  rw [foretold, h]

theorem Session.SameDisk.foretold_eq (h : s.SameDisk s') (rules : List Rule)
    (p : Path) : foretold rules s p = foretold rules s' p := by
  rw [foretold, foretold, Session.text?, Session.text?, h.read_eq (h.alike.resolve_eq p)]

theorem rewriteFile_dryRun (rules : List Rule) (p : Path) (s : Session) :
    ∃ said, (rewriteFile rules .dryRun p : StateM Session Outcome) s =
      (foretold rules s p, { s with notices := said }) := by
  rw [rewriteFile_run, ← Session.text?, foretold]
  cases s.text? p with
  | none => exact ⟨_, rfl⟩
  | some t =>
    dsimp only
    split
    · exact ⟨s.notices, rfl⟩
    · exact ⟨_, rfl⟩

/-- A dry run says of each path what it would say at the start, and leaves all but the notices. -/
theorem meet_dryRun (rules : List Rule) (es : List Encounter) (s : Session) :
    ∃ said, meet (rewriteFile rules .dryRun) es s =
      ((es.filterMap Encounter.path?).map (foretold rules s), { s with notices := said }) := by
  have hsame (said : List Notice) (p : Path) :
      foretold rules { s with notices := said } p = foretold rules s p :=
    Session.SameDisk.foretold_eq ⟨rfl, rfl⟩ rules p
  suffices h : ∀ said, ∃ said', meet (rewriteFile rules .dryRun) es { s with notices := said } =
      ((es.filterMap Encounter.path?).map (foretold rules s), { s with notices := said' }) from
    h s.notices
  induction es with
  | nil => exact fun said => ⟨said, rfl⟩
  | cons e es ih =>
    intro said
    cases e with
    | file p =>
      obtain ⟨said₁, h₁⟩ := rewriteFile_dryRun rules p { s with notices := said }
      obtain ⟨said₂, h₂⟩ := ih said₁
      refine ⟨said₂, ?_⟩
      rw [meet_file, h₁, hsame]
      dsimp only
      rw [h₂]
      rfl
    | unreadable directory cause => exact ih _

/-- Visits of one file through two paths, on one disk, come to the same. -/
theorem rewriteFile_congr (rules : List Rule) (mode : Mode) (h : s.SameDisk s')
    (hp : s.resolve p = s'.resolve p') :
    ((rewriteFile rules mode p : StateM Session Outcome) s).1 =
        ((rewriteFile rules mode p' : StateM Session Outcome) s').1 ∧
      ((rewriteFile rules mode p : StateM Session Outcome) s).2.SameDisk
        ((rewriteFile rules mode p' : StateM Session Outcome) s').2 := by
  rw [rewriteFile_run, rewriteFile_run, h.read_eq hp]
  cases (s'.read p').toOption.bind decode? with
  | none => exact ⟨rfl, h.disk, h.directory⟩
  | some t =>
    dsimp only
    by_cases ht : rewrite rules t = t
    · rw [if_pos ht, if_pos ht]
      exact ⟨rfl, h⟩
    · rw [if_neg ht, if_neg ht]
      cases mode with
      | dryRun => exact ⟨rfl, h.disk, h.directory⟩
      | write =>
        obtain ⟨hr, hd⟩ := h.write_eq hp (encode (rewrite rules t))
        revert hr hd
        rcases s.write p (encode (rewrite rules t)) with ⟨r, after⟩
        rcases s'.write p' (encode (rewrite rules t)) with ⟨r', after'⟩
        intro hr hd
        obtain rfl : r = r' := hr
        cases r with
        | error cause => exact ⟨rfl, hd.disk, hd.directory⟩
        | ok _ => exact ⟨rfl, hd.disk, hd.directory⟩

/-- Rewrites files one after the other. -/
def rewriteFiles (rules : List Rule) (mode : Mode) (ps : List Path) :
    StateM Session (List Outcome) :=
  ps.mapM (rewriteFile rules mode)

theorem rewriteFiles_cons (rules : List Rule) (mode : Mode) (p : Path) (ps : List Path)
    (s : Session) : rewriteFiles rules mode (p :: ps) s =
      (((rewriteFile rules mode p : StateM Session Outcome) s).1 ::
          (rewriteFiles rules mode ps ((rewriteFile rules mode p : StateM Session Outcome) s).2).1,
        (rewriteFiles rules mode ps ((rewriteFile rules mode p : StateM Session Outcome) s).2).2) := by
  unfold rewriteFiles
  rw [List.mapM_cons]
  rfl

/-- What a walk meets apart from files makes no difference to its visits. -/
theorem meet_eq_rewriteFiles (rules : List Rule) (mode : Mode) (es : List Encounter)
    (h : s.SameDisk s') :
    (meet (rewriteFile rules mode) es s).1 =
        (rewriteFiles rules mode (es.filterMap Encounter.path?) s').1 ∧
      (meet (rewriteFile rules mode) es s).2.SameDisk
        (rewriteFiles rules mode (es.filterMap Encounter.path?) s').2 := by
  induction es generalizing s s' with
  | nil => exact ⟨rfl, h⟩
  | cons e es ih =>
    cases e with
    | file p =>
      obtain ⟨ho, hd⟩ := rewriteFile_congr rules mode h (h.alike.resolve_eq p)
      obtain ⟨hos, hds⟩ := ih hd
      have hc : (Encounter.file p :: es).filterMap Encounter.path? =
          p :: es.filterMap Encounter.path? := rfl
      rw [meet_file, hc, rewriteFiles_cons]
      exact ⟨congrArg₂ List.cons ho hos, hds⟩
    | unreadable directory cause => exact ih ((Session.SameDisk.tell s _).trans h)

end Migration

end ImportMigration
