import ImportMigration.Proofs.ConfigPlace

/-!
Paths as they compare, component by component. The components of a joined path depend on those of
its two parts alone, and the parent of what bears a name in a directory is the directory without
what is vacant at its end. So the root that a config file in a directory sets is taken from that
directory, however the directory's path is written (`Config.root_of_found`).
-/

namespace ImportMigration

namespace Path

variable {p q base : Path} {x t : Bytes} {piece : Bytes} {pieces : List Bytes}

theorem anchor_cons (b : UInt8) (t : Bytes) : anchor ⟨b :: t⟩ =
    if b = slash then [slash] else if b = dot ∧ t.head?.all (· == slash) then [dot] else [] := by
  have hsecond : (b :: t)[1]? = t.head? := by cases t <;> rfl
  simp [anchor, isAbsolute, startsHere, hsecond]

theorem not_mem_of_mem_cut (h : piece ∈ cut x) : slash ∉ piece := by
  induction x generalizing piece with
  | nil => simp_all [cut]
  | cons b x ih =>
    rw [cut] at h
    split at h
    · rcases List.mem_cons.mp h with rfl | h
      · exact List.not_mem_nil
      · exact ih h
    · rename_i hb
      obtain ⟨first, rest, hx⟩ := List.exists_cons_of_ne_nil (cut_ne_nil x)
      rw [hx, List.modifyHead_cons, List.mem_cons] at h
      rcases h with rfl | h
      · simp [Ne.symm hb, ih (hx ▸ List.mem_cons_self)]
      · exact ih (hx ▸ List.mem_cons_of_mem _ h)

/-- The first piece is empty if a slash ends it at once. -/
theorem head?_all_slash_iff (h : cut x = piece :: pieces) :
    x.head?.all (· == slash) = true ↔ piece = [] := by
  cases x with
  | nil => simp_all [cut]
  | cons b x =>
    obtain ⟨first, rest, hx⟩ := List.exists_cons_of_ne_nil (cut_ne_nil x)
    by_cases hb : b = slash
    · simp_all [cut]
    · rw [cut, if_neg hb, hx, List.modifyHead_cons] at h
      obtain ⟨rfl, _⟩ := List.cons.inj h
      simp [hb]

theorem exists_glue_cons (piece : Bytes) (pieces : List Bytes) :
    ∃ rest : Bytes, glue (piece :: pieces) = piece ++ rest ∧
      rest.head?.all (· == slash) = true := by
  cases pieces with
  | nil => exact ⟨[], by simp [glue], rfl⟩
  | cons next pieces => exact ⟨slash :: glue (next :: pieces), rfl, by simp⟩

theorem cut_glue (hne : pieces ≠ []) (h : ∀ piece ∈ pieces, slash ∉ piece) :
    cut (glue pieces) = pieces := by
  induction pieces with
  | nil => exact absurd rfl hne
  | cons piece pieces ih =>
    obtain ⟨hpiece, h⟩ := List.forall_mem_cons.mp h
    cases pieces with
    | nil => exact cut_of_not_mem hpiece
    | cons next pieces =>
      rw [glue, cut_append_slash, cut_of_not_mem hpiece, ih (List.cons_ne_nil _ _) h,
        List.singleton_append]
      exact List.cons_ne_nil _ _

/-- The components that bytes stand for behind a separator, where there is no anchor. -/
def later (x : Bytes) : List Component :=
  ((cut x).filter (!isVacant ·)).map Component.ofPiece

theorem later_append_slash (x y : Bytes) : later (x ++ slash :: y) = later x ++ later y := by
  simp [later, cut_append_slash]

theorem later_glue (h : ∀ piece ∈ pieces, slash ∉ piece) :
    later (glue pieces) = (pieces.filter (!isVacant ·)).map Component.ofPiece := by
  cases pieces with
  | nil => rfl
  | cons piece pieces => rw [later, cut_glue (List.cons_ne_nil _ _) h]

/-- What an anchor takes from a path's first piece is vacant. -/
theorem later_bytes (p : Path) :
    later p.bytes = (p.pieces.filter (!isVacant ·)).map Component.ofPiece := by
  obtain ⟨x⟩ := p
  unfold later pieces
  cases x with
  | nil => rfl
  | cons b t =>
    rw [anchor_cons]
    split
    · rename_i hb
      simp [cut, hb, isVacant]
    · rename_i hb
      split
      · rename_i hdot
        obtain ⟨first, rest, ht⟩ := List.exists_cons_of_ne_nil (cut_ne_nil t)
        obtain rfl := (head?_all_slash_iff ht).mp hdot.2
        have hne : dot ≠ slash := by decide
        simp [cut, hdot.1, hne, ht, isVacant]
      · rfl

/-- The component that a path's anchor stands for. -/
def first (p : Path) : List Component :=
  if p.isAbsolute then [.root] else if p.startsHere then [.here] else []

theorem components_eq (p : Path) : p.components = p.first ++ later p.bytes := by
  rw [later_bytes]
  rfl

theorem first_eq_of_anchor_eq (h : p.anchor = q.anchor) : p.first = q.first := by
  have hne : slash ≠ dot := by decide
  unfold anchor at h
  unfold first
  split at h <;> split at h <;> simp_all
  all_goals split at h <;> simp_all

theorem components_of_nil (h : p.bytes = []) : p.components = [] := by
  obtain ⟨_⟩ := p
  subst h
  rfl

/-- A path has a component unless it is empty: its first piece is vacant only behind an anchor. -/
theorem components_eq_nil_iff : p.components = [] ↔ p.bytes = [] := by
  refine ⟨fun h => ?_, components_of_nil⟩
  obtain ⟨x⟩ := p
  cases x with
  | nil => rfl
  | cons b t =>
    exfalso
    obtain ⟨piece, rest, ht⟩ := List.exists_cons_of_ne_nil (cut_ne_nil t)
    have hfirst := head?_all_slash_iff ht
    have hsecond : (b :: t)[1]? = t.head? := by cases t <;> rfl
    rw [components_eq, List.append_eq_nil_iff] at h
    simp only [first, isAbsolute, startsHere, hsecond, later, cut, ht] at h
    by_cases hb : b = slash
    · simp [hb] at h
    · have hpiece : piece ≠ [] ∨ b ≠ dot := by
        by_contra hno
        simp_all
      simp [hb, isVacant] at h
      grind

theorem bytes_join (base : Path) (h : p.isAbsolute = false) : (base.join p).bytes =
    base.bytes ++ if base.bytes.getLast?.all (· == slash) then p.bytes else slash :: p.bytes := by
  unfold join
  rw [h, if_neg Bool.false_ne_true]
  split <;> rfl

theorem anchor_join (hbase : base.bytes ≠ []) (hp : p.isAbsolute = false) :
    (base.join p).anchor = base.anchor := by
  obtain ⟨b, t, hb⟩ := List.exists_cons_of_ne_nil hbase
  have hbytes := bytes_join base hp
  rw [hb, List.cons_append] at hbytes
  have hjoin : base.join p = ⟨_⟩ := congrArg Path.mk hbytes
  rw [hjoin, anchor_cons, show base = ⟨b :: t⟩ from congrArg Path.mk hb, anchor_cons]
  cases t with
  | nil =>
    -- A separator follows a dot, so that it stays a component of its own.
    by_cases hdot : b = dot
    · subst hdot
      rfl
    · simp [hdot]
  | cons c t => rfl

/-- Behind a path that is not empty, a relative path has no anchor. -/
theorem components_join (hbase : base.bytes ≠ []) (hp : p.isAbsolute = false) :
    (base.join p).components = base.components ++ later p.bytes := by
  have hlater : later (base.join p).bytes = later base.bytes ++ later p.bytes := by
    rw [bytes_join base hp]
    split
    · rename_i hlast
      rcases List.eq_nil_or_concat base.bytes with h | ⟨w, b, h⟩
      · exact absurd h hbase
      · obtain rfl : b = slash := by simpa [h] using hlast
        rw [h, List.concat_eq_append, List.append_assoc, List.singleton_append,
          later_append_slash, later_append_slash]
        exact congrArg (· ++ later p.bytes) (List.append_nil (later w)).symm
    · exact later_append_slash ..
  rw [components_eq, first_eq_of_anchor_eq (anchor_join hbase hp), hlater, ← List.append_assoc,
    ← components_eq]

/-- Joining goes by the components of what it joins to. -/
theorem components_join_congr (h : base.components = q.components) (p : Path) :
    (base.join p).components = (q.join p).components := by
  cases hp : p.isAbsolute with
  | true => rw [join, join, if_pos hp, if_pos hp]
  | false =>
    by_cases hbase : base.bytes = []
    · have hq : q.bytes = [] := components_eq_nil_iff.mp (h ▸ components_of_nil hbase)
      rw [show base = q from congrArg Path.mk (hbase.trans hq.symm)]
    · have hq : q.bytes ≠ [] := fun hq =>
        hbase (components_eq_nil_iff.mp (h.trans (components_of_nil hq)))
      rw [components_join hbase hp, components_join hq hp, h]

/-- The path without what is vacant at its end. -/
def trimmed (p : Path) : Path :=
  ⟨p.anchor ++ glue (p.pieces.reverse.dropWhile isVacant).reverse⟩

theorem head?_glue_of_cut (h : pieces <+: [] :: rest) :
    (glue pieces).head?.all (· == slash) = true := by
  cases pieces with
  | nil => rfl
  | cons piece pieces =>
    obtain rfl := (List.cons_prefix_cons.mp h).1
    obtain ⟨after, hglue, hafter⟩ := exists_glue_cons [] pieces
    rwa [hglue]

/-- Pieces from the front of a path have the path's anchor, where they stand behind it. -/
theorem anchor_of_isPrefix (h : pieces <+: p.pieces) :
    anchor ⟨p.anchor ++ glue pieces⟩ = p.anchor := by
  obtain ⟨x⟩ := p
  unfold Path.pieces at h
  cases x with
  | nil =>
    have hglue : glue pieces = [] := by
      change pieces <+: [[]] at h
      cases pieces with
      | nil => rfl
      | cons piece pieces =>
        obtain ⟨rfl, hnil⟩ := List.cons_prefix_cons.mp h
        rw [List.prefix_nil.mp hnil, glue]
    rw [hglue]
    rfl
  | cons b t =>
    obtain ⟨first, rest, ht⟩ := List.exists_cons_of_ne_nil (cut_ne_nil t)
    rw [anchor_cons] at h ⊢
    by_cases hb : b = slash
    · simp [hb, anchor_cons]
    by_cases hdot : b = dot ∧ t.head?.all (· == slash) = true
    · rw [if_neg hb, if_pos hdot] at h ⊢
      obtain rfl := (head?_all_slash_iff ht).mp hdot.2
      have hglue := head?_glue_of_cut (ht ▸ h)
      rw [List.singleton_append, anchor_cons, if_neg (by decide), if_pos ⟨rfl, hglue⟩]
    · rw [if_neg hb, if_neg hdot] at h ⊢
      have hcut : pieces <+: (b :: first) :: rest := by simpa [cut, hb, ht] using h
      cases pieces with
      | nil => rfl
      | cons piece pieces =>
        obtain rfl := (List.cons_prefix_cons.mp hcut).1
        obtain ⟨after, hglue, _⟩ := exists_glue_cons (b :: first) pieces
        rw [List.nil_append, hglue, List.cons_append, anchor_cons, if_neg hb, if_neg]
        rintro ⟨rfl, hhead⟩
        -- The first piece is more than the dot, so its second byte is no slash.
        cases first with
        | nil => exact hdot ⟨rfl, (head?_all_slash_iff ht).mpr rfl⟩
        | cons c first =>
          have hc : c = slash := by simpa using hhead
          exact not_mem_of_mem_cut (ht ▸ List.mem_cons_self) (hc ▸ List.mem_cons_self)

theorem components_trimmed (p : Path) : p.trimmed.components = p.components := by
  have hfront : (p.pieces.reverse.dropWhile isVacant).reverse <+: p.pieces := by
    rw [← List.reverse_suffix, List.reverse_reverse]
    exact List.dropWhile_suffix _
  have hslash : ∀ piece ∈ (p.pieces.reverse.dropWhile isVacant).reverse, slash ∉ piece :=
    fun _ h => not_mem_of_mem_cut (hfront.mem h)
  have hanchor : p.trimmed.anchor = p.anchor := anchor_of_isPrefix hfront
  have hfilter : (p.pieces.reverse.dropWhile isVacant).filter (!isVacant ·) =
      p.pieces.reverse.filter (!isVacant ·) := by
    have hvacant : (p.pieces.reverse.takeWhile isVacant).filter (!isVacant ·) = [] := by
      rw [List.filter_eq_nil_iff]
      intro piece h
      simp [List.mem_takeWhile_imp h]
    conv_rhs => rw [← List.takeWhile_append_dropWhile (p := isVacant) (l := p.pieces.reverse)]
    rw [List.filter_append, hvacant, List.nil_append]
  have hbody : p.trimmed.pieces = cut (glue (p.pieces.reverse.dropWhile isVacant).reverse) := by
    rw [Path.pieces, hanchor, trimmed, List.drop_left]
  rw [components_eq, components_eq, first_eq_of_anchor_eq hanchor, later_bytes, hbody, ← later,
    later_glue hslash, List.filter_reverse, hfilter, ← List.filter_reverse, List.reverse_reverse,
    ← later_bytes]

theorem child_of_nil (h : p.bytes = []) (n : FileName) : p.child n = ⟨n.bytes⟩ := by
  refine congrArg Path.mk ((bytes_child_eq p n).trans ?_)
  rw [h]
  rfl

theorem anchor_child (p : Path) (n : FileName) : (p.child n).anchor = p.anchor := by
  by_cases hp : p.bytes = []
  · rw [child_of_nil hp, anchor_name, show p = ⟨[]⟩ from congrArg Path.mk hp]
    rfl
  · exact anchor_join hp (isRelative_name n).1

/-- The pieces of a directory stand before a name in it, but for the empty one behind a slash at
its end. -/
theorem pieces_child (p : Path) (n : FileName) :
    ∃ pieces, (p.child n).pieces = pieces ++ [n.bytes] ∧
      (p.pieces = pieces ∨ p.pieces = pieces ++ [[]]) := by
  have hn := cut_of_not_mem n.isFileName.2.1
  by_cases hp : p.bytes = []
  · refine ⟨[], ?_, .inr ?_⟩
    · rw [child_of_nil hp, Path.pieces, anchor_name]
      exact hn
    · rw [show p = ⟨[]⟩ from congrArg Path.mk hp]
      rfl
  · have hlength : p.anchor.length ≤ p.bytes.length :=
      Nat.le_trans (length_anchor_le p) (List.length_pos_iff.mpr hp)
    have hchild : (p.child n).pieces = cut (p.bytes.drop p.anchor.length ++
        if p.bytes.getLast?.all (· == slash) then n.bytes else slash :: n.bytes) := by
      rw [Path.pieces, anchor_child, bytes_child_eq, List.drop_append_of_le_length hlength]
    split at hchild
    · rename_i hlast
      rcases List.eq_nil_or_concat (p.bytes.drop p.anchor.length) with h | ⟨w, b, h⟩
      · exact ⟨[], by rw [hchild, h]; exact hn, .inr (by rw [Path.pieces, h]; rfl)⟩
      · have hb : b = slash := by
          have hdrop := congrArg List.getLast? h
          rw [List.getLast?_drop] at hdrop
          split at hdrop <;> simp_all
        rw [List.concat_eq_append, hb] at h
        refine ⟨cut w, ?_, .inr ?_⟩
        · rw [hchild, h, List.append_assoc, List.singleton_append, cut_append_slash, hn]
        · rw [Path.pieces, h, cut_append_slash]
          rfl
    · exact ⟨p.pieces, by rw [hchild, cut_append_slash, hn]; rfl, .inl rfl⟩

/-- The parent of what bears a name in a directory is the directory. -/
theorem parent?_child (p : Path) (n : FileName) : (p.child n).parent? = some p.trimmed := by
  obtain ⟨pieces, hchild, hpieces⟩ := pieces_child p n
  have hdrop : p.pieces.reverse.dropWhile isVacant = pieces.reverse.dropWhile isVacant := by
    rcases hpieces with h | h
    · rw [h]
    · rw [h, List.reverse_append]
      rfl
  unfold parent?
  rw [hchild, anchor_child, List.reverse_append, List.reverse_singleton, List.singleton_append,
    List.dropWhile_cons_of_neg (by simp [isVacant_name]), trimmed, hdrop]

end Path

namespace Config

/-- A config file in a directory sets a root that is taken from the directory. Whatever the
directory's path looks like, no other config file is found there, and the root is the configured
one joined to that path, component by component. -/
theorem root_of_found (s : Session) (directory root : Path) :
    ((find directory : StateM Session (Option Path)) s).1 ∈
        [none, some (directory.join fileName)] ∧
      (Config.root ⟨directory.join fileName, some root⟩).map Path.components =
        some (directory.join root).components := by
  constructor
  · rw [CommandLine.find_run]
    dsimp only
    split <;> simp
  · have hparent : (directory.join fileName).parent? = some directory.trimmed :=
      Path.parent?_child directory CommandLine.configName
    have hjoin := Path.components_join_congr (Path.components_trimmed directory) root
    unfold Config.root
    rw [Option.map_some, Option.map_some, hparent, Option.getD_some, ← hjoin]
    unfold Path.join
    split <;> rfl

end Config

end ImportMigration
