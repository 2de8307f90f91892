import ImportMigration.Proofs.Words

/-!
Whole and floating-point numbers as the grammar has them, and the whole numbers that are read
besides: ones that tell their base and have no digits, and ones with other characters in what
follows an underscore.
-/

namespace ImportMigration.Toml.Number

variable {base : Nat} {p t s rest digits : Text} {c : Char} {sign : Option Sign} {n : Integer}

/-- Digits with single underscores between them, and the digits without the underscores. -/
inductive IsDigits (base : Nat) : Text → Text → Prop where
  | single {c : Char} (hc : isDigit base c = true) : IsDigits base [c] [c]
  | digit {c : Char} {p digits : Text} (hc : isDigit base c = true) (h : IsDigits base p digits) :
    IsDigits base (c :: p) (c :: digits)
  | underscore {c : Char} {p digits : Text} (hc : isDigit base c = true)
    (h : IsDigits base p digits) : IsDigits base (c :: '_' :: p) (c :: digits)

inductive IsSign : Text → Option Sign → Prop where
  | none : IsSign [] none
  | plus : IsSign ['+'] (some .plus)
  | minus : IsSign ['-'] (some .minus)

def HasNoLeadingZero (digits : Text) : Prop :=
  digits.head? = some '0' → digits = ['0']

/-- The letters that tell another base than ten. -/
def bases : List (Char × Nat) :=
  [('x', 16), ('o', 8), ('b', 2)]

/-- A whole number and what it is made of. -/
inductive IsWhole : Text → Integer → Prop where
  | decimal {s p digits : Text} {sign : Option Sign} (hs : IsSign s sign)
    (hp : IsDigits 10 p digits) (hzero : HasNoLeadingZero digits) :
    IsWhole (s ++ p) ⟨10, sign, digits⟩
  | based {c : Char} {base : Nat} {p digits : Text} (hbase : (c, base) ∈ bases)
    (hp : IsDigits base p digits) : IsWhole ('0' :: c :: p) ⟨base, none, digits⟩

/-- Groups that underscores part from a number and from one another. They begin with a digit of any
base, and all but the last end with one. -/
structure AreLooseGroups (groups : List Text) : Prop where
  head : ∀ g ∈ groups, g.head?.any (isDigit 16) = true
  last : ∀ g ∈ groups.dropLast, g.getLast?.any (isDigit 16) = true
  chars : ∀ g ∈ groups, ∀ c ∈ g, c ∉ ['_', ' ', '.', 'e', 'E']

/-- What is read as a whole number. Behind the first underscore of a decimal number other words than
digits are read with it. -/
inductive IsLooseWhole : Text → Integer → Prop where
  | whole {t : Text} {n : Integer} (h : IsWhole t n) : IsLooseWhole t n
  | bare {c : Char} {base : Nat} (hbase : (c, base) ∈ bases) :
    IsLooseWhole ['0', c] ⟨base, none, []⟩
  | grouped {s first : Text} {sign : Option Sign} {groups : List Text} (hs : IsSign s sign)
    (hne : first ≠ []) (hfirst : ∀ c ∈ first, c.isDigit = true) (hzero : first.head? ≠ some '0')
    (hgroups : AreLooseGroups groups)
    (hwords : IsWords (s ++ ['_'].intercalate (first :: groups))) :
    IsLooseWhole (s ++ ['_'].intercalate (first :: groups)) ⟨10, sign, (first :: groups).flatten⟩

inductive IsFraction : Text → Text → Prop where
  | none : IsFraction [] []
  | digits {p digits : Text} (hp : IsDigits 10 p digits) : IsFraction ('.' :: p) digits

inductive IsExponent : Text → Int → Prop where
  | none : IsExponent [] 0
  | digits {c : Char} {s p digits : Text} {sign : Option Sign} (hc : c ∈ ['e', 'E'])
    (hs : IsSign s sign) (hp : IsDigits 10 p digits) :
    IsExponent (c :: (s ++ p)) (signed sign (valueOf 10 digits))

/-- A number with a fraction or an exponent, or one that is not finite. -/
inductive IsFloat : Text → Float → Prop where
  | infinity {s : Text} {sign : Option Sign} (hs : IsSign s sign) :
    IsFloat (s ++ "inf".toList) (.infinity (sign == some .minus))
  | nan {s : Text} {sign : Option Sign} (hs : IsSign s sign) : IsFloat (s ++ "nan".toList) .nan
  | decimal {s w f x whole fraction : Text} {sign : Option Sign} {exponent : Int}
    (hs : IsSign s sign) (hw : IsDigits 10 w whole) (hzero : HasNoLeadingZero whole)
    (hf : IsFraction f fraction) (hx : IsExponent x exponent) (hne : f ++ x ≠ []) :
    IsFloat (s ++ (w ++ (f ++ x))) (.decimal (sign == some .minus)
      ⟨valueOf 10 (whole ++ fraction), exponent - (fraction.length : Int)⟩)

/-! ## Signs -/

theorem isSign_takeSign (t : Text) : ∃ s, IsSign s (takeSign t).1 ∧ t = s ++ (takeSign t).2 := by
  unfold takeSign
  split
  · exact ⟨['+'], .plus, rfl⟩
  · exact ⟨['-'], .minus, rfl⟩
  · exact ⟨[], .none, rfl⟩

theorem takeSign_append (hs : IsSign s sign) (ht : ∀ c ∈ t.head?, c ≠ '+' ∧ c ≠ '-') :
    takeSign (s ++ t) = (sign, t) := by
  cases hs with
  | none =>
    rw [List.nil_append]
    unfold takeSign
    split
    · exact absurd rfl (ht '+' rfl).1
    · exact absurd rfl (ht '-' rfl).2
    · rfl
  | plus => rfl
  | minus => rfl

/-! ## Digits -/

theorem isDigit_ten : isDigit 10 c = c.isDigit := by
  unfold isDigit Quoted.hexDigit?
  cases hc : c.isDigit with
  | true =>
    have hrange : c.toNat ≤ 57 := by
      delta Char.isDigit at hc
      simp only [Bool.and_eq_true, decide_eq_true_eq, UInt32.le_iff_toNat_le] at hc
      exact hc.2
    rw [if_pos rfl, Option.any_some, decide_eq_true_eq]
    omega
  | false =>
    have hle : ∀ d : Char, d ≤ c ↔ d.toNat ≤ c.toNat := fun d => by
      rw [Char.le_def, UInt32.le_iff_toNat_le]
      rfl
    rw [if_neg (by simp)]
    split
    · rename_i h
      have hlow := (hle _).mp h.1
      rw [Option.any_some, decide_eq_false_iff_not]
      have : 'a'.toNat = 97 := rfl
      omega
    · split
      · rename_i h
        have hlow := (hle _).mp h.1
        rw [Option.any_some, decide_eq_false_iff_not]
        have : 'A'.toNat = 65 := rfl
        omega
      · rfl

theorem IsDigits.ne_nil (h : IsDigits base p digits) : digits ≠ [] := by
  cases h <;> simp

theorem IsDigits.head (h : IsDigits base p digits) :
    ∃ c, isDigit base c = true ∧ p.head? = some c ∧ digits.head? = some c := by
  cases h with
  | single hc => exact ⟨_, hc, rfl, rfl⟩
  | digit hc _ => exact ⟨_, hc, rfl, rfl⟩
  | underscore hc _ => exact ⟨_, hc, rfl, rfl⟩

theorem IsDigits.chars (h : IsDigits base p digits) :
    ∀ c ∈ p, isDigit base c = true ∨ c = '_' := by
  induction h with
  | single hc => simpa using .inl hc
  | digit hc _ ih => simpa [hc] using ih
  | underscore hc _ ih => simpa [hc] using ih

theorem ne_underscore (hc : isDigit base c = true) : c ≠ '_' := by
  rintro rfl
  contradiction

theorem isDigits_append {g q : Text} (hg : ∀ c ∈ g, isDigit base c = true) (hne : g ≠ [])
    (hq : IsDigits base q digits) : IsDigits base (g ++ '_' :: q) (g ++ digits) := by
  induction g with
  | nil => exact absurd rfl hne
  | cons c g ih =>
    obtain ⟨hc, hg⟩ := List.forall_mem_cons.mp hg
    by_cases hnil : g = []
    · subst hnil
      exact .underscore hc hq
    · exact .digit hc (ih hg hnil)

theorem isDigits_self {g : Text} (hg : ∀ c ∈ g, isDigit base c = true) (hne : g ≠ []) :
    IsDigits base g g := by
  induction g with
  | nil => exact absurd rfl hne
  | cons c g ih =>
    obtain ⟨hc, hg⟩ := List.forall_mem_cons.mp hg
    by_cases hnil : g = []
    · subst hnil
      exact .single hc
    · exact .digit hc (ih hg hnil)

/-- Groups of digits with underscores between them are digits. -/
theorem isDigits_intercalate {groups : List Text} (hne : groups ≠ [])
    (h : ∀ g ∈ groups, g ≠ [] ∧ ∀ c ∈ g, isDigit base c = true) :
    IsDigits base (['_'].intercalate groups) groups.flatten := by
  induction groups with
  | nil => exact absurd rfl hne
  | cons g groups ih =>
    obtain ⟨⟨hg, hdigits⟩, hgroups⟩ := List.forall_mem_cons.mp h
    cases groups with
    | nil => simpa using isDigits_self hdigits hg
    | cons g' groups =>
      rw [List.intercalate_cons_cons, List.flatten_cons]
      simpa using isDigits_append hdigits hg (ih (List.cons_ne_nil _ _) hgroups)

/-- Digits are made of the groups between their underscores. -/
theorem IsDigits.groups (h : IsDigits base p digits) :
    (∀ g ∈ p.splitOn '_', g ≠ [] ∧ ∀ c ∈ g, isDigit base c = true) ∧
      (p.splitOn '_').flatten = digits := by
  induction h with
  | single hc => simp [List.splitOn_cons_eq_if_modifyHead, ne_underscore hc, hc]
  | @digit c p digits hc _ ih =>
    obtain ⟨hall, hflatten⟩ := ih
    obtain ⟨g, groups, hsplit⟩ := List.exists_cons_of_ne_nil (List.splitOn_ne_nil '_' p)
    rw [hsplit] at hall hflatten
    rw [List.splitOn_cons_eq_if_modifyHead, if_neg (by simpa using ne_underscore hc), hsplit]
    obtain ⟨⟨_, hdigits⟩, hgroups⟩ := List.forall_mem_cons.mp hall
    refine ⟨List.forall_mem_cons.mpr ⟨⟨List.cons_ne_nil _ _, ?_⟩, hgroups⟩,
      congrArg (c :: ·) hflatten⟩
    exact List.forall_mem_cons.mpr ⟨hc, hdigits⟩
  | @underscore c p digits hc _ ih =>
    obtain ⟨hall, hflatten⟩ := ih
    rw [List.splitOn_cons_eq_if_modifyHead, if_neg (by simpa using ne_underscore hc),
      List.splitOn_cons_eq_if_modifyHead, if_pos (beq_self_eq_true _)]
    refine ⟨List.forall_mem_cons.mpr ⟨⟨List.cons_ne_nil _ _, ?_⟩, hall⟩, congrArg (c :: ·) hflatten⟩
    simpa using hc

theorem digits?_eq_some_iff : digits? base p = some digits ↔ IsDigits base p digits := by
  have hall : ((p.splitOn '_').all fun g => !g.isEmpty && g.all (isDigit base)) = true ↔
      ∀ g ∈ p.splitOn '_', g ≠ [] ∧ ∀ c ∈ g, isDigit base c = true := by
    simp
  constructor
  · intro h
    unfold digits? at h
    simp only at h
    split at h
    · rename_i hgroups
      cases h
      have hdigits := isDigits_intercalate (List.splitOn_ne_nil '_' p) (hall.mp hgroups)
      rwa [List.intercalate_splitOn] at hdigits
    · contradiction
  · intro h
    obtain ⟨hgroups, hflatten⟩ := h.groups
    unfold digits?
    simp only
    rw [if_pos (hall.mpr hgroups), hflatten]

/-! ## Whole numbers -/

section

variable {first g : Text} {groups : List Text}

theorem mem_intercalate : c ∈ ['_'].intercalate groups →
    c = '_' ∨ ∃ g ∈ groups, c ∈ g := by
  induction groups with
  | nil => simp
  | cons g groups ih =>
    intro hc
    cases groups with
    | nil => exact .inr ⟨g, List.mem_cons_self, by simpa using hc⟩
    | cons g' groups =>
      rw [List.intercalate_cons_cons, List.append_assoc, List.mem_append, List.mem_append,
        List.mem_singleton] at hc
      rcases hc with hc | hc | hc
      · exact .inr ⟨g, List.mem_cons_self, hc⟩
      · exact .inl hc
      · exact (ih hc).imp_right fun h => by
          obtain ⟨g'', hmem, hc⟩ := h
          exact ⟨g'', List.mem_cons_of_mem g hmem, hc⟩

theorem mem_intercalate_of_mem (hg : g ∈ groups) (hc : c ∈ g) : c ∈ ['_'].intercalate groups := by
  induction groups with
  | nil => contradiction
  | cons g' groups ih =>
    cases groups with
    | nil =>
      obtain rfl := List.mem_singleton.mp hg
      rwa [List.intercalate_singleton]
    | cons g'' groups =>
      rw [List.intercalate_cons_cons]
      rcases List.mem_cons.mp hg with rfl | hg
      · exact List.mem_append_left _ (List.mem_append_left _ hc)
      · exact List.mem_append_right _ (ih hg)

theorem not_mem_of_mem_splitOn (hg : g ∈ p.splitOn '_') : '_' ∉ g := by
  induction p generalizing g with
  | nil => simp_all
  | cons c p ih =>
    rw [List.splitOn_cons_eq_if_modifyHead] at hg
    split at hg
    · rcases List.mem_cons.mp hg with rfl | hg
      · exact List.not_mem_nil
      · exact ih hg
    · rename_i hc
      obtain ⟨first, groups, hsplit⟩ := List.exists_cons_of_ne_nil (List.splitOn_ne_nil '_' p)
      rw [hsplit] at ih hg
      rcases List.mem_cons.mp hg with rfl | hg
      · rw [List.mem_cons]
        rintro (rfl | hmem)
        · exact hc (beq_self_eq_true _)
        · exact ih List.mem_cons_self hmem
      · exact ih (List.mem_cons_of_mem first hg)

theorem areGroups_iff : areGroups groups = true ↔
    (∀ g ∈ groups, g.head?.any (isDigit 16) = true) ∧
      ∀ g ∈ groups.dropLast, g.getLast?.any (isDigit 16) = true := by
  induction groups with
  | nil => simp [areGroups]
  | cons g groups ih =>
    cases groups with
    | nil => simp [areGroups]
    | cons g' groups =>
      rw [areGroups, Bool.and_eq_true, Bool.and_eq_true, ih, List.dropLast_cons_cons]
      · constructor
        · rintro ⟨⟨hhead, hlast⟩, hheads, hlasts⟩
          exact ⟨List.forall_mem_cons.mpr ⟨hhead, hheads⟩, List.forall_mem_cons.mpr ⟨hlast, hlasts⟩⟩
        · rintro ⟨hheads, hlasts⟩
          obtain ⟨hhead, hheads⟩ := List.forall_mem_cons.mp hheads
          obtain ⟨hlast, hlasts⟩ := List.forall_mem_cons.mp hlasts
          exact ⟨⟨hhead, hlast⟩, hheads, hlasts⟩
      · simp

theorem isDigit_sixteen (h : isDigit 10 c = true) : isDigit 16 c = true := by
  obtain ⟨n, hn, hlt⟩ := (Option.any_eq_true ..).mp h
  rw [decide_eq_true_eq] at hlt
  exact (Option.any_eq_true ..).mpr ⟨n, hn, by rw [decide_eq_true_eq]; omega⟩

theorem not_isDigit_of_mem (h : c ∈ ['_', ' ', '.', 'e', 'E']) : isDigit 10 c = false := by
  simp only [List.mem_cons, List.not_mem_nil, or_false] at h
  rcases h with rfl | rfl | rfl | rfl | rfl <;> rfl

/-- Groups of digits are read whatever may stand in other groups. -/
theorem areLooseGroups_of_digits (h : ∀ g ∈ groups, g ≠ [] ∧ ∀ c ∈ g, isDigit 10 c = true) :
    AreLooseGroups groups where
  head g hg := by
    obtain ⟨hne, hdigits⟩ := h g hg
    obtain ⟨c, g, rfl⟩ := List.exists_cons_of_ne_nil hne
    exact isDigit_sixteen (hdigits c List.mem_cons_self)
  last g hg := by
    obtain ⟨hne, hdigits⟩ := h g ((List.dropLast_sublist groups).subset hg)
    rw [List.getLast?_eq_some_getLast hne]
    exact isDigit_sixteen (hdigits _ (List.getLast_mem hne))
  chars g hg c hc hmem := by
    have hdigit := (h g hg).2 c hc
    rw [not_isDigit_of_mem hmem] at hdigit
    contradiction

/-- The reader's check of the characters of a decimal number. -/
theorem all_chars_iff : (p.all fun c => c != ' ' && c != '.' && !isExponentMark c) = true ↔
    ∀ c ∈ p, c ∉ [' ', '.', 'e', 'E'] := by
  simp only [List.all_eq_true]
  refine forall_congr' fun c => imp_congr_right fun _ => ?_
  simp [isExponentMark, and_assoc]

theorem decimal?_grouped (hs : IsSign s sign) (hne : first ≠ [])
    (hfirst : ∀ c ∈ first, c.isDigit = true)
    (hzero : first.head? ≠ some '0' ∨ first = ['0'] ∧ groups = [])
    (hgroups : AreLooseGroups groups) :
    decimal? (s ++ ['_'].intercalate (first :: groups)) =
      some ⟨10, sign, (first :: groups).flatten⟩ := by
  have hdigit : ∀ c ∈ first, isDigit 10 c = true := fun c hc => by rw [isDigit_ten, hfirst c hc]
  have hpieces : ∀ g ∈ first :: groups, ∀ c ∈ g, c ∉ ['_', ' ', '.', 'e', 'E'] := by
    refine List.forall_mem_cons.mpr ⟨fun c hc hmem => ?_, hgroups.chars⟩
    have hdigit := hdigit c hc
    rw [not_isDigit_of_mem hmem] at hdigit
    contradiction
  have hsplit : (['_'].intercalate (first :: groups)).splitOn '_' = first :: groups := by
    refine List.splitOn_intercalate '_' (fun g hg hmem => hpieces g hg _ hmem (by simp))
      (List.cons_ne_nil _ _)
  have hsign : ∀ c ∈ (['_'].intercalate (first :: groups)).head?, c ≠ '+' ∧ c ≠ '-' := by
    obtain ⟨d, first, rfl⟩ := List.exists_cons_of_ne_nil hne
    intro c hc
    rw [List.intercalate_cons_cons_left] at hc
    cases hc
    have hd := hfirst d List.mem_cons_self
    constructor <;> (rintro rfl; contradiction)
  have hchars : ∀ c ∈ ['_'].intercalate (first :: groups), c ∉ [' ', '.', 'e', 'E'] := by
    intro c hc hmem
    rcases mem_intercalate hc with rfl | ⟨g, hg, hc⟩
    · contradiction
    · exact hpieces g hg c hc (List.mem_cons_of_mem _ hmem)
  unfold decimal?
  rw [takeSign_append hs hsign]
  simp only [hsplit]
  rw [if_pos]
  simp only [Bool.and_eq_true]
  refine ⟨⟨⟨⟨by simpa using hne, List.all_eq_true.mpr hfirst⟩, ?_⟩, ?_⟩, all_chars_iff.mpr hchars⟩
  · rcases hzero with hzero | ⟨rfl, rfl⟩
    · simp [hzero]
    · rfl
  · exact areGroups_iff.mpr ⟨hgroups.head, hgroups.last⟩

theorem of_decimal? (h : decimal? t = some n) : ∃ s sign first groups, IsSign s sign ∧
    t = s ++ ['_'].intercalate (first :: groups) ∧ n = ⟨10, sign, (first :: groups).flatten⟩ ∧
      first ≠ [] ∧ (∀ c ∈ first, c.isDigit = true) ∧
        (first.head? ≠ some '0' ∨ first = ['0'] ∧ groups = []) ∧ AreLooseGroups groups := by
  obtain ⟨s, hs, ht⟩ := isSign_takeSign t
  unfold decimal? at h
  generalize takeSign t = found at h hs ht
  obtain ⟨sign, p⟩ := found
  simp only at h hs ht
  split at h
  · contradiction
  · rename_i first groups hsplit
    split at h
    · rename_i hall
      cases h
      simp only [Bool.and_eq_true] at hall
      obtain ⟨⟨⟨⟨hne, hfirst⟩, hzero⟩, hgroups⟩, hchars⟩ := hall
      have hp : p = ['_'].intercalate (first :: groups) := by
        rw [← hsplit, List.intercalate_splitOn]
      obtain ⟨hhead, hlast⟩ := areGroups_iff.mp hgroups
      refine ⟨s, sign, first, groups, hs, hp ▸ ht, rfl, by simpa using hne,
        List.all_eq_true.mp hfirst, ?_, hhead, hlast, fun g hg c hc hmem => ?_⟩
      · rw [Bool.or_eq_true] at hzero
        refine hzero.imp (by simp) fun h => ?_
        obtain rfl : p = ['0'] := by simpa using h
        cases hsplit
        exact ⟨rfl, rfl⟩
      · have hgroup : g ∈ first :: groups := List.mem_cons_of_mem _ hg
        rcases List.mem_cons.mp hmem with rfl | hmem
        · exact not_mem_of_mem_splitOn (hsplit ▸ hgroup) hc
        · exact all_chars_iff.mp hchars c (hp ▸ mem_intercalate_of_mem hgroup hc) hmem
    · contradiction

theorem based?_eq_some_iff : based? base t = some n ↔
    (t = [] ∧ n = ⟨base, none, []⟩) ∨
      ∃ digits, IsDigits base t digits ∧ n = ⟨base, none, digits⟩ := by
  unfold based?
  by_cases ht : t = []
  · subst ht
    rw [if_pos List.isEmpty_nil]
    constructor
    · intro h
      exact .inl ⟨rfl, (Option.some.inj h).symm⟩
    · rintro (⟨_, rfl⟩ | ⟨digits, h, _⟩)
      · rfl
      · cases h
  · rw [if_neg (by simpa using ht), Option.map_eq_some_iff]
    constructor
    · rintro ⟨digits, h, rfl⟩
      exact .inr ⟨digits, digits?_eq_some_iff.mp h, rfl⟩
    · rintro (⟨h, _⟩ | ⟨digits, h, rfl⟩)
      · exact absurd h ht
      · exact ⟨digits, digits?_eq_some_iff.mpr h, rfl⟩

theorem integer?_based (hbase : (c, base) ∈ bases) : integer? ('0' :: c :: t) = based? base t := by
  simp only [bases, List.mem_cons, Prod.mk.injEq, List.not_mem_nil, or_false] at hbase
  rcases hbase with ⟨rfl, rfl⟩ | ⟨rfl, rfl⟩ | ⟨rfl, rfl⟩ <;> rfl

/-- No text of the decimal form tells another base. -/
theorem integer?_decimal (h : ∀ c base u, (c, base) ∈ bases → t ≠ '0' :: c :: u) :
    integer? t = decimal? t := by
  unfold integer?
  split
  · exact absurd rfl (h 'x' 16 _ (by decide))
  · exact absurd rfl (h 'o' 8 _ (by decide))
  · exact absurd rfl (h 'b' 2 _ (by decide))
  · rfl

theorem IsSign.eq_of_head (hs : IsSign s sign) (h : (s ++ t).head? = some '0') :
    s = [] ∧ t.head? = some '0' := by
  cases hs with
  | none => exact ⟨rfl, h⟩
  | plus => simp at h
  | minus => simp at h

/-- Decimal numbers are read as such, whether loosely written or not. -/
theorem integer?_grouped {first : Text} {groups : List Text} (hs : IsSign s sign) (hne : first ≠ [])
    (hfirst : ∀ c ∈ first, c.isDigit = true)
    (hzero : first.head? ≠ some '0' ∨ first = ['0'] ∧ groups = [])
    (hgroups : AreLooseGroups groups) :
    integer? (s ++ ['_'].intercalate (first :: groups)) =
      some ⟨10, sign, (first :: groups).flatten⟩ := by
  rw [integer?_decimal, decimal?_grouped hs hne hfirst hzero hgroups]
  intro c base u hbase heq
  obtain ⟨rfl, hhead⟩ := hs.eq_of_head (t := ['_'].intercalate (first :: groups)) (by rw [heq]; rfl)
  obtain ⟨d, first, rfl⟩ := List.exists_cons_of_ne_nil hne
  rw [List.intercalate_cons_cons_left] at hhead heq
  rcases hzero with hzero | ⟨hfirst, rfl⟩
  · exact hzero hhead
  · obtain ⟨rfl, rfl⟩ := List.cons.inj hfirst
    cases heq

/-- A decimal number of the grammar is in groups of digits. -/
theorem IsDigits.grouped (hp : IsDigits 10 p digits) (hzero : HasNoLeadingZero digits) :
    ∃ first groups, p = ['_'].intercalate (first :: groups) ∧ (first :: groups).flatten = digits ∧
      first ≠ [] ∧ (∀ c ∈ first, c.isDigit = true) ∧
        (first.head? ≠ some '0' ∨ first = ['0'] ∧ groups = []) ∧ AreLooseGroups groups := by
  obtain ⟨hall, hflatten⟩ := hp.groups
  obtain ⟨first, groups, hsplit⟩ := List.exists_cons_of_ne_nil (List.splitOn_ne_nil '_' p)
  rw [hsplit] at hall hflatten
  obtain ⟨⟨hne, hfirst⟩, hgroups⟩ := List.forall_mem_cons.mp hall
  refine ⟨first, groups, by rw [← hsplit, List.intercalate_splitOn], hflatten, hne,
    fun c hc => isDigit_ten ▸ hfirst c hc, ?_, areLooseGroups_of_digits hgroups⟩
  by_cases hhead : first.head? = some '0'
  · right
    obtain ⟨first, rfl⟩ := List.head?_eq_some_iff.mp hhead
    have hdigits : digits = ['0'] := by
      refine hzero ?_
      rw [← hflatten]
      rfl
    rw [hdigits, List.flatten_cons] at hflatten
    obtain ⟨hnil, hflatten⟩ := List.append_eq_nil_iff.mp (List.cons.inj hflatten).2
    refine ⟨congrArg _ hnil, List.eq_nil_iff_forall_not_mem.mpr fun g hg => ?_⟩
    exact (hgroups g hg).1 (List.flatten_eq_nil_iff.mp hflatten g hg)
  · exact .inl hhead

theorem integer?_eq_some_iff (hwords : IsWords t) : integer? t = some n ↔ IsLooseWhole t n := by
  constructor
  · intro h
    by_cases hbased : ∃ c base u, (c, base) ∈ bases ∧ t = '0' :: c :: u
    · obtain ⟨c, base, u, hbase, rfl⟩ := hbased
      rw [integer?_based hbase, based?_eq_some_iff] at h
      rcases h with ⟨rfl, rfl⟩ | ⟨digits, hdigits, rfl⟩
      · exact .bare hbase
      · exact .whole (.based hbase hdigits)
    · rw [integer?_decimal fun c base u hbase heq => hbased ⟨c, base, u, hbase, heq⟩] at h
      obtain ⟨s, sign, first, groups, hs, rfl, rfl, hne, hfirst, hzero, hgroups⟩ := of_decimal? h
      rcases hzero with hzero | ⟨rfl, rfl⟩
      · exact .grouped hs hne hfirst hzero hgroups hwords
      · exact .whole (.decimal hs (.single rfl) fun _ => rfl)
  · intro h
    cases h with
    | whole h =>
      cases h with
      | decimal hs hp hzero =>
        obtain ⟨first, groups, rfl, rfl, hne, hfirst, hhead, hgroups⟩ := hp.grouped hzero
        exact integer?_grouped hs hne hfirst hhead hgroups
      | based hbase hp =>
        rw [integer?_based hbase, based?_eq_some_iff]
        exact .inr ⟨_, hp, rfl⟩
    | bare hbase =>
      rw [integer?_based hbase, based?_eq_some_iff]
      exact .inl ⟨rfl, rfl⟩
    | grouped hs hne hfirst hzero hgroups _ =>
      exact integer?_grouped hs hne hfirst (.inl hzero) hgroups

end

/-! ## Floating-point numbers -/

section

variable {w f x whole fraction : Text} {e : Int} {y : Float}

theorem hasLeadingZero_eq_false_iff : hasLeadingZero digits = false ↔ HasNoLeadingZero digits := by
  unfold hasLeadingZero HasNoLeadingZero
  cases digits with
  | nil => simp
  | cons c digits => cases digits <;> simp

theorem isExponentMark_iff : isExponentMark c = true ↔ c ∈ ['e', 'E'] := by
  simp [isExponentMark]

/-- Digits and underscores are neither points nor exponent marks nor signs. -/
theorem IsDigits.not_mark (h : IsDigits 10 p digits) (hc : c ∈ p) :
    isExponentMark c = false ∧ c ≠ '.' ∧ c ≠ '+' ∧ c ≠ '-' := by
  have hne : ∀ d : Char, isDigit 10 d = false → d ≠ '_' → c ≠ d := by
    rintro d hdigit hunderscore rfl
    rcases h.chars _ hc with hd | hd
    · rw [hdigit] at hd
      contradiction
    · exact hunderscore hd
  refine ⟨?_, hne _ rfl (by decide), hne _ rfl (by decide), hne _ rfl (by decide)⟩
  rw [isExponentMark, Bool.or_eq_false_iff, beq_eq_false_iff_ne, beq_eq_false_iff_ne]
  exact ⟨hne _ rfl (by decide), hne _ rfl (by decide)⟩

theorem IsDigits.not_sign (h : IsDigits 10 p digits) : ∀ c ∈ p.head?, c ≠ '+' ∧ c ≠ '-' :=
  fun _ hc => (h.not_mark (List.mem_of_mem_head? hc)).2.2

theorem IsExponent.head (hx : IsExponent x e) : ∀ c ∈ x.head?, isExponentMark c = true := by
  cases hx with
  | none => simp
  | digits hc _ _ => simpa [isExponentMark] using hc

theorem exponent?_eq_some_iff {hasFraction : Bool}
    (hhead : ∀ c ∈ x.head?, isExponentMark c = true) :
    exponent? hasFraction x = some e ↔ IsExponent x e ∧ (hasFraction = true ∨ x ≠ []) := by
  constructor
  · intro h
    cases x with
    | nil =>
      rw [exponent?] at h
      split at h
      · rename_i hfraction
        cases h
        exact ⟨.none, .inl hfraction⟩
      · cases h
    | cons c x =>
      obtain ⟨digits, hdigits, rfl⟩ := Option.map_eq_some_iff.mp h
      obtain ⟨s, hs, hx⟩ := isSign_takeSign x
      refine ⟨?_, .inr (List.cons_ne_nil c x)⟩
      rw [hx, takeSign_append hs (digits?_eq_some_iff.mp hdigits).not_sign]
      exact .digits (isExponentMark_iff.mp (hhead c rfl)) hs (digits?_eq_some_iff.mp hdigits)
  · rintro ⟨h, hne⟩
    cases h with
    | none => exact if_pos (hne.resolve_right fun h => h rfl)
    | digits _ hs hp =>
      rw [exponent?, takeSign_append hs hp.not_sign, digits?_eq_some_iff.mpr hp]
      rfl

/-- Where the parts of a decimal number begin and end. -/
theorem float?_decimal (hs : IsSign s sign) (hw : IsDigits 10 w whole)
    (hzero : HasNoLeadingZero whole) (hf : IsFraction f fraction) (hx : IsExponent x e)
    (hne : f ++ x ≠ []) : float? (s ++ (w ++ (f ++ x))) = some (.decimal (sign == some .minus)
      ⟨valueOf 10 (whole ++ fraction), e - (fraction.length : Int)⟩) := by
  have hmantissa : ∀ c ∈ w ++ f, (!isExponentMark c) = true := by
    intro c hc
    rw [Bool.not_eq_true']
    rcases List.mem_append.mp hc with hc | hc
    · exact (hw.not_mark hc).1
    · cases hf with
      | none => contradiction
      | digits hp =>
        rcases List.mem_cons.mp hc with rfl | hc
        · rfl
        · exact (hp.not_mark hc).1
  have hexponent : ∀ c ∈ x.head?, (!isExponentMark c) = false := fun c hc => by
    simp [hx.head c hc]
  have hwhole : ∀ c ∈ w, (c != '.') = true := fun c hc => by
    simpa using (hw.not_mark hc).2.1
  have hpoint : ∀ c ∈ f.head?, (c != '.') = false := by
    cases hf <;> simp
  have hsign : ∀ c ∈ (w ++ (f ++ x)).head?, c ≠ '+' ∧ c ≠ '-' := by
    obtain ⟨c, _, hc, _⟩ := hw.head
    rw [List.head?_append, hc]
    exact fun d hd => hw.not_sign d (hc ▸ hd)
  obtain ⟨c, hdigit, hc, _⟩ := hw.head
  have hword : ∀ u : Text, u.head?.all (fun c => !isDigit 10 c) = true → w ++ (f ++ x) ≠ u := by
    rintro u hu rfl
    rw [List.head?_append, hc] at hu
    simp [hdigit] at hu
  unfold float?
  rw [takeSign_append hs hsign]
  simp only
  rw [if_neg (hword _ rfl), if_neg (hword _ rfl), ← List.append_assoc,
    takeWhile_append_of_head hmantissa hexponent, dropWhile_append_of_head hmantissa hexponent,
    takeWhile_append_of_head hwhole hpoint, dropWhile_append_of_head hwhole hpoint,
    digits?_eq_some_iff.mpr hw, Option.filter_some,
    if_pos (by simpa using hasLeadingZero_eq_false_iff.mpr hzero)]
  cases hf with
  | none =>
    have hexp : exponent? false x = some e :=
      (exponent?_eq_some_iff hx.head).mpr ⟨hx, .inr (by simpa using hne)⟩
    simp [hexp]
  | digits hp =>
    have hexp : exponent? (!fraction.isEmpty) x = some e :=
      (exponent?_eq_some_iff hx.head).mpr ⟨hx, .inl (by simpa using hp.ne_nil)⟩
    simp [hexp, digits?_eq_some_iff.mpr hp]

theorem of_float? (h : float? t = some y) : IsFloat t y := by
  obtain ⟨s, hs, ht⟩ := isSign_takeSign t
  unfold float? at h
  generalize takeSign t = found at h hs ht
  obtain ⟨sign, p⟩ := found
  simp only at h hs ht
  subst ht
  split at h
  · rename_i hp
    cases h
    rw [hp]
    exact .infinity hs
  · split at h
    · rename_i hp
      cases h
      rw [hp]
      exact .nan hs
    · obtain ⟨whole, hwhole, h⟩ := Option.bind_eq_some_iff.mp h
      have hpoint := head?_dropWhile_eq_false (· != '.') (p.takeWhile (!isExponentMark ·))
      obtain ⟨fraction, e, hf, he, rfl⟩ : ∃ fraction e,
          IsFraction ((p.takeWhile (!isExponentMark ·)).dropWhile (· != '.')) fraction ∧
          exponent? (!fraction.isEmpty) (p.dropWhile (!isExponentMark ·)) = some e ∧
          y = .decimal (sign == some .minus)
            ⟨valueOf 10 (whole ++ fraction), e - (fraction.length : Int)⟩ := by
        split at h
        · rename_i hnil
          obtain ⟨fraction, hfraction, h⟩ := Option.bind_eq_some_iff.mp h
          obtain ⟨e, he, h⟩ := Option.bind_eq_some_iff.mp h
          cases hfraction
          exact ⟨[], e, hnil ▸ .none, he, (Option.some.inj h).symm⟩
        · rename_i c f hcons
          obtain ⟨fraction, hfraction, h⟩ := Option.bind_eq_some_iff.mp h
          obtain ⟨e, he, h⟩ := Option.bind_eq_some_iff.mp h
          rw [hcons] at hpoint ⊢
          obtain rfl : c = '.' := by simpa using hpoint c rfl
          exact ⟨fraction, e, .digits (digits?_eq_some_iff.mp hfraction), he,
            (Option.some.inj h).symm⟩
      obtain ⟨hw, hzero⟩ := Option.filter_eq_some_iff.mp hwhole
      have hmark := head?_dropWhile_eq_false (!isExponentMark ·) p
      obtain ⟨hx, hne⟩ := (exponent?_eq_some_iff fun c hc => by simpa using hmark c hc).mp he
      have hsplit : p = (p.takeWhile (!isExponentMark ·)).takeWhile (· != '.') ++
          ((p.takeWhile (!isExponentMark ·)).dropWhile (· != '.') ++
            p.dropWhile (!isExponentMark ·)) := by
        rw [← List.append_assoc, List.takeWhile_append_dropWhile, List.takeWhile_append_dropWhile]
      rw [hsplit]
      refine .decimal hs (digits?_eq_some_iff.mp hw)
        (hasLeadingZero_eq_false_iff.mp (by simpa using hzero)) hf hx ?_
      intro hnil
      obtain ⟨hfnil, hxnil⟩ := List.append_eq_nil_iff.mp hnil
      rw [hfnil] at hf
      cases hf
      exact (hne.resolve_left (by simp)) hxnil

theorem float?_eq_some_iff : float? t = some y ↔ IsFloat t y := by
  refine ⟨of_float?, fun h => ?_⟩
  cases h with
  | infinity hs =>
    unfold float?
    rw [takeSign_append hs (by simp)]
    rfl
  | nan hs =>
    unfold float?
    rw [takeSign_append hs (by simp)]
    rfl
  | decimal hs hw hzero hf hx hne => exact float?_decimal hs hw hzero hf hx hne

end

end ImportMigration.Toml.Number
