import ImportMigration.Proofs.Marks
import ImportMigration.Proofs.Scalars
import ImportMigration.Proofs.Strings

/-!
TOML's grammar: keys, values, expressions and documents as relations between a text and what it
means. What a gap between two of them is, and where one begins, is settled here; that the readers
take off a text just what the grammar allows there is settled for keys here and for the rest in the
modules that follow.

The grammar is that of TOML 1.1 but in the few places that a `Dialect` names, since what is read is
in these more, or less, than TOML 1.1 has.
-/

namespace ImportMigration.Toml

variable {D : Dialect} {α : Type} {a q t u rest : Text} {c : Char}

inductive IsKey : Text → Key → Prop where
  | bare {k : Text} (hne : k ≠ []) (hk : ∀ c ∈ k, isBareKey c = true) : IsKey k k
  | basic {b k : Text} (hb : Quoted.IsBasic b k) : IsKey ('"' :: (b ++ ['"'])) k
  | literal {k : Text} (hk : Quoted.IsLiteral k) : IsKey ('\'' :: (k ++ ['\''])) k

/-- Keys with dots between them, and spaces around the dots. -/
inductive IsKeys : Text → List Key → Prop where
  | single {q : Text} {k : Key} (hk : IsKey q k) : IsKeys q [k]
  | dot {q a b u : Text} {k : Key} {ks : List Key} (hk : IsKey q k) (ha : IsSpaces a)
    (hb : IsSpaces b) (hks : IsKeys u ks) : IsKeys (q ++ (a ++ '.' :: (b ++ u))) (k :: ks)

/-- Where readers of TOML differ. -/
structure Dialect where
  /-- Whether dots may join so many keys, and brackets lie so deep in one another. -/
  IsWithin : Nat → Prop
  IsWhole : Text → Integer → Prop
  /-- What may stand on either side of an equals sign in an inline table. -/
  Gap : Text → Prop
  /-- What may be made of a path of keys. -/
  IsHistory : List Mark → Prop

namespace Dialect

/-- TOML 1.1. -/
def standard : Dialect where
  IsWithin _ := True
  IsWhole := Number.IsWhole
  Gap := IsSpaces
  IsHistory := IsStandardHistory

/-- TOML 1.1 as far as the reader goes into brackets and along keys. -/
def bounded : Dialect :=
  { standard with IsWithin := (· ≤ 80) }

/-- What is read: whole numbers may be loosely written, line breaks and comments may stand around
the equals signs of inline tables, and tables are told apart in another way. -/
def accepted : Dialect where
  IsWithin := (· ≤ 80)
  IsWhole := Number.IsLooseWhole
  Gap := IsBlank true
  IsHistory := IsAcceptedHistory

end Dialect

section

variable (D : Dialect)

structure IsPath (q : Text) (ks : List Key) : Prop where
  keys : IsKeys q ks
  within : D.IsWithin ks.length

/-- A key, or several with dots, an equals sign and a value. -/
inductive IsAssignment (Gap : Text → Prop) (P : Text → Value → Prop) :
    Text → List Key × Value → Prop where
  | mk {q a b w : Text} {ks : List Key} {v : Value} (hks : IsPath D q ks) (ha : Gap a) (hb : Gap b)
    (hv : P w v) : IsAssignment Gap P (q ++ (a ++ '=' :: (b ++ w))) (ks, v)

/-- The inside of a pair of brackets. -/
inductive AreItems (Item : Text → α → Prop) : Text → List α → Prop where
  | nil {u : Text} (hu : IsBlank true u) : AreItems Item u []
  | last {u q v : Text} {x : α} (hu : IsBlank true u) (hx : Item q x) (hv : IsBlank true v) :
    AreItems Item (u ++ (q ++ v)) [x]
  | cons {u q v w : Text} {x : α} {xs : List α} (hu : IsBlank true u) (hx : Item q x)
    (hv : IsBlank true v) (hxs : AreItems Item w xs) :
    AreItems Item (u ++ (q ++ (v ++ ',' :: w))) (x :: xs)

inductive IsPlain : Text → Value → Prop where
  | string {q s : Text} (hq : Quoted.Spells q s) : IsPlain q (.string s)
  | scalar {w : Text} {v : Value} (hw : IsScalar D.IsWhole w v) : IsPlain w v

/-- A value whose items, if it has any, are as `P` allows. An inline table defines nothing twice. -/
inductive IsNested (P : Text → Value → Prop) : Text → Value → Prop where
  | plain {q : Text} {v : Value} (h : IsPlain D q v) : IsNested P q v
  | array {q : Text} {vs : List Value} (h : AreItems P q vs) :
    IsNested P ('[' :: (q ++ [']'])) (.array vs)
  | inline {q : Text} {assignments : List (List Key × Value)}
    (h : AreItems (IsAssignment D D.Gap P) q assignments)
    (hconsistent : Consistent D.IsHistory (assignmentLines assignments)) :
    IsNested P ('\x7b' :: (q ++ ['\x7d'])) (.inline assignments)

/-- A value in which arrays and inline tables lie no deeper than the given number. -/
def IsValue : Nat → Text → Value → Prop
  | 0 => IsPlain D
  | depth + 1 => IsNested D (IsValue depth)

inductive IsExpression : Text → Expression → Prop where
  | assign {q : Text} {ks : List Key} {v : Value} {depth : Nat} (hdepth : D.IsWithin depth)
    (h : IsAssignment D IsSpaces (IsValue D depth) q (ks, v)) : IsExpression q (.assign ks v)
  | table {a q b : Text} {ks : List Key} (ha : IsSpaces a) (hks : IsPath D q ks)
    (hb : IsSpaces b) : IsExpression ('[' :: (a ++ (q ++ (b ++ [']'])))) (.table ks)
  | element {a q b : Text} {ks : List Key} (ha : IsSpaces a) (hks : IsPath D q ks)
    (hb : IsSpaces b) : IsExpression ('[' :: '[' :: (a ++ (q ++ (b ++ [']', ']'])))) (.element ks)

def IsRemark (k : Text) : Prop :=
  k = [] ∨ IsComment k

/-- The lines of a document. Each has at most one expression, and a comment may end it. -/
inductive AreLines : Text → List Expression → Prop where
  | done {u k : Text} (hu : IsBlank true u) (hk : IsRemark k) : AreLines (u ++ k) []
  | last {u q a k : Text} {e : Expression} (hu : IsBlank true u) (he : IsExpression D q e)
    (ha : IsSpaces a) (hk : IsRemark k) : AreLines (u ++ (q ++ (a ++ k))) [e]
  | more {u q a k b w : Text} {e : Expression} {es : List Expression} (hu : IsBlank true u)
    (he : IsExpression D q e) (ha : IsSpaces a) (hk : IsRemark k) (hb : IsBreak b)
    (hes : AreLines w es) : AreLines (u ++ (q ++ (a ++ (k ++ (b ++ w))))) (e :: es)

/-- The lines of a whole text, which a byte order mark may stand before. -/
inductive HasLines : Text → List Expression → Prop where
  | plain {t : Text} {es : List Expression} (h : AreLines D t es) : HasLines t es
  | marked {t : Text} {es : List Expression} (h : AreLines D t es) :
    HasLines (byteOrderMark :: t) es

/-- A well-formed document with the expressions on its lines. They define nothing twice, and add
nothing to what is complete. -/
structure IsDocument (t : Text) (es : List Expression) : Prop where
  lines : HasLines D t es
  consistent : Consistent D.IsHistory es

end

/-! ## Where things begin -/

/-- No blank, no comment and no control character begins with the character. -/
def isFront (c : Char) : Bool :=
  isPrintable c && !isSpace c && c != '#'

/-- Whether a key, a value or a header may begin with the character. -/
def isHead (c : Char) : Bool :=
  isFront c && c.toNat < 0x80 && c != ']' && c != '\x7d'

def isKeyHead (c : Char) : Bool :=
  isBareKey c || c == '"' || c == '\''

theorem toNat_of_isAlphanum (h : c.isAlphanum = true) :
    65 ≤ c.toNat ∧ c.toNat ≤ 90 ∨ 97 ≤ c.toNat ∧ c.toNat ≤ 122 ∨ 48 ≤ c.toNat ∧ c.toNat ≤ 57 := by
  delta Char.isAlphanum Char.isAlpha Char.isUpper Char.isLower Char.isDigit at h
  simp only [Bool.or_eq_true, Bool.and_eq_true, decide_eq_true_eq, UInt32.le_iff_toNat_le,
    ge_iff_le] at h
  exact or_assoc.mp h

theorem isHead_of_isAlphanum (h : c.isAlphanum = true) : isHead c = true := by
  have hne : ∀ d : Char, d.isAlphanum = false → c ≠ d := by
    rintro d hd rfl
    rw [h] at hd
    nomatch hd
  have hrange := toNat_of_isAlphanum h
  simp only [isHead, isFront, isPrintable, isSpace, Bool.and_eq_true, Bool.or_eq_true,
    Bool.not_eq_true', Bool.or_eq_false_iff, beq_eq_false_iff_ne, bne_iff_ne, decide_eq_true_eq]
  exact ⟨⟨⟨⟨⟨.inr ⟨by omega, by omega⟩, hne _ rfl, hne _ rfl⟩, hne _ rfl⟩, by omega⟩, hne _ rfl⟩,
    hne _ rfl⟩

theorem isHead_of_isKeyHead (h : isKeyHead c = true) : isHead c = true := by
  simp only [isKeyHead, isBareKey, Bool.or_eq_true, beq_iff_eq] at h
  rcases h with (((h | rfl) | rfl) | rfl) | rfl
  · exact isHead_of_isAlphanum h
  all_goals rfl

theorem isHead_of_startsValue (h : StartsValue t) : t.head?.any isHead = true := by
  obtain ⟨c, hc, h⟩ := h
  rw [hc]
  rcases h with h | rfl | rfl
  · exact isHead_of_isAlphanum h
  all_goals rfl

theorem isFront_of_isHead (h : isHead c = true) : isFront c = true := by
  simp only [isHead, Bool.and_eq_true] at h
  exact h.1.1.1

theorem isFront_of_isKeyHead (h : isKeyHead c = true) : isFront c = true :=
  isFront_of_isHead (isHead_of_isKeyHead h)

theorem isSolid_of_isFront (h : isFront c = true) : IsSolid true (c :: t) := by
  simp only [isFront, Bool.and_eq_true, Bool.not_eq_true', bne_iff_ne] at h
  obtain ⟨⟨hprintable, hspace⟩, hcomment⟩ := h
  refine ⟨?_, ?_, ?_⟩
  · rintro d ⟨⟩
    exact hspace
  · rintro - he
    exact hcomment (Option.some.inj he)
  · refine Option.isSome_eq_false_iff.mp ?_ |> Option.isNone_iff_eq_none.mp
    rw [Bool.eq_false_iff]
    intro hbreak
    rcases Quoted.isSome_lineBreak?_cons.mp hbreak with rfl | ⟨rfl, _⟩ <;> nomatch hprintable

theorem isSolid_of_head (h : t.head?.any isFront = true) : IsSolid true t := by
  obtain ⟨c, hc, hfront⟩ := (Option.any_eq_true ..).mp h
  obtain ⟨u, rfl⟩ := List.head?_eq_some_iff.mp hc
  exact isSolid_of_isFront hfront

theorem head?_any_append {p : Char → Bool} (h : q.head?.any p = true) (rest : Text) :
    (q ++ rest).head?.any p = true := by
  obtain ⟨c, hc, hp⟩ := (Option.any_eq_true ..).mp h
  rw [List.head?_append, hc]
  exact hp

theorem head?_any_imp {p p' : Char → Bool} (hp : ∀ {c}, p c = true → p' c = true)
    (h : q.head?.any p = true) : q.head?.any p' = true := by
  obtain ⟨c, hc, h⟩ := (Option.any_eq_true ..).mp h
  exact (Option.any_eq_true ..).mpr ⟨c, hc, hp h⟩

/-! ## Gaps -/

/-- What drops a gap off the front of a text drops just what the grammar calls one. -/
structure Skips (skip : Text → Text) (Gap : Text → Prop) : Prop where
  sound {t : Text} (h : (skip t).head?.any isFront = true) : ∃ a, Gap a ∧ t = a ++ skip t
  complete {a rest : Text} (ha : Gap a) (h : rest.head?.any isFront = true) :
    skip (a ++ rest) = rest
  follows {a rest : Text} {c : Char} (ha : Gap a) (hc : c ∈ delimiters) : Follows (a ++ c :: rest)

theorem follows_cons (hc : c ∈ delimiters) : Follows (c :: rest) := by
  intro d hd
  rw [skipSpaces, List.dropWhile_cons_of_neg (by simp [not_isSpace_of_mem_delimiters hc])] at hd
  cases hd
  exact hc

theorem Follows.spaces_append (ha : IsSpaces a) (h : Follows rest) : Follows (a ++ rest) := by
  unfold Follows skipSpaces
  rw [List.dropWhile_append_of_pos ha]
  exact h

theorem skipSpaces_skips : Skips skipSpaces IsSpaces where
  sound {t} _ := by
    obtain ⟨a, ha, ht, _⟩ := exists_spaces t
    exact ⟨a, ha, ht⟩
  complete ha h := skipSpaces_append ha (isSolid_of_head h).not_space
  follows ha hc := (follows_cons hc).spaces_append ha

theorem IsBlank.follows (hu : IsBlank true u) (hc : c ∈ delimiters) : Follows (u ++ c :: rest) := by
  induction hu with
  | nil => exact follows_cons hc
  | @space d u hd _ ih => exact Follows.spaces_append (a := [d]) (by simpa [IsSpaces] using hd) ih
  | lineBreak hb => cases hb <;> exact follows_cons (by decide)
  | comment _ hk =>
    obtain ⟨body, _⟩ := hk
    exact follows_cons (by decide)

theorem skipBlank_skips : Skips (skipBlank true) (IsBlank true) where
  sound {t} h := by
    obtain ⟨_, u, _, hu, ht, rfl | ⟨_, _, hopen⟩⟩ := exists_blank true t
    · exact ⟨u, hu, ht⟩
    · obtain ⟨c, hc, hfront⟩ := (Option.any_eq_true ..).mp h
      simp [isFront, hopen c hc] at hfront
  complete ha h := skipBlank_append ha (isSolid_of_head h)
  follows ha hc := ha.follows hc

/-! ## Keys -/

/-- A reader takes off the front of a text just what the grammar allows there, if the text ends
behind it or a delimiter follows. -/
structure Reads (read? : Text → Option (α × Text)) (P : Text → α → Prop) : Prop where
  sound {t rest : Text} {x : α} (h : read? t = some (x, rest)) : ∃ q, P q x ∧ t = q ++ rest
  complete {q rest : Text} {x : α} (h : P q x) (hrest : Follows rest) :
    read? (q ++ rest) = some (x, rest)
  head {q : Text} {x : α} (h : P q x) : q.head?.any isHead = true

theorem isWord_of_isBareKey (h : isBareKey c = true) : isWord c = true := by
  simp only [isBareKey, Bool.or_eq_true, beq_iff_eq] at h
  rcases h with (h | rfl) | rfl
  · exact isWord_of_isAlphanum h
  all_goals rfl

theorem IsKey.head {k : Key} (hk : IsKey q k) : q.head?.any isKeyHead = true := by
  cases hk with
  | bare hne hk =>
    cases q with
    | nil => exact absurd rfl hne
    | cons c q => simp [isKeyHead, hk c List.mem_cons_self]
  | basic _ => rfl
  | literal _ => rfl

theorem IsKeys.head {ks : List Key} (h : IsKeys q ks) : q.head?.any isKeyHead = true := by
  cases h with
  | single hk => exact hk.head
  | dot hk _ _ _ => exact head?_any_append hk.head _

theorem isKey_of_readKey? {k : Key} (h : readKey? t = some (k, rest)) :
    ∃ q, IsKey q k ∧ t = q ++ rest := by
  unfold readKey? at h
  split at h
  · obtain ⟨b, hb, rfl⟩ := Quoted.readBasic?_eq_some_iff.mp h
    exact ⟨_, .basic hb, by simp⟩
  · obtain ⟨hk, rfl⟩ := Quoted.readLiteral?_eq_some_iff.mp h
    exact ⟨_, .literal hk, by simp⟩
  · split at h
    · rename_i hhead
      obtain ⟨rfl, rfl⟩ := Prod.mk.inj (Option.some.inj h)
      obtain ⟨c, hc, hbare⟩ := (Option.any_eq_true ..).mp hhead
      obtain ⟨u, rfl⟩ := List.head?_eq_some_iff.mp hc
      obtain ⟨hsplit, hfront⟩ := eq_takeWhile_append isBareKey (c :: u)
      exact ⟨_, .bare (by simp [hbare]) hfront, hsplit⟩
    · nomatch h

theorem readKey?_append {k : Key} (hk : IsKey q k)
    (hrest : ∀ c ∈ rest.head?, isBareKey c = false) : readKey? (q ++ rest) = some (k, rest) := by
  cases hk with
  | bare hne hk =>
    cases q with
    | nil => exact absurd rfl hne
    | cons c q =>
      have hc : isBareKey c = true := hk c List.mem_cons_self
      unfold readKey?
      split
      · rename_i ht
        rw [(List.cons.inj ht).1] at hc
        nomatch hc
      · rename_i ht
        rw [(List.cons.inj ht).1] at hc
        nomatch hc
      · rw [if_pos (by simpa using hc), takeWhile_append_of_head hk hrest,
          dropWhile_append_of_head hk hrest]
  | @basic b _ hb =>
    rw [List.cons_append, List.append_assoc]
    exact Quoted.readBasic?_eq_some_iff.mpr ⟨b, hb, rfl⟩
  | literal hk =>
    rw [List.cons_append, List.append_assoc]
    exact Quoted.readLiteral?_eq_some_iff.mpr ⟨hk, rfl⟩

theorem readKeys?_dot {n : Nat} {k : Key} {t' t'' : Text} (hk : readKey? t = some (k, t'))
    (ht' : skipSpaces t' = '.' :: t'') : readKeys?.go (n + 1) t =
      (readKeys?.go n (skipSpaces t'')).map fun (ks, rest) => (k :: ks, rest) := by
  rw [readKeys?.go, hk, Option.bind_eq_bind, Option.bind_some]
  simp only [ht']
  cases readKeys?.go n (skipSpaces t'') <;> rfl

theorem readKeys?_single {n : Nat} {k : Key} (hk : readKey? t = some (k, rest))
    (hrest : (skipSpaces rest).head? ≠ some '.') :
    readKeys?.go (n + 1) t = some ([k], rest) := by
  rw [readKeys?.go, hk, Option.bind_eq_bind, Option.bind_some]
  simp only
  split
  · rename_i ht
    rw [ht] at hrest
    exact absurd rfl hrest
  · rfl

theorem isKeys_of_go {n : Nat} {ks : List Key} (h : readKeys?.go n t = some (ks, rest)) :
    ∃ q, IsKeys q ks ∧ ks.length ≤ n ∧ t = q ++ rest := by
  induction n generalizing t ks with
  | zero => nomatch h
  | succ n ih =>
    obtain ⟨⟨k, t'⟩, hk, _⟩ := Option.bind_eq_some_iff.mp h
    obtain ⟨q, hq, rfl⟩ := isKey_of_readKey? hk
    by_cases hdot : (skipSpaces t').head? = some '.'
    · obtain ⟨t'', ht''⟩ := List.head?_eq_some_iff.mp hdot
      rw [readKeys?_dot hk ht''] at h
      obtain ⟨⟨ks', rest'⟩, hks, h⟩ := Option.map_eq_some_iff.mp h
      obtain ⟨rfl, rfl⟩ := Prod.mk.inj h
      obtain ⟨u, hu, hlength, hsplit⟩ := ih hks
      obtain ⟨a, ha, ht', _⟩ := exists_spaces t'
      obtain ⟨b, hb, hb', _⟩ := exists_spaces t''
      refine ⟨_, .dot hq ha hb hu, Nat.succ_le_succ hlength, ?_⟩
      rw [ht', ht'', hb', hsplit]
      simp
    · rw [readKeys?_single hk hdot] at h
      obtain ⟨rfl, rfl⟩ := Prod.mk.inj (Option.some.inj h)
      exact ⟨q, .single hq, Nat.succ_le_succ (Nat.zero_le n), rfl⟩

theorem isBareKey_eq_false (ht : ∀ c ∈ t.head?, isWord c = false) :
    ∀ c ∈ t.head?, isBareKey c = false := by
  intro c hc
  cases hb : isBareKey c with
  | false => rfl
  | true => rw [← ht c hc, isWord_of_isBareKey hb]

/-- With a dot behind it a key is read, and then the keys behind the dot. -/
theorem go_of_isKey {a b : Text} {n : Nat} {k : Key} {ks : List Key} (hk : IsKey q k)
    (ha : IsSpaces a) (hb : IsSpaces b) (hks : IsKeys u ks) :
    readKeys?.go (n + 1) (q ++ (a ++ '.' :: (b ++ u)) ++ rest) =
      (readKeys?.go n (u ++ rest)).map fun (ks, rest) => (k :: ks, rest) := by
  have hafter : ∀ c ∈ (a ++ '.' :: (b ++ (u ++ rest))).head?, isBareKey c = false := by
    cases a with
    | nil => simp [isBareKey]
    | cons d a =>
      refine isBareKey_eq_false fun c hc => ?_
      cases hc
      simp [isWord, ha d List.mem_cons_self]
  have hread := readKey?_append hk hafter
  have hdot : skipSpaces (a ++ '.' :: (b ++ (u ++ rest))) = '.' :: (b ++ (u ++ rest)) :=
    skipSpaces_skips.complete ha rfl
  have hspaces : skipSpaces (b ++ (u ++ rest)) = u ++ rest :=
    skipSpaces_skips.complete hb
      (head?_any_append (head?_any_imp isFront_of_isKeyHead hks.head) rest)
  simp only [List.append_assoc, List.cons_append]
  rw [readKeys?_dot hread hdot, hspaces]

theorem go_of_isKeys {n : Nat} {ks : List Key} (h : IsKeys q ks) (hn : ks.length ≤ n)
    (hrest : Follows rest) : readKeys?.go n (q ++ rest) = some (ks, rest) := by
  induction h generalizing n with
  | single hk =>
    obtain ⟨n, rfl⟩ := Nat.exists_eq_add_of_le' hn
    refine readKeys?_single (readKey?_append hk (isBareKey_eq_false hrest.not_isWord)) ?_
    intro hdot
    exact absurd (hrest _ hdot) (by decide)
  | dot hk ha hb hks ih =>
    obtain ⟨n, rfl⟩ : ∃ m, n = m + 1 := ⟨n - 1, by simp at hn; omega⟩
    rw [go_of_isKey hk ha hb hks, ih (Nat.le_of_succ_le_succ hn)]
    rfl

theorem readKeys?_reads : Reads readKeys? (IsPath .accepted) where
  sound h := by
    obtain ⟨q, hks, hlength, ht⟩ := isKeys_of_go h
    exact ⟨q, ⟨hks, hlength⟩, ht⟩
  complete h hrest := go_of_isKeys h.keys h.within hrest
  head h := head?_any_imp isHead_of_isKeyHead h.keys.head

/-! ## Lines without blanks -/

section

variable {w : Text} {ks : List Key} {v : Value} {depth : Nat} {e : Expression}
  {es : List Expression}

end

end ImportMigration.Toml
