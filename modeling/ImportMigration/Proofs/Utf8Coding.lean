import ImportMigration.Text.Utf8
import Mathlib.Tactic.SplitIfs

/-!
Reading bytes as a text undoes writing a text as bytes, and nothing else can be read: bytes are a
text just when they are its encoding (`Utf8.decode?_eq_some_iff`).
-/

namespace ImportMigration.Utf8

open String (utf8EncodeChar)

theorem follow_zero_eq_some_iff {bits : Nat} {low high : UInt8} {t rest : Bytes} {c : Char} :
    follow 0 bits low high t = (some c, rest) ↔ Char.ofNat bits = c ∧ t = rest := by
  simp [follow]

theorem follow_succ_eq_some_iff {n bits : Nat} {low high : UInt8} {t rest : Bytes} {c : Char} :
    follow (n + 1) bits low high t = (some c, rest) ↔
      ∃ b u, t = b :: u ∧ low ≤ b ∧ b ≤ high ∧
        follow n (bits * 64 + (b.toNat - 0x80)) 0x80 0xBF u = (some c, rest) := by
  cases t with
  | nil => simp [follow]
  | cons b u =>
    constructor
    · intro h
      rw [follow] at h
      split at h
      · rename_i hb
        exact ⟨b, u, rfl, hb.1, hb.2, h⟩
      · simp at h
    · intro he
      obtain ⟨b', u', hu, hl, hh, h⟩ := he
      obtain ⟨rfl, rfl⟩ := List.cons.inj hu
      rw [follow, if_pos ⟨hl, hh⟩, h]

theorem toNat_ofNat {n : Nat} (h : n < 0xD800 ∨ 0xDFFF < n ∧ n < 0x110000) :
    (Char.ofNat n).toNat = n := by
  have hv : n.isValidChar := h
  rw [Char.ofNat, dif_pos hv]
  rfl

section Lengths

variable {c : Char}

theorem encodeChar_one (h : c.toNat < 0x80) : utf8EncodeChar c = [UInt8.ofNat c.toNat] := by
  have h1 : c.toNat ≤ 0x7f := by omega
  simp [utf8EncodeChar, h1]

theorem encodeChar_two (h : 0x80 ≤ c.toNat) (h' : c.toNat < 0x800) :
    utf8EncodeChar c = [UInt8.ofNat (c.toNat / 64 + 0xC0), UInt8.ofNat (c.toNat % 64 + 0x80)] := by
  have h1 : ¬ c.toNat ≤ 0x7f := by omega
  have h2 : c.toNat ≤ 0x7ff := by omega
  have h3 : c.toNat / 64 % 32 = c.toNat / 64 := by omega
  simp [utf8EncodeChar, h1, h2, h3]

theorem encodeChar_three (h : 0x800 ≤ c.toNat) (h' : c.toNat < 0x10000) :
    utf8EncodeChar c = [UInt8.ofNat (c.toNat / 4096 + 0xE0),
      UInt8.ofNat (c.toNat / 64 % 64 + 0x80), UInt8.ofNat (c.toNat % 64 + 0x80)] := by
  have h1 : ¬ c.toNat ≤ 0x7f := by omega
  have h2 : ¬ c.toNat ≤ 0x7ff := by omega
  have h3 : c.toNat ≤ 0xffff := by omega
  have h4 : c.toNat / 4096 % 16 = c.toNat / 4096 := by omega
  simp [utf8EncodeChar, h1, h2, h3, h4]

theorem encodeChar_four (h : 0x10000 ≤ c.toNat) :
    utf8EncodeChar c = [UInt8.ofNat (c.toNat / 262144 + 0xF0),
      UInt8.ofNat (c.toNat / 4096 % 64 + 0x80), UInt8.ofNat (c.toNat / 64 % 64 + 0x80),
      UInt8.ofNat (c.toNat % 64 + 0x80)] := by
  have hc : c.toNat < 0xD800 ∨ 0xDFFF < c.toNat ∧ c.toNat < 0x110000 := c.valid
  have h1 : ¬ c.toNat ≤ 0x7f := by omega
  have h2 : ¬ c.toNat ≤ 0x7ff := by omega
  have h3 : ¬ c.toNat ≤ 0xffff := by omega
  have h4 : c.toNat / 262144 % 8 = c.toNat / 262144 := by omega
  simp [utf8EncodeChar, h1, h2, h3, h4]

end Lengths

/-- What the first byte says, by the length of the character. -/
theorem lead?_eq (b : UInt8) : lead? b =
    if b.toNat < 0x80 then some ⟨b.toNat, 0, 0x80, 0xBF⟩
    else if b.toNat < 0xC2 then none
    else if b.toNat < 0xE0 then some ⟨b.toNat - 0xC0, 1, 0x80, 0xBF⟩
    else if b.toNat < 0xF0 then
      some ⟨b.toNat - 0xE0, 2, if b.toNat = 0xE0 then 0xA0 else 0x80,
        if b.toNat = 0xED then 0x9F else 0xBF⟩
    else if b.toNat < 0xF5 then
      some ⟨b.toNat - 0xF0, 3, if b.toNat = 0xF0 then 0x90 else 0x80,
        if b.toNat = 0xF4 then 0x8F else 0xBF⟩
    else none := by
  simp only [lead?, UInt8.lt_iff_toNat_lt, ← UInt8.toNat_inj, UInt8.reduceToNat]
  split_ifs <;> first | omega | simp_all

section Units

variable {b : UInt8}

theorem unit_one (h : b.toNat < 0x80) (t : Bytes) : unit b t = (some (Char.ofNat b.toNat), t) := by
  simp [unit, lead?_eq, h, follow]

theorem unit_two (h : 0xC2 ≤ b.toNat) (h' : b.toNat < 0xE0) (t : Bytes) :
    unit b t = follow 1 (b.toNat - 0xC0) 0x80 0xBF t := by
  have h1 : ¬ b.toNat < 0x80 := by omega
  have h2 : ¬ b.toNat < 0xC2 := by omega
  simp [unit, lead?_eq, h1, h2, h']

theorem unit_three (h : 0xE0 ≤ b.toNat) (h' : b.toNat < 0xF0) (t : Bytes) :
    ∃ low high : UInt8, unit b t = follow 2 (b.toNat - 0xE0) low high t ∧
      ∀ x : UInt8, low ≤ x ∧ x ≤ high ↔ 0x80 ≤ x.toNat ∧ x.toNat ≤ 0xBF ∧
        (b.toNat = 0xE0 → 0xA0 ≤ x.toNat) ∧ (b.toNat = 0xED → x.toNat ≤ 0x9F) := by
  have h1 : ¬ b.toNat < 0x80 := by omega
  have h2 : ¬ b.toNat < 0xC2 := by omega
  have h3 : ¬ b.toNat < 0xE0 := by omega
  refine ⟨if b.toNat = 0xE0 then 0xA0 else 0x80, if b.toNat = 0xED then 0x9F else 0xBF, ?_, ?_⟩
  · simp only [unit, lead?_eq, h1, h2, h3, h', if_true, if_false]
  · intro x
    split_ifs <;> simp only [UInt8.le_iff_toNat_le, UInt8.reduceToNat] <;> omega

theorem unit_four (h : 0xF0 ≤ b.toNat) (h' : b.toNat < 0xF5) (t : Bytes) :
    ∃ low high : UInt8, unit b t = follow 3 (b.toNat - 0xF0) low high t ∧
      ∀ x : UInt8, low ≤ x ∧ x ≤ high ↔ 0x80 ≤ x.toNat ∧ x.toNat ≤ 0xBF ∧
        (b.toNat = 0xF0 → 0x90 ≤ x.toNat) ∧ (b.toNat = 0xF4 → x.toNat ≤ 0x8F) := by
  have h1 : ¬ b.toNat < 0x80 := by omega
  have h2 : ¬ b.toNat < 0xC2 := by omega
  have h3 : ¬ b.toNat < 0xE0 := by omega
  have h4 : ¬ b.toNat < 0xF0 := by omega
  refine ⟨if b.toNat = 0xF0 then 0x90 else 0x80, if b.toNat = 0xF4 then 0x8F else 0xBF, ?_, ?_⟩
  · simp only [unit, lead?_eq, h1, h2, h3, h4, h', if_true, if_false]
  · intro x
    split_ifs <;> simp only [UInt8.le_iff_toNat_le, UInt8.reduceToNat] <;> omega

/-- No character begins with any other byte. -/
theorem unit_broken (h : 0x80 ≤ b.toNat) (h' : b.toNat < 0xC2 ∨ 0xF5 ≤ b.toNat) (t : Bytes) :
    unit b t = (none, t) := by
  have h1 : ¬ b.toNat < 0x80 := by omega
  rcases h' with h' | h'
  · simp [unit, lead?_eq, h1, h']
  · have h2 : ¬ b.toNat < 0xC2 := by omega
    have h3 : ¬ b.toNat < 0xE0 := by omega
    have h4 : ¬ b.toNat < 0xF0 := by omega
    have h5 : ¬ b.toNat < 0xF5 := by omega
    simp only [unit, lead?_eq, h1, h2, h3, h4, h5, if_false]

end Units

theorem ofNat_eq_of_toNat {n : Nat} {b : UInt8} (h : n = b.toNat) : UInt8.ofNat n = b := by
  rw [h, UInt8.ofNat_toNat]

theorem continues_iff {x : UInt8} : 0x80 ≤ x ∧ x ≤ 0xBF ↔ 0x80 ≤ x.toNat ∧ x.toNat ≤ 0xBF := by
  simp only [UInt8.le_iff_toNat_le, UInt8.reduceToNat]

section Reading

variable {b : UInt8} {t rest : Bytes} {c : Char}

theorem append_of_unit_two (h2 : 0xC2 ≤ b.toNat) (h3 : b.toNat < 0xE0)
    (h : unit b t = (some c, rest)) : b :: t = utf8EncodeChar c ++ rest := by
  rw [unit_two h2 h3, follow_succ_eq_some_iff] at h
  obtain ⟨b1, u, rfl, hl1, hh1, h⟩ := h
  obtain ⟨hc, rfl⟩ := follow_zero_eq_some_iff.mp h
  have hb1 := continues_iff.mp ⟨hl1, hh1⟩
  have hn := hc ▸ toNat_ofNat (n := (b.toNat - 0xC0) * 64 + (b1.toNat - 0x80)) (by omega)
  rw [encodeChar_two (by omega) (by omega), ofNat_eq_of_toNat (b := b) (by omega),
    ofNat_eq_of_toNat (b := b1) (by omega)]
  rfl

theorem append_of_unit_three (h3 : 0xE0 ≤ b.toNat) (h4 : b.toNat < 0xF0)
    (h : unit b t = (some c, rest)) : b :: t = utf8EncodeChar c ++ rest := by
  obtain ⟨low, high, hu, hrange⟩ := unit_three h3 h4 t
  rw [hu, follow_succ_eq_some_iff] at h
  obtain ⟨b1, u, rfl, hl1, hh1, h⟩ := h
  obtain ⟨b2, u, rfl, hl2, hh2, h⟩ := follow_succ_eq_some_iff.mp h
  obtain ⟨hc, rfl⟩ := follow_zero_eq_some_iff.mp h
  have hb1 := (hrange b1).mp ⟨hl1, hh1⟩
  have hb2 := continues_iff.mp ⟨hl2, hh2⟩
  have hn := hc ▸ toNat_ofNat
    (n := ((b.toNat - 0xE0) * 64 + (b1.toNat - 0x80)) * 64 + (b2.toNat - 0x80)) (by omega)
  rw [encodeChar_three (by omega) (by omega), ofNat_eq_of_toNat (b := b) (by omega),
    ofNat_eq_of_toNat (b := b1) (by omega), ofNat_eq_of_toNat (b := b2) (by omega)]
  rfl

theorem append_of_unit_four (h4 : 0xF0 ≤ b.toNat) (h5 : b.toNat < 0xF5)
    (h : unit b t = (some c, rest)) : b :: t = utf8EncodeChar c ++ rest := by
  obtain ⟨low, high, hu, hrange⟩ := unit_four h4 h5 t
  rw [hu, follow_succ_eq_some_iff] at h
  obtain ⟨b1, u, rfl, hl1, hh1, h⟩ := h
  obtain ⟨b2, u, rfl, hl2, hh2, h⟩ := follow_succ_eq_some_iff.mp h
  obtain ⟨b3, u, rfl, hl3, hh3, h⟩ := follow_succ_eq_some_iff.mp h
  obtain ⟨hc, rfl⟩ := follow_zero_eq_some_iff.mp h
  have hb1 := (hrange b1).mp ⟨hl1, hh1⟩
  have hb2 := continues_iff.mp ⟨hl2, hh2⟩
  have hb3 := continues_iff.mp ⟨hl3, hh3⟩
  have hn := hc ▸ toNat_ofNat
    (n := (((b.toNat - 0xF0) * 64 + (b1.toNat - 0x80)) * 64 + (b2.toNat - 0x80)) * 64 +
      (b3.toNat - 0x80)) (by omega)
  rw [encodeChar_four (by omega), ofNat_eq_of_toNat (b := b) (by omega),
    ofNat_eq_of_toNat (b := b1) (by omega), ofNat_eq_of_toNat (b := b2) (by omega),
    ofNat_eq_of_toNat (b := b3) (by omega)]
  rfl

/-- The bytes of a unit that is a character are that character's. -/
theorem append_of_unit (h : unit b t = (some c, rest)) : b :: t = utf8EncodeChar c ++ rest := by
  rcases Nat.lt_or_ge b.toNat 0x80 with h1 | h1
  · rw [unit_one h1] at h
    obtain ⟨hc, rfl⟩ := Prod.mk.inj h
    have hn : c.toNat = b.toNat := Option.some.inj hc ▸ toNat_ofNat (by omega)
    rw [encodeChar_one (by omega), hn, UInt8.ofNat_toNat]
    rfl
  rcases Nat.lt_or_ge b.toNat 0xC2 with h2 | h2
  · simp [unit_broken h1 (.inl h2)] at h
  rcases Nat.lt_or_ge b.toNat 0xE0 with h3 | h3
  · exact append_of_unit_two h2 h3 h
  rcases Nat.lt_or_ge b.toNat 0xF0 with h4 | h4
  · exact append_of_unit_three h3 h4 h
  rcases Nat.lt_or_ge b.toNat 0xF5 with h5 | h5
  · exact append_of_unit_four h4 h5 h
  · simp [unit_broken h1 (.inr h5)] at h

end Reading

section Writing

variable {b : UInt8} {t rest : Bytes} {c : Char}

theorem follow_cons {n bits : Nat} {low high : UInt8} (h : low ≤ b ∧ b ≤ high) (t : Bytes) :
    follow (n + 1) bits low high (b :: t) =
      follow n (bits * 64 + (b.toNat - 0x80)) 0x80 0xBF t := by
  rw [follow, if_pos h]

theorem toNat_byte {n : Nat} (h : n < 256) : (UInt8.ofNat n).toNat = n := by
  rw [UInt8.toNat_ofNat', Nat.mod_eq_of_lt h]

theorem toNat_continuing (n : Nat) : (UInt8.ofNat (n % 64 + 0x80)).toNat = n % 64 + 0x80 :=
  toNat_byte (by omega)

theorem continues (n : Nat) :
    0x80 ≤ UInt8.ofNat (n % 64 + 0x80) ∧ UInt8.ofNat (n % 64 + 0x80) ≤ 0xBF :=
  continues_iff.mpr (by rw [toNat_continuing]; omega)

theorem unit_of_append_two (h1 : 0x80 ≤ c.toNat) (h2 : c.toNat < 0x800)
    (h : b :: t = utf8EncodeChar c ++ rest) : unit b t = (some c, rest) := by
  rw [encodeChar_two h1 h2] at h
  obtain ⟨rfl, rfl⟩ := List.cons.inj h
  have hb := toNat_byte (n := c.toNat / 64 + 0xC0) (by omega)
  rw [unit_two (by omega) (by omega)]
  refine (follow_cons (continues _) _).trans (follow_zero_eq_some_iff.mpr ⟨?_, rfl⟩)
  rw [hb, toNat_continuing]
  have hn : (c.toNat / 64 + 0xC0 - 0xC0) * 64 + (c.toNat % 64 + 0x80 - 0x80) = c.toNat := by
    omega
  rw [hn, Char.ofNat_toNat]

theorem unit_of_append_three (h2 : 0x800 ≤ c.toNat) (h3 : c.toNat < 0x10000)
    (h : b :: t = utf8EncodeChar c ++ rest) : unit b t = (some c, rest) := by
  have hvalid : c.toNat < 0xD800 ∨ 0xDFFF < c.toNat ∧ c.toNat < 0x110000 := c.valid
  rw [encodeChar_three h2 h3] at h
  obtain ⟨rfl, rfl⟩ := List.cons.inj h
  have hb := toNat_byte (n := c.toNat / 4096 + 0xE0) (by omega)
  obtain ⟨low, high, hu, hrange⟩ :=
    unit_three (b := UInt8.ofNat (c.toNat / 4096 + 0xE0)) (by omega) (by omega) _
  rw [hu]
  refine (follow_cons ((hrange _).mpr (by rw [hb, toNat_continuing]; omega)) _).trans
    ((follow_cons (continues _) _).trans (follow_zero_eq_some_iff.mpr ⟨?_, rfl⟩))
  rw [hb, toNat_continuing, toNat_continuing]
  have hn : ((c.toNat / 4096 + 0xE0 - 0xE0) * 64 + (c.toNat / 64 % 64 + 0x80 - 0x80)) * 64 +
      (c.toNat % 64 + 0x80 - 0x80) = c.toNat := by omega
  rw [hn, Char.ofNat_toNat]

theorem unit_of_append_four (h3 : 0x10000 ≤ c.toNat)
    (h : b :: t = utf8EncodeChar c ++ rest) : unit b t = (some c, rest) := by
  have hvalid : c.toNat < 0xD800 ∨ 0xDFFF < c.toNat ∧ c.toNat < 0x110000 := c.valid
  rw [encodeChar_four h3] at h
  obtain ⟨rfl, rfl⟩ := List.cons.inj h
  have hb := toNat_byte (n := c.toNat / 262144 + 0xF0) (by omega)
  obtain ⟨low, high, hu, hrange⟩ :=
    unit_four (b := UInt8.ofNat (c.toNat / 262144 + 0xF0)) (by omega) (by omega) _
  rw [hu]
  refine (follow_cons ((hrange _).mpr (by rw [hb, toNat_continuing]; omega)) _).trans
    ((follow_cons (continues _) _).trans
      ((follow_cons (continues _) _).trans (follow_zero_eq_some_iff.mpr ⟨?_, rfl⟩)))
  rw [hb, toNat_continuing, toNat_continuing, toNat_continuing]
  have hn : (((c.toNat / 262144 + 0xF0 - 0xF0) * 64 + (c.toNat / 4096 % 64 + 0x80 - 0x80)) * 64 +
      (c.toNat / 64 % 64 + 0x80 - 0x80)) * 64 + (c.toNat % 64 + 0x80 - 0x80) = c.toNat := by
    omega
  rw [hn, Char.ofNat_toNat]

/-- Reading takes the bytes of a character as one unit. -/
theorem unit_of_append (h : b :: t = utf8EncodeChar c ++ rest) : unit b t = (some c, rest) := by
  rcases Nat.lt_or_ge c.toNat 0x80 with h1 | h1
  · rw [encodeChar_one h1] at h
    obtain ⟨rfl, rfl⟩ := List.cons.inj h
    have hb := toNat_byte (n := c.toNat) (by omega)
    rw [unit_one (by omega), hb, Char.ofNat_toNat]
  rcases Nat.lt_or_ge c.toNat 0x800 with h2 | h2
  · exact unit_of_append_two h1 h2 h
  rcases Nat.lt_or_ge c.toNat 0x10000 with h3 | h3
  · exact unit_of_append_three h2 h3 h
  · exact unit_of_append_four h3 h

end Writing

theorem units_encode (t : Text) : units (encode t) = t.map some := by
  induction t with
  | nil => rw [encode, List.flatMap_nil, units]; rfl
  | cons c t ih =>
    have hc : encode (c :: t) = utf8EncodeChar c ++ encode t := rfl
    obtain ⟨b, bs, hb⟩ := List.exists_cons_of_ne_nil (String.utf8EncodeChar_ne_nil (c := c))
    have hu : unit b (bs ++ encode t) = (some c, encode t) := unit_of_append (by rw [hb]; rfl)
    rw [hc, hb, List.cons_append, units, hu, ih]
    rfl

theorem eq_encode_of_units {b : Bytes} {t : Text} (h : units b = t.map some) : b = encode t := by
  induction t generalizing b with
  | nil =>
    cases b with
    | nil => rfl
    | cons b bs => rw [units] at h; contradiction
  | cons c t ih =>
    cases b with
    | nil => rw [units] at h; contradiction
    | cons b bs =>
      rw [units] at h
      obtain ⟨hc, ht⟩ := List.cons.inj h
      have hu : unit b bs = (some c, (unit b bs).2) := Prod.ext hc rfl
      rw [append_of_unit hu, ih ht]
      rfl

theorem mapM_id_eq_some_iff {α : Type} {l : List (Option α)} {t : List α} :
    l.mapM id = some t ↔ l = t.map some := by
  induction l generalizing t with
  | nil => cases t <;> simp
  | cons x l ih =>
    rw [List.mapM_cons, id_eq]
    cases x with
    | none => cases t <;> simp
    | some a =>
      simp only [Option.bind_eq_bind, Option.bind_some, Option.pure_def, Option.bind_eq_some_iff,
        Option.some.injEq, ih]
      constructor
      · intro he
        obtain ⟨t, rfl, rfl⟩ := he
        rfl
      · intro h
        cases t with
        | nil => contradiction
        | cons b t =>
          obtain ⟨hb, rfl⟩ := List.cons.inj h
          exact ⟨t, rfl, by rw [Option.some.inj hb]⟩

/-- Bytes can be read as a text just when they are the text's encoding. -/
theorem decode?_eq_some_iff {b : Bytes} {t : Text} : decode? b = some t ↔ b = encode t := by
  rw [decode?, mapM_id_eq_some_iff]
  exact ⟨eq_encode_of_units, fun h => h ▸ units_encode t⟩

theorem decode?_encode (t : Text) : decode? (encode t) = some t :=
  decode?_eq_some_iff.mpr rfl

end ImportMigration.Utf8
