import ImportMigration.Proofs.Utf8Coding

/-!
Texts are ordered by their code points as their encodings are by their bytes
(`Utf8.encode_lt_encode_iff`).
-/

namespace ImportMigration.Utf8

open String (utf8EncodeChar)

variable {c d : Char} {s t : Text}

/-- One byte decides. -/
theorem byte_cons_lt {m n : Nat} (hn : n < 256) (h : m < n) (x y : Bytes) :
    UInt8.ofNat m :: x < UInt8.ofNat n :: y := by
  refine List.cons_lt_cons_iff.mpr (.inl ?_)
  rw [UInt8.lt_iff_toNat_lt, toNat_byte (Nat.lt_trans h hn), toNat_byte hn]
  exact h

/-- One byte decides, or else what follows it. -/
theorem byte_cons_lt_of_le {m n : Nat} {x y : Bytes} (hn : n < 256) (h : m ≤ n)
    (heq : m = n → x < y) : UInt8.ofNat m :: x < UInt8.ofNat n :: y := by
  rcases Nat.lt_or_eq_of_le h with h | rfl
  · exact byte_cons_lt hn h x y
  · exact List.cons_lt_cons_iff.mpr (.inr ⟨rfl, heq rfl⟩)

/-- The first byte tells how long a character is. -/
theorem exists_lead (c : Char) : ∃ m x, utf8EncodeChar c = UInt8.ofNat m :: x ∧
    (c.toNat < 0x80 → m < 0x80) ∧ (c.toNat < 0x800 → m < 0xE0) ∧
      (c.toNat < 0x10000 → m < 0xF0) := by
  by_cases h1 : c.toNat < 0x80
  · exact ⟨_, _, encodeChar_one h1, by omega, by omega, by omega⟩
  · by_cases h2 : c.toNat < 0x800
    · exact ⟨_, _, encodeChar_two (by omega) h2, by omega, by omega, by omega⟩
    · by_cases h3 : c.toNat < 0x10000
      · exact ⟨_, _, encodeChar_three (by omega) h3, by omega, by omega, by omega⟩
      · exact ⟨_, _, encodeChar_four (by omega), by omega, by omega, by omega⟩

-- By the length of the greater character: a shorter one has a smaller first byte, and one of the
-- same length has smaller digits.
theorem encodeChar_append_lt (h : c < d) (x y : Bytes) :
    utf8EncodeChar c ++ x < utf8EncodeChar d ++ y := by
  have hlt : c.toNat < d.toNat := h
  have hd : d.toNat < 0xD800 ∨ 0xDFFF < d.toNat ∧ d.toNat < 0x110000 := d.valid
  obtain ⟨m, z, hc, hm1, hm2, hm3⟩ := exists_lead c
  by_cases hd1 : d.toNat < 0x80
  · rw [encodeChar_one (Nat.lt_trans hlt hd1), encodeChar_one hd1]
    exact byte_cons_lt (by omega) hlt x y
  · by_cases hd2 : d.toNat < 0x800
    · rw [encodeChar_two (by omega) hd2]
      by_cases hc1 : c.toNat < 0x80
      · rw [hc]
        exact byte_cons_lt (by omega) (by omega) _ _
      · rw [encodeChar_two (by omega) (by omega)]
        exact byte_cons_lt_of_le (by omega) (by omega) fun _ =>
          byte_cons_lt (by omega) (by omega) _ _
    · by_cases hd3 : d.toNat < 0x10000
      · rw [encodeChar_three (by omega) hd3]
        by_cases hc2 : c.toNat < 0x800
        · rw [hc]
          exact byte_cons_lt (by omega) (by omega) _ _
        · rw [encodeChar_three (by omega) (by omega)]
          exact byte_cons_lt_of_le (by omega) (by omega) fun _ =>
            byte_cons_lt_of_le (by omega) (by omega) fun _ =>
              byte_cons_lt (by omega) (by omega) _ _
      · rw [encodeChar_four (c := d) (by omega)]
        by_cases hc3 : c.toNat < 0x10000
        · rw [hc]
          exact byte_cons_lt (by omega) (by omega) _ _
        · rw [encodeChar_four (by omega)]
          exact byte_cons_lt_of_le (by omega) (by omega) fun _ =>
            byte_cons_lt_of_le (by omega) (by omega) fun _ =>
              byte_cons_lt_of_le (by omega) (by omega) fun _ =>
                byte_cons_lt (by omega) (by omega) _ _

theorem encode_cons (c : Char) (t : Text) : encode (c :: t) = utf8EncodeChar c ++ encode t := rfl

theorem encode_lt_encode (h : s < t) : encode s < encode t := by
  induction s generalizing t with
  | nil =>
    cases t with
    | nil => exact absurd h (List.lt_irrefl [])
    | cons d t =>
      obtain ⟨m, x, hd, _⟩ := exists_lead d
      rw [encode_cons, hd]
      exact List.nil_lt_cons _ _
  | cons c s ih =>
    cases t with
    | nil => exact absurd h (List.not_lt_nil _)
    | cons d t =>
      rw [encode_cons, encode_cons]
      rcases List.cons_lt_cons_iff.mp h with hlt | ⟨rfl, hlt⟩
      · exact encodeChar_append_lt hlt _ _
      · exact List.append_left_lt (ih hlt)

theorem encode_lt_encode_iff : encode s < encode t ↔ s < t := by
  refine ⟨fun h => ?_, encode_lt_encode⟩
  refine Decidable.byContradiction fun hst => ?_
  by_cases hts : t < s
  · exact List.lt_asymm h (encode_lt_encode hts)
  · rw [List.le_antisymm (List.not_lt.mp hts) (List.not_lt.mp hst)] at h
    exact List.lt_irrefl _ h

end ImportMigration.Utf8
