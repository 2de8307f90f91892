import ImportMigration.Proofs.Utf8Coding
import Mathlib.Data.List.Induction

/-!
The ends of what is shown of bytes that need not be a text. A byte of ASCII is a unit of its own
wherever it stands, and nothing else is shown as a character of ASCII; so a suffix in ASCII can be
read off the shown text as well as off the bytes (`Utf8.isSuffix_lossy_iff`).
-/

namespace ImportMigration.Utf8

open String (utf8EncodeChar)

variable {a b : UInt8} {t : Bytes}

theorem follow_append {n bits : Nat} {low high : UInt8} (hl : 0x80 ≤ low) (ha : a < 0x80)
    (t u : Bytes) : follow n bits low high (t ++ a :: u) =
      ((follow n bits low high t).1, (follow n bits low high t).2 ++ a :: u) := by
  fun_induction follow n bits low high t with
  | case1 => rw [follow]
  | case2 n bits low high =>
    have hlow : ¬ low ≤ a := by
      rw [UInt8.not_le]
      exact UInt8.lt_of_lt_of_le ha hl
    rw [List.nil_append, follow, if_neg fun h => hlow h.1]
  | case3 n bits low high b t hb ih =>
    rw [List.cons_append, follow, if_pos hb, ih (by decide)]
  | case4 n bits low high b t hb => rw [List.cons_append, follow, if_neg hb]

theorem low_le_of_lead? {l : Lead} (h : lead? b = some l) : 0x80 ≤ l.low := by
  rw [lead?_eq] at h
  split_ifs at h
  all_goals
    obtain rfl := Option.some.inj h
    dsimp only
    decide

theorem unit_append (ha : a < 0x80) (b : UInt8) (t u : Bytes) :
    unit b (t ++ a :: u) = ((unit b t).1, (unit b t).2 ++ a :: u) := by
  unfold unit
  cases hl : lead? b with
  | none => rfl
  | some l => exact follow_append (low_le_of_lead? hl) ha t u

theorem units_append (ha : a < 0x80) (t u : Bytes) :
    units (t ++ a :: u) = units t ++ units (a :: u) := by
  fun_induction units t with
  | case1 => rfl
  | case2 b t ih => rw [List.cons_append, units, unit_append ha, ih, List.cons_append]

/-- A byte of ASCII is shown as its character, and has no part in what is shown before it. -/
theorem lossy_append (ha : a < 0x80) (t : Bytes) :
    lossy (t ++ [a]) = lossy t ++ [Char.ofNat a.toNat] := by
  have hu : unit a [] = (some (Char.ofNat a.toNat), []) :=
    unit_one (UInt8.lt_iff_toNat_lt.mp ha) []
  have hn : units [] = [] := by rw [units]
  rw [lossy, units_append ha, units, hu, hn, List.map_append]
  rfl

theorem suffix_follow (n bits : Nat) (low high : UInt8) (t : Bytes) :
    (follow n bits low high t).2 <:+ t := by
  fun_induction follow n bits low high t with
  | case1 => exact List.suffix_rfl
  | case2 => exact List.suffix_rfl
  | case3 n bits low high b t hb ih => exact ih.trans (List.suffix_cons b t)
  | case4 => exact List.suffix_rfl

theorem suffix_unit (b : UInt8) (t : Bytes) : (unit b t).2 <:+ t := by
  unfold unit
  split
  · exact List.suffix_rfl
  · exact suffix_follow ..

/-- A unit that ends with no byte of ASCII is shown as no character of ASCII. -/
theorem le_unit (ht : (b :: t).getLast? = some a) (ha : 0x80 ≤ a) (hu : (unit b t).2 = []) :
    0x80 ≤ ((unit b t).1.getD replacement).toNat := by
  cases hc : (unit b t).1 with
  | none => decide
  | some c =>
    rw [Option.getD_some]
    rcases Nat.lt_or_ge c.toNat 0x80 with hlt | hge
    swap
    · exact hge
    -- A character of ASCII would be the last byte itself.
    have hb : b :: t = utf8EncodeChar c ++ [] := append_of_unit (Prod.ext hc hu)
    rw [List.append_nil, encodeChar_one (by omega)] at hb
    rw [hb, List.getLast?_singleton, Option.some.injEq] at ht
    rw [← ht, UInt8.le_iff_toNat_le, toNat_byte (by omega)] at ha
    exact ha

/-- Where the last byte is none of ASCII, nor is the last character that is shown. -/
theorem le_getLast?_lossy {c : Char} (ht : t.getLast? = some a) (ha : 0x80 ≤ a)
    (hc : (lossy t).getLast? = some c) : 0x80 ≤ c.toNat := by
  unfold lossy at hc
  fun_induction units t with
  | case1 => contradiction
  | case2 b t ih =>
    rw [List.map_cons, List.getLast?_cons, Option.some.injEq] at hc
    cases hl : (unit b t).2.getLast? with
    | none =>
      have hn := List.getLast?_eq_none_iff.mp hl
      rw [hn, units] at hc
      exact hc ▸ le_unit ht ha hn
    | some x =>
      -- The last byte is that of the units behind the first one, as they are the end of the bytes.
      obtain ⟨v, hv⟩ := suffix_unit b t
      obtain ⟨w, hw⟩ := List.getLast?_eq_some_iff.mp hl
      have hx : x = a := by
        rw [← hv, hw, ← List.append_assoc, ← List.cons_append, List.getLast?_concat] at ht
        exact Option.some.inj ht
      subst hx
      cases hd : ((units (unit b t).2).map (·.getD replacement)).getLast? with
      | none =>
        rw [List.getLast?_eq_none_iff, List.map_eq_nil_iff, hw] at hd
        cases w <;> simp [units] at hd
      | some d =>
        rw [hd, Option.getD_some] at hc
        exact ih hl (hc ▸ hd)

theorem concat_suffix_concat {α : Type} {s t : List α} {x y : α} :
    s ++ [x] <:+ t ++ [y] ↔ s <:+ t ∧ x = y := by
  rw [List.suffix_concat_iff]
  constructor
  · intro h
    rcases h with h | ⟨u, hu, hs⟩
    · simp at h
    · obtain ⟨rfl, hx⟩ := List.append_inj' hu rfl
      exact ⟨hs, List.singleton_inj.mp hx⟩
  · intro he
    obtain ⟨hs, rfl⟩ := he
    exact .inr ⟨s, rfl, hs⟩

theorem isSuffix_lossy_iff {s : Text} (hs : ∀ c ∈ s, c.toNat < 0x80) {t : Bytes} :
    s <:+ lossy t ↔ encode s <:+ t := by
  induction s using List.reverseRecOn generalizing t with
  | nil => simp [encode]
  | append_singleton s c ih =>
    have hc : c.toNat < 0x80 := hs c (by simp)
    have henc : encode (s ++ [c]) = encode s ++ [UInt8.ofNat c.toNat] := by
      simp [encode, encodeChar_one hc]
    have hb : (UInt8.ofNat c.toNat).toNat = c.toNat := toNat_byte (by omega)
    rw [henc]
    rcases List.eq_nil_or_concat t with rfl | ⟨t, a, rfl⟩
    · simp [lossy, units]
    rw [List.concat_eq_append, concat_suffix_concat]
    by_cases ha : a < 0x80
    · rw [lossy_append ha, concat_suffix_concat, ih fun c hc => hs c (List.mem_append_left _ hc)]
      have hn : (Char.ofNat a.toNat).toNat = a.toNat :=
        toNat_ofNat (.inl (Nat.lt_trans (UInt8.lt_iff_toNat_lt.mp ha) (by decide)))
      have hiff : c = Char.ofNat a.toNat ↔ UInt8.ofNat c.toNat = a := by
        rw [← Char.toNat_inj, hn, ← UInt8.toNat_inj, hb]
      rw [hiff]
    · -- What is shown last is none of ASCII, and neither is the last byte.
      refine iff_of_false ?_ ?_
      · intro h
        obtain ⟨u, hu⟩ := h
        have hlast : (lossy (t ++ [a])).getLast? = some c := by
          rw [← hu, ← List.append_assoc, List.getLast?_concat]
        have := le_getLast?_lossy List.getLast?_concat (UInt8.not_lt.mp ha) hlast
        omega
      · intro h
        apply ha
        rw [← h.2, UInt8.lt_iff_toNat_lt, hb]
        exact hc

end ImportMigration.Utf8
