import ImportMigration.Proofs.Words
import Mathlib.Data.Option.Basic

/-!
Dates and times as the grammar has them: a date, a time of day, or a date with a time of day and
perhaps an offset from universal time.
-/

namespace ImportMigration.Toml.Moment

variable {t a b rest : Text} {c : Char} {count n : Nat}

/-- A number of exactly so many digits. -/
structure IsNumeral (count : Nat) (t : Text) (n : Nat) : Prop where
  length : t.length = count
  digits : ∀ c ∈ t, c.isDigit = true
  value : t.foldl (fun n c => n * 10 + (c.toNat - 48)) 0 = n

inductive IsDate : Text → Prop where
  | mk {y m d : Text} {year month day : Nat} (hy : IsNumeral 4 y year) (hm : IsNumeral 2 m month)
    (hd : IsNumeral 2 d day) (hmonth : 1 ≤ month ∧ month ≤ 12)
    (hday : 1 ≤ day ∧ day ≤ daysIn year month) : IsDate (y ++ '-' :: (m ++ '-' :: d))

/-- An hour and a minute. -/
inductive IsMinute : Text → Prop where
  | mk {h m : Text} {hour minute : Nat} (hh : IsNumeral 2 h hour) (hm : IsNumeral 2 m minute)
    (hhour : hour ≤ 23) (hminute : minute ≤ 59) : IsMinute (h ++ ':' :: m)

/-- A second, which may be a leap second, and perhaps a fraction of one. -/
inductive IsSecond : Text → Prop where
  | whole {s : Text} {second : Nat} (hs : IsNumeral 2 s second) (hsecond : second ≤ 60) : IsSecond s
  | fraction {s f : Text} {second : Nat} (hs : IsNumeral 2 s second) (hsecond : second ≤ 60)
    (hne : f ≠ []) (hf : ∀ c ∈ f, c.isDigit = true) : IsSecond (s ++ '.' :: f)

inductive IsTime : Text → Prop where
  | minute {m : Text} (hm : IsMinute m) : IsTime m
  | second {m s : Text} (hm : IsMinute m) (hs : IsSecond s) : IsTime (m ++ ':' :: s)

/-- An offset from universal time. -/
inductive IsOffset : Text → Prop where
  | universal {c : Char} (hc : c = 'Z' ∨ c = 'z') : IsOffset [c]
  | minute {c : Char} {m : Text} (hc : c = '+' ∨ c = '-') (hm : IsMinute m) : IsOffset (c :: m)

inductive IsMoment : Text → Prop where
  | date {d : Text} (hd : IsDate d) : IsMoment d
  | time {t : Text} (ht : IsTime t) : IsMoment t
  | both {d t : Text} {c : Char} (hd : IsDate d) (hc : c ∈ ['T', 't', ' ']) (ht : IsTime t) :
    IsMoment (d ++ c :: t)
  | offset {d t o : Text} {c : Char} (hd : IsDate d) (hc : c ∈ ['T', 't', ' ']) (ht : IsTime t)
    (ho : IsOffset o) : IsMoment (d ++ c :: (t ++ o))

/-! ## Reading -/

/-- The text goes on with no digit. -/
def EndsDigits (rest : Text) : Prop :=
  ∀ c ∈ rest.head?, c.isDigit = false

theorem endsDigits_cons (hc : c.isDigit = false) : EndsDigits (c :: rest) := by
  rintro d ⟨⟩
  exact hc

theorem readDigits?_eq_some_iff : readDigits? count t = some (n, rest) ↔
    ∃ d, IsNumeral count d n ∧ t = d ++ rest ∧ EndsDigits rest := by
  constructor
  · intro h
    unfold readDigits? at h
    simp only at h
    split at h
    · rename_i hcount
      cases h
      obtain ⟨hsplit, hdigits⟩ := eq_takeWhile_append Char.isDigit t
      exact ⟨_, ⟨hcount, hdigits, rfl⟩, hsplit, head?_dropWhile_eq_false Char.isDigit t⟩
    · contradiction
  · rintro ⟨d, hd, rfl, hrest⟩
    unfold readDigits?
    simp only
    rw [takeWhile_append_of_head hd.digits hrest, dropWhile_append_of_head hd.digits hrest,
      if_pos hd.length, hd.value]

theorem skip?_eq_some_iff : skip? c t = some rest ↔ t = c :: rest :=
  dropFront?_eq_some_iff

theorem skipDate?_eq_some_iff :
    skipDate? t = some rest ↔ ∃ d, IsDate d ∧ t = d ++ rest ∧ EndsDigits rest := by
  constructor
  · intro h
    obtain ⟨⟨year, t₁⟩, hyear, h⟩ := Option.bind_eq_some_iff.mp h
    obtain ⟨t₂, ht₂, h⟩ := Option.bind_eq_some_iff.mp h
    obtain ⟨⟨month, t₃⟩, hmonth, h⟩ := Option.bind_eq_some_iff.mp h
    obtain ⟨t₄, ht₄, h⟩ := Option.bind_eq_some_iff.mp h
    obtain ⟨⟨day, t₅⟩, hday, h⟩ := Option.bind_eq_some_iff.mp h
    obtain ⟨_, hguard, h⟩ := Option.bind_eq_some_iff.mp h
    cases h
    obtain ⟨y, hy, rfl, _⟩ := readDigits?_eq_some_iff.mp hyear
    obtain rfl := skip?_eq_some_iff.mp ht₂
    obtain ⟨m, hm, rfl, _⟩ := readDigits?_eq_some_iff.mp hmonth
    obtain rfl := skip?_eq_some_iff.mp ht₄
    obtain ⟨d, hd, rfl, hrest⟩ := readDigits?_eq_some_iff.mp hday
    obtain ⟨hmonth, hmonth', hday, hday'⟩ := (Option.guard_eq_some' _).mp hguard
    exact ⟨_, .mk hy hm hd ⟨hmonth, hmonth'⟩ ⟨hday, hday'⟩, by simp, hrest⟩
  · rintro ⟨_, ⟨hy, hm, hd, hmonth, hday⟩, rfl, hrest⟩
    have hguard := And.intro hmonth.1 (And.intro hmonth.2 hday)
    simp only [List.append_assoc, List.cons_append]
    refine Option.bind_eq_some_iff.mpr
      ⟨_, readDigits?_eq_some_iff.mpr ⟨_, hy, rfl, endsDigits_cons rfl⟩, ?_⟩
    refine Option.bind_eq_some_iff.mpr ⟨_, skip?_eq_some_iff.mpr rfl, ?_⟩
    refine Option.bind_eq_some_iff.mpr
      ⟨_, readDigits?_eq_some_iff.mpr ⟨_, hm, rfl, endsDigits_cons rfl⟩, ?_⟩
    refine Option.bind_eq_some_iff.mpr ⟨_, skip?_eq_some_iff.mpr rfl, ?_⟩
    refine Option.bind_eq_some_iff.mpr ⟨_, readDigits?_eq_some_iff.mpr ⟨_, hd, rfl, hrest⟩, ?_⟩
    exact Option.bind_eq_some_iff.mpr ⟨(), (Option.guard_eq_some' _).mpr hguard, rfl⟩

theorem skipMinute?_eq_some_iff :
    skipMinute? t = some rest ↔ ∃ m, IsMinute m ∧ t = m ++ rest ∧ EndsDigits rest := by
  constructor
  · intro h
    obtain ⟨⟨hour, t₁⟩, hhour, h⟩ := Option.bind_eq_some_iff.mp h
    obtain ⟨t₂, ht₂, h⟩ := Option.bind_eq_some_iff.mp h
    obtain ⟨⟨minute, t₃⟩, hminute, h⟩ := Option.bind_eq_some_iff.mp h
    obtain ⟨_, hguard, h⟩ := Option.bind_eq_some_iff.mp h
    cases h
    obtain ⟨d, hd, rfl, _⟩ := readDigits?_eq_some_iff.mp hhour
    obtain rfl := skip?_eq_some_iff.mp ht₂
    obtain ⟨m, hm, rfl, hrest⟩ := readDigits?_eq_some_iff.mp hminute
    obtain ⟨hhour, hminute⟩ := (Option.guard_eq_some' _).mp hguard
    exact ⟨_, .mk hd hm hhour hminute, by simp, hrest⟩
  · rintro ⟨_, ⟨hh, hm, hhour, hminute⟩, rfl, hrest⟩
    have hguard := And.intro hhour hminute
    simp only [List.append_assoc, List.cons_append]
    refine Option.bind_eq_some_iff.mpr
      ⟨_, readDigits?_eq_some_iff.mpr ⟨_, hh, rfl, endsDigits_cons rfl⟩, ?_⟩
    refine Option.bind_eq_some_iff.mpr ⟨_, skip?_eq_some_iff.mpr rfl, ?_⟩
    refine Option.bind_eq_some_iff.mpr ⟨_, readDigits?_eq_some_iff.mpr ⟨_, hm, rfl, hrest⟩, ?_⟩
    exact Option.bind_eq_some_iff.mpr ⟨(), (Option.guard_eq_some' _).mpr hguard, rfl⟩

/-- What follows a time neither goes on with it nor with one of its parts. -/
def EndsTime (rest : Text) : Prop :=
  EndsDigits rest ∧ rest.head? ≠ some ':' ∧ rest.head? ≠ some '.'

theorem skipTime?_minute {m : Text} (hm : IsMinute m) (hrest : EndsTime rest) :
    skipTime? (m ++ rest) = some rest := by
  obtain ⟨hdigits, hcolon, _⟩ := hrest
  refine Option.bind_eq_some_iff.mpr ⟨_, skipMinute?_eq_some_iff.mpr ⟨m, hm, rfl, hdigits⟩, ?_⟩
  split
  · exact absurd rfl hcolon
  · rfl

theorem skipTime?_second {m s : Text} (hm : IsMinute m) (hs : IsSecond s) (hrest : EndsTime rest) :
    skipTime? (m ++ ':' :: s ++ rest) = some rest := by
  obtain ⟨hdigits, _, hpoint⟩ := hrest
  rw [List.append_assoc, List.cons_append]
  refine Option.bind_eq_some_iff.mpr
    ⟨_, skipMinute?_eq_some_iff.mpr ⟨m, hm, rfl, endsDigits_cons rfl⟩, ?_⟩
  cases hs with
  | whole hs hsecond =>
    refine Option.bind_eq_some_iff.mpr
      ⟨_, readDigits?_eq_some_iff.mpr ⟨_, hs, rfl, hdigits⟩, ?_⟩
    refine Option.bind_eq_some_iff.mpr ⟨(), (Option.guard_eq_some' _).mpr hsecond, ?_⟩
    split
    · exact absurd rfl hpoint
    · rfl
  | @fraction s f second hs hsecond hne hf =>
    rw [List.append_assoc, List.cons_append]
    refine Option.bind_eq_some_iff.mpr
      ⟨_, readDigits?_eq_some_iff.mpr ⟨_, hs, rfl, endsDigits_cons rfl⟩, ?_⟩
    refine Option.bind_eq_some_iff.mpr ⟨(), (Option.guard_eq_some' _).mpr hsecond, ?_⟩
    have hhead : (f ++ rest).head?.any Char.isDigit = true := by
      obtain ⟨c, f, rfl⟩ := List.exists_cons_of_ne_nil hne
      exact hf c List.mem_cons_self
    refine Option.bind_eq_some_iff.mpr ⟨(), (Option.guard_eq_some' _).mpr hhead, ?_⟩
    exact congrArg some (dropWhile_append_of_head hf hdigits)

theorem of_skipTime? (h : skipTime? t = some rest) :
    ∃ u, IsTime u ∧ t = u ++ rest ∧ EndsDigits rest := by
  obtain ⟨t₁, hminute, hafter⟩ := Option.bind_eq_some_iff.mp h
  obtain ⟨m, hm, rfl, hrest⟩ := skipMinute?_eq_some_iff.mp hminute
  split at hafter
  · obtain ⟨⟨second, t₂⟩, hread, hseconds⟩ := Option.bind_eq_some_iff.mp hafter
    obtain ⟨_, hguard, hfraction⟩ := Option.bind_eq_some_iff.mp hseconds
    obtain ⟨s, hs, rfl, hends⟩ := readDigits?_eq_some_iff.mp hread
    have hsecond := (Option.guard_eq_some' _).mp hguard
    split at hfraction
    · rename_i f
      obtain ⟨_, hguard, hend⟩ := Option.bind_eq_some_iff.mp hfraction
      cases hend
      obtain ⟨hsplit, hf⟩ := eq_takeWhile_append Char.isDigit f
      have hne : f.takeWhile Char.isDigit ≠ [] := by
        obtain ⟨c, hc, hdigit⟩ := (Option.any_eq_true ..).mp ((Option.guard_eq_some' _).mp hguard)
        obtain ⟨f, rfl⟩ := List.head?_eq_some_iff.mp hc
        simp [hdigit]
      refine ⟨_, .second hm (.fraction hs hsecond hne hf), ?_,
        head?_dropWhile_eq_false Char.isDigit f⟩
      simp
    · cases hfraction
      exact ⟨_, .second hm (.whole hs hsecond), by simp, hends⟩
  · cases hafter
    exact ⟨m, .minute hm, rfl, hrest⟩

theorem skipTime?_append {u : Text} (hu : IsTime u) (hrest : EndsTime rest) :
    skipTime? (u ++ rest) = some rest := by
  cases hu with
  | minute hm => exact skipTime?_minute hm hrest
  | second hm hs => exact skipTime?_second hm hs hrest

theorem endsTime_nil : EndsTime [] := by
  simp [EndsTime, EndsDigits]

theorem skipMinute?_eq_nil_iff : skipMinute? t = some [] ↔ IsMinute t := by
  rw [skipMinute?_eq_some_iff]
  simp [EndsDigits]

theorem skipTime?_eq_nil_iff : skipTime? t = some [] ↔ IsTime t := by
  constructor
  · intro h
    obtain ⟨u, hu, rfl, _⟩ := of_skipTime? h
    rwa [List.append_nil]
  · intro h
    have hskip := skipTime?_append h endsTime_nil
    rwa [List.append_nil] at hskip

theorem isOffset_iff : isOffset t = true ↔ t = [] ∨ IsOffset t := by
  cases t with
  | nil => simp [isOffset]
  | cons c t =>
    rw [isOffset]
    constructor
    · intro h
      split at h
      · rename_i hc
        obtain rfl : t = [] := by simpa using h
        exact .inr (.universal hc)
      · simp only [Bool.and_eq_true, Bool.or_eq_true, beq_iff_eq] at h
        exact .inr (.minute h.1 (skipMinute?_eq_nil_iff.mp h.2))
    · intro h
      rcases h with h | h
      · contradiction
      · cases h with
        | universal hc => rw [if_pos hc, List.isEmpty_nil]
        | minute hc hm =>
          have hnot : ¬ (c = 'Z' ∨ c = 'z') := by
            rcases hc with rfl | rfl <;> decide
          rw [if_neg hnot, skipMinute?_eq_nil_iff.mpr hm]
          simpa using hc

theorem IsOffset.endsTime (h : IsOffset t) : EndsTime t := by
  cases h with
  | universal hc =>
    rcases hc with rfl | rfl <;> exact ⟨endsDigits_cons rfl, by simp, by simp⟩
  | minute hc _ =>
    rcases hc with rfl | rfl <;> exact ⟨endsDigits_cons rfl, by simp, by simp⟩

/-- A time begins with an hour, which is shorter than a year. -/
theorem IsTime.skipDate?_eq_none (h : IsTime t) : skipDate? t = none := by
  obtain ⟨hour, u, n, hhour, rfl⟩ : ∃ hour u n, IsNumeral 2 hour n ∧ t = hour ++ ':' :: u := by
    cases h with
    | minute hm =>
      obtain ⟨hh, _, _, _⟩ := hm
      exact ⟨_, _, _, hh, rfl⟩
    | second hm _ =>
      obtain ⟨hh, _, _, _⟩ := hm
      exact ⟨_, _, _, hh, by rw [List.append_assoc, List.cons_append]⟩
  have hyear : readDigits? 4 (hour ++ ':' :: u) = none := by
    unfold readDigits?
    simp only
    rw [takeWhile_append_of_head hhour.digits (endsDigits_cons rfl), hhour.length]
    rfl
  rw [skipDate?, hyear]
  rfl

theorem isSeparator_iff : isSeparator c = true ↔ c ∈ ['T', 't', ' '] := by
  simp [isSeparator, or_assoc]

theorem skipDate?_separator (ha : IsDate a) (hc : c ∈ ['T', 't', ' ']) :
    skipDate? (a ++ c :: b) = some (c :: b) := by
  refine skipDate?_eq_some_iff.mpr ⟨a, ha, rfl, endsDigits_cons ?_⟩
  simp only [List.mem_cons, List.not_mem_nil, or_false] at hc
  rcases hc with rfl | rfl | rfl <;> rfl

theorem isMoment_iff : isMoment t = true ↔ IsMoment t := by
  constructor
  · intro h
    unfold isMoment at h
    split at h
    · exact .time (skipTime?_eq_nil_iff.mp (beq_iff_eq.mp h))
    · rename_i hskip
      obtain ⟨d, hd, rfl, _⟩ := skipDate?_eq_some_iff.mp hskip
      rw [List.append_nil]
      exact .date hd
    · rename_i c u hskip
      obtain ⟨d, hd, rfl, _⟩ := skipDate?_eq_some_iff.mp hskip
      obtain ⟨hc, h⟩ := Bool.and_eq_true_iff.mp h
      obtain ⟨rest, hrest, hoffset⟩ := (Option.any_eq_true ..).mp h
      obtain ⟨time, htime, rfl, _⟩ := of_skipTime? hrest
      rcases isOffset_iff.mp hoffset with rfl | hoffset
      · rw [List.append_nil]
        exact .both hd (isSeparator_iff.mp hc) htime
      · exact .offset hd (isSeparator_iff.mp hc) htime hoffset
  · intro h
    unfold isMoment
    cases h with
    | date hd =>
      have hskip : skipDate? t = some [] :=
        skipDate?_eq_some_iff.mpr ⟨t, hd, by simp, by simp [EndsDigits]⟩
      rw [hskip]
    | time ht =>
      rw [ht.skipDate?_eq_none]
      exact beq_iff_eq.mpr (skipTime?_eq_nil_iff.mpr ht)
    | both hd hc ht =>
      rw [skipDate?_separator hd hc]
      simp only
      rw [skipTime?_eq_nil_iff.mpr ht, isSeparator_iff.mpr hc]
      rfl
    | offset hd hc ht ho =>
      rw [skipDate?_separator hd hc]
      simp only
      rw [skipTime?_append ht ho.endsTime, isSeparator_iff.mpr hc]
      exact isOffset_iff.mpr (.inr ho)

end ImportMigration.Toml.Moment
