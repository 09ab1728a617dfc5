import LogQuery.Calendar.Date
import Mathlib.Data.Int.Order.Basic
import Mathlib.Tactic.IntervalCases
import Mathlib.Tactic.SplitIfs

/-!
# The calendar by its rules

Months have their lengths, every fourth year is a leap year, and of those that end a century only every
fourth one is. Days are counted from 1 January 1970, going on from each date to the next one and back
(`IsDay`).

The date that is computed for a day is the one that is reached by counting (`isDay_iff`), and later days
have later dates (`before_ofDays_iff`).
-/

namespace LogQuery.Date

/-! ## The rules -/

/-- The year has a 29 February. -/
def IsLeapYear (y : Int) : Prop := y % 4 = 0 ∧ (y % 100 ≠ 0 ∨ y % 400 = 0)

instance : DecidablePred IsLeapYear := fun _ => inferInstanceAs (Decidable (_ ∧ _))

def monthLength (y : Int) (m : Nat) : Nat :=
  if m = 2 then if IsLeapYear y then 29 else 28
  else if m = 4 ∨ m = 6 ∨ m = 9 ∨ m = 11 then 30
  else 31

/-- A date that the calendar has. -/
structure Valid (d : Date) : Prop where
  month_pos : 1 ≤ d.month
  month_le : d.month ≤ 12
  day_pos : 1 ≤ d.day
  day_le : d.day ≤ monthLength d.year d.month

/-- The date of the day after. -/
def next (d : Date) : Date :=
  if d.day < monthLength d.year d.month then ⟨d.year, d.month, d.day + 1⟩
  else if d.month < 12 then ⟨d.year, d.month + 1, 1⟩
  else ⟨d.year + 1, 1, 1⟩

/-- The date is that of the day with this number, counted from 1 January 1970. -/
inductive IsDay : Date → Int → Prop
  | epoch : IsDay ⟨1970, 1, 1⟩ 0
  | later {d : Date} {n : Int} : IsDay d n → IsDay d.next (n + 1)
  | earlier {d : Date} {n : Int} : d.Valid → IsDay d.next (n + 1) → IsDay d n

/-- In a later year, or in the same year in a later month, or in the same month on a later day. -/
def Before (d e : Date) : Prop :=
  d.year < e.year ∨ d.year = e.year ∧ (d.month < e.month ∨ d.month = e.month ∧ d.day < e.day)

theorem valid_iff {y : Int} {m k : Nat} :
    Valid ⟨y, m, k⟩ ↔ 1 ≤ m ∧ m ≤ 12 ∧ 1 ≤ k ∧ k ≤ monthLength y m := by
  constructor
  · intro h
    exact ⟨h.month_pos, h.month_le, h.day_pos, h.day_le⟩
  · rintro ⟨hm, hm', hk, hk'⟩
    exact ⟨hm, hm', hk, hk'⟩

theorem Valid.day_lt {d : Date} (h : d.Valid) : d.day < 100 := by
  have hday := h.day_le
  unfold monthLength at hday
  split_ifs at hday <;> omega

/-! ## Years that start in March -/

/-- The days from 1 March of the year 0 to 1 March of a year. -/
def daysBeforeMarch (y : Int) : Int := y / 400 * eraDays + daysBeforeYear (y % 400)

theorem daysBeforeMarch_eq (y : Int) : daysBeforeMarch y = 365 * y + y / 4 - y / 100 + y / 400 := by
  unfold daysBeforeMarch daysBeforeYear eraDays
  omega

theorem daysBeforeMarch_of_leap {y : Int} (h : IsLeapYear y) :
    daysBeforeMarch y = daysBeforeMarch (y - 1) + 366 := by
  obtain ⟨h4, h100⟩ := h
  rw [daysBeforeMarch_eq, daysBeforeMarch_eq]
  omega

theorem daysBeforeMarch_of_not_leap {y : Int} (h : ¬ IsLeapYear y) :
    daysBeforeMarch y = daysBeforeMarch (y - 1) + 365 := by
  unfold IsLeapYear at h
  rw [daysBeforeMarch_eq, daysBeforeMarch_eq]
  omega

/-! ## The year of an era -/

section
variable {c q r d : Int}

/-- The centuries that were complete, of four in an era. The last day of an era, if it is a leap day, would
be in a fifth. -/
theorem centuries_eq (hc : 0 ≤ c) (hc' : c < 4) {s : Int} (hs : 0 ≤ s) (hs' : s < 36524 ∨ s = 36524 ∧ c = 3) :
    (36524 * c + s) / 36524 - (36524 * c + s) / 146096 = c := by
  rcases hs' with hs' | ⟨rfl, rfl⟩
  · have h1 : (36524 * c + s) / 36524 = c := by omega
    have h2 : (36524 * c + s) / 146096 = 0 := by omega
    omega
  · rfl

/-- The leap days of an era, but for those that centuries lack, counted up to a day of it: at most one too
many, and that only where the year has begun. -/
theorem leapDays_eq (hc : 0 ≤ c) (hc' : c < 4) (hq : 0 ≤ q) (hq' : q < 25) (hr : 0 ≤ r) (hr' : r < 4)
    (hd : 0 ≤ d) (hd' : d < 365 ∨ d = 365 ∧ r = 3) :
    ∃ t, (36524 * c + (1461 * q + 365 * r + d)) / 1460 = 25 * c + q + t ∧ 0 ≤ d - t ∧ d - t < 365 := by
  have h : (36524 * c + (1461 * q + 365 * r + d)) / 1460 = 25 * c + q + (24 * c + q + 365 * r + d) / 1460 := by
    omega
  refine ⟨_, h, ?_, ?_⟩
  · omega
  · omega

end

/-- The day of a year, counted from March, is in that year. -/
theorem yearOfEra_eq {y d : Int} (hy : 0 ≤ y) (hy' : y < 400) (hd : 0 ≤ d)
    (hd' : d < 365 ∨ d = 365 ∧ IsLeapYear (y + 1)) : yearOfEra (daysBeforeYear y + d) = y := by
  -- Centuries, then the four years between leap days, then years.
  obtain ⟨c, q, r, rfl, hc, hc', hq, hq', hr, hr'⟩ : ∃ c q r : Int, y = 100 * c + 4 * q + r ∧
      0 ≤ c ∧ c < 4 ∧ 0 ≤ q ∧ q < 25 ∧ 0 ≤ r ∧ r < 4 :=
    ⟨y / 100, y % 100 / 4, y % 4, by omega, by omega, by omega, by omega, by omega, by omega, by omega⟩
  have hleap : d < 365 ∨ d = 365 ∧ r = 3 ∧ (q < 24 ∨ c = 3) := by
    refine hd'.imp_right fun ⟨hd, h4, h100⟩ => ⟨hd, ?_, ?_⟩
    · omega
    · omega
  have hday : daysBeforeYear (100 * c + 4 * q + r) + d = 36524 * c + (1461 * q + 365 * r + d) := by
    unfold daysBeforeYear
    omega
  have hcenturies := centuries_eq hc hc' (s := 1461 * q + 365 * r + d) (by omega) (by omega)
  obtain ⟨t, hleaps, ht, ht'⟩ := leapDays_eq hc hc' hq hq' hr hr' hd (hleap.imp_right fun h => ⟨h.1, h.2.1⟩)
  rw [yearOfEra, hday]
  omega

/-! ## Days and dates -/

/-- The days from 1 March to the first day of a month, counted from March. -/
def daysBeforeMonth (m : Int) : Int := (153 * m + 2) / 5

/-- The date of a day that is given by its year and its month, both counted from March. -/
theorem ofDays_of_march {y m : Int} {k : Nat} (hm : 0 ≤ m) (hm' : m < 12) (hk : 1 ≤ k)
    (hmonth : daysBeforeMonth m + k ≤ daysBeforeMonth (m + 1))
    (hyear : daysBeforeMonth m + k ≤ 365 ∨ daysBeforeMonth m + k = 366 ∧ IsLeapYear (y + 1)) :
    ofDays (daysBeforeMarch y + daysBeforeMonth m + k - 1 - epochShift) =
      ⟨y + if 10 ≤ m then 1 else 0, (if 10 ≤ m then m - 9 else m + 3).toNat, k⟩ := by
  obtain ⟨era, x, rfl, hx, hx'⟩ : ∃ era x : Int, y = 400 * era + x ∧ 0 ≤ x ∧ x < 400 :=
    ⟨y / 400, y % 400, by omega, by omega, by omega⟩
  have hpos : 0 ≤ daysBeforeMonth m := by
    unfold daysBeforeMonth
    omega
  have hleap : daysBeforeMonth m + k - 1 < 365 ∨ daysBeforeMonth m + k - 1 = 365 ∧ IsLeapYear (x + 1) := by
    unfold IsLeapYear at hyear ⊢
    omega
  have hyoe := yearOfEra_eq hx hx' (by omega) hleap
  have hstart : 0 ≤ daysBeforeYear x + (daysBeforeMonth m + k - 1) ∧
      daysBeforeYear x + (daysBeforeMonth m + k - 1) < eraDays := by
    unfold IsLeapYear at hleap
    unfold daysBeforeYear eraDays
    omega
  have hshift : daysBeforeMarch (400 * era + x) + daysBeforeMonth m + k - 1 - epochShift + epochShift =
      daysBeforeYear x + (daysBeforeMonth m + k - 1) + eraDays * era := by
    have h1 : (400 * era + x) / 400 = era := by omega
    have h2 : (400 * era + x) % 400 = x := by omega
    rw [daysBeforeMarch, h1, h2, Int.mul_comm era]
    omega
  have hera : (daysBeforeYear x + (daysBeforeMonth m + k - 1) + eraDays * era) / eraDays = era := by
    unfold eraDays at hstart ⊢
    omega
  have hday : (daysBeforeYear x + (daysBeforeMonth m + k - 1) + eraDays * era) % eraDays =
      daysBeforeYear x + (daysBeforeMonth m + k - 1) := by
    unfold eraDays at hstart ⊢
    omega
  have hmonthOf : (5 * (daysBeforeMonth m + k - 1) + 2) / 153 = m := by
    unfold daysBeforeMonth at hmonth ⊢
    omega
  have hdoy : daysBeforeYear x + (daysBeforeMonth m + k - 1) - daysBeforeYear x = daysBeforeMonth m + k - 1 := by
    omega
  have hdayOf : (daysBeforeMonth m + k - 1 - (153 * m + 2) / 5 + 1).toNat = k := by
    unfold daysBeforeMonth
    omega
  simp only [ofDays, hshift, hera, hday, hyoe, hdoy, hmonthOf, hdayOf]
  congr 1
  omega

theorem toDays_of_early {y : Int} {m k : Nat} (h : m ≤ 2) : toDays ⟨y, m, k⟩ =
    daysBeforeMarch (y - 1) + daysBeforeMonth (m + 9) + k - 1 - epochShift := by
  simp only [toDays, if_pos h, daysBeforeMarch, daysBeforeMonth]

theorem toDays_of_late {y : Int} {m k : Nat} (h : 2 < m) : toDays ⟨y, m, k⟩ =
    daysBeforeMarch y + daysBeforeMonth (m - 3) + k - 1 - epochShift := by
  simp only [toDays, if_neg (Nat.not_le.2 h), daysBeforeMarch, daysBeforeMonth]

/-- From March on, months have the lengths that the days before them give. -/
theorem monthLength_of_late {y : Int} {m : Nat} (h : 2 < m) (h' : m ≤ 12) :
    daysBeforeMonth (m - 3) + monthLength y m = daysBeforeMonth (m - 3 + 1) := by
  interval_cases m <;> rfl

theorem monthLength_january (y : Int) : monthLength y 1 = 31 := rfl

theorem monthLength_february_of_leap {y : Int} (h : IsLeapYear y) : monthLength y 2 = 29 := if_pos h

theorem monthLength_february_of_not_leap {y : Int} (h : ¬ IsLeapYear y) : monthLength y 2 = 28 := if_neg h

/-- **A date is that of its day.** -/
theorem ofDays_toDays {d : Date} (h : d.Valid) : ofDays d.toDays = d := by
  obtain ⟨y, m, k⟩ := d
  obtain ⟨hmonth, hmonth', hday, hday'⟩ := h
  simp only at hmonth hmonth' hday hday'
  by_cases hearly : m ≤ 2
  · have hlength : daysBeforeMonth (m + 9) + k ≤ daysBeforeMonth (m + 9 + 1) ∧
        (daysBeforeMonth (m + 9) + k ≤ 365 ∨
          daysBeforeMonth (m + 9) + k = 366 ∧ IsLeapYear (y - 1 + 1)) := by
      rw [Int.sub_add_cancel]
      unfold daysBeforeMonth
      obtain rfl | rfl : m = 1 ∨ m = 2 := by omega
      · rw [monthLength_january] at hday'
        omega
      · by_cases hleap : IsLeapYear y
        · rw [monthLength_february_of_leap hleap] at hday'
          simp only [hleap, and_true]
          omega
        · rw [monthLength_february_of_not_leap hleap] at hday'
          omega
    rw [toDays_of_early hearly, ofDays_of_march (by omega) (by omega) hday hlength.1 hlength.2,
      if_pos (by omega), if_pos (by omega)]
    congr 1 <;> omega
  · have hlength := monthLength_of_late (y := y) (Nat.not_le.1 hearly) hmonth'
    have hlast : daysBeforeMonth ((m : Int) - 3 + 1) ≤ 306 := by
      unfold daysBeforeMonth
      omega
    rw [toDays_of_late (Nat.not_le.1 hearly), ofDays_of_march (by omega) (by omega) hday (by omega) (by omega),
      if_neg (by omega), if_neg (by omega)]
    congr 1 <;> omega

/-! ## The day after -/

/-- The day after is in the same month, or the first of the next one, or of the next year. -/
theorem next_cases {y : Int} {m k : Nat} (h : Valid ⟨y, m, k⟩) :
    (k < monthLength y m ∧ next ⟨y, m, k⟩ = ⟨y, m, k + 1⟩) ∨
    (k = monthLength y m ∧ m < 12 ∧ next ⟨y, m, k⟩ = ⟨y, m + 1, 1⟩) ∨
    (k = 31 ∧ m = 12 ∧ next ⟨y, m, k⟩ = ⟨y + 1, 1, 1⟩) := by
  obtain ⟨-, hmonth, -, hday⟩ := h
  simp only at hmonth hday
  unfold next
  split_ifs with hlast hdecember
  · exact .inl ⟨hlast, rfl⟩
  · exact .inr (.inl ⟨by simp only at hlast; omega, hdecember, rfl⟩)
  · obtain rfl : m = 12 := by simp only at hdecember; omega
    have hlength : monthLength y 12 = 31 := rfl
    exact .inr (.inr ⟨by simp only at hlast; omega, rfl, rfl⟩)

theorem monthLength_pos (y : Int) (m : Nat) : 0 < monthLength y m := by
  unfold monthLength
  split_ifs <;> decide

theorem valid_next {d : Date} (h : d.Valid) : d.next.Valid := by
  obtain ⟨y, m, k⟩ := d
  obtain ⟨hk, hnext⟩ | ⟨hk, hm, hnext⟩ | ⟨hk, hm, hnext⟩ := next_cases h
  · rw [hnext]
    exact ⟨h.month_pos, h.month_le, Nat.le_add_left 1 k, hk⟩
  · rw [hnext]
    exact ⟨Nat.le_add_left 1 m, hm, Nat.le_refl 1, monthLength_pos y (m + 1)⟩
  · rw [hnext]
    exact valid_iff.2 ⟨by decide, by decide, by decide, monthLength_pos (y + 1) 1⟩

/-- The date of the day after is counted one day more. -/
theorem toDays_next {d : Date} (h : d.Valid) : d.next.toDays = d.toDays + 1 := by
  obtain ⟨y, m, k⟩ := d
  obtain ⟨-, hnext⟩ | ⟨rfl, hm', hnext⟩ | ⟨rfl, rfl, hnext⟩ := next_cases h
  · rw [hnext]
    rcases Nat.lt_or_ge 2 m with hm | hm
    · rw [toDays_of_late hm, toDays_of_late hm]
      omega
    · rw [toDays_of_early hm, toDays_of_early hm]
      omega
  · rw [hnext]
    obtain rfl | rfl | hm : m = 1 ∨ m = 2 ∨ 2 < m := by
      have hmonth : 1 ≤ m := h.month_pos
      omega
    · rw [toDays_of_early (by decide), toDays_of_early (by decide), monthLength_january]
      unfold daysBeforeMonth
      omega
    · -- With March another of the years begins that are counted here.
      rw [toDays_of_late (by decide), toDays_of_early (by decide)]
      unfold daysBeforeMonth
      by_cases hleap : IsLeapYear y
      · rw [monthLength_february_of_leap hleap, daysBeforeMarch_of_leap hleap]
        omega
      · rw [monthLength_february_of_not_leap hleap, daysBeforeMarch_of_not_leap hleap]
        omega
    · have hlength := monthLength_of_late (y := y) hm (Nat.le_of_lt hm')
      have hstep : ((m + 1 : Nat) : Int) - 3 = m - 3 + 1 := by omega
      rw [toDays_of_late hm, toDays_of_late (Nat.lt_succ_of_lt hm), hstep]
      omega
  · rw [hnext, toDays_of_early (by decide), toDays_of_late (by decide), Int.add_sub_cancel]
    unfold daysBeforeMonth
    omega

/-- There is a date of the day before. -/
theorem exists_next_eq {d : Date} (h : d.Valid) : ∃ b : Date, b.Valid ∧ b.next = d := by
  obtain ⟨y, m, k⟩ := d
  obtain ⟨hmonth, hmonth', hday, hday'⟩ := h
  simp only at hmonth hmonth' hday hday'
  by_cases hk : k = 1
  · subst hk
    by_cases hm : m = 1
    · subst hm
      exact ⟨⟨y - 1, 12, 31⟩, valid_iff.2 ⟨by decide, by decide, by decide, Nat.le_refl 31⟩,
        by simp [next, monthLength]⟩
    · refine ⟨⟨y, m - 1, monthLength y (m - 1)⟩, ⟨?_, ?_, monthLength_pos y _, Nat.le_refl _⟩, ?_⟩
      · simp only
        omega
      · simp only
        omega
      · simp only [next, Nat.lt_irrefl, if_false]
        rw [if_pos (by omega)]
        congr 1
        omega
  · refine ⟨⟨y, m, k - 1⟩, ⟨hmonth, hmonth', ?_, ?_⟩, ?_⟩
    · simp only
      omega
    · simp only
      omega
    · simp only [next]
      rw [if_pos (by omega)]
      congr 1
      omega

/-! ## Counting -/

/-- Each day has a date, and its number is counted from there. -/
theorem exists_toDays_eq (n : Int) : ∃ d : Date, d.Valid ∧ d.toDays = n := by
  induction n using Int.induction_on with
  | zero => exact ⟨⟨1970, 1, 1⟩, valid_iff.2 (by decide), by decide⟩
  | succ n ih =>
    obtain ⟨d, hd, hn⟩ := ih
    exact ⟨d.next, valid_next hd, by rw [toDays_next hd, hn]⟩
  | pred n ih =>
    obtain ⟨d, hd, hn⟩ := ih
    obtain ⟨b, hb, rfl⟩ := exists_next_eq hd
    rw [toDays_next hb] at hn
    exact ⟨b, hb, by omega⟩

theorem valid_ofDays (n : Int) : (ofDays n).Valid := by
  obtain ⟨d, hd, rfl⟩ := exists_toDays_eq n
  rwa [ofDays_toDays hd]

theorem toDays_ofDays (n : Int) : (ofDays n).toDays = n := by
  obtain ⟨d, hd, rfl⟩ := exists_toDays_eq n
  rw [ofDays_toDays hd]

theorem ofDays_injective : Function.Injective ofDays := Function.LeftInverse.injective toDays_ofDays

theorem ofDays_succ (n : Int) : ofDays (n + 1) = (ofDays n).next := by
  have h := valid_ofDays n
  rw [← ofDays_toDays (valid_next h), toDays_next h, toDays_ofDays]

/-- **The date of a day** is the one that is reached by counting. -/
theorem isDay_iff {d : Date} {n : Int} : d.IsDay n ↔ d = ofDays n := by
  constructor
  · intro h
    induction h with
    | epoch => decide
    | later _ ih => rw [ofDays_succ, ← ih]
    | @earlier d n hd _ ih =>
      -- Dates are not stepped back, so the two are compared by their numbers.
      have hn := congrArg toDays ih
      rw [toDays_next hd, toDays_ofDays] at hn
      have hday : d.toDays = n := by omega
      rw [← ofDays_toDays hd, hday]
  · rintro rfl
    induction n using Int.induction_on with
    | zero => exact .epoch
    | succ n ih =>
      rw [ofDays_succ]
      exact .later ih
    | pred n ih =>
      refine .earlier (valid_ofDays _) ?_
      rw [← ofDays_succ, Int.sub_add_cancel]
      exact ih

/-! ## The order of dates -/

theorem Before.trans {a b c : Date} (h : a.Before b) (h' : b.Before c) : a.Before c := by
  unfold Before at *
  omega

theorem Before.asymm {a b : Date} (h : a.Before b) : ¬ b.Before a := by
  unfold Before at *
  omega

theorem before_next {d : Date} (h : d.Valid) : d.Before d.next := by
  obtain ⟨y, m, k⟩ := d
  obtain ⟨-, hnext⟩ | ⟨-, -, hnext⟩ | ⟨-, -, hnext⟩ := next_cases h
  · rw [hnext]
    exact .inr ⟨rfl, .inr ⟨rfl, Nat.lt_succ_self k⟩⟩
  · rw [hnext]
    exact .inr ⟨rfl, .inl (Nat.lt_succ_self m)⟩
  · rw [hnext]
    exact .inl (Int.lt_succ y)

theorem before_ofDays_add (n : Int) (k : Nat) : (ofDays n).Before (ofDays (n + k + 1)) := by
  induction k with
  | zero =>
    rw [Nat.cast_zero, Int.add_zero, ofDays_succ]
    exact before_next (valid_ofDays n)
  | succ k ih =>
    rw [Nat.cast_succ, ← Int.add_assoc, ofDays_succ (n + k + 1)]
    exact ih.trans (before_next (valid_ofDays _))

theorem before_ofDays_of_lt {m n : Int} (h : m < n) : (ofDays m).Before (ofDays n) := by
  have hsum : n = m + (n - m - 1).toNat + 1 := by omega
  rw [hsum]
  exact before_ofDays_add m _

/-- **Later days have later dates**, and no others have. -/
theorem before_ofDays_iff {m n : Int} : (ofDays m).Before (ofDays n) ↔ m < n := by
  refine ⟨fun h => ?_, before_ofDays_of_lt⟩
  rcases Int.lt_trichotomy m n with hlt | rfl | hgt
  · exact hlt
  · exact absurd h h.asymm
  · exact absurd (before_ofDays_of_lt hgt) h.asymm

/-- A year has begun just if its first day has. -/
theorem le_year_ofDays_iff {y n : Int} : y ≤ (ofDays n).year ↔ toDays ⟨y, 1, 1⟩ ≤ n := by
  have hfirst : Valid ⟨y, 1, 1⟩ := valid_iff.2 ⟨by decide, by decide, by decide, monthLength_pos y 1⟩
  have hbefore : (ofDays n).Before ⟨y, 1, 1⟩ ↔ (ofDays n).year < y := by
    have hmonth := (valid_ofDays n).month_pos
    have hday := (valid_ofDays n).day_pos
    simp only [Before]
    omega
  rw [← ofDays_toDays hfirst, before_ofDays_iff] at hbefore
  omega

end LogQuery.Date
