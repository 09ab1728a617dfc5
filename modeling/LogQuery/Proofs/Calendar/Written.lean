import LogQuery.Calendar.Format
import LogQuery.Text.Cut
import LogQuery.Proofs.Calendar.Gregorian
import LogQuery.Proofs.Text.Places

/-!
# Dates and times of day as text

What is written for the parts of a date and of a time of day is read again as the numbers that it was written
for. A year outside of 0 to 9999 has a sign and as many places as it needs (`readInt?_yearChars`).

A moment is read from its text part by part from the end, since each part but the year has places of its own
behind a mark. What is read of the text of an instant stands for the milliseconds of the instant and for no
others (`read?_lineText`, `isAt_moment_iff`).
-/

namespace LogQuery

open LogQuery.Text

namespace Padding

/-! ## Parts of two places -/

theorem readPlaces?_twoPlaces {n : ℕ} (h : n < 100) : readPlaces? 2 (zeros.twoPlaces n) = some n := by
  have hall : ∀ n < 100, readPlaces? 2 (zeros.twoPlaces n) = some n := by decide +kernel
  exact hall n h

/-! ## Years -/

theorem yearChars_of_fourPlaces {y : Int} (h : 0 ≤ y) (h' : y < 10000) :
    zeros.yearChars y = padLeft '0' 4 (natChars y.natAbs) := by
  rw [yearChars, if_pos ⟨h, h'⟩]
  rfl

theorem yearChars_of_neg {y : Int} (h : y < 0) :
    zeros.yearChars y = '-' :: padLeft '0' 4 (natChars y.natAbs) := by
  rw [yearChars, if_neg (by omega), if_pos h]
  rfl

theorem yearChars_of_late {y : Int} (h : 10000 ≤ y) :
    zeros.yearChars y = '+' :: padLeft '0' 4 (natChars y.natAbs) := by
  rw [yearChars, if_neg (by omega), if_neg (by omega)]
  rfl

theorem readPlaces?_yearChars {y : Int} (h : 0 ≤ y) (h' : y < 10000) :
    readPlaces? 4 (zeros.yearChars y) = some y.natAbs := by
  rw [yearChars_of_fourPlaces h h']
  exact readPlaces?_padLeft (by decide) (by omega)

theorem digitsOnly_padLeft (w n : ℕ) : digitsOnly (padLeft '0' w (natChars n)) = true := by
  have hne : padLeft '0' w (natChars n) ≠ [] := List.append_ne_nil_of_right_ne_nil _ Nat.toDigits_ne_nil
  rw [digitsOnly, all_isDigit_padLeft (all_isDigit_natChars n), Bool.and_true, Bool.not_eq_true']
  exact List.isEmpty_eq_false_iff.2 hne

theorem digitString_padLeft (w n : ℕ) : DigitString (padLeft '0' w (natChars n)) n := by
  refine digitString_iff.2 ⟨digitsOnly_padLeft w n, ?_⟩
  rw [ofDigitChars_padLeft, ofDigitChars_natChars]

/-- A text without a minus sign is read as a number without one. -/
theorem readInt?_of_readNat? {cs : List Char} {n : ℕ} (h : readNat? cs = some n) : readInt? cs = some (n : Int) := by
  unfold readInt?
  split
  · next ds =>
    obtain hplain | _ := readNat?_eq_some_iff.1 h
    have hdigits := (digitString_iff.1 hplain).1
    simp [digitsOnly] at hdigits
  · rw [h]
    rfl

/-- **A year is read** from its text, whatever its sign and the number of its places. -/
theorem readInt?_yearChars (y : Int) : readInt? (zeros.yearChars y) = some y := by
  obtain h | h | h : y < 0 ∨ (0 ≤ y ∧ y < 10000) ∨ 10000 ≤ y := by omega
  · have hvalue : -(y.natAbs : Int) = y := by omega
    rw [yearChars_of_neg h, readInt?, if_pos (digitsOnly_padLeft 4 y.natAbs), ofDigitChars_padLeft,
      ofDigitChars_natChars, hvalue]
  · have hvalue : (y.natAbs : Int) = y := by omega
    have hplain : readNat? (padLeft '0' 4 (natChars y.natAbs)) = some y.natAbs := by
      rw [readNat?_eq_some_iff]
      exact .plain (digitString_padLeft 4 y.natAbs)
    rw [yearChars_of_fourPlaces h.1 h.2, readInt?_of_readNat? hplain, hvalue]
  · have hvalue : (y.natAbs : Int) = y := by omega
    have hplus : readNat? ('+' :: padLeft '0' 4 (natChars y.natAbs)) = some y.natAbs := by
      rw [readNat?_eq_some_iff]
      exact .signed (digitString_padLeft 4 y.natAbs)
    rw [yearChars_of_late h, readInt?_of_readNat? hplus, hvalue]

end Padding

/-! ## Moments -/

/-- A date and a time of day. -/
structure Moment where
  date : Date
  hour : ℕ
  minute : ℕ
  second : ℕ
  milli : ℕ

namespace Moment

/-- The moment is so many milliseconds after the start of 1970. -/
def IsAt (m : Moment) (ms : Int) : Prop :=
  ∃ day, m.date.IsDay day ∧ m.hour < 24 ∧ m.minute < 60 ∧ m.second < 60 ∧ m.milli < 1000 ∧
    ms = (((day * 24 + m.hour) * 60 + m.minute) * 60 + m.second) * 1000 + m.milli

/-- What stands before the last mark, and the number in so many places behind it. -/
def behind? (mark : Char) (width : ℕ) (cs : List Char) : Option (List Char × ℕ) := do
  let (part, front) ← cut? mark cs.reverse
  let n ← readPlaces? width part.reverse
  some (front.reverse, n)

/-- A date with dashes and a time of day with colons and a point, read from the end. -/
def read? (cs : List Char) : Option Moment := do
  let (cs, milli) ← behind? '.' 3 cs
  let (cs, second) ← behind? ':' 2 cs
  let (cs, minute) ← behind? ':' 2 cs
  let (cs, hour) ← behind? ' ' 2 cs
  let (cs, day) ← behind? '-' 2 cs
  let (cs, month) ← behind? '-' 2 cs
  let year ← readInt? cs
  some ⟨⟨year, month, day⟩, hour, minute, second, milli⟩

theorem behind?_append (mark : Char) (hmark : mark.isDigit = false) {w n : ℕ} {part : List Char}
    (h : readPlaces? w part = some n) (before : List Char) :
    behind? mark w (before ++ mark :: part) = some (before, n) := by
  have hnot : mark ∉ part.reverse := by
    intro hmem
    have hdigits := List.all_eq_true.1 (readPlaces?_eq_some_iff.1 h).2.1
    rw [hdigits mark (List.mem_reverse.1 hmem)] at hmark
    cases hmark
  have hreverse : (before ++ mark :: part).reverse = part.reverse ++ mark :: before.reverse := by simp
  rw [behind?, hreverse, cut?_append before.reverse hnot]
  simp [h]

end Moment

namespace Instant

theorem valid_date (t : Instant) : t.date.Valid := Date.valid_ofDays t.days

/-- What a calendar and a clock show at an instant. -/
def moment (t : Instant) : Moment := ⟨t.date, t.hour, t.minute, t.second, t.milli⟩

theorem readPlaces?_fractionChars (t : Instant) : readPlaces? 3 (t.fractionChars 3) = some t.milli := by
  have hplaces := readPlaces?_padLeft (w := 9) (by decide) t.nanosecond_lt
  have hmilli : t.nanosecond / 10 ^ (9 - 3) = t.milli := by
    have hnanos := t.nanos.isLt
    unfold nanosecond
    omega
  rw [fractionChars, readPlaces?_take hplaces (by decide), hmilli]

/-- **The text of an instant** is read as what calendar and clock show. -/
theorem read?_lineText (t : Instant) : Moment.read? t.lineText.toList = some t.moment := by
  have hmonth : t.date.month < 100 := Nat.lt_of_le_of_lt t.valid_date.month_le (by decide)
  have hhour : t.hour < 100 := Nat.lt_trans t.hour_lt (by decide)
  have hminute : t.minute < 100 := Nat.lt_trans t.minute_lt (by decide)
  have hsecond : t.second < 100 := Nat.lt_trans t.second_lt (by decide)
  rw [lineText, String.toList_ofList, dateTimeChars, Moment.read?]
  simp only [Option.bind_eq_bind, Option.bind_some, Padding.readInt?_yearChars,
    Moment.behind?_append '.' rfl t.readPlaces?_fractionChars,
    Moment.behind?_append ':' rfl (Padding.readPlaces?_twoPlaces hsecond),
    Moment.behind?_append ':' rfl (Padding.readPlaces?_twoPlaces hminute),
    Moment.behind?_append ' ' rfl (Padding.readPlaces?_twoPlaces hhour),
    Moment.behind?_append '-' rfl (Padding.readPlaces?_twoPlaces t.valid_date.day_lt),
    Moment.behind?_append '-' rfl (Padding.readPlaces?_twoPlaces hmonth)]
  rfl

/-- What calendar and clock show stands for the milliseconds of the instant. -/
theorem isAt_moment_iff (t : Instant) (ms : Int) : t.moment.IsAt ms ↔ ms = t.millis := by
  have hclock : (((t.days * 24 + t.hour) * 60 + t.minute) * 60 + t.second) * 1000 + t.milli = t.millis := by
    unfold days hour minute second milli millisOfDay millisPerDay
    omega
  constructor
  · rintro ⟨day, hday, -, -, -, -, rfl⟩
    obtain rfl : t.days = day := Date.ofDays_injective (Date.isDay_iff.1 hday)
    exact hclock
  · rintro rfl
    exact ⟨t.days, Date.isDay_iff.2 rfl, t.hour_lt, t.minute_lt, t.second_lt, t.milli_lt, hclock.symm⟩

end Instant

end LogQuery
