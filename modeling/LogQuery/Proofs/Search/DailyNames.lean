import LogQuery.Proofs.Calendar.Written
import LogQuery.Proofs.Search.IndexNames

/-!
# Names of daily indices

The pattern that settings start from writes year, month and day with nothing between them. The year is what
stands before the last four places, so that the date can be told from the text even where a year has a sign
or more than four places (`Date.digits_inj`).

Indices of one lead and one base therefore share a name just if they were computed on one day, and in the years of
four places their names are in the order of the days (`daily_name_eq_iff`).
-/

namespace LogQuery

open LogQuery.Text

/-! ## Dates without separators -/

namespace Date

/-- Year, month and day with nothing between them. -/
def digits (d : Date) : List Char :=
  Padding.zeros.yearChars d.year ++ (Padding.zeros.twoPlaces d.month ++ Padding.zeros.twoPlaces d.day)

variable {d e : Date}

theorem readPlaces?_monthDay (h : d.Valid) :
    readPlaces? 4 (Padding.zeros.twoPlaces d.month ++ Padding.zeros.twoPlaces d.day) =
      some (d.month * 100 + d.day) := by
  have hmonth := h.month_le
  exact readPlaces?_append (Padding.readPlaces?_twoPlaces (by omega)) (Padding.readPlaces?_twoPlaces h.day_lt)

/-- **A date is determined** by its text. -/
theorem digits_inj (hd : d.Valid) (he : e.Valid) : d.digits = e.digits ↔ d = e := by
  refine ⟨fun h => ?_, congrArg digits⟩
  -- The last four places have the month and the day, whatever the year takes.
  have hrest := readPlaces?_monthDay hd
  have hrest' := readPlaces?_monthDay he
  have hlength := (readPlaces?_eq_some_iff.1 hrest).1.trans (readPlaces?_eq_some_iff.1 hrest').1.symm
  obtain ⟨hyears, hplaces⟩ := List.append_inj' h hlength
  have hyear : d.year = e.year := by
    have hread := Padding.readInt?_yearChars d.year
    rw [hyears, Padding.readInt?_yearChars] at hread
    exact (Option.some.inj hread).symm
  rw [hplaces, hrest'] at hrest
  have hsum := Option.some.inj hrest
  have hday := hd.day_lt
  have hday' := he.day_lt
  obtain ⟨y, m, k⟩ := d
  obtain ⟨y', m', k'⟩ := e
  simp only at hyear hsum hday hday'
  congr 1
  · omega
  · omega

theorem readPlaces?_digits (h : d.Valid) (hy : 0 ≤ d.year) (hy' : d.year ≤ 9999) :
    readPlaces? 8 d.digits = some (d.year.natAbs * 10000 + (d.month * 100 + d.day)) :=
  readPlaces?_append (Padding.readPlaces?_yearChars hy (by omega)) (readPlaces?_monthDay h)

/-- In the years of four places the order of dates is that of their texts. -/
theorem digits_lt_iff (hd : d.Valid) (he : e.Valid) (hy : 0 ≤ d.year) (hy' : d.year ≤ 9999) (hz : 0 ≤ e.year)
    (hz' : e.year ≤ 9999) : d.digits < e.digits ↔ d.Before e := by
  rw [lt_iff_of_readPlaces? (readPlaces?_digits hd hy hy') (readPlaces?_digits he hz hz')]
  have hday := hd.day_lt
  have hday' := he.day_lt
  have hmonth := hd.month_le
  have hmonth' := he.month_le
  unfold Before
  omega

end Date

/-- The instant is on the day of the date. -/
def Instant.On (t : Instant) (d : Date) : Prop := d.IsDay (t.millis / 86400000)

theorem Instant.on_iff {t : Instant} {d : Date} : t.On d ↔ d = t.date := Date.isDay_iff

/-! ## Daily names -/

namespace LogIndex

/-- The pieces of the pattern that settings start from. -/
def dailyPattern : Pattern := [.numeral .year .zeros, .numeral .month .zeros, .numeral .day .zeros]

theorem ofText?_defaultPattern : Pattern.ofText? defaultPattern = some dailyPattern := by decide +kernel

theorem writable_dailyPattern : dailyPattern.Writable := by decide

theorem render?_dailyPattern (t : Instant) : dailyPattern.render? t = some t.date.digits := by
  simp [Pattern.render?, dailyPattern, PatternItem.render?, Instant.numeralChars, Date.digits]

/-- What an index is computed for last decides its name. -/
theorem name_of_dailyPattern {x : LogIndex} (h : x.pattern = dailyPattern) (ts : List Instant) (t : Instant) :
    (x.recalculateAll (ts ++ [t])).name = x.lead ++ x.base ++ "_" ++ String.ofList t.date.digits := by
  obtain ⟨date, hdate, hname⟩ := name_recalculateAll_concat (h ▸ writable_dailyPattern) ts t
  rw [h, render?_dailyPattern] at hdate
  rw [hname, ← Option.some.inj hdate]

variable {x : LogIndex} {a b : Instant}

/-- Names are equal just if the dates are. -/
theorem name_inj_of_dailyPattern (h : x.pattern = dailyPattern) (ts us : List Instant) :
    (x.recalculateAll (ts ++ [a])).name = (x.recalculateAll (us ++ [b])).name ↔ a.date = b.date := by
  rw [name_of_dailyPattern h, name_of_dailyPattern h, String.append_right_inj, String.ofList_inj,
    Date.digits_inj a.valid_date b.valid_date]

/-- In the years of four places names are in the order of the dates. -/
theorem name_lt_iff_of_dailyPattern (h : x.pattern = dailyPattern) (ts us : List Instant)
    (ha : 0 ≤ a.date.year) (ha' : a.date.year ≤ 9999) (hb : 0 ≤ b.date.year) (hb' : b.date.year ≤ 9999) :
    (x.recalculateAll (ts ++ [a])).name < (x.recalculateAll (us ++ [b])).name ↔ a.date.Before b.date := by
  rw [name_of_dailyPattern h, name_of_dailyPattern h, String.lt_iff]
  simp only [String.toList_append, String.toList_ofList]
  rw [append_lt_append_iff, Date.digits_lt_iff a.valid_date b.valid_date ha ha' hb hb']

/-- **Daily indices never collide** (`LogIndex::recalculate_at`). An index with the default pattern can be made for
any lead and base. Whatever it was computed for before, it has the same name for two instants just if these are on
one day; and in the years 0 to 9999 its names are in the order of the dates. -/
theorem daily_name_eq_iff (lead base : String) (start : Instant) :
    ∃ x, create lead base defaultPattern start = .ok x ∧
      ∀ (ts us : List Instant) (a b : Instant),
        ((x.recalculateAll (ts ++ [a])).name = (x.recalculateAll (us ++ [b])).name ↔
          ∃ d : Date, a.On d ∧ b.On d) ∧
        ∀ d e : Date, a.On d → b.On e → 0 ≤ d.year → d.year ≤ 9999 → 0 ≤ e.year → e.year ≤ 9999 →
          ((x.recalculateAll (ts ++ [a])).name < (x.recalculateAll (us ++ [b])).name ↔ d.Before e) := by
  refine ⟨recalculate start ⟨lead, base, dailyPattern, ""⟩, ?_, fun ts us a b => ⟨?_, ?_⟩⟩
  · rw [create, ofText?_defaultPattern]
  · rw [name_inj_of_dailyPattern rfl]
    simp [Instant.on_iff]
  · rintro d e hd he hy hy' hz hz'
    obtain rfl := Instant.on_iff.1 hd
    obtain rfl := Instant.on_iff.1 he
    exact name_lt_iff_of_dailyPattern rfl ts us hy hy' hz hz'

/-- The last millisecond before 1970, and the first one of it. -/
theorem daily_name_newYear :
    ∃ x, create "ea_" "log" "%Y%m%d" Sample.baseTime = .ok x ∧
      (x.recalculateAll [⟨-1, by decide, by decide, 999999⟩]).name ≠
        (x.recalculateAll [⟨0, by decide, by decide, 0⟩]).name ∧
      (x.recalculateAll [⟨-1, by decide, by decide, 999999⟩]).name <
        (x.recalculateAll [⟨0, by decide, by decide, 0⟩]).name := by
  obtain ⟨x, hx, hnames⟩ := daily_name_eq_iff "ea_" "log" Sample.baseTime
  obtain ⟨hsame, horder⟩ := hnames [] [] ⟨-1, by decide, by decide, 999999⟩ ⟨0, by decide, by decide, 0⟩
  have hlast : Instant.On ⟨-1, by decide, by decide, 999999⟩ ⟨1969, 12, 31⟩ := Instant.on_iff.2 (by decide)
  have hfirst : Instant.On ⟨0, by decide, by decide, 0⟩ ⟨1970, 1, 1⟩ := Instant.on_iff.2 (by decide)
  refine ⟨x, hx, fun h => ?_, ?_⟩
  · obtain ⟨d, hd, he⟩ := hsame.1 h
    have hdate := (Instant.on_iff.1 hd).symm.trans (Instant.on_iff.1 he)
    exact absurd hdate (by decide)
  · exact (horder _ _ hlast hfirst (by decide) (by decide) (by decide) (by decide)).2 (.inl (by decide))

end LogIndex

end LogQuery
