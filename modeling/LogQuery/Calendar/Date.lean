/-!
# Days and dates

The proleptic Gregorian calendar. A day is counted from 1 January 1970; a date is a year, a month and
a day of the month, where years before the year 1 go on with 0, -1 and so on. Years are counted from
March, so that the day that leap years add is the last one, and in eras of 400 years, which all have
the same number of days.
-/

namespace LogQuery

/-- A date of the proleptic Gregorian calendar. -/
structure Date where
  year : Int
  month : Nat
  day : Nat
  deriving DecidableEq, Repr

namespace Date

/-- The days of 400 years. -/
def eraDays : Int := 146097

/-- The days from 1 March of the year 0 to 1 January 1970. -/
def epochShift : Int := 719468

/-- The year of an era, counted from March, that holds a day of the era. -/
def yearOfEra (d : Int) : Int := (d - d / 1460 + d / 36524 - d / 146096) / 365

/-- The days of an era before a year of it. -/
def daysBeforeYear (y : Int) : Int := 365 * y + y / 4 - y / 100

/-- The date of a day. -/
def ofDays (days : Int) : Date :=
  let shifted := days + epochShift
  let dayOfEra := shifted % eraDays
  let year := yearOfEra dayOfEra
  let dayOfYear := dayOfEra - daysBeforeYear year
  let month := (5 * dayOfYear + 2) / 153
  let day := dayOfYear - (153 * month + 2) / 5 + 1
  let isLate := 10 ≤ month
  ⟨year + 400 * (shifted / eraDays) + (if isLate then 1 else 0),
    (if isLate then month - 9 else month + 3).toNat, day.toNat⟩

/-- The day of a date. -/
def toDays (d : Date) : Int :=
  let isEarly := d.month ≤ 2
  let year := if isEarly then d.year - 1 else d.year
  let month : Int := if isEarly then d.month + 9 else d.month - 3
  year / 400 * eraDays + daysBeforeYear (year % 400) + (153 * month + 2) / 5 + d.day - 1 - epochShift

/-- The number of the day within its year, from 1. -/
def ordinal (d : Date) : Int := d.toDays - toDays ⟨d.year, 1, 1⟩ + 1

/-- The day of the week, from 0 for Sunday. -/
def weekday (days : Int) : Int := (days + 4) % 7

/-- The days since Monday. -/
def daysSinceMonday (days : Int) : Int := (days + 3) % 7

/-- The number of the week within the year when weeks start on Sunday; days before the first Sunday are
in week 0. -/
def weekFromSunday (days : Int) : Int := ((ofDays days).ordinal - weekday days + 6) / 7

/-- The same for weeks that start on Monday. -/
def weekFromMonday (days : Int) : Int := ((ofDays days).ordinal - daysSinceMonday days + 6) / 7

/-- The Thursday of the week, Monday to Sunday, that holds the day. -/
def thursdayOf (days : Int) : Int := days - daysSinceMonday days + 3

/-- The year that holds most of the week of the day. -/
def weekYear (days : Int) : Int := (ofDays (thursdayOf days)).year

/-- The number of the week within its year, from 1. -/
def weekOfWeekYear (days : Int) : Int := ((ofDays (thursdayOf days)).ordinal - 1) / 7 + 1

end Date

end LogQuery
