import LogQuery.Calendar.Date

/-!
# Instants

A point of time in milliseconds since the start of 1970, in universal time, with the nanoseconds that go
beyond them, and the date and time of day that a clock shows there. Instants lie in the years -262143 to
262142.

Main statement: the parts of the time of day are in their ranges (`hour_lt`, `minute_lt`, `second_lt`,
`milli_lt`, `nanosecond_lt`).
-/

namespace LogQuery

/-- Milliseconds since the start of 1970, and the nanoseconds since the start of the last one. -/
structure Instant where
  millis : Int
  lower : -8334601228800000 ≤ millis
  upper : millis ≤ 8210266876799999
  nanos : Fin 1000000
  deriving DecidableEq

namespace Instant

/-- The start of a millisecond, unless it is outside of the calendar's years. -/
def ofMillis? (ms : Int) : Option Instant :=
  if h : -8334601228800000 ≤ ms ∧ ms ≤ 8210266876799999 then some ⟨ms, h.1, h.2, 0⟩ else none

def millisPerDay : Int := 86400000

/-- The day, counted from 1 January 1970. -/
def days (t : Instant) : Int := t.millis / millisPerDay

def date (t : Instant) : Date := .ofDays t.days

/-- The milliseconds since midnight. -/
def millisOfDay (t : Instant) : Int := t.millis % millisPerDay

def hour (t : Instant) : Nat := (t.millisOfDay / 3600000).toNat

def minute (t : Instant) : Nat := (t.millisOfDay / 60000 % 60).toNat

def second (t : Instant) : Nat := (t.millisOfDay / 1000 % 60).toNat

def milli (t : Instant) : Nat := (t.millisOfDay % 1000).toNat

/-- The nanoseconds since the start of the second. -/
def nanosecond (t : Instant) : Nat := t.milli * 1000000 + t.nanos

/-- The whole seconds since the start of 1970. -/
def seconds (t : Instant) : Int := t.millis / 1000

/-- The hour of a clock with two rounds a day. -/
def hour12 (t : Instant) : Nat := if t.hour % 12 = 0 then 12 else t.hour % 12

def isAfternoon (t : Instant) : Bool := 12 ≤ t.hour

theorem hour_lt (t : Instant) : t.hour < 24 := by
  unfold hour millisOfDay millisPerDay; omega

theorem minute_lt (t : Instant) : t.minute < 60 := by
  unfold minute millisOfDay millisPerDay; omega

theorem second_lt (t : Instant) : t.second < 60 := by
  unfold second millisOfDay millisPerDay; omega

theorem milli_lt (t : Instant) : t.milli < 1000 := by
  unfold milli millisOfDay millisPerDay; omega

theorem nanosecond_lt (t : Instant) : t.nanosecond < 1000000000 := by
  have hm := t.milli_lt
  have hn := t.nanos.isLt
  unfold nanosecond; omega

end Instant

end LogQuery
