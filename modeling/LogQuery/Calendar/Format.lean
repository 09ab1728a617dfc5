import LogQuery.Calendar.Instant
import LogQuery.Calendar.Pattern
import LogQuery.Text.Integer

/-!
# Instants as text

What the pieces of a pattern write for an instant. Numbers are filled up on the left; a year outside of
0 to 9999 shows its sign. A pattern with a piece that cannot be written writes nothing at all.

Main statement: a pattern writes something exactly if all its pieces can be written
(`isSome_render?_iff`).
-/

namespace LogQuery

open LogQuery.Text

namespace Padding

/-- A number filled up to `width` characters, zeros standing behind a sign. -/
def signedChars (p : Padding) (width : Nat) (sign ds : List Char) : List Char :=
  match p with
  | .none => sign ++ ds
  | .zeros => sign ++ padLeft '0' (width - sign.length) ds
  | .blanks => padLeft ' ' width (sign ++ ds)

/-- An integer with a sign if it is negative. -/
def intChars (p : Padding) (width : Nat) (i : Int) : List Char :=
  p.signedChars width (if i < 0 then ['-'] else []) (natChars i.natAbs)

/-- Four digits for a year of at most that many, else a sign and at least four. -/
def yearChars (p : Padding) (y : Int) : List Char :=
  if 0 ≤ y ∧ y < 10000 then p.signedChars 4 [] (natChars y.natAbs)
  else p.signedChars 5 [if y < 0 then '-' else '+'] (natChars y.natAbs)

/-- Two places for a number below 256. The place of the tens goes on after nine with the characters
behind the digits. -/
def twoPlaces (p : Padding) (n : Nat) : List Char :=
  let tens :=
    match n / 10, p with
    | 0, .none => []
    | 0, .blanks => [' ']
    | t, _ => [Char.ofNat ('0'.toNat + t)]
  tens ++ natChars (n % 10)

end Padding

namespace Instant

def monthNames : List String :=
  ["January", "February", "March", "April", "May", "June", "July", "August", "September",
    "October", "November", "December"]

/-- The days of the week, from Sunday. -/
def weekdayNames : List String :=
  ["Sunday", "Monday", "Tuesday", "Wednesday", "Thursday", "Friday", "Saturday"]

def monthName (t : Instant) : List Char := (monthNames.getD (t.date.month - 1) "").toList

def weekdayName (t : Instant) : List Char :=
  (weekdayNames.getD (Date.weekday t.days).toNat "").toList

def wordChars (t : Instant) : Word → List Char
  | .shortMonth => t.monthName.take 3
  | .longMonth => t.monthName
  | .shortWeekday => t.weekdayName.take 3
  | .longWeekday => t.weekdayName
  | .upperHalfDay => if t.isAfternoon then ['P', 'M'] else ['A', 'M']
  | .lowerHalfDay => if t.isAfternoon then ['p', 'm'] else ['a', 'm']

def numeralChars (t : Instant) (p : Padding) : Numeral → List Char
  | .year => p.yearChars t.date.year
  | .century => p.twoPlaces (t.date.year / 100 % 256).toNat
  | .yearOfCentury => p.twoPlaces (t.date.year % 100).toNat
  | .weekYear => p.yearChars (Date.weekYear t.days)
  | .weekYearOfCentury => p.twoPlaces (Date.weekYear t.days % 100).toNat
  | .quarter => natChars ((t.date.month - 1) / 3 + 1)
  | .month => p.twoPlaces t.date.month
  | .day => p.twoPlaces t.date.day
  | .ordinal => p.intChars 3 t.date.ordinal
  | .weekFromSunday => p.twoPlaces (Date.weekFromSunday t.days).toNat
  | .weekFromMonday => p.twoPlaces (Date.weekFromMonday t.days).toNat
  | .weekOfWeekYear => p.twoPlaces (Date.weekOfWeekYear t.days).toNat
  | .daysSinceSunday => natChars (Date.weekday t.days).toNat
  | .dayOfWeek => natChars (Date.daysSinceMonday t.days + 1).toNat
  | .hour => p.twoPlaces t.hour
  | .hour12 => p.twoPlaces t.hour12
  | .minute => p.twoPlaces t.minute
  | .second => p.twoPlaces t.second
  | .nanosecond => p.intChars 9 t.nanosecond
  | .epochSeconds => p.intChars 9 t.seconds

/-- The first digits of the fraction of the second. -/
def fractionChars (t : Instant) (digits : Nat) : List Char :=
  (padLeft '0' 9 (natChars t.nanosecond)).take digits

/-- The fraction of the second, if there is one, in as many groups of three digits as it needs. -/
def trimmedFractionChars (t : Instant) : List Char :=
  if t.nanosecond = 0 then []
  else if t.nanosecond % 1000000 = 0 then '.' :: t.fractionChars 3
  else if t.nanosecond % 1000 = 0 then '.' :: t.fractionChars 6
  else '.' :: t.fractionChars 9

/-- Date and time of day around a character, to the second. -/
def dateTimeChars (t : Instant) (between : Char) : List Char :=
  Padding.zeros.yearChars t.date.year ++
    '-' :: Padding.zeros.twoPlaces t.date.month ++ '-' :: Padding.zeros.twoPlaces t.date.day ++
    between :: Padding.zeros.twoPlaces t.hour ++ ':' :: Padding.zeros.twoPlaces t.minute ++
    ':' :: Padding.zeros.twoPlaces t.second

/-- The instant with its offset from universal time. -/
def timestampChars (t : Instant) : List Char :=
  t.dateTimeChars 'T' ++ t.trimmedFractionChars ++ ['+', '0', '0', ':', '0', '0']

def timestamp (t : Instant) : String := String.ofList t.timestampChars

/-- The instant in a line of text, to the millisecond. -/
def lineText (t : Instant) : String := String.ofList (t.dateTimeChars ' ' ++ '.' :: t.fractionChars 3)

end Instant

/-- What a piece writes; nothing if it cannot be written. -/
def PatternItem.render? (t : Instant) : PatternItem → Option (List Char)
  | literal c => some [c]
  | numeral n p => some (t.numeralChars p n)
  | word w => some (t.wordChars w)
  | trimmedFraction => some t.trimmedFractionChars
  | fraction withPoint digits =>
    some ((if withPoint then ['.'] else []) ++ t.fractionChars digits)
  | offset text => some text.toList
  | timestamp => some t.timestampChars
  | unwritable => none

namespace Pattern

/-- The text of an instant, unless the pattern has a piece that cannot be written. -/
def render? (t : Instant) (ps : Pattern) : Option (List Char) :=
  (List.mapM (PatternItem.render? t) ps).map List.flatten

/-- No piece is unwritable. -/
def Writable (ps : Pattern) : Prop := .unwritable ∉ ps

instance (ps : Pattern) : Decidable ps.Writable := inferInstanceAs (Decidable (_ ∉ _))

theorem isSome_render?_iff (t : Instant) (ps : Pattern) : (ps.render? t).isSome ↔ ps.Writable := by
  rw [render?, Option.isSome_map]
  induction ps with
  | nil => simp [Writable]
  | cons p ps ih =>
    rw [List.mapM_cons]
    cases p <;> cases h : List.mapM (PatternItem.render? t) ps <;>
      simp_all [PatternItem.render?, Writable]

end Pattern

end LogQuery
