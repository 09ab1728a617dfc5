/-!
# Date patterns

A pattern is text with directives, each a percent sign and a short name. A directive stands for a part
of an instant or for several parts; those that stand for one number also have names with a mark in
front that sets how the number is filled up: `-` not at all, `_` with blanks, `0` with zeros. A percent
sign that starts no directive makes the text no pattern.

Main statement: no name of a directive continues another (`names_independent`), so that reading the
directives off the text is unambiguous.
-/

namespace LogQuery

/-- A part of an instant that is a number. -/
inductive Numeral where
  | year
  | century
  | yearOfCentury
  | weekYear
  | weekYearOfCentury
  | quarter
  | month
  | day
  | ordinal
  | weekFromSunday
  | weekFromMonday
  | weekOfWeekYear
  | daysSinceSunday
  | dayOfWeek
  | hour
  | hour12
  | minute
  | second
  | nanosecond
  | epochSeconds
  deriving DecidableEq, Repr

/-- How a number is filled up to its width. -/
inductive Padding where
  | none
  | zeros
  | blanks
  deriving DecidableEq, Repr

/-- A part of an instant that is a word. -/
inductive Word where
  | shortMonth
  | longMonth
  | shortWeekday
  | longWeekday
  | upperHalfDay
  | lowerHalfDay
  deriving DecidableEq, Repr

/-- One piece of a pattern. -/
inductive PatternItem where
  | literal (c : Char)
  | numeral (n : Numeral) (p : Padding)
  | word (w : Word)
  /-- A point and the digits of the second that are not zero, in groups of three. -/
  | trimmedFraction
  /-- The first digits of the fraction of a second. -/
  | fraction (withPoint : Bool) (digits : Nat)
  /-- The distance from universal time. -/
  | offset (text : String)
  /-- Date, time and offset in one. -/
  | timestamp
  /-- A directive that can be read but not written. -/
  | unwritable
  deriving DecidableEq, Repr

abbrev Pattern := List PatternItem

/-- The name of a directive without its percent sign, and what it stands for. -/
structure Directive where
  name : List Char
  items : List PatternItem

namespace Directive

open Numeral PatternItem

/-- The directives for one number, with its usual padding. -/
def numerals : List (Char × Numeral × Padding) :=
  [('Y', year, .zeros), ('C', century, .zeros), ('y', yearOfCentury, .zeros),
    ('G', weekYear, .zeros), ('g', weekYearOfCentury, .zeros), ('q', quarter, .none),
    ('m', month, .zeros), ('d', day, .zeros), ('e', day, .blanks), ('j', ordinal, .zeros),
    ('U', weekFromSunday, .zeros), ('W', weekFromMonday, .zeros), ('V', weekOfWeekYear, .zeros),
    ('w', daysSinceSunday, .none), ('u', dayOfWeek, .none), ('H', hour, .zeros),
    ('k', hour, .blanks), ('I', hour12, .zeros), ('l', hour12, .blanks), ('M', minute, .zeros),
    ('S', second, .zeros), ('f', nanosecond, .zeros), ('s', epochSeconds, .none)]

def paddingMarks : List (Char × Padding) := [('-', .none), ('_', .blanks), ('0', .zeros)]

/-- Items with a literal character between any two. -/
def separated (c : Char) (items : List PatternItem) : List PatternItem :=
  items.intersperse (literal c)

def timeOfDay : List PatternItem :=
  separated ':' [numeral hour .zeros, numeral minute .zeros, numeral second .zeros]

def slashedDate : List PatternItem :=
  separated '/' [numeral month .zeros, numeral day .zeros, numeral yearOfCentury .zeros]

/-- The directives for other pieces, and for several. -/
def others : List (String × List PatternItem) :=
  [("a", [word .shortWeekday]), ("A", [word .longWeekday]), ("b", [word .shortMonth]),
    ("h", [word .shortMonth]), ("B", [word .longMonth]), ("p", [word .upperHalfDay]),
    ("P", [word .lowerHalfDay]),
    ("F", separated '-' [numeral year .zeros, numeral month .zeros, numeral day .zeros]),
    ("D", slashedDate), ("x", slashedDate), ("T", timeOfDay), ("X", timeOfDay),
    ("R", separated ':' [numeral hour .zeros, numeral minute .zeros]),
    ("r", separated ':' [numeral hour12 .zeros, numeral minute .zeros, numeral second .zeros] ++
      [literal ' ', word .upperHalfDay]),
    ("v", separated '-' [numeral day .blanks, word .shortMonth, numeral year .zeros]),
    ("c", separated ' ' [word .shortWeekday, word .shortMonth, numeral day .blanks] ++
      literal ' ' :: timeOfDay ++ [literal ' ', numeral year .zeros]),
    (".f", [trimmedFraction]), (".3f", [fraction true 3]), (".6f", [fraction true 6]),
    (".9f", [fraction true 9]), ("3f", [fraction false 3]), ("6f", [fraction false 6]),
    ("9f", [fraction false 9]), ("Z", [offset "UTC"]), ("z", [offset "+0000"]),
    (":z", [offset "+00:00"]), ("::z", [offset "+00:00:00"]), (":::z", [offset "+00"]),
    ("#z", [unwritable]), ("+", [timestamp]), ("%", [literal '%']), ("n", [literal '\n']),
    ("t", [literal '\t'])]

/-- All directives. -/
def all : List Directive :=
  (numerals.map fun (c, n, p) => ⟨[c], [numeral n p]⟩) ++
    (paddingMarks.flatMap fun (m, p) => numerals.map fun (c, n, _) => ⟨[m, c], [numeral n p]⟩) ++
    others.map fun (s, items) => ⟨s.toList, items⟩

/-- The directive whose name the text starts with. -/
def find? (cs : List Char) : Option Directive := all.find? fun d => d.name.isPrefixOf cs

end Directive

namespace Pattern

/-- The pieces of a pattern, from its characters. -/
def ofChars? : List Char → Option Pattern
  | [] => some []
  | c :: cs =>
    if c = '%' then
      match Directive.find? cs with
      | some d => (ofChars? (cs.drop d.name.length)).map (d.items ++ ·)
      | none => none
    else (ofChars? cs).map (.literal c :: ·)
termination_by cs => cs.length
decreasing_by
  · simp only [List.length_drop, List.length_cons]; omega
  · simp

def ofText? (s : String) : Option Pattern := ofChars? s.toList

end Pattern

theorem Directive.names_independent :
    (Directive.all.map Directive.name).Pairwise fun a b =>
      a.isPrefixOf b = false ∧ b.isPrefixOf a = false := by
  decide +kernel

end LogQuery
