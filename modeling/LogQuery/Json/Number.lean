import LogQuery.Json.Document
import LogQuery.Text.Integer

/-!
# Numbers in JSON text

A number without fraction and exponent is an integer if it fits a signed or an unsigned word of 64
bits; all others are doubles, and so is minus zero. A double is read in two steps: the digits are
gathered into one word as long as they fit, then one multiplication or division by a power of ten
gives the double. So a number of many digits may differ from the nearest double in the last place.
-/

namespace LogQuery.Json

open LogQuery.Text

/-- The parts of a written number. -/
structure NumberText where
  negative : Bool
  whole : List Char
  fraction : List Char
  /-- The sign and the digits of the exponent. -/
  exponent : Option (Bool × List Char)

/-- One digit, or several of which the first is not zero. -/
def wholeAllowed : List Char → Bool
  | [] => false
  | ['0'] => true
  | '0' :: _ => false
  | _ => true

def isExponentMark (c : Char) : Bool := c = 'e' || c = 'E'

/-- A sign, if there is one, and whether it is a minus. -/
def readExponentSign : List Char → Bool × List Char
  | '-' :: cs => (true, cs)
  | '+' :: cs => (false, cs)
  | cs => (false, cs)

/-- The exponent, if there is one, and the characters after it. -/
def readExponent? : List Char → Option (Option (Bool × List Char) × List Char)
  | [] => some (none, [])
  | c :: cs =>
    if isExponentMark c then
      let (negative, rest) := readExponentSign cs
      let digits := rest.takeWhile Char.isDigit
      if digits.isEmpty then none else some (some (negative, digits), rest.dropWhile Char.isDigit)
    else some (none, c :: cs)

/-- The digits after a point, if there is a point. -/
def readFraction? : List Char → Option (List Char × List Char)
  | '.' :: cs =>
    let digits := cs.takeWhile Char.isDigit
    if digits.isEmpty then none else some (digits, cs.dropWhile Char.isDigit)
  | cs => some ([], cs)

/-- A number at the start of the text, and the characters after it. -/
def readNumber? (cs : List Char) : Option (NumberText × List Char) :=
  let (negative, cs) :=
    match cs with
    | '-' :: rest => (true, rest)
    | _ => (false, cs)
  let whole := cs.takeWhile Char.isDigit
  if wholeAllowed whole then do
    let (fraction, cs) ← readFraction? (cs.dropWhile Char.isDigit)
    let (exponent, cs) ← readExponent? cs
    some (⟨negative, whole, fraction, exponent⟩, cs)
  else none

/-- Digits gathered into a word, and how many of them found no room there. -/
structure Gathered where
  word : Nat
  left : Int

/-- Gathers the digits before the point. The first digit without room and all after it are counted
only. -/
def gatherWhole (word : Nat) : List Nat → Gathered
  | [] => ⟨word, 0⟩
  | d :: ds =>
    if word * 10 + d < UInt64.size then gatherWhole (word * 10 + d) ds else ⟨word, ds.length + 1⟩

/-- Gathers the digits after the point, each of which lowers the power of ten. The first digit without
room and all after it are dropped. -/
def gatherFraction (g : Gathered) : List Nat → Gathered
  | [] => g
  | d :: ds =>
    if g.word * 10 + d < UInt64.size then gatherFraction ⟨g.word * 10 + d, g.left - 1⟩ ds else g

def NumberText.gathered (n : NumberText) : Gathered :=
  gatherFraction (gatherWhole 0 (n.whole.map digitValue)) (n.fraction.map digitValue)

def powerOfTen (n : Nat) : Float := Float.ofScientific 1 false n

/-- Divides by a power of ten in steps that doubles can express. -/
def shrink (x : Float) (n : Nat) : Float :=
  if n ≤ 308 then x / powerOfTen n
  else if x == 0 then x
  else shrink (x / powerOfTen 308) (n - 308)
termination_by n
decreasing_by omega

/-- Multiplies by a power of ten; nothing if the product is beyond the doubles. -/
def grow? (x : Float) (n : Nat) : Option Float :=
  if n ≤ 308 then
    let y := x * powerOfTen n
    if y.isFinite then some y else none
  else if x == 0 then some x
  else none

/-- The double `word * 10 ^ power`, in one rounded step where one is enough. -/
def scaled? (word : Nat) (power : Int) : Option Float :=
  if power < 0 then some (shrink (Float.ofNat word) power.natAbs)
  else grow? (Float.ofNat word) power.natAbs

/-- The size of the number. An exponent of more than 31 bits makes it zero or too large. -/
def NumberText.magnitude? (n : NumberText) : Option Float :=
  let g := n.gathered
  match n.exponent with
  | none => scaled? g.word g.left
  | some (negative, digits) =>
    let e := ofDigitChars digits
    if (e : Int) ≤ Int32.maxValue.toInt then scaled? g.word (if negative then g.left - e else g.left + e)
    else if negative || g.word = 0 then some 0.0
    else none

def NumberText.float? (n : NumberText) : Option Float :=
  n.magnitude?.map fun x => if n.negative then -x else x

/-- The integer that is written, if it is written as one and fits its word. -/
def NumberText.int? (n : NumberText) : Option Int :=
  if n.fraction.isEmpty && n.exponent.isNone then
    let i := ofDigitChars n.whole
    if n.negative then (if 0 < i ∧ Int64.minValue.toInt ≤ -i then some (-i) else none)
    else if i < UInt64.size then some i else none
  else none

def NumberText.toDocument (n : NumberText) : Document :=
  match n.int? with
  | some i => .int i
  | none =>
    match n.float? with
    | some x => .float x
    | none => .meaningless

end LogQuery.Json
