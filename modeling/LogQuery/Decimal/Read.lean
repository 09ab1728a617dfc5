import LogQuery.Text.Integer
import LogQuery.Text.Blank

/-!
# Reading a decimal number

The nearest double of a number written as digits with an optional sign, point and exponent, or of
one of the words for an infinity and for what is no number. A number beyond the doubles reads as an
infinity, one below them as zero.
-/

namespace LogQuery.Decimal

open LogQuery.Text

def infinity : Float := Float.ofBits 0x7FF0000000000000

def notANumber : Float := Float.ofBits 0x7FF8000000000000

/-- The double nearest to `digits * 10 ^ power`. Powers far out of range are decided by the number
of digits alone. -/
def nearest (digits : Nat) (power : Int) : Float :=
  let lead := (natChars digits).length + power
  if digits = 0 || lead < -400 then 0.0
  else if 400 < lead then infinity
  else Float.ofScientific digits (power < 0) power.natAbs

/-- An exponent mark with its digits, or nothing. -/
def readPower? : List Char → Option Int
  | [] => some 0
  | c :: cs => if c = 'e' || c = 'E' then readInt? cs else none

/-- Digits, an optional point among or beside them, and an optional exponent; at least one digit. -/
def readUnsigned? (cs : List Char) : Option Float :=
  let whole := cs.takeWhile Char.isDigit
  let rest := cs.dropWhile Char.isDigit
  let (fraction, rest) :=
    match rest with
    | '.' :: more => (more.takeWhile Char.isDigit, more.dropWhile Char.isDigit)
    | _ => ([], rest)
  if whole.isEmpty && fraction.isEmpty then none
  else (readPower? rest).map fun power =>
    nearest (ofDigitChars (whole ++ fraction)) (power - fraction.length)

def readMagnitude? (cs : List Char) : Option Float :=
  let word := String.ofList (cs.map Char.toLower)
  if word = "inf" || word = "infinity" then some infinity
  else if word = "nan" then some notANumber
  else readUnsigned? cs

/-- A number with an optional sign. -/
def readChars? : List Char → Option Float
  | '-' :: cs => (readMagnitude? cs).map fun x => -x
  | '+' :: cs => readMagnitude? cs
  | cs => readMagnitude? cs

def read? (s : String) : Option Float := readChars? s.toList

end LogQuery.Decimal
