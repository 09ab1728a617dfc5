import LogQuery.Decimal.Shortest
import LogQuery.Text.Integer

/-!
# Doubles as text

A finite double is written with the fewest digits that read back as it. A `Layout` says where the
digits stand on a line: which numbers are written without an exponent mark, and whether a whole
number shows a decimal point. Negative zero keeps its sign.
-/

namespace LogQuery.Decimal

open LogQuery.Text

/-- How the digits of a number are set out. -/
structure Layout where
  /-- The powers of ten of the leading digit that need no exponent mark. -/
  positional : Int → Bool
  /-- Whether a whole number ends in `.0`. -/
  showPoint : Bool

/-- Digits with the decimal point `places` after the first one, zeros filled in on either side. -/
def positionalChars (layout : Layout) (ds : List Char) (places : Int) : List Char :=
  if places < 0 then '0' :: '.' :: (List.replicate (-places - 1).toNat '0' ++ ds)
  else
    let whole := places.toNat + 1
    if whole < ds.length then ds.take whole ++ '.' :: ds.drop whole
    else ds ++ List.replicate (whole - ds.length) '0' ++ (if layout.showPoint then ['.', '0'] else [])

/-- Digits with the point after the first one, and the power of ten with its sign. -/
def exponentChars (ds : List Char) (power : Int) : List Char :=
  let mark := if power < 0 then ['e', '-'] else ['e', '+']
  match ds with
  | first :: second :: rest => first :: '.' :: second :: rest ++ mark ++ natChars power.natAbs
  | short => short ++ mark ++ natChars power.natAbs

def Layout.scaledChars (layout : Layout) (s : Scaled) : List Char :=
  let ds := natChars s.digits
  let power := s.exponent + ds.length - 1
  if layout.positional power then positionalChars layout ds power else exponentChars ds power

/-- The sign bit is set; for zero as for other numbers. -/
def isNegative (x : Float) : Bool := x.toBits.toNat / Nat.pow 2 63 = 1

/-- A finite double in the layout. -/
def Layout.finiteChars (layout : Layout) (x : Float) : List Char :=
  let body :=
    match Binary.ofBits? x.toBits with
    | none => if layout.showPoint then ['0', '.', '0'] else ['0']
    | some b => layout.scaledChars b.shortest
  if isNegative x then '-' :: body else body

/-- Plain digits of any length: no exponent mark, and no point in whole numbers. -/
def plain : Layout := ⟨fun _ => true, false⟩

/-- A double in plain digits, or the name of what it is instead of a number. -/
def plainChars (x : Float) : List Char :=
  if x.isNaN then ['N', 'a', 'N']
  else if x.isInf then (if isNegative x then ['-', 'i', 'n', 'f'] else ['i', 'n', 'f'])
  else plain.finiteChars x

def plainText (x : Float) : String := String.ofList (plainChars x)

end LogQuery.Decimal
