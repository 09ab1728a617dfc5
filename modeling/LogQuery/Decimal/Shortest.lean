/-!
# The shortest decimal of a double

A finite positive double is `mantissa * 2 ^ exponent`. The reals that round to it form an interval
around it, ends included when the mantissa is even. Among the decimals of that interval,
`Binary.shortest` gives one with the fewest digits, and of those the one nearest to the double.

The search runs over grids: a grid of step `10 ^ e` puts the double between two neighbours, and if
any grid point lies in the interval, then one of these two does. All arithmetic is on natural
numbers.
-/

namespace LogQuery.Decimal

/-- A positive double: `mantissa * 2 ^ exponent`. It is narrow below when the double before it is
half as far away as the one after it. -/
structure Binary where
  mantissa : Nat
  exponent : Int
  narrow : Bool

/-- A positive decimal number: `digits * 10 ^ exponent`. -/
structure Scaled where
  digits : Nat
  exponent : Int
deriving DecidableEq

/-- The parts of a finite double other than its sign; `none` for zero. -/
def Binary.ofBits? (bits : UInt64) : Option Binary :=
  let fraction : Nat := bits.toNat % Nat.pow 2 52
  let biased : Nat := bits.toNat / Nat.pow 2 52 % Nat.pow 2 11
  if biased = 0 then
    if fraction = 0 then none else some ⟨fraction, -1074, false⟩
  else some ⟨Nat.pow 2 52 + fraction, (biased : Int) - 1075, fraction = 0 && biased ≠ 1⟩

/-! ## Grids

Positions are compared in quarters of the double's last place, so that the ends of its interval are
whole numbers of quarters. -/

/-- A number of quarters of the last place, over the step of the grid `10 ^ e`, as a fraction with
the denominator `gridDen`. -/
def Binary.gridNum (b : Binary) (e : Int) (quarters : Nat) : Nat :=
  quarters * Nat.pow 2 (b.exponent - 2).toNat * Nat.pow 10 (-e).toNat

def Binary.gridDen (b : Binary) (e : Int) : Nat :=
  Nat.pow 2 (2 - b.exponent).toNat * Nat.pow 10 e.toNat

/-- The decimal `d * 10 ^ e` rounds to the double. -/
def Binary.contains (b : Binary) (d : Nat) (e : Int) : Bool :=
  let below := b.gridNum e (4 * b.mantissa - (if b.narrow then 1 else 2))
  let above := b.gridNum e (4 * b.mantissa + 2)
  let point := d * b.gridDen e
  if b.mantissa % 2 = 0 then below ≤ point && point ≤ above else below < point && point < above

/-- The neighbour of the double on the grid `10 ^ e` that rounds to it: the nearer one if both do,
the even one if both are as near. -/
def Binary.onGrid? (b : Binary) (e : Int) : Option Scaled :=
  let num := b.gridNum e (4 * b.mantissa)
  let den := b.gridDen e
  let lower := num / den
  let twice := 2 * (num % den)
  match b.contains lower e && lower != 0, b.contains (lower + 1) e with
  | true, true =>
    if twice < den || (twice = den && lower % 2 = 0) then some ⟨lower, e⟩ else some ⟨lower + 1, e⟩
  | true, false => some ⟨lower, e⟩
  | false, true => some ⟨lower + 1, e⟩
  | false, false => none

/-- The power of ten of the leading digit. The logarithm of two is estimated from below; one step
corrects the estimate. -/
def Binary.leading (b : Binary) : Int :=
  let guess : Int := (b.mantissa.log2 + b.exponent) * 30102 / 100000
  if b.gridDen (guess + 1) ≤ b.gridNum (guess + 1) (4 * b.mantissa) then guess + 1 else guess

/-- Without the zeros at the end of the digits. -/
def Scaled.stripWithin : Nat → Scaled → Scaled
  | 0, s => s
  | fuel + 1, s =>
    if s.digits % 10 = 0 then stripWithin fuel ⟨s.digits / 10, s.exponent + 1⟩ else s

/-- The first of the grids `10 ^ e`, `10 ^ (e - 1)`, … with a point that rounds to the double. -/
def Binary.search (b : Binary) (e : Int) : Nat → Scaled
  | 0 => ⟨b.gridNum e (4 * b.mantissa) / b.gridDen e, e⟩
  | steps + 1 => (b.onGrid? e).getD (b.search (e - 1) steps)

/-- The fewest digits that read back as the double, and the nearest such decimal. Seventeen digits
always suffice. -/
def Binary.shortest (b : Binary) : Scaled := (b.search b.leading 17).stripWithin 20

end LogQuery.Decimal
