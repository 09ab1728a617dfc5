/-!
# Integers as text

Written integers are plain decimal digits after an optional minus sign. Read integers may also carry
a plus sign and leading zeros, and nothing else: no blanks, no separators, no empty digit string.

Main statements: a written natural number is made of digits only (`natChars_isDigit`), and a written integer
is read back (`readInt?_intChars`).
-/

namespace LogQuery.Text

def natChars (n : Nat) : List Char := Nat.toDigits 10 n

def intChars (i : Int) : List Char :=
  if i < 0 then '-' :: natChars i.natAbs else natChars i.natAbs

def ofNat (n : Nat) : String := String.ofList (natChars n)

def ofInt (i : Int) : String := String.ofList (intChars i)

/-- The digits of `n`, filled up to `width` with the character `fill` on the left. -/
def padLeft (fill : Char) (width : Nat) (cs : List Char) : List Char :=
  List.replicate (width - cs.length) fill ++ cs

/-- The value of an ASCII digit. -/
def digitValue (c : Char) : Nat := c.toNat - '0'.toNat

/-- A digit of base 16, its letters in either case. -/
def isHexDigit (c : Char) : Bool := c.isDigit || ('a' ≤ c.toLower && c.toLower ≤ 'f')

def hexDigitValue (c : Char) : Nat :=
  if c.isDigit then digitValue c else c.toLower.toNat - 'a'.toNat + 10

/-- The number that a string of digits denotes in the given base. -/
def ofDigitValues (base : Nat) (ds : List Nat) : Nat := ds.foldl (fun n d => n * base + d) 0

def ofDigitChars (cs : List Char) : Nat := ofDigitValues 10 (cs.map digitValue)

/-- One or more digits, and nothing else. -/
def digitsOnly (cs : List Char) : Bool := !cs.isEmpty && cs.all Char.isDigit

/-- An optional plus sign and one or more digits. -/
def readNat? : List Char → Option Nat
  | '+' :: cs => if digitsOnly cs then some (ofDigitChars cs) else none
  | cs => if digitsOnly cs then some (ofDigitChars cs) else none

/-- An optional sign and one or more digits. -/
def readInt? : List Char → Option Int
  | '-' :: cs => if digitsOnly cs then some (-(ofDigitChars cs : Int)) else none
  | cs => (readNat? cs).map Int.ofNat

/-- An integer of the text within the two bounds, both included. -/
def readIntWithin? (lo hi : Int) (cs : List Char) : Option Int :=
  (readInt? cs).filter fun i => lo ≤ i && i ≤ hi

theorem natChars_isDigit {n : Nat} {c : Char} (h : c ∈ natChars n) : c.isDigit = true :=
  Nat.isDigit_of_mem_toDigits (by decide) (by decide) h

theorem ofDigitChars_natChars (n : Nat) : ofDigitChars (natChars n) = n := by
  have h : ofDigitChars (natChars n) = Nat.ofDigitChars 10 (Nat.toDigits 10 n) 0 := by
    simp only [ofDigitChars, ofDigitValues, List.foldl_map, Nat.ofDigitChars_eq_foldl, natChars, digitValue,
      Nat.mul_comm]
  rw [h, Nat.ofDigitChars_ten_toDigits]

theorem digitsOnly_natChars (n : Nat) : digitsOnly (natChars n) = true := by
  have hne : natChars n ≠ [] := Nat.toDigits_ne_nil
  have hall : (natChars n).all Char.isDigit = true := List.all_eq_true.2 fun c hc => natChars_isDigit hc
  simp [digitsOnly, hne, hall]

/-- What is written of a natural number has no sign. -/
theorem readNat?_natChars (n : Nat) : readNat? (natChars n) = some n := by
  unfold readNat?
  split
  · next cs h =>
    have hplus : '+' ∈ natChars n := h ▸ List.mem_cons_self
    exact absurd (natChars_isDigit hplus) (by decide)
  · rw [if_pos (digitsOnly_natChars n), ofDigitChars_natChars]

theorem readInt?_intChars (i : Int) : readInt? (intChars i) = some i := by
  unfold intChars
  by_cases h : i < 0
  · rw [if_pos h, readInt?, if_pos (digitsOnly_natChars _), ofDigitChars_natChars]
    congr 1
    omega
  · rw [if_neg h]
    unfold readInt?
    split
    · next cs hcs =>
      have hminus : '-' ∈ natChars i.natAbs := hcs ▸ List.mem_cons_self
      exact absurd (natChars_isDigit hminus) (by decide)
    · rw [readNat?_natChars, Option.map_some]
      congr 1
      exact Int.natAbs_of_nonneg (by omega)

end LogQuery.Text
