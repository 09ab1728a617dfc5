import LogQuery.Decimal.Read
import LogQuery.Settings.Loose

/-!
# Numbers and times in TOML

Numbers, switches and times are single words. Digits may be grouped by underscores that stand between
two digits. Decimal integers have no leading zeros; those in base 16, 8 and 2 have a mark in front and
no sign. An integer must fit a signed word of 64 bits, a double must not be too large. A time is kept as
its text in a standard form.
-/

namespace LogQuery.Toml

open LogQuery.Text

def isWordChar (c : Char) : Bool := c.isAlphanum || c = '+' || c = '-' || c = '_' || c = '.' || c = ':'

/-- The digits of groups that underscores separate, each of at least one digit. -/
def ungroup? (isDigit : Char → Bool) (cs : List Char) : Option (List Char) :=
  if (cs.splitOn '_').all fun g => !g.isEmpty && g.all isDigit then some (cs.filter (· ≠ '_')) else none

def splitSign : List Char → List Char × List Char
  | '-' :: cs => (['-'], cs)
  | '+' :: cs => (['+'], cs)
  | cs => ([], cs)

/-- The digits of a whole number without leading zeros. -/
def wholeDigits? (cs : List Char) : Option (List Char) :=
  (ungroup? Char.isDigit cs).filter fun ds => ds.length = 1 || ds.head? ≠ some '0'

def inWord (i : Int) : Option Loose :=
  if Int64.minValue.toInt ≤ i ∧ i ≤ Int64.maxValue.toInt then some (.int i) else none

/-- Digits in a base of which the mark stands in front. -/
def markedInt? (base : Nat) (cs : List Char) : Option Loose :=
  (ungroup? (fun c => isHexDigit c && hexDigitValue c < base) cs).bind fun ds =>
    inWord (ofDigitValues base (ds.map hexDigitValue))

def int? : List Char → Option Loose
  | '0' :: 'x' :: cs => markedInt? 16 cs
  | '0' :: 'o' :: cs => markedInt? 8 cs
  | '0' :: 'b' :: cs => markedInt? 2 cs
  | cs =>
    let (sign, ds) := splitSign cs
    (wholeDigits? ds).bind fun ds =>
      inWord (if sign = ['-'] then -(ofDigitChars ds : Int) else ofDigitChars ds)

/-- The digits after a mark for the exponent, with their sign. -/
def power? : List Char → Option (List Char)
  | [] => some []
  | _ :: cs =>
    let (sign, ds) := splitSign cs
    (ungroup? Char.isDigit ds).map fun ds => 'e' :: sign ++ ds

def isPowerMark (c : Char) : Bool := c = 'e' || c = 'E'

/-- A point with digits after it, if there is one. -/
def fraction? : List Char → Option (List Char)
  | [] => some []
  | _ :: ds => (ungroup? Char.isDigit ds).map ('.' :: ·)

/-- A double has a point or an exponent, or is one of the two words. -/
def float? (cs : List Char) : Option Loose := do
  let (sign, body) := splitSign cs
  let text ←
    if body = ['i', 'n', 'f'] || body = ['n', 'a', 'n'] then some body
    else do
      let whole := body.takeWhile fun c => c ≠ '.' && !isPowerMark c
      let rest := body.dropWhile fun c => c ≠ '.' && !isPowerMark c
      let whole ← wholeDigits? whole
      let fraction ← fraction? (rest.takeWhile fun c => !isPowerMark c)
      let power ← power? (rest.dropWhile fun c => !isPowerMark c)
      if fraction.isEmpty && power.isEmpty then none else some (whole ++ fraction ++ power)
  let x ← Decimal.readChars? (sign ++ text)
  if x == Decimal.infinity && text ≠ ['i', 'n', 'f'] then none else some (.float x)

/-! ## Times -/

/-- As many digits as asked for, and their value between the bounds. -/
def field? (count lo hi : Nat) (cs : List Char) : Option (List Char × List Char) :=
  let ds := cs.take count
  let n := ofDigitChars ds
  if ds.length = count && ds.all Char.isDigit && lo ≤ n && n ≤ hi then some (ds, cs.drop count) else none

def isLeapYear (y : Nat) : Bool := y % 4 = 0 && (y % 100 ≠ 0 || y % 400 = 0)

def daysOfMonth (y m : Nat) : Nat :=
  if m = 2 then (if isLeapYear y then 29 else 28)
  else if m = 4 || m = 6 || m = 9 || m = 11 then 30
  else 31

def expect? (c : Char) : List Char → Option (List Char)
  | [] => none
  | d :: cs => if d = c then some cs else none

/-- A date at the start of the text, and the characters after it. -/
def date? (cs : List Char) : Option (List Char × List Char) := do
  let (y, cs) ← field? 4 0 9999 cs
  let cs ← expect? '-' cs
  let (m, cs) ← field? 2 1 12 cs
  let cs ← expect? '-' cs
  let (d, cs) ← field? 2 1 (daysOfMonth (ofDigitChars y) (ofDigitChars m)) cs
  some (y ++ '-' :: m ++ '-' :: d, cs)

/-- The fraction of a second to nine digits, without zeros at its end. -/
def trimFraction (ds : List Char) : List Char :=
  let ds := ((ds.take 9).reverse.dropWhile (· = '0')).reverse
  if ds.isEmpty then [] else '.' :: ds

/-- A time of day at the start of the text, and the characters after it. -/
def time? (cs : List Char) : Option (List Char × List Char) := do
  let (h, cs) ← field? 2 0 23 cs
  let cs ← expect? ':' cs
  let (m, cs) ← field? 2 0 59 cs
  let cs ← expect? ':' cs
  let (s, cs) ← field? 2 0 60 cs
  let clock := h ++ ':' :: m ++ ':' :: s
  match cs with
  | '.' :: cs =>
    let ds := cs.takeWhile Char.isDigit
    if ds.isEmpty then none else some (clock ++ trimFraction ds, cs.dropWhile Char.isDigit)
  | cs => some (clock, cs)

/-- The distance from universal time, if one is given, to the end of the text. -/
def offset? (cs : List Char) : Option (List Char) :=
  match cs with
  | [] => some []
  | ['Z'] => some ['Z']
  | ['z'] => some ['Z']
  | sign :: cs =>
    if sign = '+' || sign = '-' then do
      let (h, cs) ← field? 2 0 23 cs
      let cs ← expect? ':' cs
      let (m, cs) ← field? 2 0 59 cs
      let sign := if ofDigitChars (h ++ m) = 0 then '+' else sign
      if cs.isEmpty then some (sign :: h ++ ':' :: m) else none
    else none

/-- A time of day with an optional distance, to the end of the text. -/
def timeWithOffset? (cs : List Char) : Option (List Char) := do
  let (t, cs) ← time? cs
  let o ← offset? cs
  some (t ++ o)

/-- A date, a time of day, or both. -/
def moment? (cs : List Char) : Option (List Char) :=
  match date? cs with
  | some (d, []) => some d
  | some (d, c :: cs) =>
    if c = 'T' || c = 't' || c = ' ' then (timeWithOffset? cs).map fun t => d ++ 'T' :: t else none
  | none => (time? cs).bind fun r => if r.2.isEmpty then some r.1 else none

/-- The value of a word. -/
def word? (cs : List Char) : Option Loose :=
  if cs = ['t', 'r', 'u', 'e'] then some (.bool true)
  else if cs = ['f', 'a', 'l', 's', 'e'] then some (.bool false)
  else (int? cs).or ((float? cs).or ((moment? cs).map fun t => .text (String.ofList t)))

end LogQuery.Toml
