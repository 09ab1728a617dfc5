import LogQuery.Text.Integer

/-!
# Hosts of addresses

A host is a name, an IPv4 address or an IPv6 address in brackets. A name whose last part is a number must
be an IPv4 address, which may be written with fewer than four numbers and in other bases. Characters that
separate the parts of an address cannot stand in a name, however they are written.

Names are kept in lower case. A client also maps a name outside of ASCII to its `xn--` form, by tables of
characters, and refuses a name or an `xn--` label for which there is none; that is left out, so that such a
name stands here as it was written.
-/

namespace LogQuery.Http

open LogQuery.Text

inductive Host where
  | name (s : String)
  | v4 (n : Nat)
  | v6 (groups : List Nat)
  deriving DecidableEq, Repr

/-! ## Names -/

/-- Characters that no name may have. -/
def forbidden : List Char :=
  [' ', '#', '/', ':', '<', '>', '?', '@', '[', '\\', ']', '^', '|', '%']

def isForbidden (c : Char) : Bool := c.toNat < 0x20 || c.toNat = 0x7F || forbidden.contains c

def bytesOf (c : Char) : List UInt8 := String.utf8EncodeChar c

theorem length_bytesOf (c : Char) : (bytesOf c).length = c.utf8Size := String.length_utf8EncodeChar c

/-- The bytes of a text in which a percent sign with two digits stands for a byte. -/
def percentDecoded : List Char → List UInt8
  | '%' :: a :: b :: cs =>
    if isHexDigit a && isHexDigit b then
      UInt8.ofNat (hexDigitValue a * 16 + hexDigitValue b) :: percentDecoded cs
    else bytesOf '%' ++ percentDecoded (a :: b :: cs)
  | c :: cs => bytesOf c ++ percentDecoded cs
  | [] => []

/-- The text of some bytes, if they are the bytes of one. -/
def textOfBytes? (bs : List UInt8) : Option String := String.fromUTF8? ⟨bs.toArray⟩

/-- What is meant by a text with percent signs, if it is a text again. -/
def percentText? (cs : List Char) : Option String := textOfBytes? (percentDecoded cs)

/-! ## IPv4 -/

/-- A number with an optional mark for base 16 or 8 in front. -/
def number? : List Char → Option Nat
  | [] => none
  | ['0'] => some 0
  | '0' :: c :: ds =>
    if c = 'x' || c = 'X' then
      if ds.all isHexDigit then some (ofDigitValues 16 (ds.map hexDigitValue)) else none
    else if (c :: ds).all fun d => d.isDigit && digitValue d < 8 then
      some (ofDigitValues 8 ((c :: ds).map digitValue))
    else none
  | ds => if ds.all Char.isDigit then some (ofDigitChars ds) else none

/-- The parts between points, without an empty one at the end. -/
def dottedParts (cs : List Char) : List (List Char) :=
  let parts := cs.splitOn '.'
  if parts.getLast? = some [] && 1 < parts.length then parts.dropLast else parts

/-- The last part is a number, or meant as one. -/
def endsInNumber (cs : List Char) : Bool :=
  match (dottedParts cs).getLast? with
  | none => false
  | some p =>
    digitsOnly p || (match p with
      | '0' :: c :: ds => (c = 'x' || c = 'X') && ds.all isHexDigit
      | _ => false)

/-- The address of up to four numbers, of which the last fills the bytes that are left. -/
def v4? (cs : List Char) : Option Nat := do
  let ns ← (dottedParts cs).mapM number?
  let last ← ns.getLast?
  let front := ns.dropLast
  if ns.length ≤ 4 ∧ (front.all (· < 256)) ∧ last < Nat.pow 256 (5 - ns.length) then
    some (ofDigitValues 256 front * Nat.pow 256 (5 - ns.length) + last)
  else none

/-! ## IPv6 -/

/-- One to four hexadecimal digits. -/
def group? (cs : List Char) : Option (List Nat) :=
  if !cs.isEmpty && cs.length ≤ 4 && cs.all isHexDigit then
    some [ofDigitValues 16 (cs.map hexDigitValue)]
  else none

/-- Four decimal numbers with points between, as two groups. -/
def dottedGroups? (cs : List Char) : Option (List Nat) := do
  let ns ← (cs.splitOn '.').mapM fun p =>
    if digitsOnly p && (p.length = 1 || p.head? ≠ some '0') then some (ofDigitChars p) else none
  match ns with
  | [a, b, c, d] => if ns.all (· < 256) then some [a * 256 + b, c * 256 + d] else none
  | _ => none

/-- The groups of a run without a gap; the last part may be four decimal numbers. -/
def groups? (cs : List Char) (mayEndDotted : Bool) : Option (List Nat) :=
  if cs.isEmpty then some []
  else do
    let parts := cs.splitOn ':'
    let front ← parts.dropLast.mapM group?
    let last ← parts.getLast?
    let last ← (group? last).or (if mayEndDotted then dottedGroups? last else none)
    some (front.flatten ++ last)

/-- The characters before and after the first pair of colons. -/
def splitGap? : List Char → Option (List Char × List Char)
  | ':' :: ':' :: cs => some ([], cs)
  | c :: cs => (splitGap? cs).map fun r => (c :: r.1, r.2)
  | [] => none

/-- Eight groups; a pair of colons stands for as many zeros as are missing. -/
def v6? (cs : List Char) : Option (List Nat) :=
  match splitGap? cs with
  | none => (groups? cs true).filter fun gs => gs.length = 8
  | some (before, after) => do
    let front ← groups? before false
    let back ← groups? after true
    let count := front.length + back.length
    if count ≤ 7 then some (front ++ List.replicate (8 - count) 0 ++ back) else none

/-! ## Hosts -/

/-- The host of a name that has been decoded. Names outside of ASCII are not mapped. -/
def Host.ofName? (cs : List Char) : Option Host :=
  if cs.isEmpty || cs.any isForbidden then none
  else if endsInNumber cs then (v4? cs).map .v4
  else some (.name (String.ofList (cs.map Char.toLower)))

def Host.ofChars? (cs : List Char) : Option Host :=
  match cs with
  | '[' :: rest =>
    match rest.getLast? with
    | some ']' => (v6? rest.dropLast).map .v6
    | _ => none
  | cs => (percentText? cs).bind fun s => Host.ofName? s.toList

end LogQuery.Http
