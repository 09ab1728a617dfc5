import LogQuery.Json.Number

/-!
# Reading JSON text

The reader takes a document off the start of the text and gives the characters after it, so that
containers are read by the same step as the whole text. Blanks may stand between the parts, and
nothing else; a text must end after its document.

A container that stands in 127 others is read for its grammar only.
-/

namespace LogQuery.Json

def isSpace (c : Char) : Bool := c = ' ' || c = '\n' || c = '\t' || c = '\r'

def skipSpaces (cs : List Char) : List Char := cs.dropWhile isSpace

/-! ## Quoted texts -/

/-- What a quoted text is made of: characters, and escaped units of 16 bits. -/
inductive Piece where
  | char (c : Char)
  | unit (n : Nat)

def hexValue? (c : Char) : Option Nat := if Text.isHexDigit c then some (Text.hexDigitValue c) else none

def unitValue? (a b c d : Char) : Option Nat := do
  let a ← hexValue? a
  let b ← hexValue? b
  let c ← hexValue? c
  let d ← hexValue? d
  some (((a * 16 + b) * 16 + c) * 16 + d)

/-- The character that a letter after a backslash stands for. -/
def escapeValue? (c : Char) : Option Char :=
  if c = '\x22' || c = '\\' || c = '/' then some c
  else if c = 'b' then some '\x08'
  else if c = 'f' then some '\x0c'
  else if c = 'n' then some '\n'
  else if c = 'r' then some '\r'
  else if c = 't' then some '\t'
  else none

/-- The pieces up to the closing quote, and the characters after it. -/
def readPieces? : List Char → Option (List Piece × List Char)
  | [] => none
  | '\\' :: 'u' :: a :: b :: c :: d :: cs =>
    match unitValue? a b c d, readPieces? cs with
    | some n, some (ps, rest) => some (.unit n :: ps, rest)
    | _, _ => none
  | '\\' :: c :: cs =>
    match escapeValue? c, readPieces? cs with
    | some e, some (ps, rest) => some (.char e :: ps, rest)
    | _, _ => none
  | c :: cs =>
    if c = '\x22' then some ([], cs)
    else if c = '\\' || c.toNat < 0x20 then none
    else (readPieces? cs).map fun r => (.char c :: r.1, r.2)

def isLeadingUnit (n : Nat) : Bool := 0xD800 ≤ n && n < 0xDC00

def isTrailingUnit (n : Nat) : Bool := 0xDC00 ≤ n && n < 0xE000

/-- The character of a surrogate pair. -/
def pairValue (leading trailing : Nat) : Char :=
  Char.ofNat (0x10000 + (leading - 0xD800) * 0x400 + (trailing - 0xDC00))

/-- The characters of the pieces; nothing if half of a surrogate pair stands alone. -/
def joinPieces? : List Piece → Option (List Char)
  | [] => some []
  | .char c :: ps => (joinPieces? ps).map (c :: ·)
  | .unit n :: .unit m :: ps =>
    if isLeadingUnit n then
      if isTrailingUnit m then (joinPieces? ps).map (pairValue n m :: ·) else none
    else if isTrailingUnit n then none
    else (joinPieces? (.unit m :: ps)).map (Char.ofNat n :: ·)
  | .unit n :: ps =>
    if isLeadingUnit n || isTrailingUnit n then none else (joinPieces? ps).map (Char.ofNat n :: ·)

def joinText? (ps : List Piece) : Option String := (joinPieces? ps).map String.ofList

/-! ## Documents -/

/-- The containers that may stand in one another, for the innermost to have a meaning. -/
def depthLimit : Nat := 127

/-- A container `depth` deep, unless that is too deep. -/
def Document.atDepth (depth : Nat) (d : Document) : Document :=
  if depth ≤ depthLimit then d else .meaningless

/-- The object with these members; it has no meaning if one of the names has none. -/
def Document.ofNamed (ms : List (Option String × Document)) : Document :=
  match ms.mapM fun m => m.1.map fun k => (k, m.2) with
  | some ms => .object ms
  | none => .meaningless

/-- A quoted name with its colon, and the characters after it. -/
def readName? (cs : List Char) : Option (Option String × List Char) :=
  match skipSpaces cs with
  | [] => none
  | c :: cs =>
    if c = '\x22' then do
      let (ps, rest) ← readPieces? cs
      match skipSpaces rest with
      | ':' :: rest => some (joinText? ps, rest)
      | _ => none
    else none

def readScalar? (cs : List Char) : Option (Document × List Char) :=
  match cs with
  | 'n' :: 'u' :: 'l' :: 'l' :: rest => some (.null, rest)
  | 't' :: 'r' :: 'u' :: 'e' :: rest => some (.bool true, rest)
  | 'f' :: 'a' :: 'l' :: 's' :: 'e' :: rest => some (.bool false, rest)
  | [] => none
  | c :: rest =>
    if c = '\x22' then
      (readPieces? rest).map fun r => ((joinText? r.1).elim .meaningless .text, r.2)
    else (readNumber? cs).map fun r => (r.1.toDocument, r.2)

mutual

/-- A document at the start of the text that stands in `depth` containers. The first argument bounds
the steps; twice the length of the text is enough. -/
def readValue? (steps : Nat) (depth : Nat) (cs : List Char) : Option (Document × List Char) :=
  match steps with
  | 0 => none
  | steps + 1 =>
    match skipSpaces cs with
    | [] => none
    | c :: rest =>
      if c = '[' then
        match skipSpaces rest with
        | ']' :: rest => some (Document.atDepth (depth + 1) (.array []), rest)
        | _ => (readItems? steps (depth + 1) rest).map fun r =>
            (Document.atDepth (depth + 1) (.array r.1), r.2)
      else if c = '\x7b' then
        match skipSpaces rest with
        | [] => none
        | c :: more =>
          if c = '\x7d' then some (Document.atDepth (depth + 1) (.object []), more)
          else (readMembers? steps (depth + 1) rest).map fun r =>
            (Document.atDepth (depth + 1) (Document.ofNamed r.1), r.2)
      else readScalar? (c :: rest)

/-- The items up to the closing bracket; at least one. -/
def readItems? (steps : Nat) (depth : Nat) (cs : List Char) :
    Option (List Document × List Char) :=
  match steps with
  | 0 => none
  | steps + 1 => do
    let (d, rest) ← readValue? steps depth cs
    match skipSpaces rest with
    | ',' :: rest => (readItems? steps depth rest).map fun r => (d :: r.1, r.2)
    | ']' :: rest => some ([d], rest)
    | _ => none

/-- The members up to the closing brace; at least one. -/
def readMembers? (steps : Nat) (depth : Nat) (cs : List Char) :
    Option (List (Option String × Document) × List Char) :=
  match steps with
  | 0 => none
  | steps + 1 => do
    let (k, rest) ← readName? cs
    let (d, rest) ← readValue? steps depth rest
    match skipSpaces rest with
    | ',' :: rest => (readMembers? steps depth rest).map fun r => ((k, d) :: r.1, r.2)
    | c :: rest => if c = '\x7d' then some ([(k, d)], rest) else none
    | [] => none

end

/-- The document of a text. -/
def document? (s : String) : Option Document :=
  match readValue? (2 * s.length + 2) 0 s.toList with
  | some (d, rest) => if (skipSpaces rest).isEmpty then some d else none
  | none => none

/-- The value of a text. -/
def parse? (s : String) : Option Json := (document? s).bind Document.value?

end LogQuery.Json
