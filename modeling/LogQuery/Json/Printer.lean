import LogQuery.Json.Basic
import LogQuery.Decimal.Layout

/-!
# JSON as text

One printer with two settings of its blanks: `compact` writes none, `pretty` puts every item and
member on a line of its own, two spaces further in than its container, and a space after a colon.
Empty containers have no blanks inside in either. A text escapes the quote, the backslash and the
control characters below U+0020, and nothing else.

Main statement: the character after an item of a container is a comma or the closing bracket, with
only the setting's line break before it (`itemChars`, `memberChars`).
-/

namespace LogQuery.Json

open LogQuery.Text

/-- Doubles have an exponent mark below `1e-5` and from `1e16` on; whole ones end in `.0`. -/
def numberLayout : Decimal.Layout := ⟨fun power => -5 ≤ power && power ≤ 15, true⟩

def hexDigit (n : Nat) : Char := Nat.digitChar n

/-- A character inside a quoted text. -/
def escapedChar (c : Char) : List Char :=
  if c = '\x22' then ['\\', '\x22']
  else if c = '\\' then ['\\', '\\']
  else if c = '\x08' then ['\\', 'b']
  else if c = '\x0c' then ['\\', 'f']
  else if c = '\n' then ['\\', 'n']
  else if c = '\r' then ['\\', 'r']
  else if c = '\t' then ['\\', 't']
  else if c.toNat < 0x20 then ['\\', 'u', '0', '0', hexDigit (c.toNat / 16), hexDigit (c.toNat % 16)]
  else [c]

def quotedChars (s : String) : List Char :=
  '\x22' :: s.toList.flatMap escapedChar ++ ['\x22']

def floatChars (x : Float) : List Char :=
  if x.isFinite then numberLayout.finiteChars x else ['n', 'u', 'l', 'l']

/-- Where a printer puts blanks. -/
structure Spacing where
  /-- What stands before an item, and before the closing bracket, at a depth. -/
  line : Nat → List Char
  /-- What stands between the colon of a member and its value. -/
  afterColon : List Char

/-- No blanks at all. -/
def compact : Spacing := ⟨fun _ => [], []⟩

/-- One item a line, indented by two spaces a level. -/
def pretty : Spacing := ⟨fun depth => '\n' :: List.replicate (2 * depth) ' ', [' ']⟩

mutual

/-- The text of a value that stands in `depth` containers. -/
def printChars (sp : Spacing) (depth : Nat) : Json → List Char
  | .null => ['n', 'u', 'l', 'l']
  | .bool true => ['t', 'r', 'u', 'e']
  | .bool false => ['f', 'a', 'l', 's', 'e']
  | .int i => intChars i
  | .float x => floatChars x
  | .text s => quotedChars s
  | .array [] => ['[', ']']
  | .array (v :: vs) =>
    '[' :: sp.line (depth + 1) ++ printChars sp (depth + 1) v ++ itemChars sp (depth + 1) vs ++
      sp.line depth ++ [']']
  | .object [] => ['\x7b', '\x7d']
  | .object ((k, v) :: ms) =>
    '\x7b' :: sp.line (depth + 1) ++ quotedChars k ++ ':' :: sp.afterColon ++
      printChars sp (depth + 1) v ++ memberChars sp (depth + 1) ms ++ sp.line depth ++ ['\x7d']

/-- The items after the first, each behind a comma. -/
def itemChars (sp : Spacing) (depth : Nat) : List Json → List Char
  | [] => []
  | v :: vs => ',' :: sp.line depth ++ printChars sp depth v ++ itemChars sp depth vs

/-- The members after the first, each behind a comma. -/
def memberChars (sp : Spacing) (depth : Nat) : List (String × Json) → List Char
  | [] => []
  | (k, v) :: ms =>
    ',' :: sp.line depth ++ quotedChars k ++ ':' :: sp.afterColon ++ printChars sp depth v ++
      memberChars sp depth ms

end

def render (sp : Spacing) (v : Json) : String := String.ofList (printChars sp 0 v)

/-- The text of a value without blanks. -/
def toCompact (v : Json) : String := render compact v

/-- The text of a value on indented lines. -/
def toPretty (v : Json) : String := render pretty v

end LogQuery.Json
