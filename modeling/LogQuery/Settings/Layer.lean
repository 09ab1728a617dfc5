import LogQuery.Settings.Loose

/-!
# Layers of settings

Settings come in layers, each of which is put over those before it. A table is merged into a table
member by member, at any depth; any other value replaces what is there. Names are compared without
regard to case.

The name of an entry may also be the way to a place further inside: names with points between them, and
positions in brackets. A name that is no such way stands for itself.

Main statement: a value that is no table is found where it was put (`find?_assign`).
-/

namespace LogQuery

open LogQuery.Text

/-- A step on the way to a place inside a value. -/
inductive PlaceStep where
  | name (s : String)
  | position (i : Int)
  deriving DecidableEq, Repr

/-- The named entries of a layer. -/
abbrev Layer := List (String × Loose)

namespace Layer

/-! ## Ways to a place -/

def isNameChar (c : Char) : Bool := c.isAlphanum || c = '_' || c = '-' || c = ' '

def isBlankOrTab (c : Char) : Bool := c = ' ' || c = '\t'

/-- A position with its closing bracket, and the characters after it. -/
def readPosition? (cs : List Char) : Option (Int × List Char) :=
  let cs := cs.dropWhile isBlankOrTab
  let (negative, cs) :=
    match cs with
    | '-' :: rest => (true, rest)
    | _ => (false, cs)
  let digits := cs.takeWhile Char.isDigit
  match (cs.dropWhile Char.isDigit).dropWhile isBlankOrTab with
  | ']' :: rest =>
    let n := ofDigitChars digits
    if digits.isEmpty || Int64.maxValue.toInt < n then none else some (if negative then -n else n, rest)
  | _ => none

/-- One step after the first name, and the characters after it. -/
def readStep? : List Char → Option (PlaceStep × List Char)
  | '.' :: cs =>
    let name := cs.takeWhile isNameChar
    if name.isEmpty then none else some (.name (String.ofList name), cs.dropWhile isNameChar)
  | '[' :: cs => (readPosition? cs).map fun r => (.position r.1, r.2)
  | _ => none

/-- The steps up to the end of the text; the first argument bounds their number. -/
def readSteps? : Nat → List Char → Option (List PlaceStep)
  | _, [] => some []
  | 0, _ => none
  | n + 1, cs => do
    let (s, rest) ← readStep? cs
    (readSteps? n rest).map (s :: ·)

/-- The way that the name of an entry stands for. -/
def placeOf (key : String) : List PlaceStep :=
  let cs := key.toList
  let name := cs.takeWhile isNameChar
  match readSteps? cs.length (cs.dropWhile isNameChar) with
  | some steps => if name.isEmpty then [.name key] else .name (String.ofList name) :: steps
  | none => [.name key]

/-! ## Putting a value in its place -/

mutual

/-- Puts a value under a name, merging a table into what is there. -/
def assign (value : Loose) (key : String) (root : Loose) : Loose :=
  match value with
  | .table ms =>
    let there := (root.members.find? (Loose.lower key)).getD (.table [])
    .table (root.members.insert (Loose.lower key) (assignAll ms there))
  | value => .table (root.members.insert (Loose.lower key) value)

def assignAll (ms : List (String × Loose)) (root : Loose) : Loose :=
  match ms with
  | [] => root
  | (k, v) :: ms => assignAll ms (assign v k root)

end

/-- The position counted from the start, where a negative one counts from the end. -/
def positionFrom (size : Nat) (i : Int) : Nat := if 0 ≤ i then i.toNat else (size + i).toNat

/-- Changes the item at a position; the list grows if it has to. -/
def modifyItem (i : Int) (f : Loose → Loose) (root : Loose) : Loose :=
  let n := positionFrom root.items.length i
  let grown := root.items ++ List.replicate (n + 1 - root.items.length) .nil
  .list (grown.modify n f)

/-- Puts a value at the end of a way. On the way, what is neither table nor list where one is needed
gives way to an empty one. -/
def assignAt (value : Loose) : List PlaceStep → Loose → Loose
  | [], root => root
  | [.name k], root => assign value k root
  | [.position i], root => modifyItem i (fun _ => value) root
  | .name k :: rest, root =>
    .table (root.members.insert k (assignAt value rest ((root.members.find? k).getD .nil)))
  | .position i :: rest, root => modifyItem i (assignAt value rest) root

/-- Puts a layer over the values so far. -/
def applyTo (layer : Layer) (root : Loose) : Loose :=
  layer.foldl (fun root e => assignAt e.2 (placeOf e.1) root) root

theorem find?_assign {value : Loose} (h : ∀ ms, value ≠ .table ms) (key : String) (root : Loose) :
    (assign value key root).members.find? (Loose.lower key) = some value := by
  cases value with
  | table ms => exact absurd rfl (h ms)
  | _ => simp [assign, Loose.members, Members.find?_insert]

end Layer

end LogQuery
