import LogQuery.Json.Basic

/-!
# JSON documents as written

A document keeps what a value forgets: the order of the members and the names given twice. Whoever
reads a document decides which parts matter. A part that follows the grammar but denotes nothing is
`meaningless`; it stops a reader that needs it and is no trouble to one that skips it.
-/

namespace LogQuery

/-- A document, or a part of one. -/
inductive Document where
  | null
  | bool (b : Bool)
  | int (i : Int)
  | float (x : Float)
  | text (s : String)
  | array (items : List Document)
  | object (members : List (String × Document))
  /-- A number beyond the doubles, a text with half of a surrogate pair, or a container nested too
  deep. -/
  | meaningless
  deriving Inhabited

namespace Document

mutual

/-- The value of a document: of members with the same name the last one counts. Nothing if some
part is meaningless. -/
def value? : Document → Option Json
  | .null => some .null
  | .bool b => some (.bool b)
  | .int i => some (.int i)
  | .float x => some (.float x)
  | .text s => some (.text s)
  | .array ds => (itemValues? ds).map .array
  | .object ms => (memberValues? ms).map .ofMembers
  | .meaningless => none

def itemValues? : List Document → Option (List Json)
  | [] => some []
  | d :: ds =>
    match value? d, itemValues? ds with
    | some v, some vs => some (v :: vs)
    | _, _ => none

def memberValues? : List (String × Document) → Option (List (String × Json))
  | [] => some []
  | (k, d) :: ms =>
    match value? d, memberValues? ms with
    | some v, some vs => some ((k, v) :: vs)
    | _, _ => none

end

mutual

/-- The document that a value makes, its members in the order of the value. -/
def ofJson : Json → Document
  | .null => .null
  | .bool b => .bool b
  | .int i => .int i
  | .float x => .float x
  | .text s => .text s
  | .array vs => .array (ofItems vs)
  | .object ms => .object (ofMembers ms)

def ofItems : List Json → List Document
  | [] => []
  | v :: vs => ofJson v :: ofItems vs

def ofMembers : List (String × Json) → List (String × Document)
  | [] => []
  | (k, v) :: ms => (k, ofJson v) :: ofMembers ms

end

/-- Names of members given more than once, among the `known` ones. -/
def hasRepeated (known : List String) (ms : List (String × Document)) : Bool :=
  known.any fun k => 1 < ms.countP fun m => m.1 = k

/-- The members of an object with the `known` names. Each may be given once; other members are
left out. -/
def knownMembers? (known : List String) (ms : List (String × Document)) : Option (Members Document) :=
  if hasRepeated known ms then none else some (ms.filter fun m => known.contains m.1)

/-- The parts of a record with the `known` parts in this order: an object with these names, or an
array with one item a part, which may end early. -/
def parts? (known : List String) : Document → Option (Members Document)
  | .object ms => knownMembers? known ms
  | .array ds => if ds.length ≤ known.length then some (known.zip ds) else none
  | _ => none

end Document

/-- Reads a part that may be absent. -/
def Members.optional? {α : Type} (ms : Members Document) (name : String) (absent : α)
    (decode? : Document → Option α) : Option α :=
  match ms.find? name with
  | none => some absent
  | some d => decode? d

/-- Reads a part that must be present. -/
def Members.required? {α : Type} (ms : Members Document) (name : String)
    (decode? : Document → Option α) : Option α :=
  (ms.find? name).bind decode?

end LogQuery
