import LogQuery.Json.Members

/-!
# JSON values

A value of the data format in which queries, records and result pages are exchanged. Numbers keep
their kind: an integer and a double of the same size are different values. The members of an object
are sorted by name, each name once.

Main statement: a double that is no number is not a value; `ofFloat` gives `null` for it
(`ofFloat_eq_null_iff`).
-/

namespace LogQuery

inductive Json where
  | null
  | bool (b : Bool)
  | int (i : Int)
  | float (x : Float)
  | text (s : String)
  | array (items : List Json)
  | object (members : List (String × Json))
  deriving Repr, BEq, Inhabited

namespace Json

/-- A number, or `null` for a double that JSON cannot write. -/
def ofFloat (x : Float) : Json := if x.isFinite then .float x else .null

/-- The object with these members; of two with the same name the later one counts. -/
def ofMembers (members : Members Json) : Json := .object (Members.ofList members)

/-- The object with those of the members that are present. -/
def ofOptional (members : Members (Option Json)) : Json := .object (Members.ofOptional members)

/-- The member of an object; nothing for a value of another kind. -/
def member? (v : Json) (name : String) : Option Json :=
  match v with
  | .object ms => Members.find? ms name
  | _ => none

/-- The text of a text value. -/
def text? : Json → Option String
  | .text s => some s
  | _ => none

/-- The items of an array; none for a value of another kind. -/
def items : Json → List Json
  | .array vs => vs
  | _ => []

theorem ofFloat_eq_null_iff (x : Float) : ofFloat x = .null ↔ x.isFinite = false := by
  unfold ofFloat
  split <;> simp_all

end Json

end LogQuery
