import LogQuery.Field

/-!
# Fields of a query string

A query string searches all fields, one field, or a list of fields. A list may name one field only, or
none; what is searched is read off with `fields`, where no field at all means all of them.

Main statement: `single?` is the field of a target with exactly one (`single?_eq_some_iff`).
-/

namespace LogQuery

/-- The fields that a query string searches (`QueryTarget`). -/
inductive Target where
  | allFields
  | field (f : Field)
  | fields (fs : List Field)
  deriving DecidableEq, Repr

namespace Target

/-- The fields that the target names, in order. -/
def toFields : Target → List Field
  | allFields => []
  | field f => [f]
  | fields fs => fs

/-- The target of a list of fields; no field means all. -/
def ofFields : List Field → Target
  | [] => allFields
  | f :: fs => fields (f :: fs)

def paths (t : Target) : List String := t.toFields.map Field.path

/-- The field of a target that has exactly one. -/
def single? : Target → Option Field
  | field f => some f
  | fields [f] => some f
  | _ => none

theorem single?_eq_some_iff (t : Target) (f : Field) : t.single? = some f ↔ t.toFields = [f] := by
  cases t with
  | allFields => simp [single?, toFields]
  | field g => simp [single?, toFields]
  | fields fs =>
    match fs with
    | [] => simp [single?, toFields]
    | [g] => simp [single?, toFields]
    | _ :: _ :: _ => simp [single?, toFields]

theorem toFields_ofFields (fs : List Field) : (ofFields fs).toFields = fs := by cases fs <;> rfl

end Target

end LogQuery
