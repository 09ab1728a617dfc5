import LogQuery.Field
import LogQuery.Fuzzy
import LogQuery.Decimal.Layout

/-!
# Faults of a query

Everything that can be wrong with a query shows while its tree is built. A tree that has been built
compiles.
-/

namespace LogQuery

/-- One end of a range. -/
inductive RangeEnd where
  | lower
  | upper
  deriving DecidableEq, Repr

def RangeEnd.name : RangeEnd → String
  | lower => "from"
  | upper => "to"

/-- What can be wrong with a query (`QueryError`). -/
inductive QueryError where
  /-- A name that is neither a symbolic name nor a path of the registry, as it was given. -/
  | unknownField (name : String)
  /-- A query string with no text, or with blank text. -/
  | missingText
  | missingBound (field : Field) (which : RangeEnd)
  | editDistanceTooFar (edits : Nat)
  /-- A weight that is negative or no finite number. -/
  | invalidBoost (weight : Float)
  deriving Repr

namespace QueryError

def message : QueryError → String
  | unknownField name => "Unknown field: " ++ name
  | missingText => "Query value is missing: query-string leaves require non-blank query text"
  | missingBound f e =>
    "Invalid range on field " ++ f.name ++ ": missing '" ++ e.name ++ "' bound"
  | editDistanceTooFar n => (FuzzinessError.tooFar n).message
  | invalidBoost x =>
    "Invalid boost " ++ Decimal.plainText x ++ ": must be a finite, non-negative number"

end QueryError

/-- The field of a name or path with blanks around it (`Field::resolve`). -/
def Field.resolve (s : String) : Except QueryError Field :=
  match resolve? s with
  | some f => .ok f
  | none => .error (.unknownField s)

theorem Field.resolve_eq_ok_iff {s : String} {f : Field} : resolve s = .ok f ↔ resolve? s = some f := by
  unfold resolve
  cases resolve? s <;> simp

end LogQuery
