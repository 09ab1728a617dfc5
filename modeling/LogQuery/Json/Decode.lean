import LogQuery.Json.Document

/-!
# Decoding parts of documents

Readers for the plain kinds of values: each gives nothing for a document of another kind. Integers
must fit their word and are never read from doubles; doubles are read from integers too. A named
choice is written as its name, or as an object with the name and a `null`.
-/

namespace LogQuery.Document

def bool? : Document → Option Bool
  | .bool b => some b
  | _ => none

def text? : Document → Option String
  | .text s => some s
  | _ => none

/-- An integer between the bounds, both included. -/
def intWithin? (lo hi : Int) : Document → Option Int
  | .int i => if lo ≤ i ∧ i ≤ hi then some i else none
  | _ => none

def int32? (d : Document) : Option Int32 :=
  (d.intWithin? Int32.minValue.toInt Int32.maxValue.toInt).map Int32.ofInt

def int64? (d : Document) : Option Int64 :=
  (d.intWithin? Int64.minValue.toInt Int64.maxValue.toInt).map Int64.ofInt

def uint32? (d : Document) : Option UInt32 :=
  (d.intWithin? 0 (UInt32.size - 1)).map fun i => UInt32.ofNat i.toNat

def uint64? (d : Document) : Option UInt64 :=
  (d.intWithin? 0 (UInt64.size - 1)).map fun i => UInt64.ofNat i.toNat

def float? : Document → Option Float
  | .float x => some x
  | .int i => some (Float.ofInt i)
  | _ => none

/-- The items of an array, each decoded. -/
def list? {α : Type} (decode? : Document → Option α) : Document → Option (List α)
  | .array ds => ds.mapM decode?
  | _ => none

/-- A part that may be `null`. -/
def nullable? {α : Type} (decode? : Document → Option α) : Document → Option (Option α)
  | .null => some none
  | d => (decode? d).map some

/-- The members of an object with their values, each name once. -/
def table? : Document → Option (Members Json)
  | .object ms => (memberValues? ms).map .ofList
  | _ => none

/-- The name of a choice. -/
def choice? : Document → Option String
  | .text s => some s
  | .object [(s, .null)] => some s
  | _ => none

end LogQuery.Document
