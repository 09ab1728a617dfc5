import LogQuery.Field
import LogQuery.Query.Clause

/-!
# Search requests

A compiled query with the index it is addressed to, and optionally a sort and a page. Sorting uses the
exact path of a field. The body of a request has everything but the index.
-/

namespace LogQuery

inductive SortOrder where
  | ascending
  | descending
  deriving DecidableEq, Repr

namespace SortOrder

def name : SortOrder → String
  | ascending => "asc"
  | descending => "desc"

def ofName? (s : String) : Option SortOrder :=
  if s = "asc" then some ascending else if s = "desc" then some descending else none

def toJson (o : SortOrder) : Json := .text o.name

def decode? (d : Document) : Option SortOrder := d.choice?.bind ofName?

end SortOrder

/-- A field to sort on, and the direction (`Sort`). -/
structure SortKey where
  field : Field
  order : SortOrder
  deriving DecidableEq, Repr

def SortKey.toJson (s : SortKey) : Json :=
  .ofMembers [(s.field.exactPath, .ofMembers [("order", s.order.toJson)])]

structure SearchRequest where
  index : String
  query : Clause
  sort : Option SortKey
  /-- The position of the first hit. -/
  first? : Option UInt32
  /-- The largest number of hits. -/
  size? : Option UInt32

namespace SearchRequest

/-- A request without sort and page. -/
def of (index : String) (query : Clause) : SearchRequest := ⟨index, query, none, none, none⟩

def paginate (first size : UInt32) (r : SearchRequest) : SearchRequest :=
  { r with first? := some first, size? := some size }

/-- What is sent to the backend (`SearchRequest::body`). -/
def body (r : SearchRequest) : Json :=
  .ofOptional [("query", some r.query.toJson), ("sort", r.sort.map fun s => .array [s.toJson]),
    ("from", r.first?.map fun n => .int n.toNat), ("size", r.size?.map fun n => .int n.toNat)]

end SearchRequest

end LogQuery
