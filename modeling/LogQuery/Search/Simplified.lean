import LogQuery.Search.Query

/-!
# Flat searches

A search whose conditions are all required. No query is built until the first condition is added, so a
search that has just been made cannot be run by accident. A condition that is refused builds nothing.
Once there is a query, taking its conditions away leaves a query without conditions, and the page that
was asked for stays.
-/

namespace LogQuery

/-- A search whose conditions are all required (`SimplifiedSearch`). -/
structure SimplifiedSearch where
  client : SearchClient
  query : Option BooleanQuery
  /-- The first hit and the number of hits that are asked for. -/
  page : Option (UInt32 × UInt32)

namespace SimplifiedSearch

def ofClient (c : SearchClient) : SimplifiedSearch := ⟨c, none, none⟩

/-- The query so far, or a new one (`SimplifiedSearch::query_mut`). -/
def started (s : SimplifiedSearch) : BooleanQuery := s.query.getD s.client.query

def addLeaf (l : Leaf) (s : SimplifiedSearch) : SimplifiedSearch :=
  { s with query := some (s.started.add (.leaf l)) }

/-- Requires analyzed text in a field (`SimplifiedSearch::fulltext`). -/
def fullText (f : Field) (v : Scalar) (s : SimplifiedSearch) : SimplifiedSearch :=
  s.addLeaf (.fullText f v)

/-- The leaf of a query string on one field, of the lenient kind when it is to be `safe`. -/
def queryLeaf (f : Field) (text : String) (safe : Bool) : Except QueryError Leaf :=
  if safe then Leaf.lenient (.field f) text else Leaf.strict (.field f) text

/-- Requires a query string on one field (`SimplifiedSearch::fulltext_query`). -/
def queryText (f : Field) (text : String) (safe : Bool) (s : SimplifiedSearch) :
    Except SearchError SimplifiedSearch :=
  match queryLeaf f text safe with
  | .ok l => .ok (s.addLeaf l)
  | .error e => .error (.query e)

/-- Requires a value in a field, as one unanalyzed word or as text (`SimplifiedSearch::matches`). -/
def matching (f : Field) (v : Scalar) (exact : Bool) (s : SimplifiedSearch) : SimplifiedSearch :=
  s.addLeaf (if exact then .term f v else .fullText f v)

def paginated (first size : UInt32) (s : SimplifiedSearch) : SimplifiedSearch :=
  { s with page := some (first, size) }

/-- Takes all conditions away (`SimplifiedSearch::reset`). -/
def reset (s : SimplifiedSearch) : SimplifiedSearch := { s with query := some s.client.query }

/-- The query on indented lines; nothing before there is one (`SimplifiedSearch::query_string`). -/
def display (s : SimplifiedSearch) : String := s.query.elim "" BooleanQuery.display

/-- The request that running the search sends, if there is a query. -/
def request? (s : SimplifiedSearch) : Option SearchRequest :=
  s.query.map fun q =>
    match s.page with
    | some (first, size) => q.preparePage first size
    | none => q.prepare

/-- Runs the search (`SimplifiedSearch::execute`). -/
def run {m : Type → Type} [Monad m] (t : Transport m) (s : SimplifiedSearch) : m SearchResult :=
  match s.request? with
  | some r => t r
  | none => pure (.error .emptyQuery)

end SimplifiedSearch

end LogQuery
