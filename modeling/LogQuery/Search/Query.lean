import LogQuery.Query.Compile
import LogQuery.Search.Index

/-!
# Queries of a client

A client searches one index, whose name it can compute again. A query that is started keeps the name of
that moment. It has a root group and sorting options; a sort is asked for when sorting is on and a
field has been chosen.
-/

namespace LogQuery

/-- A root group with sorting options, for one index. -/
structure BooleanQuery where
  index : String
  root : Group
  sortField : Option Field
  sortOrder : SortOrder
  sorting : Bool

namespace BooleanQuery

/-- A query without conditions. -/
def ofIndex (index : String) : BooleanQuery := ⟨index, .empty, none, .ascending, false⟩

def useSorting (q : BooleanQuery) : BooleanQuery := { q with sorting := true }

def noSorting (q : BooleanQuery) : BooleanQuery := { q with sorting := false }

def withSortOrder (o : SortOrder) (q : BooleanQuery) : BooleanQuery := { q with sortOrder := o }

def sortOn (f : Field) (q : BooleanQuery) : BooleanQuery := { q with sortField := some f }

def withRoot (g : Group) (q : BooleanQuery) : BooleanQuery := { q with root := g }

/-- Changes the root group. -/
def mapRoot (f : Group → Group) (q : BooleanQuery) : BooleanQuery := { q with root := f q.root }

def push (o : Operator) (n : Node) (q : BooleanQuery) : BooleanQuery := q.mapRoot (Group.push o n)

def add (n : Node) (q : BooleanQuery) : BooleanQuery := q.push .and n

def or (n : Node) (q : BooleanQuery) : BooleanQuery := q.push .or n

def fullText (f : Field) (v : Scalar) (q : BooleanQuery) : BooleanQuery := q.mapRoot (Group.fullText f v)

def term (f : Field) (v : Scalar) (q : BooleanQuery) : BooleanQuery := q.mapRoot (Group.term f v)

def range (f : Field) (b : Bounds) (q : BooleanQuery) : BooleanQuery := q.mapRoot (Group.range f b)

def strict (t : Target) (s : String) (q : BooleanQuery) : Except QueryError BooleanQuery :=
  (q.root.strict t s).map fun g => q.withRoot g

def lenient (t : Target) (s : String) (q : BooleanQuery) : Except QueryError BooleanQuery :=
  (q.root.lenient t s).map fun g => q.withRoot g

def size (q : BooleanQuery) : Nat := q.root.size

def isEmpty (q : BooleanQuery) : Bool := q.root.isEmpty

/-- The sort that a request asks for (`BooleanQuery::sort`). -/
def sort? (q : BooleanQuery) : Option SortKey :=
  if q.sorting then q.sortField.map fun f => ⟨f, q.sortOrder⟩ else none

/-- The request of the query, without a page (`BooleanQuery::prepare_request`). -/
def prepare (q : BooleanQuery) : SearchRequest :=
  { SearchRequest.of q.index q.root.compile with sort := q.sort? }

def preparePage (first size : UInt32) (q : BooleanQuery) : SearchRequest :=
  q.prepare.paginate first size

/-- Runs the query (`BooleanQuery::execute_raw`). -/
def run {m : Type → Type} (t : Transport m) (q : BooleanQuery) : m SearchResult := t q.prepare

/-- Runs the query for one page (`BooleanQuery::execute_paginated_raw`). -/
def runPage {m : Type → Type} (t : Transport m) (first size : UInt32) (q : BooleanQuery) :
    m SearchResult :=
  t (q.preparePage first size)

/-- The compiled root group on indented lines. -/
def display (q : BooleanQuery) : String := q.root.compile.display

end BooleanQuery

/-- A client of one index. -/
structure SearchClient where
  index : LogIndex

namespace SearchClient

/-- Starts a query on the index by its present name (`SearchClient::boolean_query`). -/
def query (c : SearchClient) : BooleanQuery := .ofIndex c.index.name

/-- Computes the name of the index for an instant; queries that were started keep theirs. -/
def recalculate (t : Instant) (c : SearchClient) : SearchClient := ⟨c.index.recalculate t⟩

end SearchClient

end LogQuery
