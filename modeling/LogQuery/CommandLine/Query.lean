import LogQuery.CommandLine.Failure
import LogQuery.CommandLine.Invocation
import LogQuery.Query.Tree

/-!
# Queries of the command line

Conditions become leaves of one group: those that must hold and those that must not are joined by `and`, the
latter with their polarity turned, and those of which one must hold by `or`. A query string in either
language is one more leaf that must hold. Approximate matching is asked for by a flag and described by the
settings; exact comparison does not know it.
-/

namespace LogQuery.CommandLine

/-- The leaf of a condition (`condition_leaf`). -/
def FieldValue.leaf (exact : Bool) (fuzzy : Option FuzzyConfig) (c : FieldValue) :
    Except QueryError Leaf :=
  (Field.resolve c.field).map fun f =>
    if exact then .term f (.text c.value) else (Leaf.fullText f (.text c.value)).withFuzzy fuzzy

namespace QueryOptions

/-- How leaves match approximately, if they do. -/
def fuzzyConfig (o : QueryOptions) (s : Settings) : Option FuzzyConfig :=
  if o.fuzzy then some (s.fuzzy.getD .auto) else none

/-- The leaves of conditions; the first that names no field is at fault. -/
def leaves (o : QueryOptions) (s : Settings) (cs : List FieldValue) : Except QueryError (List Leaf) :=
  cs.mapM (FieldValue.leaf o.term (o.fuzzyConfig s))

/-- The children for the conditions. -/
def conditionEdges (o : QueryOptions) (s : Settings) : Except QueryError (List Edge) := do
  let must ← o.leaves s o.must
  let mustNot ← o.leaves s o.mustNot
  let should ← o.leaves s o.should
  .ok (must.map (fun l => (.and, .leaf l)) ++ mustNot.map (fun l => (.and, .leaf l.negated)) ++
    should.map (fun l => (.or, .leaf l)))

/-- Whether there is a query string. -/
def hasText (o : QueryOptions) : Bool := o.query.isSome || o.safeQuery.isSome

/-- The fields that query strings search. -/
def target (o : QueryOptions) : Except QueryError Target :=
  (o.queryFields.mapM Field.resolve).map Target.ofFields

/-- The leaves of the query strings that are there, the strict language first. -/
def texts (o : QueryOptions) (t : Target) : Except QueryError (List Leaf) := do
  let strict ← o.query.toList.mapM (Leaf.strict t)
  let lenient ← o.safeQuery.toList.mapM (Leaf.lenient t)
  .ok (strict ++ lenient)

/-- The children for the query strings. Fields count only if there is a string to search for. -/
def textEdges (o : QueryOptions) (s : Settings) : Except Failure (List Edge) :=
  if o.hasText then do
    let t ← o.target.mapError .queryField
    let leaves ← (o.texts t).mapError .query
    .ok (leaves.map fun l => (.and, .leaf (l.withFuzzy (o.fuzzyConfig s))))
  else .ok []

/-- The group that the options describe (`build_query`). -/
def group (o : QueryOptions) (s : Settings) : Except Failure Group := do
  let conditions ← (o.conditionEdges s).mapError .query
  let texts ← o.textEdges s
  .ok ⟨conditions ++ texts, .wanted⟩

end QueryOptions

end LogQuery.CommandLine
