import LogQuery.Fuzzy
import LogQuery.Json.Printer
import LogQuery.Query.Scalar

/-!
# Clauses of the backend's query language

What a query tree compiles to, and nothing else that the backend knows: a neutral clause, a bool
clause that joins others, and five kinds of clauses that look at documents. A bool clause requires
all of `must` and none of `mustNot`; one of `should` is required when `must` is empty.

The JSON form leaves out empty lists and absent parameters. A lenient query string has no place for
an edit distance, which its text gives term by term.
-/

namespace LogQuery

/-- Whether all of several parts are required, or one of them (`LogicalOperator`, `DefaultOperator`). -/
inductive Operator where
  | and
  | or
  deriving DecidableEq, Repr

namespace Operator

def name : Operator → String
  | and => "AND"
  | or => "OR"

def toJson (o : Operator) : Json := .text o.name

def ofName? (s : String) : Option Operator :=
  if s = "AND" then some and else if s = "OR" then some or else none

def decode? (d : Document) : Option Operator := d.choice?.bind ofName?

end Operator

/-- Analyzed comparison with one field. -/
structure MatchClause where
  field : String
  value : Scalar
  operator : Option Operator
  fuzzy : Option FuzzyConfig
  boost : Float

/-- Exact comparison with one field. -/
structure TermClause where
  field : String
  value : Scalar
  boost : Float

/-- One field between two ends. -/
structure RangeClause where
  field : String
  bounds : Bounds
  boost : Float

/-- A query string. The strict kind is refused by the backend when its text is malformed. -/
structure StrictClause where
  text : String
  defaultField : Option String
  fields : List String
  operator : Option Operator
  fuzzy : Option FuzzyConfig
  boost : Float

/-- A query string of which the backend ignores malformed parts. -/
structure LenientClause where
  text : String
  fields : List String
  operator : Option Operator
  fuzzy : Option FuzzyConfig
  boost : Float

/-! ## Members of the JSON form -/

/-- The members of an approximate match, where names of numbers start with `lead`. -/
def FuzzyConfig.clauseMembers (lead : String) (f : Option FuzzyConfig) : Members (Option Json) :=
  [(lead ++ "max_expansions", f.map fun f => .int f.maxExpansions.toNat),
    (lead ++ "prefix_length", f.map fun f => .int f.prefixLength.toNat),
    ("fuzzy_transpositions", f.map fun f => .bool f.transpositions)]

def FuzzyConfig.distanceMember (f : Option FuzzyConfig) : String × Option Json :=
  ("fuzziness", f.map fun f => f.fuzziness.toJson)

/-- Nothing for an empty list. -/
def Json.nonEmptyArray (vs : List Json) : Option Json := if vs.isEmpty then none else some (.array vs)

def MatchClause.toJson (c : MatchClause) : Json :=
  .ofMembers [(c.field, .ofOptional
    ([("query", some c.value.toJson), ("operator", c.operator.map Operator.toJson),
      FuzzyConfig.distanceMember c.fuzzy, ("boost", some (.ofFloat c.boost))] ++
      FuzzyConfig.clauseMembers "" c.fuzzy))]

def TermClause.toJson (c : TermClause) : Json :=
  .ofMembers [(c.field, .ofMembers [("value", c.value.toJson), ("boost", .ofFloat c.boost)])]

def RangeClause.toJson (c : RangeClause) : Json :=
  .ofMembers [(c.field, .ofMembers [("gte", c.bounds.lower.toJson), ("lte", c.bounds.upper.toJson),
    ("boost", .ofFloat c.boost)])]

def StrictClause.toJson (c : StrictClause) : Json :=
  .ofOptional
    ([("query", some (.text c.text)), ("default_field", c.defaultField.map .text),
      ("fields", Json.nonEmptyArray (c.fields.map Json.text)),
      ("default_operator", c.operator.map Operator.toJson),
      FuzzyConfig.distanceMember c.fuzzy,
      ("boost", some (.ofFloat c.boost))] ++ FuzzyConfig.clauseMembers "fuzzy_" c.fuzzy)

def LenientClause.toJson (c : LenientClause) : Json :=
  .ofOptional
    ([("query", some (.text c.text)), ("fields", Json.nonEmptyArray (c.fields.map Json.text)),
      ("default_operator", c.operator.map Operator.toJson),
      ("boost", some (.ofFloat c.boost))] ++ FuzzyConfig.clauseMembers "fuzzy_" c.fuzzy)

/-- A query in the language of the backend (`QueryObject`). -/
inductive Clause where
  | matchAll (boost : Float)
  | bool (must mustNot should : List Clause)
  | fullText (c : MatchClause)
  | term (c : TermClause)
  | range (c : RangeClause)
  | strict (c : StrictClause)
  | lenient (c : LenientClause)
  deriving Inhabited

namespace Clause

/-- The weight of a clause that sets none. -/
def defaultBoost : Float := 1.0

/-- The clause that every document meets. -/
def everything : Clause := matchAll defaultBoost

/-- Excludes what any of the clauses matches (`BoolQuery::excluding`). -/
def excluding (cs : List Clause) : Clause := bool [] cs []

/-- Requires one of the clauses (`BoolQuery::any_of`). -/
def anyOf (cs : List Clause) : Clause := bool [] [] cs

/-- The name of the kind in the query language. -/
def kind : Clause → String
  | matchAll _ => "match_all"
  | bool .. => "bool"
  | fullText _ => "match"
  | term _ => "term"
  | range _ => "range"
  | strict _ => "query_string"
  | lenient _ => "simple_query_string"

def isMatchAll : Clause → Bool
  | matchAll _ => true
  | _ => false

/-- The weight; a bool clause has none of its own (`QueryObject::boost`). -/
def boost? : Clause → Option Float
  | matchAll boost => some boost
  | bool .. => none
  | fullText c => some c.boost
  | term c => some c.boost
  | range c => some c.boost
  | strict c => some c.boost
  | lenient c => some c.boost

/-- The clause with another weight; a bool clause stays as it is. -/
def withBoost (x : Float) : Clause → Clause
  | matchAll _ => matchAll x
  | bool must mustNot should => bool must mustNot should
  | fullText c => fullText { c with boost := x }
  | term c => term { c with boost := x }
  | range c => range { c with boost := x }
  | strict c => strict { c with boost := x }
  | lenient c => lenient { c with boost := x }

mutual

/-- Whether a strict query string stands anywhere in the clause (`QueryObject::contains_query_string`). -/
def hasStrict : Clause → Bool
  | strict _ => true
  | bool must mustNot should => anyStrict must || anyStrict mustNot || anyStrict should
  | _ => false

def anyStrict : List Clause → Bool
  | [] => false
  | c :: cs => hasStrict c || anyStrict cs

end

mutual

/-- The clause as the backend reads it (`QueryObject::to_json`). -/
def toJson : Clause → Json
  | matchAll boost => .ofMembers [("match_all", .ofMembers [("boost", .ofFloat boost)])]
  | bool must mustNot should =>
    .ofMembers [("bool", .ofOptional [("must", Json.nonEmptyArray (listToJson must)),
      ("must_not", Json.nonEmptyArray (listToJson mustNot)),
      ("should", Json.nonEmptyArray (listToJson should))])]
  | fullText c => .ofMembers [("match", c.toJson)]
  | term c => .ofMembers [("term", c.toJson)]
  | range c => .ofMembers [("range", c.toJson)]
  | strict c => .ofMembers [("query_string", c.toJson)]
  | lenient c => .ofMembers [("simple_query_string", c.toJson)]

def listToJson : List Clause → List Json
  | [] => []
  | c :: cs => toJson c :: listToJson cs

end

/-- The JSON text of a clause on indented lines. -/
def display (c : Clause) : String := c.toJson.toPretty

end Clause

end LogQuery
