import LogQuery.Query.Tree

/-!
# Trees as clauses

A group without children compiles to the clause that matches everything, any other to one bool clause.
Its children are gathered by the operators of their edges into at most two buckets, in the order in
which the operators first appear.

- One child on an `and` edge is required, or excluded when it is unwanted.
- Of several children on `and` edges, the wanted ones are required one by one; the unwanted ones are
  excluded together by a bool clause that is itself required.
- The children on `or` edges are the alternatives of a bool clause that is required; an unwanted one is
  an alternative that excludes it.
-/

namespace LogQuery

/-- A compiled child with what the group around it needs in order to place it. -/
structure Branch where
  operator : Operator
  polarity : Polarity
  clause : Clause

/-- The branches with one operator. -/
structure Bucket where
  operator : Operator
  branches : List Branch

/-- The lists of a bool clause under construction. -/
structure BoolParts where
  must : List Clause
  mustNot : List Clause
  should : List Clause

namespace BoolParts

def empty : BoolParts := ⟨[], [], []⟩

def require (cs : List Clause) (p : BoolParts) : BoolParts := { p with must := p.must ++ cs }

def exclude (cs : List Clause) (p : BoolParts) : BoolParts := { p with mustNot := p.mustNot ++ cs }

def toClause (p : BoolParts) : Clause := .bool p.must p.mustNot p.should

end BoolParts

namespace Branch

def clausesOf (p : Polarity) (bs : List Branch) : List Clause :=
  (bs.filter fun b => b.polarity = p).map Branch.clause

/-- The branch as an alternative among others. -/
def alternative (b : Branch) : Clause :=
  match b.polarity with
  | .wanted => b.clause
  | .unwanted => .excluding [b.clause]

end Branch

namespace Bucket

/-- Puts a branch into the bucket of its operator, a new one at the end if there is none yet. -/
def insert (b : Branch) : List Bucket → List Bucket
  | [] => [⟨b.operator, [b]⟩]
  | k :: ks =>
    if k.operator = b.operator then { k with branches := k.branches ++ [b] } :: ks
    else k :: insert b ks

/-- The buckets of the branches, by first appearance of their operators (`Group::buckets`). -/
def ofBranches (bs : List Branch) : List Bucket := bs.foldl (fun ks b => insert b ks) []

/-- Places the branches on `and` edges (`compile_and_bucket`). -/
def placeRequired (p : BoolParts) (bs : List Branch) : BoolParts :=
  match bs with
  | [b] =>
    match b.polarity with
    | .wanted => p.require [b.clause]
    | .unwanted => p.exclude [b.clause]
  | bs =>
    let unwanted := Branch.clausesOf .unwanted bs
    let p := p.require (Branch.clausesOf .wanted bs)
    if unwanted.isEmpty then p else p.require [.excluding unwanted]

/-- Places the branches on `or` edges (`compile_or_bucket`). -/
def placeAlternatives (p : BoolParts) (bs : List Branch) : BoolParts :=
  p.require [.anyOf (bs.map Branch.alternative)]

def place (p : BoolParts) (k : Bucket) : BoolParts :=
  match k.operator with
  | .and => placeRequired p k.branches
  | .or => placeAlternatives p k.branches

end Bucket

/-- The clause of a group with these branches. -/
def Branch.assemble : List Branch → Clause
  | [] => .everything
  | bs => ((Bucket.ofBranches bs).foldl Bucket.place .empty).toClause

namespace Node

mutual

/-- The clause of a node, its own polarity left to the group around it (`Node::compile`). -/
def compile : Node → Clause
  | leaf l => l.compile
  | group edges _ => Branch.assemble (compileEdges edges)

def compileEdges : List (Operator × Node) → List Branch
  | [] => []
  | (o, n) :: es => ⟨o, n.polarity, compile n⟩ :: compileEdges es

end

end Node

/-- The clause of a group (`Group::compile`). -/
def Group.compile (g : Group) : Clause := g.toNode.compile

end LogQuery
