import LogQuery.Query.Leaf

/-!
# Query trees

A group holds its children in order, each on an edge with an operator: all children on `and` edges are
required, and one of those on `or` edges. The operator belongs to the edge, so the same leaf may stand
under `and` in one group and under `or` in another. Every node has a polarity, which the group around
it takes into account; that of the root has no effect.
-/

namespace LogQuery

/-- A condition, or a group of conditions (`Node`). -/
inductive Node where
  | leaf (l : Leaf)
  | group (edges : List (Operator × Node)) (polarity : Polarity)

/-- A child with the operator of its edge. -/
abbrev Edge := Operator × Node

/-- A group on its own, to which children are added (`Group`). -/
structure Group where
  edges : List Edge
  polarity : Polarity

namespace Node

def polarity : Node → Polarity
  | leaf l => l.polarity
  | group _ p => p

end Node

namespace Group

def empty : Group := ⟨[], .wanted⟩

def toNode (g : Group) : Node := .group g.edges g.polarity

/-- A group of the nodes, all on edges with the same operator (`Group::with_operator`). -/
def ofNodes (o : Operator) (ns : List Node) : Group := ⟨ns.map fun n => (o, n), .wanted⟩

/-- Adds a child behind all others (`Group::push`, `Group::add_with`). -/
def push (o : Operator) (n : Node) (g : Group) : Group := { g with edges := g.edges ++ [(o, n)] }

/-- Adds a required child (`Group::add`). -/
def add (n : Node) (g : Group) : Group := g.push .and n

/-- Adds a child as an alternative (`Group::or`). -/
def or (n : Node) (g : Group) : Group := g.push .or n

def addLeaf (l : Leaf) (g : Group) : Group := g.add (.leaf l)

/-- Adds a required full-text condition (`Group::match_value`). -/
def fullText (f : Field) (v : Scalar) (g : Group) : Group := g.addLeaf (.fullText f v)

def term (f : Field) (v : Scalar) (g : Group) : Group := g.addLeaf (.term f v)

def range (f : Field) (b : Bounds) (g : Group) : Group := g.addLeaf (.range f b)

/-- Adds a required strict query string, if its text is not blank (`Group::query_string`). -/
def strict (t : Target) (s : String) (g : Group) : Except QueryError Group :=
  (Leaf.strict t s).map fun l => g.addLeaf l

/-- Adds a required lenient query string, if its text is not blank (`Group::simple_query_string`). -/
def lenient (t : Target) (s : String) (g : Group) : Except QueryError Group :=
  (Leaf.lenient t s).map fun l => g.addLeaf l

def withPolarity (p : Polarity) (g : Group) : Group := { g with polarity := p }

def negated (g : Group) : Group := g.withPolarity .unwanted

/-- A group of the same polarity without children (`Group::clear`). -/
def clear (g : Group) : Group := { g with edges := [] }

def size (g : Group) : Nat := g.edges.length

def isEmpty (g : Group) : Bool := g.edges.isEmpty

end Group

end LogQuery
