import LogQuery.Query.Tree

/-!
# How trees are built

Callers start a leaf from values that nobody has checked, call its setters, and put it into groups
together with groups that they have built the same way. A call that reports a fault leaves the
leaf or the group as it was. A construction writes such calls down, and `node?` carries them out.

Calls are listed once for all kinds of leaves: one that a kind lacks changes nothing there, except that
a lenient query string may be given an edit distance here.
-/

namespace LogQuery

/-! ## Leaves -/

/-- The ways to start a leaf. -/
inductive LeafStart where
  | fullText (f : Field) (v : Scalar)
  | term (f : Field) (v : Scalar)
  /-- On a field by its name or path. -/
  | fullTextNamed (name : String) (v : Scalar)
  | termNamed (name : String) (v : Scalar)
  | range (f : Field) (b : Bounds)
  /-- A range of which the ends are given one by one. -/
  | rangeEnds (f : Field) (ends : List (RangeEnd × Scalar))
  | strict (t : Target) (s : Option String)
  | lenient (t : Target) (s : Option String)

def LeafStart.build : LeafStart → Except QueryError Leaf
  | fullText f v => .ok (.fullText f v)
  | term f v => .ok (.term f v)
  | fullTextNamed name v => (Field.resolve name).map fun f => .fullText f v
  | termNamed name v => (Field.resolve name).map fun f => .term f v
  | range f b => .ok (.range f b)
  | rangeEnds f ends => (ends.foldl (fun r e => r.withEnd e.1 e.2) (RangeDraft.ofField f)).build
  | strict t s => Leaf.strictOf t s
  | lenient t s => Leaf.lenientOf t s

/-- The setters of leaves. -/
inductive LeafCall where
  | polarity (p : Polarity)
  | boost (x : Float)
  | fuzzy (f : Option FuzzyConfig)
  | editDistance (n : Nat)
  | operator (o : Operator)

def LeafCall.apply (l : Leaf) : LeafCall → Except QueryError Leaf
  | polarity p => .ok (l.withPolarity p)
  | boost x => l.withBoost x
  | fuzzy f => .ok (l.withFuzzy f)
  | editDistance n => l.withEditDistance n
  | operator o => .ok (l.withOperator o)

namespace Leaf

/-- The leaf after one call. -/
def after (l : Leaf) (c : LeafCall) : Leaf :=
  match c.apply l with
  | .ok l' => l'
  | .error _ => l

def run (l : Leaf) (cs : List LeafCall) : Leaf := cs.foldl after l

end Leaf

/-! ## Groups -/

/-- The calls that change a group, whose children are given as values of `α`. -/
inductive GroupCall (α : Type) where
  | push (o : Operator) (child : α)
  | fullText (f : Field) (v : Scalar)
  | term (f : Field) (v : Scalar)
  | range (f : Field) (b : Bounds)
  | strict (t : Target) (s : String)
  | lenient (t : Target) (s : String)
  | polarity (p : Polarity)
  | clear

def GroupCall.apply (g : Group) : GroupCall Node → Except QueryError Group
  | push o n => .ok (g.push o n)
  | fullText f v => .ok (g.fullText f v)
  | term f v => .ok (g.term f v)
  | range f b => .ok (g.range f b)
  | strict t s => g.strict t s
  | lenient t s => g.lenient t s
  | polarity p => .ok (g.withPolarity p)
  | clear => .ok g.clear

/-- The group after one call. -/
def Group.after (g : Group) (c : GroupCall Node) : Group :=
  match c.apply g with
  | .ok g' => g'
  | .error _ => g

/-! ## Trees -/

/-- A leaf with the calls on it, or a group of some first children with the calls on it. -/
inductive Construction where
  | leaf (start : LeafStart) (calls : List LeafCall)
  | group (o : Operator) (children : List Construction) (calls : List (GroupCall Construction))

namespace Construction

mutual

/-- The tree that is built; none if it is a leaf that could not be started. -/
def node? : Construction → Option Node
  | leaf start calls => start.build.toOption.map fun l => .leaf (l.run calls)
  | group o children calls => some (run calls (.ofNodes o (nodes children))).toNode

def nodes : List Construction → List Node
  | [] => []
  | c :: cs => (node? c).toList ++ nodes cs

/-- The group after the calls; one for which there is no child is not made. -/
def run : List (GroupCall Construction) → Group → Group
  | [], g => g
  | c :: cs, g => run cs (((call? c).map g.after).getD g)

def call? : GroupCall Construction → Option (GroupCall Node)
  | .push o c => (node? c).map fun n => .push o n
  | .fullText f v => some (.fullText f v)
  | .term f v => some (.term f v)
  | .range f b => some (.range f b)
  | .strict t s => some (.strict t s)
  | .lenient t s => some (.lenient t s)
  | .polarity p => some (.polarity p)
  | .clear => some .clear

end

end Construction

end LogQuery
