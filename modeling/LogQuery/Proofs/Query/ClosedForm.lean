import LogQuery.Proofs.Query.Assembly

/-!
# The clause of a group in closed form

The children of a group fall into those on `and` edges and those on `or` edges, each in order. What the
group compiles to is written down here from the two lists alone, together with the operator of the first
edge, which says whose part of `must` comes first (`compile_closed`). How the two kinds of edges alternate
behind the first one therefore does not matter.

The compiler gets there by a detour over buckets; that these hold the same children is
`Branch.on_branches`, and each part is then one case analysis over none, one or several children.
-/

namespace LogQuery

/-! ## The two kinds of children -/

namespace Group

/-- The children on edges with the operator, in order. -/
def childrenOn (o : Operator) (g : Group) : List Node := (g.edges.filter fun e => e.1 = o).map Prod.snd

/-- The operator of the first edge. -/
def firstOperator? (g : Group) : Option Operator := g.edges.head?.map Prod.fst

end Group

/-! ## Their parts of the clause -/

namespace Node

/-- The clauses of the nodes with the polarity, in order. -/
def clausesWith (p : Polarity) (ns : List Node) : List Clause :=
  (ns.filter fun n => n.polarity = p).map compile

/-- One of several alternatives; an unwanted node is wrapped by a clause that excludes it. -/
def alternative (n : Node) : Clause :=
  match n.polarity with
  | .wanted => n.compile
  | .unwanted => .bool [] [n.compile] []

/-- What the children on `and` edges add to `must`. Of several, the wanted ones stand there one by one,
and the unwanted ones, if there are any, are excluded by one clause behind them. -/
def requiredPart : List Node → List Clause
  | [n] => if n.polarity = .wanted then [n.compile] else []
  | ns =>
    clausesWith .wanted ns ++
      if ∃ n ∈ ns, n.polarity = .unwanted then [.bool [] (clausesWith .unwanted ns) []] else []

/-- What they add to `mustNot`: a single child that is unwanted. -/
def excludedPart : List Node → List Clause
  | [n] => if n.polarity = .unwanted then [n.compile] else []
  | _ => []

/-- What the children on `or` edges add to `must`: one clause with an alternative for each. -/
def alternativesPart : List Node → List Clause
  | [] => []
  | ns => [.bool [] [] (ns.map alternative)]

end Node

/-- The clause of a group with these children on `and` and on `or` edges, of which those with the operator
`first` come first. -/
def Clause.ofChildren (first : Operator) (required alternatives : List Node) : Clause :=
  .bool
    (if first = .and then Node.requiredPart required ++ Node.alternativesPart alternatives
      else Node.alternativesPart alternatives ++ Node.requiredPart required)
    (Node.excludedPart required) []

/-! ## From buckets to parts -/

/-- The branches of nodes that are all on edges with one operator. -/
def Node.branchesOn (o : Operator) (ns : List Node) : List Branch := ns.map fun n => branch (o, n)

/-- A bucket holds the branches of the children with its operator. -/
theorem Branch.on_branches (o : Operator) (g : Group) :
    on o (g.edges.map Node.branch) = Node.branchesOn o (g.childrenOn o) := by
  rw [on, List.filter_map, Node.branchesOn, Group.childrenOn, List.map_map]
  refine List.map_congr_left fun e he => ?_
  have ho : e.1 = o := of_decide_eq_true (List.mem_filter.1 he).2
  rw [Function.comp_apply, ← ho]

theorem Branch.clausesOf_branchesOn (p : Polarity) (o : Operator) (ns : List Node) :
    clausesOf p (Node.branchesOn o ns) = Node.clausesWith p ns := by
  rw [clausesOf, Node.branchesOn, List.filter_map, List.map_map]
  rfl

namespace Bucket

theorem excludedTogether_clausesWith (ns : List Node) :
    excludedTogether (Node.clausesWith .unwanted ns) =
      if ∃ n ∈ ns, n.polarity = .unwanted then [.bool [] (Node.clausesWith .unwanted ns) []] else [] := by
  by_cases h : ∃ n ∈ ns, n.polarity = .unwanted
  · obtain ⟨n, hn, hp⟩ := h
    have hne : Node.clausesWith .unwanted ns ≠ [] :=
      List.ne_nil_of_mem (List.mem_map_of_mem (List.mem_filter.2 ⟨hn, by simpa using hp⟩))
    rw [if_pos ⟨n, hn, hp⟩]
    cases hcs : Node.clausesWith .unwanted ns with
    | nil => exact absurd hcs hne
    | cons c cs => rfl
  · have hnil : Node.clausesWith .unwanted ns = [] := by
      rw [Node.clausesWith, List.filter_eq_nil_iff.2 fun n hn => by simpa using fun hp => h ⟨n, hn, hp⟩]
      rfl
    rw [if_neg h, hnil]
    rfl

theorem flatMap_required_and (ns : List Node) :
    (ofNonEmpty .and (Node.branchesOn .and ns)).flatMap required = Node.requiredPart ns := by
  obtain _ | ⟨n, _ | ⟨m, ns⟩⟩ := ns
  · simp [Node.branchesOn, ofNonEmpty, Node.requiredPart, Node.clausesWith]
  · cases h : n.polarity <;> simp [Node.branchesOn, ofNonEmpty, required, Node.requiredPart,
      Branch.clausesOf, Node.branch, h]
  · have hparts : (ofNonEmpty .and (Node.branchesOn .and (n :: m :: ns))).flatMap required =
        Branch.clausesOf .wanted (Node.branchesOn .and (n :: m :: ns)) ++
          excludedTogether (Branch.clausesOf .unwanted (Node.branchesOn .and (n :: m :: ns))) := by
      simp [Node.branchesOn, ofNonEmpty, required]
    rw [hparts, Branch.clausesOf_branchesOn, Branch.clausesOf_branchesOn, excludedTogether_clausesWith,
      Node.requiredPart]
    intro k hk
    cases hk

theorem flatMap_excluded_and (ns : List Node) :
    (ofNonEmpty .and (Node.branchesOn .and ns)).flatMap excluded = Node.excludedPart ns := by
  obtain _ | ⟨n, _ | ⟨m, ns⟩⟩ := ns
  · rfl
  · cases h : n.polarity <;> simp [Node.branchesOn, ofNonEmpty, excluded, Node.excludedPart,
      Branch.clausesOf, Node.branch, h]
  · rfl

theorem flatMap_required_or (ns : List Node) :
    (ofNonEmpty .or (Node.branchesOn .or ns)).flatMap required = Node.alternativesPart ns := by
  cases ns with
  | nil => rfl
  | cons n ns =>
    have halt : (Node.branchesOn .or (n :: ns)).map Branch.alternative =
        (n :: ns).map Node.alternative := by
      rw [Node.branchesOn, List.map_map]
      rfl
    rw [Node.alternativesPart, ← halt]
    · rfl
    · exact List.cons_ne_nil n ns

theorem flatMap_excluded_or (ns : List Node) :
    (ofNonEmpty .or (Node.branchesOn .or ns)).flatMap excluded = [] := by
  cases ns <;> rfl

end Bucket

namespace Group

/-- The compiler makes the closed form. -/
theorem compile_eq_ofChildren {g : Group} {o : Operator} (h : g.firstOperator? = some o) :
    g.compile = .ofChildren o (g.childrenOn .and) (g.childrenOn .or) := by
  have hand := Branch.on_branches .and g
  have hor := Branch.on_branches .or g
  obtain ⟨e, es, he⟩ : ∃ e es, g.edges = e :: es := by
    cases hes : g.edges with
    | nil => simp [firstOperator?, hes] at h
    | cons e es => exact ⟨e, es, rfl⟩
  have ho : (Node.branch e).operator = o := by
    rw [firstOperator?, he] at h
    exact Option.some.inj h
  rw [compile, toNode, Node.compile_group, he, List.map_cons, Branch.assemble_cons,
    Bucket.ofBranches_cons, ho, ← List.map_cons, ← he, Clause.ofChildren]
  cases o with
  | and => simp [Operator.other, hand, hor, Bucket.flatMap_required_and, Bucket.flatMap_required_or,
      Bucket.flatMap_excluded_and, Bucket.flatMap_excluded_or]
  | or => simp [Operator.other, hand, hor, Bucket.flatMap_required_and, Bucket.flatMap_required_or,
      Bucket.flatMap_excluded_and, Bucket.flatMap_excluded_or]

/-- **A group compiles to the closed form** (`Group::compile`) of its children on `and` edges, its children on `or`
edges and its first operator, and so does every group that has these in common with it. -/
theorem compile_closed (g : Group) (h : g.edges ≠ []) :
    (∃ o, g.firstOperator? = some o ∧
        g.compile = .ofChildren o (g.childrenOn .and) (g.childrenOn .or)) ∧
      ∀ g' : Group, g'.childrenOn .and = g.childrenOn .and → g'.childrenOn .or = g.childrenOn .or →
        g'.firstOperator? = g.firstOperator? → g'.compile = g.compile := by
  obtain ⟨o, ho⟩ : ∃ o, g.firstOperator? = some o := by
    obtain ⟨e, es, he⟩ := List.exists_cons_of_ne_nil h
    exact ⟨e.1, by simp [firstOperator?, he]⟩
  refine ⟨⟨o, ho, compile_eq_ofChildren ho⟩, fun g' hand hor hfirst => ?_⟩
  rw [compile_eq_ofChildren ho, compile_eq_ofChildren (hfirst.trans ho), hand, hor]

/-- Wanted and unwanted leaves, all alternatives before the first required one. -/
def partitioned : Group :=
  ⟨[(.or, .leaf (.term .level (.text "warn"))), (.or, .leaf (.negated (.term .level (.text "info")))),
    (.and, .leaf (.term .thread (.text "main"))),
    (.and, .leaf (.negated (.term .message (.text "noise"))))], .wanted⟩

/-- The same leaves with the two kinds of edges in turns. -/
def interleaved : Group :=
  ⟨[(.or, .leaf (.term .level (.text "warn"))), (.and, .leaf (.term .thread (.text "main"))),
    (.or, .leaf (.negated (.term .level (.text "info")))),
    (.and, .leaf (.negated (.term .message (.text "noise"))))], .unwanted⟩

theorem compile_interleaved :
    partitioned.edges ≠ [] ∧
      partitioned.compile =
        .bool
          [.bool [] []
            [(Leaf.term .level (.text "warn")).compile,
              .bool [] [(Leaf.term .level (.text "info")).compile] []],
            (Leaf.term .thread (.text "main")).compile,
            .bool [] [(Leaf.term .message (.text "noise")).compile] []] [] [] ∧
      interleaved.compile = partitioned.compile := by
  have hne : partitioned.edges ≠ [] := by simp [partitioned]
  obtain ⟨⟨o, ho, hc⟩, hsame⟩ := compile_closed partitioned hne
  obtain rfl : Operator.or = o := Option.some.inj ho
  exact ⟨hne, hc, hsame interleaved rfl rfl rfl⟩

end Group

end LogQuery
