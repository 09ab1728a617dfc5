import LogQuery.Proofs.Query.ClosedForm
import LogQuery.Proofs.Query.Nested
import Mathlib.Algebra.BigOperators.Group.List.Basic
import Mathlib.Algebra.GroupWithZero.Nat

/-!
# How many bool clauses a tree compiles to

A backend refuses queries in which bool clauses stand too deep inside one another, so it matters what the
compiler adds. A group adds to the clauses of its children one bool clause for itself and those that its
children need because of where they stand (`Group.ownBools`); around a single child it puts one, two or
three of them (`Group.wraps`).

Both are read off the closed form of a group: its number of bool clauses is a sum over its children
(`Group.boolCount_compile`), and its depth is bounded just if every child with what is put around it is
(`Group.depth_compile_le_iff`). By induction the tree has as many bool clauses as its groups add, and they
stand at least as deep as its groups and at most three times as deep (`Node.size_and_depth_compile`). Trees of
every depth reach either bound (`Node.depth_compile_tower`).
-/

namespace LogQuery

/-! ## Bool clauses in a clause -/

namespace Clause

def isBool : Clause → Bool
  | bool .. => true
  | _ => false

/-- The number of bool clauses in a clause, itself included. -/
def boolCount (c : Clause) : Nat := c.nested.countP isBool

mutual

/-- How many bool clauses stand inside one another, at most. -/
def depth : Clause → Nat
  | bool must mustNot should => max (depthOf must) (max (depthOf mustNot) (depthOf should)) + 1
  | _ => 0

def depthOf : List Clause → Nat
  | [] => 0
  | c :: cs => max (depth c) (depthOf cs)

end

theorem countP_nestedAll : ∀ cs : List Clause, (nestedAll cs).countP isBool = (cs.map boolCount).sum
  | [] => rfl
  | c :: cs => by
    rw [nestedAll, List.countP_append, countP_nestedAll, List.map_cons, List.sum_cons, boolCount]

theorem boolCount_bool (must mustNot should : List Clause) :
    (bool must mustNot should).boolCount =
      1 + (must.map boolCount).sum + (mustNot.map boolCount).sum + (should.map boolCount).sum := by
  rw [boolCount, nested, List.countP_cons_of_pos rfl, List.countP_append, List.countP_append,
    countP_nestedAll, countP_nestedAll, countP_nestedAll]
  omega

theorem depthOf_le_iff {k : Nat} : ∀ {cs : List Clause}, depthOf cs ≤ k ↔ ∀ c ∈ cs, c.depth ≤ k
  | [] => by simp [depthOf]
  | c :: cs => by rw [depthOf, Nat.max_le, depthOf_le_iff, List.forall_mem_cons]

/-- A bool clause with `j` others around it goes as deep as its clauses with one more around them. -/
theorem depth_bool_add_le_iff {must mustNot should : List Clause} {j k : Nat} :
    (bool must mustNot should).depth + j ≤ k ↔ j + 1 ≤ k ∧ (∀ c ∈ must, c.depth + (j + 1) ≤ k) ∧
      (∀ c ∈ mustNot, c.depth + (j + 1) ≤ k) ∧ ∀ c ∈ should, c.depth + (j + 1) ≤ k := by
  have hlist : ∀ cs : List Clause, j + 1 ≤ k →
      ((∀ c ∈ cs, c.depth + (j + 1) ≤ k) ↔ depthOf cs ≤ k - (j + 1)) := by
    intro cs hk
    rw [depthOf_le_iff]
    exact forall₂_congr fun c _ => by omega
  rw [depth]
  constructor
  · intro h
    have hk : j + 1 ≤ k := by omega
    rw [hlist must hk, hlist mustNot hk, hlist should hk]
    omega
  · rintro ⟨hk, hm, hn, hs⟩
    rw [hlist must hk] at hm
    rw [hlist mustNot hk] at hn
    rw [hlist should hk] at hs
    omega

end Clause

theorem Leaf.boolCount_compile (l : Leaf) : l.compile.boolCount = 0 := by
  unfold Leaf.compile
  cases l.condition <;> rfl

theorem Leaf.depth_compile (l : Leaf) : l.compile.depth = 0 := by
  unfold Leaf.compile
  cases l.condition <;> rfl

/-! ## Groups in a tree -/

namespace Node

mutual

/-- The groups with children in a tree, itself included if it is one. -/
def filledGroups : Node → List Group
  | leaf _ => []
  | group edges p => if edges.isEmpty then [] else ⟨edges, p⟩ :: filledGroupsOf edges

def filledGroupsOf : List (Operator × Node) → List Group
  | [] => []
  | (_, n) :: es => filledGroups n ++ filledGroupsOf es

end

mutual

/-- How many groups with children stand inside one another, at most. -/
def depth : Node → Nat
  | leaf _ => 0
  | group edges _ => if edges.isEmpty then 0 else depthOf edges + 1

def depthOf : List (Operator × Node) → Nat
  | [] => 0
  | (_, n) :: es => max (depth n) (depthOf es)

end

theorem filledGroupsOf_eq_flatMap : ∀ es : List Edge, filledGroupsOf es = es.flatMap fun e => e.2.filledGroups
  | [] => rfl
  | (o, n) :: es => by rw [filledGroupsOf, filledGroupsOf_eq_flatMap, List.flatMap_cons]

theorem depthOf_le_iff {k : Nat} : ∀ {es : List Edge}, depthOf es ≤ k ↔ ∀ e ∈ es, e.2.depth ≤ k
  | [] => by simp [depthOf]
  | (o, n) :: es => by rw [depthOf, Nat.max_le, depthOf_le_iff, List.forall_mem_cons]

theorem filledGroups_group {es : List Edge} (h : es ≠ []) (p : Polarity) :
    (group es p).filledGroups = ⟨es, p⟩ :: es.flatMap fun e => e.2.filledGroups := by
  rw [filledGroups, if_neg (by simpa using h), filledGroupsOf_eq_flatMap]

theorem depth_group_le_iff {es : List Edge} (h : es ≠ []) {p : Polarity} {k : Nat} :
    (group es p).depth ≤ k ↔ ∀ e ∈ es, e.2.depth + 1 ≤ k := by
  rw [depth, if_neg (by simpa using h)]
  cases k with
  | zero =>
    obtain ⟨e, he⟩ := List.exists_mem_of_ne_nil es h
    simpa using ⟨e.1, e.2, he⟩
  | succ k => simp only [Nat.add_le_add_iff_right, depthOf_le_iff]

end Node

/-! ## What a group adds -/

namespace Group

/-- The bool clauses of a group that are not those of its children: its own, one that excludes the unwanted
among several required children, one that offers the alternatives, and one around each unwanted
alternative. -/
def ownBools (g : Group) : Nat :=
  1 + (if 2 ≤ (g.childrenOn .and).length ∧ ∃ n ∈ g.childrenOn .and, n.polarity = .unwanted then 1 else 0) +
    (if g.childrenOn .or ≠ [] then 1 else 0) + (g.childrenOn .or).countP fun n => n.polarity = .unwanted

/-- How many bool clauses of the group stand around the clause of a child. -/
def wraps (g : Group) : Edge → Nat
  | (.and, n) => if n.polarity = .unwanted ∧ (g.childrenOn .and).length ≠ 1 then 2 else 1
  | (.or, n) => if n.polarity = .unwanted then 3 else 2

theorem one_le_wraps (g : Group) : ∀ e : Edge, 1 ≤ g.wraps e
  | (.and, n) => by rw [wraps]; split <;> omega
  | (.or, n) => by rw [wraps]; split <;> omega

theorem wraps_le_three (g : Group) : ∀ e : Edge, g.wraps e ≤ 3
  | (.and, n) => by rw [wraps]; split <;> omega
  | (.or, n) => by rw [wraps]; split <;> omega

theorem forall_edges_iff {g : Group} {P : Edge → Prop} :
    (∀ e ∈ g.edges, P e) ↔
      (∀ n ∈ g.childrenOn .and, P (.and, n)) ∧ ∀ n ∈ g.childrenOn .or, P (.or, n) := by
  have hmem : ∀ o n, n ∈ g.childrenOn o ↔ (o, n) ∈ g.edges := by
    intro o n
    simp [childrenOn]
  simp only [hmem]
  constructor
  · exact fun h => ⟨fun n hn => h _ hn, fun n hn => h _ hn⟩
  · rintro ⟨hand, hor⟩ ⟨o, n⟩ he
    cases o with
    | and => exact hand n he
    | or => exact hor n he

/-- What is summed over the edges is summed over the two kinds of children. -/
theorem sum_childrenOn (g : Group) (f : Node → Nat) :
    ((g.childrenOn .and).map f).sum + ((g.childrenOn .or).map f).sum = (g.edges.map fun e => f e.2).sum := by
  obtain ⟨es, p⟩ := g
  simp only [childrenOn]
  induction es with
  | nil => rfl
  | cons e es ih =>
    obtain ⟨o, n⟩ := e
    rw [List.map_cons, List.sum_cons, ← ih]
    cases o with
    | and => simp [Nat.add_assoc]
    | or => simp [Nat.add_left_comm]

end Group

/-! ## The parts of a group, counted -/

namespace Node

open Clause (boolCount)

theorem boolCount_alternative (n : Node) :
    n.alternative.boolCount = n.compile.boolCount + if n.polarity = .unwanted then 1 else 0 := by
  cases h : n.polarity with
  | wanted => simp [alternative, h]
  | unwanted => simp [alternative, h, Clause.boolCount_bool, Nat.add_comm]

/-- Wanted and unwanted nodes apart have the bool clauses of all of them. -/
theorem sum_clausesWith (ns : List Node) :
    ((clausesWith .wanted ns).map boolCount).sum + ((clausesWith .unwanted ns).map boolCount).sum =
      (ns.map fun n => n.compile.boolCount).sum := by
  induction ns with
  | nil => rfl
  | cons n ns ih =>
    rw [List.map_cons, List.sum_cons, ← ih]
    cases h : n.polarity with
    | wanted => simp [clausesWith, h, Nat.add_assoc]
    | unwanted => simp [clausesWith, h, Nat.add_left_comm]

/-- The children on `and` edges, unless there is just one of them. -/
theorem parts_of_length_ne_one {ns : List Node} (h : ns.length ≠ 1) :
    requiredPart ns = clausesWith .wanted ns ++
        (if ∃ n ∈ ns, n.polarity = .unwanted then [.bool [] (clausesWith .unwanted ns) []] else []) ∧
      excludedPart ns = [] := by
  match ns with
  | [] => exact ⟨rfl, rfl⟩
  | [n] => exact absurd rfl h
  | n :: m :: ns => exact ⟨by rw [requiredPart]; simp, rfl⟩

theorem sum_required (ns : List Node) :
    ((requiredPart ns).map boolCount).sum + ((excludedPart ns).map boolCount).sum =
      (if 2 ≤ ns.length ∧ ∃ n ∈ ns, n.polarity = .unwanted then 1 else 0) +
        (ns.map fun n => n.compile.boolCount).sum := by
  by_cases hone : ns.length = 1
  · obtain ⟨n, rfl⟩ := List.length_eq_one_iff.1 hone
    cases h : n.polarity <;> simp [requiredPart, excludedPart, h]
  · obtain ⟨hrequired, hexcluded⟩ := parts_of_length_ne_one hone
    rw [hrequired, hexcluded, ← sum_clausesWith]
    by_cases hsome : ∃ n ∈ ns, n.polarity = .unwanted
    · have htwo : 2 ≤ ns.length := by
        obtain ⟨n, hn, -⟩ := hsome
        have := List.length_pos_of_mem hn
        omega
      rw [if_pos hsome, if_pos ⟨htwo, hsome⟩, List.map_append, List.sum_append, List.map_singleton,
        List.sum_singleton, Clause.boolCount_bool, List.map_nil, List.sum_nil]
      omega
    · have hnone : clausesWith .unwanted ns = [] := by
        simpa [clausesWith] using hsome
      rw [if_neg hsome, if_neg fun h => hsome h.2, hnone]
      simp

theorem sum_alternatives (ns : List Node) :
    ((alternativesPart ns).map boolCount).sum =
      (if ns ≠ [] then 1 else 0) + (ns.countP fun n => n.polarity = .unwanted) +
        (ns.map fun n => n.compile.boolCount).sum := by
  have hsum : ((ns.map alternative).map boolCount).sum =
      (ns.countP fun n => n.polarity = .unwanted) + (ns.map fun n => n.compile.boolCount).sum := by
    induction ns with
    | nil => rfl
    | cons n ns ih =>
      rw [List.map_cons, List.map_cons, List.sum_cons, ih, boolCount_alternative, List.countP_cons,
        List.map_cons, List.sum_cons]
      simp only [decide_eq_true_eq]
      omega
  cases ns with
  | nil => rfl
  | cons n ns =>
    have hpart : alternativesPart (n :: ns) = [.bool [] [] ((n :: ns).map alternative)] := rfl
    rw [hpart, List.map_singleton, List.sum_singleton, Clause.boolCount_bool, hsum,
      if_pos (List.cons_ne_nil n ns), List.map_nil, List.sum_nil]
    omega

/-! ## The parts of a group, by depth -/

theorem depth_alternative (n : Node) :
    n.alternative.depth = n.compile.depth + if n.polarity = .unwanted then 1 else 0 := by
  cases h : n.polarity <;> simp [alternative, h, Clause.depth, Clause.depthOf]

theorem forall_clausesWith_iff {p : Polarity} {ns : List Node} {P : Clause → Prop} :
    (∀ c ∈ clausesWith p ns, P c) ↔ ∀ n ∈ ns, n.polarity = p → P n.compile := by
  simp only [clausesWith, List.forall_mem_map, List.mem_filter, decide_eq_true_eq, and_imp]

/-- The clause that excludes several nodes together, if there are any to exclude. -/
theorem depth_excluded_together_le_iff {ns : List Node} {k : Nat} :
    (∀ c ∈ if ∃ n ∈ ns, n.polarity = .unwanted then [Clause.bool [] (clausesWith .unwanted ns) []] else [],
        c.depth + 1 ≤ k) ↔
      ∀ n ∈ ns, n.polarity = .unwanted → n.compile.depth + 2 ≤ k := by
  by_cases hsome : ∃ n ∈ ns, n.polarity = .unwanted
  · rw [if_pos hsome, List.forall_mem_singleton, Clause.depth_bool_add_le_iff, forall_clausesWith_iff]
    constructor
    · exact fun h => h.2.2.1
    · intro h
      obtain ⟨n, hn, hp⟩ := hsome
      have := h n hn hp
      exact ⟨by omega, by simp, h, by simp⟩
  · rw [if_neg hsome]
    exact ⟨fun _ n hn hp => absurd ⟨n, hn, hp⟩ hsome, by simp⟩

theorem depth_required_le_iff {ns : List Node} {k : Nat} :
    ((∀ c ∈ requiredPart ns, c.depth + 1 ≤ k) ∧ ∀ c ∈ excludedPart ns, c.depth + 1 ≤ k) ↔
      ∀ n ∈ ns, n.compile.depth + (if n.polarity = .unwanted ∧ ns.length ≠ 1 then 2 else 1) ≤ k := by
  by_cases hone : ns.length = 1
  · obtain ⟨n, rfl⟩ := List.length_eq_one_iff.1 hone
    cases h : n.polarity <;> simp [requiredPart, excludedPart, h]
  · obtain ⟨hrequired, hexcluded⟩ := parts_of_length_ne_one hone
    rw [hrequired, hexcluded, List.forall_mem_append, depth_excluded_together_le_iff, forall_clausesWith_iff]
    constructor
    · rintro ⟨⟨hwanted, hunwanted⟩, -⟩ n hn
      cases hp : n.polarity with
      | wanted => simpa using hwanted n hn hp
      | unwanted => simpa [hone] using hunwanted n hn hp
    · intro h
      refine ⟨⟨fun n hn hp => ?_, fun n hn hp => ?_⟩, by simp⟩
      · simpa [hp] using h n hn
      · simpa [hp, hone] using h n hn

theorem depth_alternatives_le_iff {ns : List Node} {k : Nat} :
    (∀ c ∈ alternativesPart ns, c.depth + 1 ≤ k) ↔
      ∀ n ∈ ns, n.compile.depth + (if n.polarity = .unwanted then 3 else 2) ≤ k := by
  have halternative : ∀ n : Node, n.alternative.depth + 2 ≤ k ↔
      n.compile.depth + (if n.polarity = .unwanted then 3 else 2) ≤ k := by
    intro n
    rw [depth_alternative]
    split <;> omega
  cases ns with
  | nil => simp [alternativesPart]
  | cons n ns =>
    have hpart : alternativesPart (n :: ns) = [.bool [] [] ((n :: ns).map alternative)] := rfl
    rw [hpart, List.forall_mem_singleton, Clause.depth_bool_add_le_iff, List.forall_mem_map]
    simp only [halternative]
    constructor
    · exact fun h => h.2.2.2
    · intro h
      have := (halternative n).2 (h n List.mem_cons_self)
      exact ⟨by omega, by simp, by simp, h⟩

end Node

/-! ## One group -/

namespace Clause

theorem boolCount_ofChildren (o : Operator) (required alternatives : List Node) :
    (ofChildren o required alternatives).boolCount =
      1 + ((Node.requiredPart required).map boolCount).sum +
        ((Node.alternativesPart alternatives).map boolCount).sum +
        ((Node.excludedPart required).map boolCount).sum := by
  rw [ofChildren, boolCount_bool, List.map_nil, List.sum_nil]
  cases o with
  | and =>
    rw [if_pos rfl, List.map_append, List.sum_append]
    omega
  | or =>
    rw [if_neg (by simp), List.map_append, List.sum_append]
    omega

theorem depth_ofChildren_le_iff {o : Operator} {required alternatives : List Node} {k : Nat} :
    (ofChildren o required alternatives).depth ≤ k ↔ 1 ≤ k ∧
      ((∀ c ∈ Node.requiredPart required, c.depth + 1 ≤ k) ∧
        ∀ c ∈ Node.excludedPart required, c.depth + 1 ≤ k) ∧
      ∀ c ∈ Node.alternativesPart alternatives, c.depth + 1 ≤ k := by
  have hmust : ∀ as bs : List Clause,
      (∀ c ∈ if o = .and then as ++ bs else bs ++ as, c.depth + (0 + 1) ≤ k) ↔
        (∀ c ∈ as, c.depth + 1 ≤ k) ∧ ∀ c ∈ bs, c.depth + 1 ≤ k := by
    intro as bs
    -- Whose part of `must` comes first says nothing about its members.
    cases o with
    | and => rw [if_pos rfl, List.forall_mem_append]
    | or => rw [if_neg (by simp), List.forall_mem_append, and_comm]
  rw [ofChildren, ← Nat.add_zero (depth _), depth_bool_add_le_iff, hmust]
  constructor
  · rintro ⟨hk, ⟨hrequired, halternatives⟩, hexcluded, -⟩
    exact ⟨hk, ⟨hrequired, hexcluded⟩, halternatives⟩
  · rintro ⟨hk, ⟨hrequired, hexcluded⟩, halternatives⟩
    exact ⟨hk, ⟨hrequired, halternatives⟩, hexcluded, by simp⟩

end Clause

namespace Group

theorem exists_compile_eq {g : Group} (h : g.edges ≠ []) :
    ∃ o, g.compile = .ofChildren o (g.childrenOn .and) (g.childrenOn .or) := by
  obtain ⟨e, es, he⟩ := List.exists_cons_of_ne_nil h
  exact ⟨e.1, compile_eq_ofChildren (by simp [firstOperator?, he])⟩

/-- The children keep their bool clauses, and the group adds its own. -/
theorem boolCount_compile (g : Group) (h : g.edges ≠ []) :
    g.compile.boolCount = g.ownBools + (g.edges.map fun e => e.2.compile.boolCount).sum := by
  obtain ⟨o, hcompile⟩ := exists_compile_eq h
  have hrequired := Node.sum_required (g.childrenOn .and)
  have halternatives := Node.sum_alternatives (g.childrenOn .or)
  rw [hcompile, Clause.boolCount_ofChildren, ← g.sum_childrenOn fun n => n.compile.boolCount, ownBools]
  omega

/-- A group goes no deeper than `k` just if no child does with what the group puts around it. -/
theorem depth_compile_le_iff (g : Group) (h : g.edges ≠ []) {k : Nat} :
    g.compile.depth ≤ k ↔ ∀ e ∈ g.edges, e.2.compile.depth + g.wraps e ≤ k := by
  obtain ⟨o, hcompile⟩ := exists_compile_eq h
  rw [hcompile, Clause.depth_ofChildren_le_iff, Node.depth_required_le_iff, Node.depth_alternatives_le_iff]
  have hchildren : (∀ e ∈ g.edges, e.2.compile.depth + g.wraps e ≤ k) ↔ _ := forall_edges_iff
  rw [hchildren]
  refine ⟨fun hk => hk.2, fun hall => ⟨?_, hall⟩⟩
  -- There is a child, and the clause of the group itself is around it.
  obtain ⟨e, he⟩ := List.exists_mem_of_ne_nil _ h
  have hdepth := hchildren.2 hall e he
  have hwraps := g.one_le_wraps e
  omega

end Group

/-! ## Whole trees -/

namespace Node

theorem boolCount_compile (n : Node) : n.compile.boolCount = (n.filledGroups.map Group.ownBools).sum := by
  induction n using Node.induction with
  | leaf l => exact l.boolCount_compile
  | group es p ih =>
    by_cases hes : es = []
    · subst hes
      rfl
    · have hchildren : (es.map fun e => e.2.compile.boolCount) =
          es.map fun e => (e.2.filledGroups.map Group.ownBools).sum :=
        List.map_congr_left fun e he => ih e he
      have hgroup := Group.boolCount_compile ⟨es, p⟩ hes
      rw [hchildren] at hgroup
      rw [filledGroups_group hes, List.map_cons, List.sum_cons, List.map_flatMap, List.flatMap_def,
        List.sum_flatten, List.map_map]
      exact hgroup

theorem depth_le_depth_compile (n : Node) : n.depth ≤ n.compile.depth := by
  induction n using Node.induction with
  | leaf l => exact Nat.zero_le _
  | group es p ih =>
    by_cases hes : es = []
    · subst hes
      exact Nat.zero_le _
    · have hgroup := (Group.depth_compile_le_iff ⟨es, p⟩ hes).1 (Nat.le_refl _)
      refine (depth_group_le_iff hes).2 fun e he => ?_
      calc
        e.2.depth + 1 ≤ e.2.compile.depth + Group.wraps ⟨es, p⟩ e :=
          Nat.add_le_add (ih e he) (Group.one_le_wraps _ e)
        _ ≤ (group es p).compile.depth := hgroup e he

theorem depth_compile_le (n : Node) : n.compile.depth ≤ 3 * n.depth := by
  induction n using Node.induction with
  | leaf l => exact Nat.le_of_eq l.depth_compile
  | group es p ih =>
    by_cases hes : es = []
    · subst hes
      exact Nat.zero_le _
    · have hgroup := (depth_group_le_iff (p := p) hes).1 (Nat.le_refl _)
      refine (Group.depth_compile_le_iff ⟨es, p⟩ hes).2 fun e he => ?_
      calc
        e.2.compile.depth + Group.wraps ⟨es, p⟩ e ≤ 3 * e.2.depth + 3 :=
          Nat.add_le_add (ih e he) (Group.wraps_le_three _ e)
        _ = 3 * (e.2.depth + 1) := rfl
        _ ≤ 3 * (group es p).depth := Nat.mul_le_mul_left 3 (hgroup e he)

/-- **The size and the depth of a compiled tree** (`Node::compile`, `Group::compile`). Its bool clauses are those
that the groups of the tree add, and they nest as deep as the groups do at least and three times as deep at most. -/
theorem size_and_depth_compile (n : Node) :
    n.compile.boolCount = (n.filledGroups.map Group.ownBools).sum ∧
      n.depth ≤ n.compile.depth ∧ n.compile.depth ≤ 3 * n.depth :=
  ⟨n.boolCount_compile, n.depth_le_depth_compile, n.depth_compile_le⟩

/-! ## Both bounds are reached -/

/-- Groups of a single child inside one another, all of them and the leaf in the middle of one polarity. -/
def tower (o : Operator) (p : Polarity) (l : Leaf) : Nat → Node
  | 0 => .leaf (l.withPolarity p)
  | k + 1 => .group [(o, tower o p l k)] p

theorem polarity_tower (o : Operator) (p : Polarity) (l : Leaf) (k : Nat) : (tower o p l k).polarity = p := by
  cases k <;> rfl

theorem depth_tower (o : Operator) (p : Polarity) (l : Leaf) (k : Nat) : (tower o p l k).depth = k := by
  induction k with
  | zero => rfl
  | succ k ih => simp [tower, depth, depthOf, ih]

theorem depth_compile_single (o : Operator) (n : Node) (p : Polarity) :
    (group [(o, n)] p).compile.depth = n.compile.depth + Group.wraps ⟨[(o, n)], p⟩ (o, n) := by
  have h : ∀ k, (group [(o, n)] p).compile.depth ≤ k ↔
      n.compile.depth + Group.wraps ⟨[(o, n)], p⟩ (o, n) ≤ k := fun k =>
    (Group.depth_compile_le_iff ⟨[(o, n)], p⟩ (by simp)).trans List.forall_mem_singleton
  exact Nat.le_antisymm ((h _).2 (Nat.le_refl _)) ((h _).1 (Nat.le_refl _))

/-- **No other factors would do.** A tower of required children goes as deep as its groups, and one of unwanted
alternatives three times as deep. -/
theorem depth_compile_tower (l : Leaf) (k : Nat) :
    (tower .and .wanted l k).compile.depth = (tower .and .wanted l k).depth ∧
      (tower .or .unwanted l k).compile.depth = 3 * (tower .or .unwanted l k).depth := by
  simp only [depth_tower]
  induction k with
  | zero => exact ⟨(l.withPolarity .wanted).depth_compile, (l.withPolarity .unwanted).depth_compile⟩
  | succ k ih =>
    obtain ⟨hwanted, hunwanted⟩ := ih
    constructor
    · rw [tower, depth_compile_single, hwanted]
      simp [Group.wraps, polarity_tower]
    · rw [tower, depth_compile_single, hunwanted]
      simp [Group.wraps, polarity_tower, Nat.mul_add]

end Node

end LogQuery
