import LogQuery.Proofs.Query.Assembly
import Mathlib.Algebra.BigOperators.Group.Multiset.Basic
import Mathlib.Tactic.Abel

/-!
# Where clauses stand

The place of a clause in a compiled tree is the number of `mustNot` and of `should` lists around it;
that of a leaf in a tree is the number of unwanted nodes and of `or` edges above it. The compiler keeps
places: the clauses without others inside, each with its place, are those of the leaves and of
the empty groups, with multiplicity (`placed_compile`).

Polarity is counted from the children of the root down to the leaf itself; the polarity of the root
is left to whoever places the tree.
-/

namespace LogQuery

/-- How many exclusions and how many choices stand above a clause. -/
structure Place where
  exclusions : Nat
  alternatives : Nat
  deriving DecidableEq, Repr

namespace Place

def root : Place := ⟨0, 0⟩

def exclude (p : Place) : Place := { p with exclusions := p.exclusions + 1 }

def choose (p : Place) : Place := { p with alternatives := p.alternatives + 1 }

/-- The place of a child below an edge. -/
def child (o : Operator) (q : Polarity) (p : Place) : Place :=
  ⟨p.exclusions + (if q = .unwanted then 1 else 0), p.alternatives + (if o = .or then 1 else 0)⟩

theorem child_and_wanted (p : Place) : p.child .and .wanted = p := rfl

theorem child_and_unwanted (p : Place) : p.child .and .unwanted = p.exclude := rfl

theorem child_or_wanted (p : Place) : p.child .or .wanted = p.choose := rfl

theorem child_or_unwanted (p : Place) : p.child .or .unwanted = p.choose.exclude := rfl

end Place

/-! ## Clauses and their places -/

namespace Clause

mutual

/-- The clauses without others inside, with their places, when the whole stands at `p`. -/
def placed (p : Place) : Clause → Multiset (Clause × Place)
  | bool must mustNot should =>
    placedAll p must + placedAll p.exclude mustNot + placedAll p.choose should
  | c => {(c, p)}

def placedAll (p : Place) : List Clause → Multiset (Clause × Place)
  | [] => 0
  | c :: cs => placed p c + placedAll p cs

end

theorem placedAll_append (p : Place) (cs ds : List Clause) :
    placedAll p (cs ++ ds) = placedAll p cs + placedAll p ds := by
  induction cs with
  | nil => simp [placedAll]
  | cons c cs ih => rw [List.cons_append, placedAll, placedAll, ih, add_assoc]

theorem placed_excluding (p : Place) (cs : List Clause) :
    (excluding cs).placed p = placedAll p.exclude cs := by
  simp [excluding, placed, placedAll]

theorem placed_anyOf (p : Place) (cs : List Clause) : (anyOf cs).placed p = placedAll p.choose cs := by
  simp [anyOf, placed, placedAll]

end Clause

theorem Leaf.placed_compile_leaf (p : Place) (l : Leaf) : l.compile.placed p = {(l.compile, p)} := by
  unfold Leaf.compile
  cases l.condition <;> rfl

/-! ## Leaves and empty groups and their places -/

namespace Node

mutual

/-- The clauses of leaves and of empty groups, with their places, when the root stands at `p`. -/
def placed (p : Place) : Node → Multiset (Clause × Place)
  | leaf l => {(l.compile, p)}
  | group edges _ => if edges.isEmpty then {(.everything, p)} else placedAll p edges

def placedAll (p : Place) : List (Operator × Node) → Multiset (Clause × Place)
  | [] => 0
  | (o, n) :: es => placed (p.child o n.polarity) n + placedAll p es

end

mutual

/-- The number of groups without children. -/
def emptyGroups : Node → Nat
  | leaf _ => 0
  | group edges _ => if edges.isEmpty then 1 else emptyGroupsOf edges

def emptyGroupsOf : List (Operator × Node) → Nat
  | [] => 0
  | (_, n) :: es => emptyGroups n + emptyGroupsOf es

end

theorem placedAll_eq_sum (p : Place) : ∀ es : List Edge,
    placedAll p es = (es.map fun e => placed (p.child e.1 e.2.polarity) e.2).sum
  | [] => rfl
  | (o, n) :: es => by rw [placedAll, placedAll_eq_sum, List.map_cons, List.sum_cons]

end Node

/-! ## Buckets -/

/-- What a branch contributes to the places of its group. -/
def Branch.placed (p : Place) (b : Branch) : Multiset (Clause × Place) :=
  b.clause.placed (p.child b.operator b.polarity)

namespace Bucket

variable (p : Place)

/-- What the bucket contributes through the two lists of its group. -/
def placed (k : Bucket) : Multiset (Clause × Place) :=
  Clause.placedAll p k.required + Clause.placedAll p.exclude k.excluded

/-- The wanted branches stay where they are, the unwanted ones go below an exclusion. -/
theorem sum_placed_and : ∀ (bs : List Branch), (∀ b ∈ bs, b.operator = .and) →
    (bs.map (Branch.placed p)).sum =
      Clause.placedAll p (Branch.clausesOf .wanted bs) +
        Clause.placedAll p.exclude (Branch.clausesOf .unwanted bs)
  | [], _ => rfl
  | b :: bs, h => by
    have ih := sum_placed_and bs fun b hb => h b (List.mem_cons_of_mem _ hb)
    have hb := h b List.mem_cons_self
    rw [List.map_cons, List.sum_cons, ih]
    cases hq : b.polarity
    · simp [Branch.placed, hb, hq, Place.child_and_wanted, Branch.clausesOf, Clause.placedAll, add_assoc]
    · simp [Branch.placed, hb, hq, Place.child_and_unwanted, Branch.clausesOf, Clause.placedAll]
      abel

/-- Unwanted branches are excluded alone or together, at the same place. -/
theorem placedAll_excludedTogether (cs : List Clause) :
    Clause.placedAll p (excludedTogether cs) = Clause.placedAll p.exclude cs := by
  cases cs <;> simp [excludedTogether, Clause.placedAll, Clause.placed_excluding]

theorem placed_and (bs : List Branch) (h : ∀ b ∈ bs, b.operator = .and) :
    placed p ⟨.and, bs⟩ = (bs.map (Branch.placed p)).sum := by
  rw [sum_placed_and p bs h]
  match bs with
  | [b] => rfl
  | [] => simp [placed, required, excluded, Branch.clausesOf, excludedTogether, Clause.placedAll]
  | b :: c :: bs =>
    simp [placed, required, excluded, Clause.placedAll_append, placedAll_excludedTogether,
      Clause.placedAll]

theorem placed_alternative (b : Branch) (h : b.operator = .or) :
    b.alternative.placed p.choose = b.placed p := by
  cases hq : b.polarity
  · simp [Branch.alternative, Branch.placed, h, hq, Place.child_or_wanted]
  · simp [Branch.alternative, Branch.placed, h, hq, Place.child_or_unwanted, Clause.placed_excluding,
      Clause.placedAll]

theorem placed_or (bs : List Branch) (h : ∀ b ∈ bs, b.operator = .or) :
    placed p ⟨.or, bs⟩ = (bs.map (Branch.placed p)).sum := by
  have halt : Clause.placedAll p.choose (bs.map Branch.alternative) =
      (bs.map (Branch.placed p)).sum := by
    induction bs with
    | nil => rfl
    | cons b bs ih =>
      obtain ⟨hb, hbs⟩ := List.forall_mem_cons.1 h
      rw [List.map_cons, Clause.placedAll, placed_alternative p b hb, ih hbs, List.map_cons, List.sum_cons]
  simp [placed, required, excluded, Clause.placedAll, Clause.placed_anyOf, halt]

theorem sum_placed (ks : List Bucket) :
    (ks.map (placed p)).sum =
      Clause.placedAll p (ks.flatMap required) + Clause.placedAll p.exclude (ks.flatMap excluded) := by
  induction ks with
  | nil => simp [Clause.placedAll]
  | cons k ks ih =>
    rw [List.map_cons, List.sum_cons, ih, List.flatMap_cons, List.flatMap_cons,
      Clause.placedAll_append, Clause.placedAll_append, placed]
    abel

theorem sum_placed_ofNonEmpty (o : Operator) (bs : List Branch) (h : ∀ b ∈ bs, b.operator = o) :
    ((ofNonEmpty o bs).map (placed p)).sum = (bs.map (Branch.placed p)).sum := by
  match o, bs with
  | _, [] => rfl
  | .and, b :: bs => simp [ofNonEmpty, placed_and p (b :: bs) h]
  | .or, b :: bs => simp [ofNonEmpty, placed_or p (b :: bs) h]

/-- Gathering loses no branch and repeats none. -/
theorem sum_placed_ofBranches (bs : List Branch) :
    ((ofBranches bs).map (placed p)).sum = (bs.map (Branch.placed p)).sum := by
  have hon : ∀ o, ∀ b ∈ Branch.on o bs, b.operator = o := by
    intro o b hb
    simpa using (List.mem_filter.1 hb).2
  rw [((perm_ofBranches bs).map _).sum_eq, List.map_append, List.sum_append,
    sum_placed_ofNonEmpty p _ _ (hon .and), sum_placed_ofNonEmpty p _ _ (hon .or)]
  clear hon
  induction bs with
  | nil => rfl
  | cons b bs ih =>
    rw [List.map_cons, List.sum_cons, ← ih]
    cases h : b.operator
    · simp [Branch.on, h, add_assoc]
    · simp [Branch.on, h, add_left_comm]

end Bucket

theorem Branch.placed_assemble (p : Place) (b : Branch) (bs : List Branch) :
    (assemble (b :: bs)).placed p = ((b :: bs).map (Branch.placed p)).sum := by
  rw [assemble_cons, Clause.placed, ← Bucket.sum_placed, Bucket.sum_placed_ofBranches]
  simp [Clause.placedAll]

namespace Node

/-- The compiler keeps the place of every clause, wherever the tree stands. -/
theorem placed_compile_at (n : Node) (p : Place) : n.compile.placed p = n.placed p := by
  induction n using Node.induction generalizing p with
  | leaf l => exact l.placed_compile_leaf p
  | group es q ih =>
    rw [compile_group, placed]
    cases es with
    | nil => rfl
    | cons e es =>
      rw [List.map_cons, Branch.placed_assemble, ← List.map_cons, List.map_map, if_neg (by simp),
        placedAll_eq_sum]
      refine congrArg List.sum (List.map_congr_left fun e he => ?_)
      exact ih e he (p.child e.1 e.2.polarity)

mutual

/-- Without the places, the clauses of the leaves and one that matches everything for each empty
group. -/
theorem map_fst_placed : ∀ (n : Node) (p : Place),
    (n.placed p).map Prod.fst =
      (n.leaves.map Leaf.compile : Multiset Clause) + Multiset.replicate n.emptyGroups .everything
  | .leaf l, p => by simp [placed, leaves, emptyGroups]
  | .group [] _, p => by simp [placed, leaves, leavesOf, emptyGroups]
  | .group (e :: es) _, p => by
    rw [placed, leaves, emptyGroups, if_neg (by simp), if_neg (by simp)]
    exact map_fst_placedAll (e :: es) p

theorem map_fst_placedAll : ∀ (es : List (Operator × Node)) (p : Place),
    (placedAll p es).map Prod.fst =
      ((leavesOf es).map Leaf.compile : Multiset Clause) +
        Multiset.replicate (emptyGroupsOf es) .everything
  | [], p => by simp [placedAll, leavesOf, emptyGroupsOf]
  | (o, n) :: es, p => by
    rw [placedAll, Multiset.map_add, map_fst_placed n, map_fst_placedAll es p, leavesOf, emptyGroupsOf,
      List.map_append, ← Multiset.coe_add, Multiset.replicate_add]
    abel

end

/-- **Compilation loses, repeats and misplaces no clause** (`Node::compile`, `Group::compile`). In particular the
clauses that look at documents are those of the leaves, each as often as there are leaves that compile to it. -/
theorem placed_compile (n : Node) :
    n.compile.placed .root = n.placed .root ∧
      (n.compile.placed .root).map Prod.fst =
        (n.leaves.map Leaf.compile : Multiset Clause) +
          Multiset.replicate n.emptyGroups .everything := by
  have h := placed_compile_at n .root
  exact ⟨h, by rw [h, map_fst_placed]⟩

end Node

end LogQuery
