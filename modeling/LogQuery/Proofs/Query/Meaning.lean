import LogQuery.Proofs.Query.Assembly

/-!
# What a compiled tree means

A valuation says, for one document, which of the clauses without other clauses inside it meets. From
it a clause is read as the backend reads it, and a tree as it is meant; the compiler keeps the meaning
of every tree under every valuation (`holds_compile`).

A bool clause reads its `should` in two ways: beside a `must` it demands nothing. A compiled group
never depends on this, because its alternatives stand in a clause of their own (`holds_anyOf`).
-/

namespace LogQuery

/-! ## Clauses -/

namespace Clause

mutual

/-- Whether the document meets the clause, given which clauses without others inside it meets. -/
def holds (v : Clause → Bool) : Clause → Bool
  | matchAll _ => true
  | bool must mustNot should =>
    allHold v must && !anyHold v mustNot && (!must.isEmpty || should.isEmpty || anyHold v should)
  | c => v c

def allHold (v : Clause → Bool) : List Clause → Bool
  | [] => true
  | c :: cs => holds v c && allHold v cs

def anyHold (v : Clause → Bool) : List Clause → Bool
  | [] => false
  | c :: cs => holds v c || anyHold v cs

end

variable (v : Clause → Bool)

theorem allHold_eq : ∀ cs : List Clause, allHold v cs = cs.all (holds v)
  | [] => rfl
  | c :: cs => by rw [allHold, allHold_eq, List.all_cons]

theorem anyHold_eq : ∀ cs : List Clause, anyHold v cs = cs.any (holds v)
  | [] => rfl
  | c :: cs => by rw [anyHold, anyHold_eq, List.any_cons]

/-- A bool clause in words: all of `must`, none of `mustNot`, and one of `should` if there is nothing
in `must`. -/
theorem holds_bool_iff (must mustNot should : List Clause) :
    (bool must mustNot should).holds v = true ↔
      (∀ c ∈ must, c.holds v = true) ∧ (∀ c ∈ mustNot, c.holds v = false) ∧
        (must = [] → should ≠ [] → ∃ c ∈ should, c.holds v = true) := by
  rw [holds, allHold_eq, anyHold_eq, anyHold_eq]
  cases must <;> cases should <;> simp [and_assoc]

/-- Beside a `must`, alternatives of which none holds do no harm. -/
example (v : Clause → Bool) : (bool [everything] [] [excluding [everything]]).holds v = true := rfl

theorem holds_bool_no_should (must mustNot : List Clause) :
    (bool must mustNot []).holds v = (must.all (holds v) && !mustNot.any (holds v)) := by
  simp [holds, allHold_eq, anyHold_eq]

theorem holds_excluding (cs : List Clause) : (excluding cs).holds v = !cs.any (holds v) := by
  simp [excluding, holds, allHold, anyHold_eq]

theorem holds_anyOf (cs : List Clause) : (anyOf cs).holds v = (cs.isEmpty || cs.any (holds v)) := by
  simp [anyOf, holds, allHold, anyHold_eq]

end Clause

/-- A leaf compiles to a clause that the valuation speaks of. -/
theorem Leaf.compile_holds (v : Clause → Bool) (l : Leaf) : l.compile.holds v = v l.compile := by
  unfold Leaf.compile
  cases l.condition <;> rfl

/-! ## Trees -/

/-- The value of a wanted or unwanted child. -/
def Polarity.sign : Polarity → Bool → Bool
  | wanted, b => b
  | unwanted, b => !b

/-- All values on `and` edges, and one of those on `or` edges if there are any. -/
def Operator.join (vs : List (Operator × Bool)) : Bool :=
  vs.all (fun p => p.1 = .or || p.2) &&
    (!vs.any (fun p => p.1 = .or) || vs.any fun p => p.1 = .or && p.2)

namespace Node

mutual

/-- Whether the document is one that the tree means. The polarity of the root has no say. -/
def holds (v : Clause → Bool) : Node → Bool
  | leaf l => v l.compile
  | group edges _ => Operator.join (signedValues v edges)

/-- The values of children, each with the operator of its edge. -/
def signedValues (v : Clause → Bool) : List (Operator × Node) → List (Operator × Bool)
  | [] => []
  | (o, n) :: es => (o, n.polarity.sign (holds v n)) :: signedValues v es

end

variable (v : Clause → Bool)

/-- The value of the child on an edge. -/
def signedValue (e : Edge) : Bool := e.2.polarity.sign (e.2.holds v)

theorem signedValues_eq_map :
    ∀ es : List Edge, signedValues v es = es.map fun e => (e.1, signedValue v e)
  | [] => rfl
  | (o, n) :: es => by rw [signedValues, signedValues_eq_map, List.map_cons]; rfl

/-- A group in words: all children on `and` edges, and one child on an `or` edge if there is one. -/
theorem holds_group_iff (es : List Edge) (p : Polarity) :
    (group es p).holds v = true ↔
      (∀ e ∈ es, e.1 = .and → signedValue v e = true) ∧
        ((∃ e ∈ es, e.1 = .or) → ∃ e ∈ es, e.1 = .or ∧ signedValue v e = true) := by
  have hand : ∀ o : Operator, o = .or ↔ ¬ o = .and := by intro o; cases o <;> simp
  simp only [holds, signedValues_eq_map, Operator.join, List.all_map, List.any_map, Bool.and_eq_true,
    Bool.or_eq_true, Bool.not_eq_true', ← Bool.not_eq_true, List.all_eq_true, List.any_eq_true,
    Function.comp_apply, decide_eq_true_eq]
  refine and_congr (forall₂_congr fun e _ => ?_) Decidable.imp_iff_not_or.symm
  rw [hand, ← Decidable.imp_iff_not_or]

end Node

/-! ## Buckets -/

/-- The value of a branch for the group around it. -/
def Branch.signed (v : Clause → Bool) (b : Branch) : Bool := b.polarity.sign (b.clause.holds v)

namespace Bucket

variable (v : Clause → Bool)

/-- What a bucket asks of the document: its required clauses hold and its excluded ones do not. -/
def holds (k : Bucket) : Bool := k.required.all (Clause.holds v) && !k.excluded.any (Clause.holds v)

theorem all_excludedTogether (cs : List Clause) :
    (excludedTogether cs).all (Clause.holds v) = !cs.any (Clause.holds v) := by
  cases cs <;> simp [excludedTogether, Clause.holds_excluding]

/-- Wanted and unwanted branches apart say the same as all branches in order. -/
theorem all_signed_eq (bs : List Branch) :
    bs.all (Branch.signed v) =
      ((Branch.clausesOf .wanted bs).all (Clause.holds v) &&
        !(Branch.clausesOf .unwanted bs).any (Clause.holds v)) := by
  induction bs with
  | nil => rfl
  | cons b bs ih =>
    rw [List.all_cons, ih]
    cases h : b.polarity <;>
      simp [Branch.signed, Polarity.sign, Branch.clausesOf, h, Bool.and_assoc, Bool.and_left_comm]

/-- Both encodings of `and`, that of one branch and that of several, ask for all of the branches. -/
theorem holds_and (bs : List Branch) : holds v ⟨.and, bs⟩ = bs.all (Branch.signed v) := by
  rw [all_signed_eq]
  match bs with
  | [b] => rfl
  | [] => simp [holds, required, excluded, Branch.clausesOf, excludedTogether]
  | b :: c :: bs => simp [holds, required, excluded, all_excludedTogether]

theorem holds_alternative (b : Branch) : b.alternative.holds v = b.signed v := by
  cases h : b.polarity <;>
    simp [Branch.alternative, Branch.signed, Polarity.sign, h, Clause.holds_excluding]

theorem holds_or (bs : List Branch) :
    holds v ⟨.or, bs⟩ = (bs.isEmpty || bs.any (Branch.signed v)) := by
  have h : Clause.holds v ∘ Branch.alternative = Branch.signed v := funext (holds_alternative v)
  simp [holds, required, excluded, Clause.holds_anyOf, List.any_map, h]

theorem all_holds (ks : List Bucket) :
    ks.all (holds v) = ((ks.flatMap required).all (Clause.holds v) &&
      !(ks.flatMap excluded).any (Clause.holds v)) := by
  induction ks with
  | nil => rfl
  | cons k ks ih =>
    rw [List.all_cons, ih]
    simp [holds, Bool.and_assoc, Bool.and_left_comm]

/-- The order of the buckets, by first appearance, does not matter to the document. -/
theorem all_holds_ofBranches (bs : List Branch) :
    (ofBranches bs).all (holds v) =
      ((Branch.on .and bs).all (Branch.signed v) &&
        ((Branch.on .or bs).isEmpty || (Branch.on .or bs).any (Branch.signed v))) := by
  have hand : ∀ xs, (ofNonEmpty .and xs).all (holds v) = xs.all (Branch.signed v) := by
    intro xs
    cases xs <;> simp [ofNonEmpty, holds_and]
  have hor : ∀ xs, (ofNonEmpty .or xs).all (holds v) = (xs.isEmpty || xs.any (Branch.signed v)) := by
    intro xs
    cases xs <;> simp [ofNonEmpty, holds_or]
  rw [(perm_ofBranches bs).all_eq, List.all_append, hand, hor]

end Bucket

theorem Branch.join_signed (v : Clause → Bool) (bs : List Branch) :
    Operator.join (bs.map fun b => (b.operator, b.signed v)) =
      ((on .and bs).all (signed v) && ((on .or bs).isEmpty || (on .or bs).any (signed v))) := by
  have hand : ∀ b : Branch, (decide (b.operator = .or) = !decide (b.operator = .and)) := by
    intro b
    cases b.operator <;> rfl
  have hnone : (on .or bs).isEmpty = !bs.any fun b => b.operator = .or := by
    induction bs with
    | nil => rfl
    | cons b bs ih => cases h : b.operator <;> simp_all [on]
  rw [hnone]
  simp [Operator.join, on, List.all_filter, List.any_filter, Function.comp_def, hand]

/-- **One group**: its clause joins the values of its branches by the operators of their edges. -/
theorem Branch.holds_assemble (v : Clause → Bool) (bs : List Branch) :
    (assemble bs).holds v = Operator.join (bs.map fun b => (b.operator, b.signed v)) := by
  cases bs with
  | nil => rfl
  | cons b bs =>
    rw [assemble_cons, Clause.holds_bool_no_should]
    rw [← Bucket.all_holds, Bucket.all_holds_ofBranches, join_signed]

/-- **Compilation keeps the meaning of every tree** (`Node::compile`, `Group::compile`). -/
theorem Node.holds_compile (v : Clause → Bool) (n : Node) : n.compile.holds v = n.holds v := by
  induction n using Node.induction with
  | leaf l => exact l.compile_holds v
  | group es p ih =>
    rw [compile_group, Branch.holds_assemble, holds, signedValues_eq_map, List.map_map]
    refine congrArg Operator.join (List.map_congr_left fun e he => ?_)
    simp [branch, Branch.signed, signedValue, ih e he]

end LogQuery
