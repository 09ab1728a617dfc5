import LogQuery.Query.Compile

/-!
# The buckets of a group

The compiler gathers the branches of a group into buckets one by one, and places the buckets one after
another into lists under construction. Here both loops are replaced by what they amount to; what is
said about compiled trees elsewhere rests on these forms.

* `ofBranches_cons`: the bucket of the first operator, then that of the other one, if it has branches.
* `perm_ofBranches`: up to order, the bucket of `and` beside the bucket of `or`.
* `assemble_cons`: what the buckets require is `must`, what they exclude is `mustNot`, and a group
  never has `should` of its own.
* `Node.induction`: a property of leaves that groups inherit from their children is one of all nodes.
-/

namespace LogQuery

/-! ## Gathering -/

def Operator.other : Operator → Operator
  | .and => .or
  | .or => .and

@[simp]
theorem Operator.ne_other (o : Operator) : o ≠ o.other := by cases o <;> simp [other]

@[simp]
theorem Operator.other_ne (o : Operator) : o.other ≠ o := (ne_other o).symm

theorem Operator.eq_other_of_ne {a b : Operator} (h : a ≠ b) : a = b.other := by
  cases a <;> cases b <;> simp_all [other]

/-- The branches on edges with the operator, in order. -/
def Branch.on (o : Operator) (bs : List Branch) : List Branch := bs.filter fun b => b.operator = o

theorem Branch.on_append (o : Operator) (bs cs : List Branch) : on o (bs ++ cs) = on o bs ++ on o cs :=
  List.filter_append bs cs

namespace Bucket

/-- No bucket for no branches. -/
def ofNonEmpty (o : Operator) : List Branch → List Bucket
  | [] => []
  | bs => [⟨o, bs⟩]

theorem insert_same (b : Branch) (bs : List Branch) (ks : List Bucket) :
    insert b (⟨b.operator, bs⟩ :: ks) = ⟨b.operator, bs ++ [b]⟩ :: ks := by
  simp [insert]

theorem insert_other {o : Operator} {b : Branch} (h : b.operator = o.other) (xs ys : List Branch) :
    insert b (⟨o, xs⟩ :: ofNonEmpty o.other ys) = ⟨o, xs⟩ :: ofNonEmpty o.other (ys ++ [b]) := by
  cases ys with
  | nil => simp [insert, ofNonEmpty, h]
  | cons y ys => simp [insert, ofNonEmpty, h]

/-- From the second branch on, the bucket of the first operator stays in front, and each branch goes
to the end of its own bucket. -/
theorem foldl_insert (o : Operator) : ∀ (bs xs ys : List Branch),
    bs.foldl (fun ks b => insert b ks) (⟨o, xs⟩ :: ofNonEmpty o.other ys) =
      ⟨o, xs ++ Branch.on o bs⟩ :: ofNonEmpty o.other (ys ++ Branch.on o.other bs)
  | [], xs, ys => by simp [Branch.on]
  | b :: bs, xs, ys => by
    rw [List.foldl_cons]
    by_cases h : b.operator = o
    · subst h
      rw [insert_same, foldl_insert]
      simp [Branch.on]
    · have ho := Operator.eq_other_of_ne h
      rw [insert_other ho, foldl_insert]
      simp [Branch.on, ho]

/-- **Gathering in closed form**: the bucket of the first operator, then that of the other one. -/
theorem ofBranches_cons (b : Branch) (bs : List Branch) :
    ofBranches (b :: bs) =
      ofNonEmpty b.operator (Branch.on b.operator (b :: bs)) ++
        ofNonEmpty b.operator.other (Branch.on b.operator.other (b :: bs)) := by
  have h := foldl_insert b.operator bs [b] []
  simp only [ofNonEmpty, List.singleton_append, List.nil_append] at h
  rw [ofBranches, List.foldl_cons, insert, h]
  simp [Branch.on, ofNonEmpty]

theorem ofBranches_ne_nil (b : Branch) (bs : List Branch) : ofBranches (b :: bs) ≠ [] := by
  rw [ofBranches_cons]
  simp [Branch.on, ofNonEmpty]

/-- Up to order, the bucket of `and` beside the bucket of `or`. -/
theorem perm_ofBranches (bs : List Branch) :
    (ofBranches bs).Perm
      (ofNonEmpty .and (Branch.on .and bs) ++ ofNonEmpty .or (Branch.on .or bs)) := by
  cases bs with
  | nil => simp [ofBranches, Branch.on, ofNonEmpty]
  | cons b bs =>
    rw [ofBranches_cons]
    cases b.operator with
    | and => exact List.Perm.refl _
    | or => exact List.perm_append_comm

theorem mem_ofNonEmpty {o : Operator} {bs : List Branch} {k : Bucket} (h : k ∈ ofNonEmpty o bs) :
    k = ⟨o, bs⟩ ∧ bs ≠ [] := by
  cases bs with
  | nil => simp [ofNonEmpty] at h
  | cons b bs => exact ⟨List.mem_singleton.1 h, by simp⟩

/-- A bucket holds some of the branches, and at least one. -/
theorem mem_ofBranches {bs : List Branch} {k : Bucket} (h : k ∈ ofBranches bs) :
    k.branches ≠ [] ∧ k.branches ⊆ bs := by
  rcases List.mem_append.1 ((perm_ofBranches bs).mem_iff.1 h) with h | h
  · obtain ⟨rfl, hne⟩ := mem_ofNonEmpty h
    exact ⟨hne, fun b hb => (List.mem_filter.1 hb).1⟩
  · obtain ⟨rfl, hne⟩ := mem_ofNonEmpty h
    exact ⟨hne, fun b hb => (List.mem_filter.1 hb).1⟩

/-! ## Placing -/

/-- Clauses that are excluded by a clause of their own; none for no clauses. -/
def excludedTogether : List Clause → List Clause
  | [] => []
  | cs => [.excluding cs]

/-- What the bucket adds to the required clauses of its group. -/
def required : Bucket → List Clause
  | ⟨.and, [b]⟩ => Branch.clausesOf .wanted [b]
  | ⟨.and, bs⟩ => Branch.clausesOf .wanted bs ++ excludedTogether (Branch.clausesOf .unwanted bs)
  | ⟨.or, bs⟩ => [.anyOf (bs.map Branch.alternative)]

/-- What the bucket adds to the excluded clauses of its group: one unwanted branch that stands alone. -/
def excluded : Bucket → List Clause
  | ⟨.and, [b]⟩ => Branch.clausesOf .unwanted [b]
  | _ => []

theorem placeRequired_single (p : BoolParts) (b : Branch) :
    placeRequired p [b] =
      ⟨p.must ++ Branch.clausesOf .wanted [b], p.mustNot ++ Branch.clausesOf .unwanted [b], p.should⟩ := by
  cases h : b.polarity <;>
    simp [placeRequired, Branch.clausesOf, BoolParts.require, BoolParts.exclude, h]

theorem placeRequired_many (p : BoolParts) (bs : List Branch) (h : bs.length ≠ 1) :
    placeRequired p bs =
      ⟨p.must ++ (Branch.clausesOf .wanted bs ++ excludedTogether (Branch.clausesOf .unwanted bs)),
        p.mustNot, p.should⟩ := by
  unfold placeRequired
  split
  · simp at h
  · cases Branch.clausesOf .unwanted bs <;> simp [BoolParts.require, excludedTogether]

theorem place_eq (p : BoolParts) (k : Bucket) :
    place p k = ⟨p.must ++ k.required, p.mustNot ++ k.excluded, p.should⟩ := by
  obtain ⟨o, bs⟩ := k
  match o, bs with
  | .and, [b] => exact placeRequired_single p b
  | .and, [] => simp [place, required, excluded, placeRequired_many]
  | .and, b :: c :: bs => simp [place, required, excluded, placeRequired_many]
  | .or, bs => simp [place, required, excluded, placeAlternatives, BoolParts.require]

/-- A bucket with branches leaves a trace in its group. -/
theorem required_or_excluded_ne_nil (k : Bucket) (h : k.branches ≠ []) :
    k.required ≠ [] ∨ k.excluded ≠ [] := by
  obtain ⟨o, bs⟩ := k
  match o, bs with
  | .and, [] => exact absurd rfl h
  | .and, [b] => cases hq : b.polarity <;> simp [required, excluded, Branch.clausesOf, hq]
  | .and, b :: c :: bs =>
    refine .inl ?_
    cases hq : b.polarity <;> simp [required, Branch.clausesOf, excludedTogether, hq]
  | .or, bs => exact .inl (by simp [required])

theorem foldl_place : ∀ (ks : List Bucket) (p : BoolParts),
    ks.foldl place p = ⟨p.must ++ ks.flatMap required, p.mustNot ++ ks.flatMap excluded, p.should⟩
  | [], p => by simp
  | k :: ks, p => by
    rw [List.foldl_cons, place_eq, foldl_place]
    simp

end Bucket

/-- **The clause of a group with branches**, without the loops that build it. -/
theorem Branch.assemble_cons (b : Branch) (bs : List Branch) :
    assemble (b :: bs) =
      .bool ((Bucket.ofBranches (b :: bs)).flatMap Bucket.required)
        ((Bucket.ofBranches (b :: bs)).flatMap Bucket.excluded) [] := by
  simp [assemble, Bucket.foldl_place, BoolParts.toClause, BoolParts.empty]

/-- A group in which everything is required and wanted requires just the clauses of its branches. -/
theorem Branch.assemble_required {bs : List Branch} (hne : bs ≠ [])
    (h : ∀ b ∈ bs, b.operator = .and ∧ b.polarity = .wanted) :
    assemble bs = .bool (bs.map Branch.clause) [] [] := by
  cases bs with
  | nil => exact absurd rfl hne
  | cons b bs =>
    have hand : Branch.on .and (b :: bs) = b :: bs := List.filter_eq_self.2 fun c hc => by simp [(h c hc).1]
    have hor : Branch.on .or (b :: bs) = [] := List.filter_eq_nil_iff.2 fun c hc => by simp [(h c hc).1]
    have hks : Bucket.ofBranches (b :: bs) = [⟨.and, b :: bs⟩] := by
      rw [Bucket.ofBranches_cons, (h b List.mem_cons_self).1]
      simp [Operator.other, hand, hor, Bucket.ofNonEmpty]
    have hw : Branch.clausesOf .wanted (b :: bs) = (b :: bs).map Branch.clause := by
      rw [Branch.clausesOf, List.filter_eq_self.2 fun c hc => by simp [(h c hc).2]]
    have hu : Branch.clausesOf .unwanted (b :: bs) = [] := by
      rw [Branch.clausesOf, List.filter_eq_nil_iff.2 fun c hc => by simp [(h c hc).2], List.map_nil]
    rw [assemble_cons, hks]
    cases bs with
    | nil => simp [Bucket.required, Bucket.excluded, hw, hu]
    | cons c bs => simp [Bucket.required, Bucket.excluded, hw, hu, Bucket.excludedTogether]

/-! ## Nodes -/

namespace Node

/-- The branch that an edge of a group compiles to. -/
def branch (e : Edge) : Branch := ⟨e.1, e.2.polarity, e.2.compile⟩

theorem compileEdges_eq_map : ∀ es : List Edge, compileEdges es = es.map branch
  | [] => rfl
  | (o, n) :: es => by rw [compileEdges, compileEdges_eq_map, List.map_cons]; rfl

theorem compile_group (es : List Edge) (p : Polarity) :
    (group es p).compile = Branch.assemble (es.map branch) := by
  rw [compile, compileEdges_eq_map]

/-- Induction on trees where a group has the hypothesis for each of its children. -/
theorem induction {P : Node → Prop} (leaf : ∀ l, P (.leaf l))
    (group : ∀ es p, (∀ e ∈ es, P e.2) → P (.group es p)) (n : Node) : P n := by
  refine compile.induct P (fun es => ∀ e ∈ es, P e.2) leaf group ?_ ?_ n
  · exact fun e he => absurd he List.not_mem_nil
  · exact fun o n es hn hes => List.forall_mem_cons.2 ⟨hn, hes⟩

mutual

/-- The leaves of a tree from left to right. -/
def leaves : Node → List Leaf
  | leaf l => [l]
  | group edges _ => leavesOf edges

def leavesOf : List (Operator × Node) → List Leaf
  | [] => []
  | (_, n) :: es => leaves n ++ leavesOf es

end

theorem leavesOf_eq_flatMap : ∀ es : List Edge, leavesOf es = es.flatMap fun e => e.2.leaves
  | [] => rfl
  | (o, n) :: es => by rw [leavesOf, leavesOf_eq_flatMap, List.flatMap_cons]

theorem leaves_subset_group {e : Edge} {es : List Edge} (he : e ∈ es) (p : Polarity) :
    e.2.leaves ⊆ (group es p).leaves := by
  intro l hl
  rw [leaves, leavesOf_eq_flatMap]
  exact List.mem_flatMap.2 ⟨e, he, hl⟩

end Node

end LogQuery
