import LogQuery.Proofs.Query.Assembly

/-!
# Clauses inside clauses

All clauses that occur in a clause, itself included. A compiled tree has four kinds of them: the clauses
of its leaves, the clause that matches everything, bool clauses that require or exclude something and
offer no choice, and bool clauses that only offer a choice. What holds of these holds everywhere in it
(`forall_nested_compile`).
-/

namespace LogQuery

namespace Clause

mutual

/-- The clause and all clauses inside it. -/
def nested : Clause → List Clause
  | bool must mustNot should =>
    bool must mustNot should :: (nestedAll must ++ nestedAll mustNot ++ nestedAll should)
  | c => [c]

def nestedAll : List Clause → List Clause
  | [] => []
  | c :: cs => nested c ++ nestedAll cs

end

variable {P : Clause → Prop}

theorem mem_nestedAll {d : Clause} : ∀ {cs : List Clause}, d ∈ nestedAll cs ↔ ∃ c ∈ cs, d ∈ c.nested
  | [] => by simp [nestedAll]
  | c :: cs => by
    rw [nestedAll, List.mem_append, mem_nestedAll]
    simp

/-- What holds everywhere in a bool clause holds of itself and everywhere in its lists. -/
theorem forall_nested_bool {must mustNot should : List Clause} :
    (∀ d ∈ (bool must mustNot should).nested, P d) ↔
      P (bool must mustNot should) ∧ (∀ c ∈ must, ∀ d ∈ c.nested, P d) ∧
        (∀ c ∈ mustNot, ∀ d ∈ c.nested, P d) ∧ ∀ c ∈ should, ∀ d ∈ c.nested, P d := by
  simp only [nested, List.mem_cons, List.mem_append, mem_nestedAll]
  constructor
  · intro h
    exact ⟨h _ (.inl rfl), fun c hc d hd => h d (.inr (.inl (.inl ⟨c, hc, hd⟩))),
      fun c hc d hd => h d (.inr (.inl (.inr ⟨c, hc, hd⟩))),
      fun c hc d hd => h d (.inr (.inr ⟨c, hc, hd⟩))⟩
  · rintro ⟨h, hm, hn, hs⟩ d (rfl | (⟨c, hc, hd⟩ | ⟨c, hc, hd⟩) | ⟨c, hc, hd⟩)
    · exact h
    · exact hm c hc d hd
    · exact hn c hc d hd
    · exact hs c hc d hd

end Clause

theorem Leaf.nested_compile (l : Leaf) : l.compile.nested = [l.compile] := by
  unfold Leaf.compile
  cases l.condition <;> rfl

/-- What the compiler can make of clauses that are there already. -/
structure Closed (P : Clause → Prop) : Prop where
  demand : ∀ must mustNot, must ≠ [] ∨ mustNot ≠ [] → P (.bool must mustNot [])
  choice : ∀ should, should ≠ [] → P (.anyOf should)

namespace Bucket

variable {P : Clause → Prop}

theorem excluding_nested (hP : Closed P) {cs : List Clause} (hne : cs ≠ [])
    (h : ∀ c ∈ cs, ∀ d ∈ c.nested, P d) : ∀ d ∈ (Clause.excluding cs).nested, P d :=
  Clause.forall_nested_bool.2 ⟨hP.demand _ _ (.inr hne), by simp, h, by simp⟩

theorem clausesOf_nested {q : Polarity} {bs : List Branch} (h : ∀ b ∈ bs, ∀ d ∈ b.clause.nested, P d) :
    ∀ c ∈ Branch.clausesOf q bs, ∀ d ∈ c.nested, P d := by
  intro c hc
  obtain ⟨b, hb, rfl⟩ := List.mem_map.1 hc
  exact h b (List.mem_filter.1 hb).1

/-- A bucket adds nothing to its group but clauses of branches, and what the compiler makes of them. -/
theorem parts_nested (hP : Closed P) (k : Bucket) (hne : k.branches ≠ [])
    (h : ∀ b ∈ k.branches, ∀ d ∈ b.clause.nested, P d) :
    (∀ c ∈ k.required, ∀ d ∈ c.nested, P d) ∧ ∀ c ∈ k.excluded, ∀ d ∈ c.nested, P d := by
  obtain ⟨o, bs⟩ := k
  match o, bs with
  | .and, [] => exact absurd rfl hne
  | .and, [b] => exact ⟨clausesOf_nested h, clausesOf_nested h⟩
  | .and, b :: c :: bs =>
    refine ⟨fun d hd => ?_, by simp [excluded]⟩
    rcases List.mem_append.1 hd with hd | hd
    · exact clausesOf_nested h d hd
    · generalize hcs : Branch.clausesOf .unwanted (b :: c :: bs) = cs at hd
      cases cs with
      | nil => simp [excludedTogether] at hd
      | cons e es =>
        obtain rfl := List.mem_singleton.1 hd
        exact excluding_nested hP (by simp) (hcs ▸ clausesOf_nested h)
  | .or, bs =>
    refine ⟨fun d hd => ?_, by simp [excluded]⟩
    obtain rfl := List.mem_singleton.1 hd
    refine Clause.forall_nested_bool.2 ⟨hP.choice _ (by simpa using hne), by simp, by simp, ?_⟩
    intro e he
    obtain ⟨b, hb, rfl⟩ := List.mem_map.1 he
    unfold Branch.alternative
    cases b.polarity
    · exact h b hb
    · exact excluding_nested hP (by simp) (by simpa using h b hb)

end Bucket

theorem Branch.assemble_nested {P : Clause → Prop} (hP : Closed P) (b : Branch) (bs : List Branch)
    (h : ∀ c ∈ b :: bs, ∀ d ∈ c.clause.nested, P d) : ∀ d ∈ (assemble (b :: bs)).nested, P d := by
  have hparts : ∀ k ∈ Bucket.ofBranches (b :: bs),
      (∀ c ∈ k.required, ∀ d ∈ c.nested, P d) ∧ ∀ c ∈ k.excluded, ∀ d ∈ c.nested, P d := by
    intro k hk
    obtain ⟨hne, hsub⟩ := Bucket.mem_ofBranches hk
    exact Bucket.parts_nested hP k hne fun c hc => h c (hsub hc)
  have hne : (Bucket.ofBranches (b :: bs)).flatMap Bucket.required ≠ [] ∨
      (Bucket.ofBranches (b :: bs)).flatMap Bucket.excluded ≠ [] := by
    obtain ⟨k, hk⟩ := List.exists_mem_of_ne_nil _ (Bucket.ofBranches_ne_nil b bs)
    refine (Bucket.required_or_excluded_ne_nil k (Bucket.mem_ofBranches hk).1).imp ?_ ?_
    · exact fun h0 h1 => h0 (List.flatMap_eq_nil_iff.1 h1 k hk)
    · exact fun h0 h1 => h0 (List.flatMap_eq_nil_iff.1 h1 k hk)
  rw [assemble_cons]
  refine Clause.forall_nested_bool.2 ⟨hP.demand _ _ hne, ?_, ?_, by simp⟩
  · intro c hc
    obtain ⟨k, hk, hc⟩ := List.mem_flatMap.1 hc
    exact (hparts k hk).1 c hc
  · intro c hc
    obtain ⟨k, hk, hc⟩ := List.mem_flatMap.1 hc
    exact (hparts k hk).2 c hc

/-- **What holds everywhere in a compiled tree**: a property of the clauses of its leaves, of the clause
that matches everything, and of all that the compiler makes of clauses. -/
theorem Node.forall_nested_compile {P : Clause → Prop} (hP : Closed P) (he : P .everything) (n : Node)
    (hl : ∀ l ∈ n.leaves, P l.compile) : ∀ d ∈ n.compile.nested, P d := by
  induction n using Node.induction with
  | leaf l =>
    rw [compile, l.nested_compile]
    exact List.forall_mem_singleton.2 (hl l List.mem_cons_self)
  | group es q ih =>
    rw [compile_group]
    cases es with
    | nil => exact List.forall_mem_singleton.2 he
    | cons e es =>
      refine Branch.assemble_nested hP _ _ fun c hc => ?_
      obtain ⟨f, hf, rfl⟩ := List.mem_map.1 (List.map_cons ▸ hc)
      exact ih f hf fun l h => hl l (leaves_subset_group hf q h)

end LogQuery
