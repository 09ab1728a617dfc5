import LogQuery.Proofs.Http.Causes

/-!
# The order in which causes are looked at

The search for an unreadable query string keeps a list of nodes and looks at the next one. Here the order
in which this happens is written down by recursion on the tree of causes: a node stands before everything
below it, and its causes follow one another from the last failed shard to the first, then from the last
root cause to the first, then the cause. The search gives the reason of the first node in this order that
reports an unreadable query string, and it ends, having looked at no more nodes than the error has values
(`unreadableReason?_traverses`).

What connects the two is that the list of the search, each node unfolded in this order, is always what is
left of the whole order (`search_eq_find?`).
-/

namespace LogQuery.ErrorTree

open Relation

/-! ## The order -/

/-- The text of a member; empty if the member is missing or something else. -/
def memberText (name : String) (v : Json) : String :=
  match v.member? name with
  | some (.text s) => s
  | _ => ""

/-- The items of a member; none if the member is missing or no array. -/
def memberItems (name : String) (v : Json) : List Json :=
  match v.member? name with
  | some (.array ws) => ws
  | _ => []

/-- The causes of a node in the order in which they are looked at. -/
def causes (v : Json) : List Json :=
  (memberItems "failed_shards" v).reverse.filterMap (fun s => s.member? "reason") ++
    ((memberItems "root_cause" v).reverse ++ (v.member? "caused_by").toList)

/-- The node reports a query string that the backend could not read. -/
def Unreadable (v : Json) : Prop :=
  memberText "type" v = "query_shard_exception" ∧
      "Failed to parse query [".toList <+: (memberText "reason" v).toList ∨
    memberText "type" v = "parse_exception" ∧ "Cannot parse '".toList <+: (memberText "reason" v).toList

instance (v : Json) : Decidable (Unreadable v) :=
  inferInstanceAs (Decidable (_ ∧ _ ∨ _ ∧ _))

theorem textAt_eq (name : String) (v : Json) : textAt name v = memberText name v := by
  unfold textAt memberText
  cases v.member? name with
  | none => rfl
  | some w => cases w <;> rfl

theorem itemsAt_eq (name : String) (v : Json) : itemsAt name v = memberItems name v := by
  unfold itemsAt memberItems
  cases v.member? name with
  | none => rfl
  | some w => cases w <;> rfl

theorem reverse_children (v : Json) : (children v).reverse = causes v := by
  rw [children, causes, itemsAt_eq, itemsAt_eq, List.reverse_append, List.reverse_append,
    List.filterMap_reverse]
  cases v.member? "caused_by" <;> rfl

theorem mem_causes_iff {v w : Json} : w ∈ causes v ↔ Cause v w := by
  rw [← reverse_children, List.mem_reverse, mem_children_iff]

theorem reason?_eq (v : Json) :
    reason? v = if Unreadable v then some (memberText "reason" v) else none := by
  have h : isUnreadable (memberText "type" v) (memberText "reason" v) = true ↔ Unreadable v := by
    simp only [isUnreadable, Bool.or_eq_true, Bool.and_eq_true, decide_eq_true_eq,
      String.startsWith_string_iff, Unreadable]
  simp only [reason?, textAt_eq, h]

/-! ## The order by recursion -/

theorem size_le_itemsSize {w : Json} {vs : List Json} (h : w ∈ vs) : size w ≤ itemsSize vs := by
  induction vs with
  | nil => cases h
  | cons v vs ih =>
    rw [itemsSize]
    rcases List.mem_cons.1 h with rfl | h
    · omega
    · have := ih h
      omega

theorem itemsSize_causes_lt (v : Json) : itemsSize (causes v) < size v := by
  rw [← reverse_children, itemsSize_reverse]
  exact size_children_lt v

theorem size_lt_of_mem_causes {v w : Json} (h : w ∈ causes v) : size w < size v :=
  Nat.lt_of_le_of_lt (size_le_itemsSize h) (itemsSize_causes_lt v)

/-- A node and all that it is caused by, each before its own causes. -/
def preorder (v : Json) : List Json := v :: (causes v).attach.flatMap fun w => preorder w.1
termination_by size v
decreasing_by exact size_lt_of_mem_causes w.2

theorem preorder_eq (v : Json) : preorder v = v :: (causes v).flatMap preorder := by
  rw [preorder, List.flatMap_subtype fun _ _ => rfl, List.unattach_attach]

/-- The order passes over no node that the error leads to, and has no other. -/
theorem mem_preorder_iff {v w : Json} : w ∈ preorder v ↔ ReflTransGen Cause v w := by
  induction v using preorder.induct with
  | case1 v ih =>
    rw [preorder_eq, List.mem_cons, List.mem_flatMap, ReflTransGen.cases_head_iff, eq_comm]
    refine or_congr_right (exists_congr fun u => ?_)
    rw [mem_causes_iff]
    exact and_congr_right fun hu => ih ⟨u, mem_causes_iff.2 hu⟩

theorem length_preorder_le (v : Json) : (preorder v).length ≤ size v := by
  induction v using preorder.induct with
  | case1 v ih =>
    have hsum : ∀ ws : List Json, (∀ w ∈ ws, (preorder w).length ≤ size w) →
        (ws.flatMap preorder).length ≤ itemsSize ws := by
      intro ws hws
      induction ws with
      | nil => simp [itemsSize]
      | cons w ws ihw =>
        obtain ⟨hw, hws⟩ := List.forall_mem_cons.1 hws
        have := ihw hws
        rw [List.flatMap_cons, List.length_append, itemsSize]
        omega
    have hlt := itemsSize_causes_lt v
    have hle := hsum (causes v) fun w hw => ih ⟨w, hw⟩
    rw [preorder_eq, List.length_cons]
    omega

/-- The reason of the first node in order that reports an unreadable query string. -/
def firstUnreadable? (answer : Json) : Option String :=
  match answer.member? "error" with
  | none => none
  | some e => ((preorder e).find? fun v => Unreadable v).map (memberText "reason")

/-! ## The search -/

/-- The list of the search stands for what is left of the order. -/
theorem search_eq_find? (vs : List Json) :
    search vs = ((vs.flatMap preorder).find? fun v => Unreadable v).map (memberText "reason") := by
  fun_induction search vs with
  | case1 => rfl
  | case2 v rest r hr =>
    rw [reason?_eq] at hr
    obtain ⟨hv, hr⟩ := Option.ite_none_right_eq_some.1 hr
    rw [List.flatMap_cons, preorder_eq, List.cons_append, List.find?_cons_of_pos (by simpa using hv),
      Option.map_some, hr]
  | case3 v rest hr ih =>
    have hv : ¬ Unreadable v := by simpa [reason?_eq] using hr
    rw [ih, reverse_children, List.flatMap_append, List.flatMap_cons, preorder_eq v, List.cons_append,
      List.find?_cons_of_neg (by simpa using hv)]

/-- A run of the search: from this list of nodes it looks at these nodes one after another and ends with
this answer. -/
inductive Looks : List Json → List Json → Option String → Prop
  | exhausted : Looks [] [] none
  | reported {v : Json} {rest : List Json} {r : String} :
    reason? v = some r → Looks (v :: rest) [v] (some r)
  | passed {v : Json} {rest vs : List Json} {answer : Option String} :
    reason? v = none → Looks ((children v).reverse ++ rest) vs answer →
      Looks (v :: rest) (v :: vs) answer

/-- The search ends, and up to there it looks at the nodes in order. -/
theorem exists_looks (vs : List Json) :
    ∃ us, Looks vs us (search vs) ∧ us <+: vs.flatMap preorder := by
  fun_induction search vs with
  | case1 => exact ⟨[], .exhausted, List.prefix_rfl⟩
  | case2 v rest r hr =>
    refine ⟨[v], .reported hr, ?_⟩
    rw [List.flatMap_cons, preorder_eq, List.cons_append]
    exact List.prefix_append [v] _
  | case3 v rest hr ih =>
    obtain ⟨us, hus, hle⟩ := ih
    refine ⟨v :: us, .passed hr hus, ?_⟩
    rw [List.flatMap_append, reverse_children] at hle
    rw [List.flatMap_cons, preorder_eq, List.cons_append]
    exact List.cons_prefix_cons.2 ⟨rfl, hle⟩

/-- **The search is a complete traversal** (`malformed_query_reason`). It gives what the order gives; it ends, and
looks at each node at most once and at no more nodes than there are values; and it gives nothing just if no node
that the error leads to reports an unreadable query string. -/
theorem unreadableReason?_traverses (answer : Json) :
    unreadableReason? answer = firstUnreadable? answer ∧
      (∀ e, answer.member? "error" = some e →
        ∃ us, Looks [e] us (unreadableReason? answer) ∧ us <+: preorder e ∧ us.length ≤ size e) ∧
      (unreadableReason? answer = none ↔
        ∀ e, answer.member? "error" = some e → ∀ v, ReflTransGen Cause e v → ¬ Unreadable v) := by
  unfold unreadableReason? firstUnreadable?
  cases answer.member? "error" with
  | none => simp
  | some e =>
    have hs : search [e] = ((preorder e).find? fun v => Unreadable v).map (memberText "reason") := by
      rw [search_eq_find?, List.flatMap_singleton]
    refine ⟨hs, ?_, ?_⟩
    · intro e' he
      obtain rfl := Option.some.inj he
      obtain ⟨us, hus, hle⟩ := exists_looks [e]
      rw [List.flatMap_singleton] at hle
      exact ⟨us, hus, hle, Nat.le_trans hle.length_le (length_preorder_le e)⟩
    · simp only [Option.bind_some, hs, Option.map_eq_none_iff, List.find?_eq_none, decide_eq_true_eq,
        mem_preorder_iff, Option.some.injEq, forall_eq']

/-- A node that reports an unreadable query string with this text. -/
def unreadableNode (query : String) : Json :=
  .ofMembers [("type", .text "query_shard_exception"),
    ("reason", .text ("Failed to parse query [" ++ query ++ "]"))]

/-- An error of two shards, of which neither its type nor its root causes are what they should be. -/
def shardsError : Json :=
  .ofMembers [("type", .int 400), ("reason", .text "all shards failed"), ("root_cause", .text "none"),
    ("failed_shards", .array [.ofMembers [("reason", unreadableNode "a AND (")], .null,
      .ofMembers [("reason", unreadableNode "b OR (")]]),
    ("caused_by", unreadableNode "c (")]

theorem unreadableReason?_lastShard :
    (Json.ofMembers [("error", shardsError)]).member? "error" = some shardsError ∧
      unreadableReason? (.ofMembers [("error", shardsError)]) =
        some "Failed to parse query [b OR (]" ∧
      ∃ us, Looks [shardsError] us (some "Failed to parse query [b OR (]") ∧
        us <+: preorder shardsError ∧ us.length ≤ size shardsError := by
  have he : (Json.ofMembers [("error", shardsError)]).member? "error" = some shardsError := rfl
  have hc : causes shardsError = [unreadableNode "b OR (", unreadableNode "a AND (",
      unreadableNode "c ("] := by rfl
  have hfirst : firstUnreadable? (.ofMembers [("error", shardsError)]) =
      some "Failed to parse query [b OR (]" := by
    simp only [firstUnreadable?, he]
    rw [preorder_eq, List.find?_cons_of_neg (by decide +kernel), hc, List.flatMap_cons, preorder_eq,
      List.cons_append, List.find?_cons_of_pos (by decide +kernel)]
    rfl
  obtain ⟨hr, hrun, -⟩ := unreadableReason?_traverses (.ofMembers [("error", shardsError)])
  rw [hfirst] at hr
  exact ⟨he, hr, hr ▸ hrun shardsError he⟩

end LogQuery.ErrorTree
