import LogQuery.Http.Message
import LogQuery.Proofs.Json.Positions
import LogQuery.Proofs.Json.Reading
import LogQuery.Search.Query

/-!
# Queries as text

A compiled query is shown on indented lines and is sent without blanks. Both texts are read as the same value: its
objects are in order, its integers are words, and a text in it is quoted and unquoted without loss. What the body
of a request holds under `query` is the text of the compiled query, to the letter.

Main statement: the texts of a leaf, a node, a group and a query are read as what was compiled
(`rendered_queries_read_back`).
-/

namespace LogQuery

open LogQuery.Json (depthLimit parse? toCompact)

/-! ## Writable values -/

namespace Json

/-- The double that the value is. -/
def double? : Json → Option Float
  | float x => some x
  | _ => none

theorem double?_eq_some_iff {v : Json} {x : Float} : v.double? = some x ↔ v = .float x := by
  cases v <;> simp [double?]

theorem Writable.ofNumbers {v : Json} (hv : v.Canonical) (hn : v.numbers = []) : v.Writable :=
  ⟨hv, fun _ hi => absurd hi (hn ▸ List.not_mem_nil)⟩

theorem writable_bool (b : Bool) : (Json.bool b).Writable := .ofNumbers (.bool b) rfl

theorem writable_text (s : String) : (Json.text s).Writable := .ofNumbers (.text s) rfl

theorem writable_int {i : Int} (hlower : Int64.minValue.toInt ≤ i) (hupper : i < UInt64.size) :
    (Json.int i).Writable where
  canonical := .int i
  words j hj := by
    obtain rfl := Json.int.inj (List.mem_singleton.1 hj)
    exact ⟨hlower, hupper⟩

theorem writable_nat {n : Nat} (hn : n < UInt64.size) : (Json.int n).Writable :=
  writable_int (Int.le_trans (by decide) (Int.natCast_nonneg n)) (Int.ofNat_lt.2 hn)

theorem writable_uint32 (n : UInt32) : (Json.int n.toNat).Writable :=
  writable_nat (Nat.lt_trans n.toNat_lt_size (by decide))

theorem writable_ofFloat (x : Float) : (Json.ofFloat x).Writable := by
  rw [ofFloat]
  split
  · exact ⟨.float x, fun i hi => by cases List.mem_singleton.1 hi⟩
  · exact .ofNumbers .null rfl

theorem writable_array {vs : List Json} (h : ∀ v ∈ vs, v.Writable) : (Json.array vs).Writable where
  canonical := .array fun v hv => (h v hv).canonical
  words i hi := by
    obtain ⟨v, hv, hi⟩ := mem_itemNumbers.1 hi
    exact (h v hv).words i hi

theorem writable_nonEmptyArray {vs : List Json} (h : ∀ v ∈ vs, v.Writable) : ∀ w ∈ nonEmptyArray vs, w.Writable := by
  intro w hw
  rw [nonEmptyArray] at hw
  obtain ⟨-, hw⟩ := Option.ite_none_left_eq_some.1 hw
  cases hw
  exact writable_array h

theorem writable_ofMembers {pairs : Members Json} (h : ∀ m ∈ pairs, m.2.Writable) : (ofMembers pairs).Writable where
  canonical := .object (Members.sorted_ofList pairs) fun m hm => (h m (Members.mem_ofList_names hm)).canonical
  words i hi := by
    obtain ⟨m, hm, hi⟩ := mem_memberNumbers.1 hi
    exact (h m (Members.mem_ofList_names hm)).words i hi

theorem mem_ofOptional {pairs : Members (Option Json)} {m : String × Json} (hm : m ∈ Members.ofOptional pairs) :
    ∃ p ∈ pairs, p.1 = m.1 ∧ p.2 = some m.2 := by
  obtain ⟨p, hp, hm⟩ := List.mem_filterMap.1 (Members.mem_ofList_names hm)
  obtain ⟨v, hv, hm⟩ := Option.map_eq_some_iff.1 hm
  cases hm
  exact ⟨p, hp, rfl, hv⟩

theorem writable_ofOptional {pairs : Members (Option Json)} (h : ∀ p ∈ pairs, ∀ v ∈ p.2, v.Writable) :
    (ofOptional pairs).Writable where
  canonical := .object (Members.sorted_ofList _) fun m hm => by
    obtain ⟨p, hp, -, hv⟩ := mem_ofOptional hm
    exact (h p hp m.2 hv).canonical
  words i hi := by
    obtain ⟨m, hm, hi⟩ := mem_memberNumbers.1 hi
    obtain ⟨p, hp, -, hv⟩ := mem_ofOptional hm
    exact (h p hp m.2 hv).words i hi

theorem writable_map {α : Type} {f : α → Json} (h : ∀ a, (f a).Writable) (o : Option α) :
    ∀ v ∈ o.map f, v.Writable := by
  intro v hv
  obtain ⟨a, -, rfl⟩ := Option.map_eq_some_iff.1 hv
  exact h a

theorem writable_some {v : Json} (h : v.Writable) : ∀ w ∈ some v, w.Writable := by
  rintro w ⟨⟩
  exact h

end Json

/-! ## Clauses are writable -/

theorem Scalar.writable_toJson (s : Scalar) : s.toJson.Writable := by
  cases s with
  | bool b => exact Json.writable_bool b
  | integer i => exact Json.writable_int i.minValue_le_toInt (Int.lt_of_le_of_lt i.toInt_le (by decide))
  | float x => exact Json.writable_ofFloat x
  | text s => exact Json.writable_text s

theorem Fuzziness.writable_toJson (f : Fuzziness) : f.toJson.Writable := by
  cases f with
  | auto => exact Json.writable_text _
  | fixed d => exact Json.writable_nat (Nat.lt_of_le_of_lt d.le_max (by decide))

theorem Operator.writable_toJson (o : Operator) : o.toJson.Writable := Json.writable_text _

theorem FuzzyConfig.writable_distanceMember (f : Option FuzzyConfig) :
    ∀ v ∈ (distanceMember f).2, v.Writable :=
  Json.writable_map (fun f => f.fuzziness.writable_toJson) f

theorem FuzzyConfig.writable_clauseMembers (lead : String) (f : Option FuzzyConfig) :
    ∀ p ∈ clauseMembers lead f, ∀ v ∈ p.2, v.Writable := by
  simp only [clauseMembers, List.forall_mem_cons]
  exact ⟨Json.writable_map (fun f => Json.writable_uint32 f.maxExpansions) f,
    Json.writable_map (fun f => Json.writable_uint32 f.prefixLength) f,
    Json.writable_map (fun f => Json.writable_bool f.transpositions) f, List.forall_mem_nil _⟩

theorem writable_texts (ss : List String) : ∀ v ∈ Json.nonEmptyArray (ss.map Json.text), v.Writable :=
  Json.writable_nonEmptyArray fun v hv => by
    obtain ⟨s, -, rfl⟩ := List.mem_map.1 hv
    exact Json.writable_text s

/-- An object with one member. -/
theorem writable_single {name : String} {v : Json} (h : v.Writable) : (Json.ofMembers [(name, v)]).Writable :=
  Json.writable_ofMembers (List.forall_mem_singleton.2 h)

theorem MatchClause.writable_toJson (c : MatchClause) : c.toJson.Writable := by
  refine writable_single (Json.writable_ofOptional
    (List.forall_mem_append.2 ⟨?_, FuzzyConfig.writable_clauseMembers _ _⟩))
  simp only [List.forall_mem_cons]
  exact ⟨Json.writable_some c.value.writable_toJson, Json.writable_map Operator.writable_toJson _,
    FuzzyConfig.writable_distanceMember _, Json.writable_some (Json.writable_ofFloat c.boost), List.forall_mem_nil _⟩

theorem TermClause.writable_toJson (c : TermClause) : c.toJson.Writable := by
  refine writable_single (Json.writable_ofMembers ?_)
  simp only [List.forall_mem_cons]
  exact ⟨c.value.writable_toJson, Json.writable_ofFloat c.boost, List.forall_mem_nil _⟩

theorem RangeClause.writable_toJson (c : RangeClause) : c.toJson.Writable := by
  refine writable_single (Json.writable_ofMembers ?_)
  simp only [List.forall_mem_cons]
  exact ⟨c.bounds.lower.writable_toJson, c.bounds.upper.writable_toJson, Json.writable_ofFloat c.boost,
    List.forall_mem_nil _⟩

theorem StrictClause.writable_toJson (c : StrictClause) : c.toJson.Writable := by
  refine Json.writable_ofOptional (List.forall_mem_append.2 ⟨?_, FuzzyConfig.writable_clauseMembers _ _⟩)
  simp only [List.forall_mem_cons]
  exact ⟨Json.writable_some (Json.writable_text c.text), Json.writable_map Json.writable_text _,
    writable_texts c.fields, Json.writable_map Operator.writable_toJson _, FuzzyConfig.writable_distanceMember _,
    Json.writable_some (Json.writable_ofFloat c.boost), List.forall_mem_nil _⟩

theorem LenientClause.writable_toJson (c : LenientClause) : c.toJson.Writable := by
  refine Json.writable_ofOptional (List.forall_mem_append.2 ⟨?_, FuzzyConfig.writable_clauseMembers _ _⟩)
  simp only [List.forall_mem_cons]
  exact ⟨Json.writable_some (Json.writable_text c.text), writable_texts c.fields,
    Json.writable_map Operator.writable_toJson _, Json.writable_some (Json.writable_ofFloat c.boost),
    List.forall_mem_nil _⟩

namespace Clause

mutual

/-- The form of every clause can be written. -/
theorem writable_toJson : ∀ c : Clause, c.toJson.Writable
  | matchAll boost => writable_single (writable_single (Json.writable_ofFloat boost))
  | bool must mustNot should => by
    have hmust := Json.writable_nonEmptyArray (writable_listToJson must)
    have hmustNot := Json.writable_nonEmptyArray (writable_listToJson mustNot)
    have hshould := Json.writable_nonEmptyArray (writable_listToJson should)
    exact writable_single (Json.writable_ofOptional (List.forall_mem_cons.2 ⟨hmust, List.forall_mem_cons.2 ⟨hmustNot,
      List.forall_mem_singleton.2 hshould⟩⟩))
  | fullText c => writable_single c.writable_toJson
  | term c => writable_single c.writable_toJson
  | range c => writable_single c.writable_toJson
  | strict c => writable_single c.writable_toJson
  | lenient c => writable_single c.writable_toJson

theorem writable_listToJson : ∀ cs : List Clause, ∀ v ∈ listToJson cs, v.Writable
  | [] => List.forall_mem_nil _
  | c :: cs => by
    rw [listToJson, List.forall_mem_cons]
    exact ⟨writable_toJson c, writable_listToJson cs⟩

end

/-- A parser can take the texts of the clause: they are not too deep, and each double is read as itself. -/
structure Readable (c : Clause) : Prop where
  nesting : c.toJson.nesting ≤ depthLimit
  doubles : c.toJson.ExactDoubles

/-- Both texts of the clause are read as its form. -/
structure ReadsBack (c : Clause) : Prop where
  display : parse? c.display = some c.toJson
  compact : parse? c.toJson.toCompact = some c.toJson

theorem Readable.readsBack {c : Clause} (h : c.Readable) : c.ReadsBack where
  display := c.writable_toJson.parse?_render Json.blank_pretty h.nesting h.doubles
  compact := c.writable_toJson.parse?_render Json.blank_compact h.nesting h.doubles

end Clause

/-! ## Bodies of requests -/

theorem SortKey.toJson_eq (s : SortKey) :
    s.toJson = .object [(s.field.exactPath, .object [("order", .text s.order.name)])] := rfl

namespace SearchRequest

/-- The parts that a body is written from. -/
def bodyParts (r : SearchRequest) : Members (Option Json) :=
  [("query", some r.query.toJson), ("sort", r.sort.map fun s => .array [s.toJson]),
    ("from", r.first?.map fun n => .int n.toNat), ("size", r.size?.map fun n => .int n.toNat)]

theorem body_eq (r : SearchRequest) : r.body = .object (Members.ofOptional r.bodyParts) := rfl

theorem nodup_bodyParts (r : SearchRequest) : r.bodyParts.names.Nodup := by
  change ["query", "sort", "from", "size"].Nodup
  decide

theorem writable_body (r : SearchRequest) : r.body.Writable := by
  refine Json.writable_ofOptional ?_
  simp only [List.forall_mem_cons]
  exact ⟨Json.writable_some r.query.writable_toJson,
    Json.writable_map (fun s => Json.writable_array (List.forall_mem_singleton.2
      (writable_single (writable_single (Json.writable_text _))))) _,
    Json.writable_map Json.writable_uint32 _, Json.writable_map Json.writable_uint32 _, List.forall_mem_nil _⟩

theorem mem_body (r : SearchRequest) : ("query", r.query.toJson) ∈ Members.ofOptional r.bodyParts :=
  (Members.mem_ofOptional_iff r.nodup_bodyParts).2 List.mem_cons_self

/-- The members of a body beside the query nest three containers at most and hold no doubles. -/
theorem body_besides (r : SearchRequest) {m : String × Json} (hm : m ∈ Members.ofOptional r.bodyParts) :
    m.2 = r.query.toJson ∨ m.2.nesting ≤ 3 ∧ ∀ x, .float x ∉ m.2.numbers := by
  obtain ⟨p, hp, -, hv⟩ := Json.mem_ofOptional hm
  simp only [bodyParts, List.mem_cons, List.not_mem_nil, or_false] at hp
  obtain rfl | rfl | rfl | rfl := hp
  · exact .inl (Option.some.inj hv).symm
  · obtain ⟨s, -, hv⟩ := Option.map_eq_some_iff.1 hv
    rw [← hv, s.toJson_eq]
    exact .inr ⟨Nat.le_refl 3, fun _ => List.not_mem_nil⟩
  · obtain ⟨n, -, hv⟩ := Option.map_eq_some_iff.1 hv
    rw [← hv]
    exact .inr ⟨Nat.zero_le 3, fun x hx => by cases List.mem_singleton.1 hx⟩
  · obtain ⟨n, -, hv⟩ := Option.map_eq_some_iff.1 hv
    rw [← hv]
    exact .inr ⟨Nat.zero_le 3, fun x hx => by cases List.mem_singleton.1 hx⟩

variable {r : SearchRequest}

theorem nesting_body (h : r.query.toJson.nesting < depthLimit) : r.body.nesting ≤ depthLimit := by
  have hmembers : Json.memberNesting (Members.ofOptional r.bodyParts) ≤ 126 := by
    refine Json.memberNesting_le_iff.2 fun m hm => ?_
    obtain hq | ⟨hnesting, -⟩ := r.body_besides hm
    · rw [hq]
      exact Nat.le_of_lt_succ h
    · omega
  rw [r.body_eq, Json.nesting]
  exact Nat.succ_le_succ hmembers

theorem exactDoubles_body (h : r.query.toJson.ExactDoubles) : r.body.ExactDoubles := by
  intro x hx
  obtain ⟨m, hm, hx⟩ := Json.mem_memberNumbers.1 hx
  obtain hq | ⟨-, hnone⟩ := r.body_besides hm
  · exact h x (hq ▸ hx)
  · exact absurd hx (hnone x)

/-- The request sends the value as its query: in the value of its body, in the text of the body, and in what is
written to a node. -/
structure SendsQuery (r : SearchRequest) (v : Json) : Prop where
  member : r.body.member? "query" = some v
  text : ∃ before after, r.body.toCompact = before ++ ("\"query\":" ++ v.toCompact) ++ after
  posted : ∀ credentials node p, Http.post? credentials r node = some p → ∃ head, p.message = head ++ r.body.toCompact

theorem sendsQuery (r : SearchRequest) : r.SendsQuery r.query.toJson where
  member := (Members.find?_eq_some_iff (Members.sorted_ofList _).nodup_names _ _).2 r.mem_body
  text := by
    have hname : "\"query\":" = String.ofList (Json.quotedChars "query") ++ ":" := by decide +kernel
    rw [r.body_eq, hname]
    exact Json.exists_toCompact_object r.mem_body
  posted credentials node p hp := by
    obtain ⟨url, -, rfl⟩ := Option.map_eq_some_iff.1 hp
    exact ⟨_, rfl⟩

/-- A body one level short of the limit is read whole. -/
theorem parse?_body (hdepth : r.query.toJson.nesting < depthLimit) (hexact : r.query.toJson.ExactDoubles) :
    parse? r.body.toCompact = some r.body :=
  r.writable_body.parse?_render Json.blank_compact (nesting_body hdepth) (exactDoubles_body hexact)

end SearchRequest

/-- **What is rendered is read back** (`QueryObject::to_json`). The texts of leaves, nodes, groups and queries that
a parser can take are read as what was compiled, on indented lines and without blanks. Every request of a query
sends the compiled root group under `query`; up to one level below the limit, its body is read whole. -/
theorem rendered_queries_read_back :
    (∀ l : Leaf, l.compile.Readable → l.compile.ReadsBack) ∧
    (∀ n : Node, n.compile.Readable → n.compile.ReadsBack) ∧
    (∀ g : Group, g.compile.Readable → g.compile.ReadsBack) ∧
    ∀ q : BooleanQuery, q.root.compile.Readable →
      parse? q.display = some q.root.compile.toJson ∧
        parse? q.root.compile.toJson.toCompact = some q.root.compile.toJson ∧
        ∀ r, (r = q.prepare ∨ ∃ first size, r = q.preparePage first size) →
          r.SendsQuery q.root.compile.toJson ∧
            (q.root.compile.toJson.nesting < depthLimit → parse? r.body.toCompact = some r.body) := by
  refine ⟨fun l h => h.readsBack, fun n h => h.readsBack, fun g h => h.readsBack, fun q h => ?_⟩
  refine ⟨h.readsBack.display, h.readsBack.compact, fun r hr => ?_⟩
  have hquery : r.query = q.root.compile := by
    obtain rfl | ⟨first, size, rfl⟩ := hr
    · rfl
    · rfl
  rw [← hquery]
  exact ⟨r.sendsQuery, fun hdepth => SearchRequest.parse?_body hdepth (hquery ▸ h.doubles)⟩

/-- A text with quotes, a backslash, control characters and a letter beyond ASCII, in an excluded group. -/
def quotedNode : Node :=
  (Group.empty.term .message (.text "say \"a\\b\"\n\x01 caf\u00e9")).negated.toNode

theorem defaultBoost_reads_back :
    parse? (toCompact (.float Clause.defaultBoost)) = some (.float Clause.defaultBoost) := by
  have hchars : Json.floatChars Clause.defaultBoost = ['1', '.', '0'] := by decide +kernel
  have hread : (parse? (String.ofList ['1', '.', '0'])).bind Json.double? = some Clause.defaultBoost := by
    decide +kernel
  obtain ⟨v, hv, hdouble⟩ := Option.bind_eq_some_iff.1 hread
  rw [toCompact, Json.render, Json.printChars, hchars, hv, Json.double?_eq_some_iff.1 hdouble]

theorem quotedNode_reads_back :
    quotedNode.compile.Readable ∧ parse? quotedNode.compile.display = some quotedNode.compile.toJson ∧
      parse? quotedNode.compile.toJson.toCompact = some quotedNode.compile.toJson := by
  have hboosts : (quotedNode.compile.toJson.numbers.filterMap Json.double?).all (· = Clause.defaultBoost) = true := by
    decide +kernel
  have hreadable : quotedNode.compile.Readable := by
    refine ⟨by decide +kernel, fun x hx => ?_⟩
    rw [of_decide_eq_true (List.all_eq_true.1 hboosts x (List.mem_filterMap.2 ⟨_, hx, rfl⟩))]
    exact defaultBoost_reads_back
  have hback := rendered_queries_read_back.2.1 quotedNode hreadable
  exact ⟨hreadable, hback.display, hback.compact⟩

end LogQuery
