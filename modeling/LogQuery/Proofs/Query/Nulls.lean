import LogQuery.Proofs.Json.Positions
import LogQuery.Proofs.Query.Construction
import LogQuery.Proofs.Query.Nested
import LogQuery.Proofs.Query.Placement

/-!
# Nulls in a compiled tree

JSON has no NaN and no infinity, and a double that is one of these is written as null. Weights are
numbers, so in the form of a compiled tree nulls come only from the values that full-text, term and range
leaves compare with, and they stand where the clauses of these leaves have their values
(`Construction.null_iff`).

The position of a clause in the form of another is `StandsIn`. A null of the form of any clause is one of
the form of a clause without others inside it that stands there (`Clause.nullAt_toJson_iff`), and those of a
compiled tree are the clauses of its leaves beside the one that matches everything.
-/

namespace LogQuery

variable {p : Json.Position}

/-! ## Values -/

theorem isFinite_eq_false_iff (x : Float) : x.isFinite = false ↔ x.isNaN = true ∨ x.isInf = true := by
  change x.toModel.unpack.isFinite = false ↔
    x.toModel.unpack.isNaN = true ∨ x.toModel.unpack.isInf = true
  cases x.toModel.unpack with
  | infinity s => exact iff_of_true rfl (.inr rfl)
  | notANumber => exact iff_of_true rfl (.inl rfl)
  | zero s => exact iff_of_false Bool.noConfusion (not_or.2 ⟨Bool.noConfusion, Bool.noConfusion⟩)
  | finite s m e hm =>
    exact iff_of_false Bool.noConfusion (not_or.2 ⟨Bool.noConfusion, Bool.noConfusion⟩)

/-- The value is a double that is NaN or infinite. -/
def Scalar.NoNumber (s : Scalar) : Prop := ∃ x, s = .float x ∧ (x.isNaN = true ∨ x.isInf = true)

theorem Scalar.nullAt_toJson_iff (s : Scalar) : s.toJson.NullAt p ↔ p = [] ∧ s.NoNumber := by
  cases s with
  | bool b => simpa [toJson, NoNumber] using Json.not_nullAt_bool b
  | integer i => simpa [toJson, NoNumber] using Json.not_nullAt_int i.toInt
  | text t => simpa [toJson, NoNumber] using Json.not_nullAt_text t
  | float x => simp [toJson, NoNumber, Json.nullAt_ofFloat_iff, isFinite_eq_false_iff]

/-! ## Parts of clauses -/

theorem Operator.not_nullAt_toJson (o : Operator) : ¬ o.toJson.NullAt p := Json.not_nullAt_text _

theorem Fuzziness.not_nullAt_toJson (f : Fuzziness) : ¬ f.toJson.NullAt p := by
  cases f with
  | auto => exact Json.not_nullAt_text _
  | fixed d => exact Json.not_nullAt_int _

theorem FuzzyConfig.not_nullAt_clauseMembers (lead : String) (f : Option FuzzyConfig) :
    ¬ (clauseMembers lead f).NullAt p := by
  simp [clauseMembers, Members.nullAt_cons_iff, Members.not_nullAt_nil, Json.not_nullAt_int,
    Json.not_nullAt_bool]

theorem not_nullAt_texts (ss : List String) : ∀ v ∈ Json.nonEmptyArray (ss.map .text), ¬ v.NullAt p := by
  intro v hv
  unfold Json.nonEmptyArray at hv
  split at hv
  · cases hv
  · obtain rfl := Option.some.inj hv
    rw [Json.nullAt_array_iff]
    rintro ⟨i, w, hw, q, -, hnull⟩
    obtain ⟨s, -, rfl⟩ := List.mem_map.1 (List.mem_of_getElem? hw)
    exact Json.not_nullAt_text s hnull

theorem MatchClause.nullAt_toJson_iff (c : MatchClause) (hb : c.boost.isFinite = true) :
    c.toJson.NullAt p ↔ p = [.member c.field, .member "query"] ∧ c.value.NoNumber := by
  have hn : ["query", "operator", "fuzziness", "boost", "max_expansions", "prefix_length",
      "fuzzy_transpositions"].Nodup := by decide
  rw [toJson, Json.nullAt_single_iff]
  refine (exists_congr fun q => and_congr_right fun _ => Json.nullAt_ofOptional_iff hn rfl).trans ?_
  simp [Members.nullAt_cons_iff, FuzzyConfig.distanceMember, FuzzyConfig.not_nullAt_clauseMembers,
    Operator.not_nullAt_toJson, Fuzziness.not_nullAt_toJson, Json.nullAt_ofFloat_iff, hb,
    Scalar.nullAt_toJson_iff]

theorem TermClause.nullAt_toJson_iff (c : TermClause) (hb : c.boost.isFinite = true) :
    c.toJson.NullAt p ↔ p = [.member c.field, .member "value"] ∧ c.value.NoNumber := by
  have hn : ["value", "boost"].Nodup := by decide
  rw [toJson, Json.nullAt_single_iff]
  refine (exists_congr fun q => and_congr_right fun _ => Json.nullAt_ofMembers_iff hn rfl).trans ?_
  simp [Members.nullAt_cons_iff, Members.not_nullAt_nil, Json.nullAt_ofFloat_iff, hb,
    Scalar.nullAt_toJson_iff]

theorem RangeClause.nullAt_toJson_iff (c : RangeClause) (hb : c.boost.isFinite = true) :
    c.toJson.NullAt p ↔
      p = [.member c.field, .member "gte"] ∧ c.bounds.lower.NoNumber ∨
        p = [.member c.field, .member "lte"] ∧ c.bounds.upper.NoNumber := by
  have hn : ["gte", "lte", "boost"].Nodup := by decide
  rw [toJson, Json.nullAt_single_iff]
  refine (exists_congr fun q => and_congr_right fun _ => Json.nullAt_ofMembers_iff hn rfl).trans ?_
  simp [Members.nullAt_cons_iff, Members.not_nullAt_nil, Json.nullAt_ofFloat_iff, hb,
    Scalar.nullAt_toJson_iff, and_or_left, exists_or]

theorem StrictClause.not_nullAt_toJson (c : StrictClause) (hb : c.boost.isFinite = true) :
    ¬ c.toJson.NullAt p := by
  have hn : ["query", "default_field", "fields", "default_operator", "fuzziness", "boost",
      "fuzzy_max_expansions", "fuzzy_prefix_length", "fuzzy_transpositions"].Nodup := by decide
  have hfields : ∀ q, ∀ v ∈ Json.nonEmptyArray (c.fields.map .text), ¬ v.NullAt q :=
    fun _ => not_nullAt_texts c.fields
  rw [toJson, Json.nullAt_ofOptional_iff hn rfl]
  simpa [Members.nullAt_cons_iff, FuzzyConfig.distanceMember, FuzzyConfig.not_nullAt_clauseMembers,
    Operator.not_nullAt_toJson, Fuzziness.not_nullAt_toJson, Json.nullAt_ofFloat_iff, hb,
    Json.not_nullAt_text] using fun q _ => hfields q

theorem LenientClause.not_nullAt_toJson (c : LenientClause) (hb : c.boost.isFinite = true) :
    ¬ c.toJson.NullAt p := by
  have hn : ["query", "fields", "default_operator", "boost", "fuzzy_max_expansions",
      "fuzzy_prefix_length", "fuzzy_transpositions"].Nodup := by decide
  have hfields : ∀ q, ∀ v ∈ Json.nonEmptyArray (c.fields.map .text), ¬ v.NullAt q :=
    fun _ => not_nullAt_texts c.fields
  rw [toJson, Json.nullAt_ofOptional_iff hn rfl]
  simpa [Members.nullAt_cons_iff, FuzzyConfig.not_nullAt_clauseMembers, Operator.not_nullAt_toJson,
    Json.nullAt_ofFloat_iff, hb, Json.not_nullAt_text] using fun q _ => hfields q

/-! ## Clauses without others inside -/

namespace Clause

/-- The values that a clause compares with, each where it stands in the form of the clause. -/
def values : Clause → List (Json.Position × Scalar)
  | fullText c => [([.member "match", .member c.field, .member "query"], c.value)]
  | term c => [([.member "term", .member c.field, .member "value"], c.value)]
  | range c =>
    [([.member "range", .member c.field, .member "gte"], c.bounds.lower),
      ([.member "range", .member c.field, .member "lte"], c.bounds.upper)]
  | matchAll _ | bool .. | strict _ | lenient _ => []

/-- The clause has no others inside. -/
def Plain (c : Clause) : Prop := ∀ must mustNot should, c ≠ bool must mustNot should

/-- With a weight that is a number, the nulls are the values that are none. -/
theorem nullAt_toJson_of_plain {c : Clause} (hc : c.Plain) (hb : ∀ x ∈ c.boost?, x.isFinite = true) :
    c.toJson.NullAt p ↔ ∃ m ∈ c.values, m.2.NoNumber ∧ p = m.1 := by
  cases c with
  | matchAll x =>
    have hx : x.isFinite = true := hb x rfl
    simp [toJson, Json.nullAt_single_iff, Json.nullAt_ofFloat_iff, hx, values]
  | bool must mustNot should => exact absurd rfl (hc must mustNot should)
  | fullText c =>
    have hx : c.boost.isFinite = true := hb _ rfl
    simp [toJson, Json.nullAt_single_iff, MatchClause.nullAt_toJson_iff c hx, values, and_comm]
  | term c =>
    have hx : c.boost.isFinite = true := hb _ rfl
    simp [toJson, Json.nullAt_single_iff, TermClause.nullAt_toJson_iff c hx, values, and_comm]
  | range c =>
    have hx : c.boost.isFinite = true := hb _ rfl
    simp [toJson, Json.nullAt_single_iff, RangeClause.nullAt_toJson_iff c hx, values, and_or_left,
      exists_or, and_comm]
  | strict c =>
    have hx : c.boost.isFinite = true := hb _ rfl
    simp [toJson, Json.nullAt_single_iff, StrictClause.not_nullAt_toJson c hx, values]
  | lenient c =>
    have hx : c.boost.isFinite = true := hb _ rfl
    simp [toJson, Json.nullAt_single_iff, LenientClause.not_nullAt_toJson c hx, values]

end Clause

/-! ## Clauses inside others -/

namespace Clause

/-- The lists of a bool clause with their names; none for other clauses. -/
def lists : Clause → List (String × List Clause)
  | bool must mustNot should => [("must", must), ("must_not", mustNot), ("should", should)]
  | _ => []

/-- In the form of the first clause, the second one stands at the position. -/
inductive StandsIn : Clause → Json.Position → Clause → Prop
  | self (c : Clause) : StandsIn c [] c
  | inside {c d e : Clause} {name : String} {cs : List Clause} {i : Nat} {p : Json.Position} :
    (name, cs) ∈ c.lists → cs[i]? = some d → StandsIn d p e →
      StandsIn c (.member "bool" :: .member name :: .item i :: p) e

/-- Induction on clauses where a bool clause has the hypothesis for each clause in its lists. -/
theorem induction {P : Clause → Prop} (plain : ∀ c, c.Plain → P c)
    (bool : ∀ must mustNot should, (∀ m ∈ (bool must mustNot should).lists, ∀ d ∈ m.2, P d) →
      P (.bool must mustNot should)) (c : Clause) : P c := by
  refine nested.induct P (fun cs => ∀ c ∈ cs, P c) (fun must mustNot should hm hn hs => ?_) plain ?_ ?_ c
  · exact bool _ _ _ (by simpa [lists] using ⟨hm, hn, hs⟩)
  · exact fun c hc => absurd hc List.not_mem_nil
  · exact fun c cs hc hcs => List.forall_mem_cons.2 ⟨hc, hcs⟩

theorem listToJson_eq_map : ∀ cs : List Clause, listToJson cs = cs.map toJson
  | [] => rfl
  | c :: cs => by rw [listToJson, listToJson_eq_map, List.map_cons]

/-- A list is left out when it is empty, so it has the nulls of its clauses either way. -/
theorem nullAt_nonEmptyArray_iff {cs : List Clause} :
    (∃ v ∈ Json.nonEmptyArray (listToJson cs), v.NullAt p) ↔
      ∃ i d, cs[i]? = some d ∧ ∃ q, p = .item i :: q ∧ d.toJson.NullAt q := by
  have harray : (∃ v ∈ Json.nonEmptyArray (listToJson cs), v.NullAt p) ↔
      (Json.array (listToJson cs)).NullAt p := by
    cases cs with
    | nil => simp [Json.nonEmptyArray, listToJson, Json.nullAt_array_iff]
    | cons c cs => simp [Json.nonEmptyArray, listToJson]
  rw [harray, Json.nullAt_array_iff, listToJson_eq_map]
  simp

/-- The nulls of a bool clause are those of the clauses in its lists, below the names of the lists. -/
theorem nullAt_toJson_bool_iff {must mustNot should : List Clause} :
    (bool must mustNot should).toJson.NullAt p ↔
      ∃ m ∈ (bool must mustNot should).lists, ∃ i d, m.2[i]? = some d ∧
        ∃ q, p = .member "bool" :: .member m.1 :: .item i :: q ∧ d.toJson.NullAt q := by
  have hn : ["must", "must_not", "should"].Nodup := by decide
  have hlists : ∀ q, (Json.ofOptional [("must", Json.nonEmptyArray (listToJson must)),
      ("must_not", Json.nonEmptyArray (listToJson mustNot)),
      ("should", Json.nonEmptyArray (listToJson should))]).NullAt q ↔
        ∃ m ∈ (bool must mustNot should).lists, ∃ r, q = .member m.1 :: r ∧
          ∃ i d, m.2[i]? = some d ∧ ∃ q, r = .item i :: q ∧ d.toJson.NullAt q := by
    intro q
    rw [Json.nullAt_ofOptional_iff hn rfl]
    simp only [Members.nullAt_cons_iff, Members.not_nullAt_nil, nullAt_nonEmptyArray_iff, lists,
      List.exists_mem_cons_iff, List.not_mem_nil, false_and, exists_false]
  simp only [toJson, Json.nullAt_single_iff, hlists]
  constructor
  · rintro ⟨_, rfl, m, hm, _, rfl, i, d, hd, q, rfl, hnull⟩
    exact ⟨m, hm, i, d, hd, q, rfl, hnull⟩
  · rintro ⟨m, hm, i, d, hd, q, rfl, hnull⟩
    exact ⟨_, rfl, m, hm, _, rfl, i, d, hd, q, rfl, hnull⟩

theorem exists_standsIn_of_nullAt {c : Clause} (h : c.toJson.NullAt p) :
    ∃ r d q, c.StandsIn r d ∧ d.Plain ∧ d.toJson.NullAt q ∧ p = r ++ q := by
  induction c using Clause.induction generalizing p with
  | plain c hc => exact ⟨[], c, p, .self c, hc, h, rfl⟩
  | bool must mustNot should ih =>
    obtain ⟨m, hm, i, d, hi, p, rfl, hnull⟩ := nullAt_toJson_bool_iff.1 h
    obtain ⟨r, e, q, he, hplain, hq, rfl⟩ := ih m hm d (List.mem_of_getElem? hi) hnull
    exact ⟨_, e, q, .inside hm hi he, hplain, hq, rfl⟩

theorem nullAt_of_standsIn {c d : Clause} {r q : Json.Position} (h : c.StandsIn r d)
    (hq : d.toJson.NullAt q) : c.toJson.NullAt (r ++ q) := by
  induction h with
  | self c => exact hq
  | @inside c d e name cs i p hm hi he ih =>
    cases c with
    | bool must mustNot should => exact nullAt_toJson_bool_iff.2 ⟨_, hm, i, d, hi, _, rfl, ih hq⟩
    | _ => exact absurd hm List.not_mem_nil

/-- **The nulls of any clause** are those of the clauses that stand in it and have no others inside. -/
theorem nullAt_toJson_iff {c : Clause} :
    c.toJson.NullAt p ↔
      ∃ r d q, c.StandsIn r d ∧ d.Plain ∧ d.toJson.NullAt q ∧ p = r ++ q := by
  refine ⟨exists_standsIn_of_nullAt, ?_⟩
  rintro ⟨r, d, q, hd, -, hq, rfl⟩
  exact nullAt_of_standsIn hd hq

/-! ## Clauses of a compiled tree -/

theorem self_mem_nested (c : Clause) : c ∈ c.nested := by cases c <;> simp [nested]

theorem mem_nested_of_standsIn {c d : Clause} (h : c.StandsIn p d) : d ∈ c.nested := by
  induction h with
  | self c => exact c.self_mem_nested
  | @inside c d e name cs i p hm hi he ih =>
    have hd : d ∈ cs := List.mem_of_getElem? hi
    cases c with
    | bool must mustNot should =>
      simp only [lists, List.mem_cons, Prod.mk.injEq, List.not_mem_nil, or_false] at hm
      simp only [nested, List.mem_cons, List.mem_append, mem_nestedAll]
      rcases hm with ⟨-, rfl⟩ | ⟨-, rfl⟩ | ⟨-, rfl⟩
      · exact .inr (.inl (.inl ⟨d, hd, ih⟩))
      · exact .inr (.inl (.inr ⟨d, hd, ih⟩))
      · exact .inr (.inr ⟨d, hd, ih⟩)
    | _ => exact absurd hm List.not_mem_nil

theorem mem_placedAll_iff {x : Clause × Place} {pl : Place} :
    ∀ {cs : List Clause}, x ∈ placedAll pl cs ↔ ∃ c ∈ cs, x ∈ placed pl c
  | [] => by simp [placedAll]
  | c :: cs => by
    rw [placedAll, Multiset.mem_add, mem_placedAll_iff]
    simp

theorem placed_of_plain {c : Clause} (hc : c.Plain) (pl : Place) : c.placed pl = {(c, pl)} := by
  cases c with
  | bool must mustNot should => exact absurd rfl (hc must mustNot should)
  | _ => rfl

/-- What has a place in a clause stands in it. -/
theorem exists_standsIn_of_mem_placed {c : Clause} {x : Clause × Place} {pl : Place}
    (h : x ∈ c.placed pl) : ∃ r, c.StandsIn r x.1 := by
  induction c using Clause.induction generalizing pl with
  | plain c hc =>
    rw [placed_of_plain hc] at h
    obtain rfl := Multiset.mem_singleton.1 h
    exact ⟨[], .self c⟩
  | bool must mustNot should ih =>
    obtain ⟨m, hm, d, hd, pl, hx⟩ : ∃ m ∈ (bool must mustNot should).lists, ∃ d ∈ m.2, ∃ pl,
        x ∈ d.placed pl := by
      simp only [placed, Multiset.mem_add, mem_placedAll_iff] at h
      rcases h with (⟨d, hd, hx⟩ | ⟨d, hd, hx⟩) | ⟨d, hd, hx⟩
      · exact ⟨_, .head _, d, hd, _, hx⟩
      · exact ⟨_, .tail _ (.head _), d, hd, _, hx⟩
      · exact ⟨_, .tail _ (.tail _ (.head _)), d, hd, _, hx⟩
    obtain ⟨r, hr⟩ := ih m hm d hd hx
    obtain ⟨i, hi⟩ := List.mem_iff_getElem?.1 hd
    exact ⟨_, .inside hm hi hr⟩

end Clause

/-! ## Leaves -/

/-- The values that a condition compares with, each where it stands in the form of its clause. -/
def Condition.values : Condition → List (Json.Position × Scalar)
  | fullText f v _ => [([.member "match", .member f.path, .member "query"], v)]
  | term f v => [([.member "term", .member f.exactPath, .member "value"], v)]
  | range f b =>
    [([.member "range", .member f.path, .member "gte"], b.lower),
      ([.member "range", .member f.path, .member "lte"], b.upper)]
  | strict .. | lenient .. => []

namespace Leaf

variable (l : Leaf)

theorem plain_compile : l.compile.Plain := by
  intro must mustNot should h
  unfold compile at h
  cases hc : l.condition <;> rw [hc] at h <;> cases h

theorem values_compile : l.compile.values = l.condition.values := by
  unfold compile
  cases l.condition <;> rfl

/-- The nulls in the form of a leaf are its values that are no numbers. -/
theorem nullAt_compile_iff :
    l.compile.toJson.NullAt p ↔ ∃ m ∈ l.condition.values, m.2.NoNumber ∧ p = m.1 := by
  rw [Clause.nullAt_toJson_of_plain l.plain_compile, values_compile]
  rw [boost?_compile]
  rintro x ⟨⟩
  exact l.boost.allowed.1

end Leaf

/-! ## Trees -/

namespace Node

variable {n : Node}

/-- In a compiled tree there are bool clauses, the clauses of its leaves, and the one that matches
everything. -/
theorem eq_everything_or_leaf_of_standsIn {d : Clause} (h : n.compile.StandsIn p d) (hd : d.Plain) :
    d = .everything ∨ ∃ l ∈ n.leaves, d = l.compile := by
  have hclosed : Closed fun d => d.Plain → d = .everything ∨ ∃ l ∈ n.leaves, d = l.compile :=
    ⟨fun _ _ _ h => absurd rfl (h _ _ _), fun _ _ h => absurd rfl (h _ _ _)⟩
  exact n.forall_nested_compile hclosed (fun _ => .inl rfl) (fun l hl _ => .inr ⟨l, hl, rfl⟩) d
    (Clause.mem_nested_of_standsIn h) hd

/-- The clause of each leaf stands somewhere in the compiled tree. -/
theorem exists_standsIn_compile {l : Leaf} (hl : l ∈ n.leaves) :
    ∃ r, n.compile.StandsIn r l.compile := by
  have hmem : l.compile ∈ (n.compile.placed .root).map Prod.fst := by
    rw [placed_compile_at, map_fst_placed]
    exact Multiset.mem_add.2 (.inl (Multiset.mem_coe.2 (List.mem_map_of_mem hl)))
  obtain ⟨x, hx, hxl⟩ := Multiset.mem_map.1 hmem
  exact hxl ▸ Clause.exists_standsIn_of_mem_placed hx

theorem nullAt_compile_iff :
    n.compile.toJson.NullAt p ↔
      ∃ l ∈ n.leaves, ∃ r, n.compile.StandsIn r l.compile ∧
        ∃ m ∈ l.condition.values, m.2.NoNumber ∧ p = r ++ m.1 := by
  rw [Clause.nullAt_toJson_iff]
  constructor
  · rintro ⟨r, d, q, hd, hplain, hnull, rfl⟩
    rcases eq_everything_or_leaf_of_standsIn hd hplain with rfl | ⟨l, hl, rfl⟩
    · have hb : ∀ x ∈ Clause.everything.boost?, x.isFinite = true := by
        rintro x ⟨⟩
        decide
      obtain ⟨m, hm, -⟩ := (Clause.nullAt_toJson_of_plain hplain hb).1 hnull
      exact absurd hm List.not_mem_nil
    · obtain ⟨m, hm, hnum, rfl⟩ := l.nullAt_compile_iff.1 hnull
      exact ⟨l, hl, r, hd, m, hm, hnum, rfl⟩
  · rintro ⟨l, hl, r, hr, m, hm, hnum, rfl⟩
    exact ⟨r, l.compile, m.1, hr, l.plain_compile, l.nullAt_compile_iff.2 ⟨m, hm, hnum, rfl⟩, rfl⟩

end Node

/-- **Only values that are no numbers put a null into a query** (`Node::compile`, `QueryObject::to_json`). Whatever
tree is built from unchecked values, there is a null in the form of its clause just if one of its leaves compares
with NaN or infinity, and the nulls stand where the clauses of such leaves have these values. -/
theorem Construction.null_iff (c : Construction) :
    ∀ n ∈ c.node?,
      ((∃ p, n.compile.toJson.NullAt p) ↔
        ∃ l ∈ n.leaves, ∃ m ∈ l.condition.values, m.2.NoNumber) ∧
      ∀ p, n.compile.toJson.NullAt p ↔
        ∃ l ∈ n.leaves, ∃ r, n.compile.StandsIn r l.compile ∧
          ∃ m ∈ l.condition.values, m.2.NoNumber ∧ p = r ++ m.1 := by
  intro n _
  refine ⟨⟨?_, ?_⟩, fun p => Node.nullAt_compile_iff⟩
  · rintro ⟨p, h⟩
    obtain ⟨l, hl, -, -, m, hm, hnum, -⟩ := Node.nullAt_compile_iff.1 h
    exact ⟨l, hl, m, hm, hnum⟩
  · rintro ⟨l, hl, m, hm, hnum⟩
    obtain ⟨r, hr⟩ := Node.exists_standsIn_compile hl
    exact ⟨_, Node.nullAt_compile_iff.2 ⟨l, hl, r, hr, m, hm, hnum, rfl⟩⟩

/-- A range that begins at infinity, whose weight was refused, beside a word. -/
def Construction.withInfinity : Construction :=
  .group .or
    [.leaf (.rangeEnds .creationTime [(.lower, .float (1.0 / 0.0)), (.upper, .integer 5)])
      [.boost (0.0 / 0.0)]]
    [.push .and (.leaf (.term .level (.text "error")) [])]

theorem Construction.null_withInfinity :
    ∃ n ∈ withInfinity.node?, n.compile.toJson.NullAt
      [.member "bool", .member "must", .item 0, .member "bool", .member "should", .item 0,
        .member "range", .member "timeMillis", .member "gte"] := by
  refine ⟨_, rfl, ((null_iff withInfinity _ rfl).2 _).2 ?_⟩
  refine ⟨_, .head _, [.member "bool", .member "must", .item 0, .member "bool", .member "should", .item 0],
    ?stands, _, .head _, ?infinite, rfl⟩
  case stands => exact .inside (.head _) rfl (.inside (.tail _ (.tail _ (.head _))) rfl (.self _))
  case infinite => exact ⟨1.0 / 0.0, rfl, by decide +kernel⟩

end LogQuery
