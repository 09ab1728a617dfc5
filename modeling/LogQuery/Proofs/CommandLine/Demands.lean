import LogQuery.CommandLine.Query
import LogQuery.Proofs.Computations
import LogQuery.Proofs.Query.Meaning

/-!
# What the options of a query demand

The options of the command line name fields, values and texts; a demand has the clauses that these stand
for. The group that is built of the options compiles to a clause that a document meets just if it meets the
demand, whatever numbers of conditions of each kind are given (`group_demands`). No group is built just if
the options are at fault: a field is not known, or a text is blank.

The fields of query strings count only beside a text that searches them.
-/

namespace LogQuery

open LogQuery.Text

/-- The paths that a query string searches; none stands for all fields. -/
def StrictClause.searched (c : StrictClause) : List String := c.defaultField.toList ++ c.fields

theorem Condition.strictClause_eq (t : Target) (q : QueryText) (a : Analysis) :
    strictClause t q a = ⟨q.text, t.single?.map Field.path, if t.single? = none then t.paths else [],
      a.operator, a.fuzzy, Clause.defaultBoost⟩ := by
  unfold strictClause
  cases t.single? <;> rfl

theorem Condition.searched_strictClause (t : Target) (q : QueryText) (a : Analysis) :
    (strictClause t q a).searched = t.paths := by
  cases h : t.single? with
  | some f =>
    have hf : t.toFields = [f] := (t.single?_eq_some_iff f).1 h
    simp [strictClause, StrictClause.searched, h, Target.paths, hf]
  | none => simp [strictClause, StrictClause.searched, h]

namespace Leaf

theorem strict_eq_ok_iff {t : Target} {s : String} {l : Leaf} :
    strict t s = .ok l ↔ ∃ q : QueryText, q.text = s ∧ l = .of (.strict t q .standard) := by
  simp only [strict, strictOf, Except.map_eq_ok_iff, requireText_eq_ok_iff, Option.some.injEq]
  exact exists_congr fun q => and_congr eq_comm eq_comm

theorem lenient_eq_ok_iff {t : Target} {s : String} {l : Leaf} :
    lenient t s = .ok l ↔ ∃ q : QueryText, q.text = s ∧ l = .of (.lenient t q .standard) := by
  simp only [lenient, lenientOf, Except.map_eq_ok_iff, requireText_eq_ok_iff, Option.some.injEq]
  exact exists_congr fun q => and_congr eq_comm eq_comm

theorem exists_strict_iff {t : Target} {s : String} : (∃ l, strict t s = .ok l) ↔ allBlank s = false := by
  simp only [strict, strictOf, Except.exists_map_eq_ok_iff, exists_requireText_iff]

theorem exists_lenient_iff {t : Target} {s : String} : (∃ l, lenient t s = .ok l) ↔ allBlank s = false := by
  simp only [lenient, lenientOf, Except.exists_map_eq_ok_iff, exists_requireText_iff]

end Leaf

namespace CommandLine

/-! ## Demands -/

/-- The clauses that a document is to meet or not to meet. -/
structure Demand where
  must : List Clause
  mustNot : List Clause
  should : List Clause
  /-- The query strings that are to be met too. -/
  texts : List Clause

/-- A document of which the valuation speaks meets the demand. -/
structure Demand.MetBy (d : Demand) (v : Clause → Bool) : Prop where
  must : ∀ c ∈ d.must, v c = true
  mustNot : ∀ c ∈ d.mustNot, v c = false
  /-- One of the alternatives, if there are any. -/
  should : d.should = [] ∨ ∃ c ∈ d.should, v c = true
  texts : ∀ c ∈ d.texts, v c = true

theorem Demand.metBy_iff {d : Demand} {v : Clause → Bool} :
    d.MetBy v ↔ (d.must.all v && !d.mustNot.any v && d.texts.all v &&
      (d.should.isEmpty || d.should.any v)) = true := by
  simp only [Bool.and_eq_true, Bool.or_eq_true, Bool.not_eq_true', List.all_eq_true, List.any_eq_false,
    List.any_eq_true, List.isEmpty_iff, Bool.not_eq_true]
  constructor
  · intro h
    exact ⟨⟨⟨h.must, h.mustNot⟩, h.texts⟩, h.should⟩
  · rintro ⟨⟨⟨hm, hn⟩, ht⟩, hs⟩
    exact ⟨hm, hn, hs, ht⟩

instance (d : Demand) (v : Clause → Bool) : Decidable (d.MetBy v) := decidable_of_iff' _ Demand.metBy_iff

namespace QueryOptions

section
variable (o : QueryOptions) (s : Settings)

/-- The clause that a condition stands for: exact comparison at the exact path, or else a match of analyzed
text, which is approximate when that is asked for. -/
inductive StandsFor (c : FieldValue) : Clause → Prop
  | term {f : Field} : o.term = true → Field.resolve? c.field = some f →
    StandsFor c (.term ⟨f.exactPath, .text c.value, 1.0⟩)
  | fullText {f : Field} : o.term = false → Field.resolve? c.field = some f →
    StandsFor c (.fullText
      ⟨f.path, .text c.value, none, if o.fuzzy then some (s.fuzzy.getD .auto) else none, 1.0⟩)

/-- The paths are those of the fields that query strings search. -/
def Searches (paths : List String) : Prop :=
  List.Forall₂ (fun name path => ∃ f, Field.resolve? name = some f ∧ f.path = path) o.queryFields paths

/-- The clause of a text in the strict language searches the fields for it. -/
inductive StrictFor (text : String) : Clause → Prop
  | clause {c : StrictClause} : c.text = text → o.Searches c.searched → c.operator = none →
    c.fuzzy = (if o.fuzzy then some (s.fuzzy.getD .auto) else none) → c.boost = 1.0 →
    StrictFor text (.strict c)

/-- The clause of a text in the lenient language searches the fields for it. -/
inductive LenientFor (text : String) : Clause → Prop
  | clause {c : LenientClause} : c.text = text → o.Searches c.fields → c.operator = none →
    c.fuzzy = (if o.fuzzy then some (s.fuzzy.getD .auto) else none) → c.boost = 1.0 →
    LenientFor text (.lenient c)

/-- The demand is that of the options. -/
structure Demands (d : Demand) : Prop where
  must : List.Forall₂ (o.StandsFor s) o.must d.must
  mustNot : List.Forall₂ (o.StandsFor s) o.mustNot d.mustNot
  should : List.Forall₂ (o.StandsFor s) o.should d.should
  /-- Those in the strict language come first. -/
  texts : ∃ strict lenient, List.Forall₂ (o.StrictFor s) o.query.toList strict ∧
    List.Forall₂ (o.LenientFor s) o.safeQuery.toList lenient ∧ strict ++ lenient = d.texts

/-- Something in the options has no meaning. -/
inductive Faulty : Prop
  | condition {c : FieldValue} : c ∈ o.must ++ o.mustNot ++ o.should → Field.resolve? c.field = none → Faulty
  | field {name : String} : o.query.isSome ∨ o.safeQuery.isSome → name ∈ o.queryFields →
    Field.resolve? name = none → Faulty
  | text {text : String} : o.query = some text ∨ o.safeQuery = some text → allBlank text = true → Faulty

end

/-! ## Building the group -/

variable {o : QueryOptions} {s : Settings}

/-- The leaf is that of the condition. -/
abbrev LeafOf (o : QueryOptions) (s : Settings) (c : FieldValue) (l : Leaf) : Prop :=
  c.leaf o.term (o.fuzzyConfig s) = .ok l

theorem leafOf_iff {c : FieldValue} {l : Leaf} :
    o.LeafOf s c l ↔ ∃ f, Field.resolve? c.field = some f ∧
      (if o.term then .term f (.text c.value)
        else (Leaf.fullText f (.text c.value)).withFuzzy (o.fuzzyConfig s)) = l := by
  simp only [LeafOf, FieldValue.leaf, Except.map_eq_ok_iff, Field.resolve_eq_ok_iff]

theorem exists_leafOf_iff {c : FieldValue} : (∃ l, o.LeafOf s c l) ↔ ∃ f, Field.resolve? c.field = some f := by
  simp only [LeafOf, FieldValue.leaf, Except.exists_map_eq_ok_iff, Field.resolve_eq_ok_iff]

theorem standsFor_of_leafOf {c : FieldValue} {l : Leaf} (h : o.LeafOf s c l) : o.StandsFor s c l.compile := by
  obtain ⟨f, hf, rfl⟩ := leafOf_iff.1 h
  cases ht : o.term with
  | true => exact .term ht hf
  | false => exact .fullText ht hf

theorem polarity_of_leafOf {c : FieldValue} {l : Leaf} (h : o.LeafOf s c l) : l.polarity = .wanted := by
  obtain ⟨f, -, rfl⟩ := leafOf_iff.1 h
  cases o.term <;> rfl

theorem conditionEdges_eq_ok_iff {es : List Edge} :
    o.conditionEdges s = .ok es ↔ ∃ must mustNot should,
      List.Forall₂ (o.LeafOf s) o.must must ∧ List.Forall₂ (o.LeafOf s) o.mustNot mustNot ∧
      List.Forall₂ (o.LeafOf s) o.should should ∧
      must.map (fun l => (.and, .leaf l)) ++ mustNot.map (fun l => (.and, .leaf l.negated)) ++
        should.map (fun l => (.or, .leaf l)) = es := by
  simp only [conditionEdges, leaves, Except.bind_eq_ok_iff, Except.mapM_eq_ok_iff, Except.ok.injEq,
    ← exists_and_left]

theorem target_eq_ok_iff {t : Target} :
    o.target = .ok t ↔ ∃ fs, List.Forall₂ (fun name f => Field.resolve? name = some f) o.queryFields fs ∧
      Target.ofFields fs = t := by
  simp only [target, Except.map_eq_ok_iff, Except.mapM_eq_ok_iff, Field.resolve_eq_ok_iff]

theorem texts_eq_ok_iff {t : Target} {ls : List Leaf} :
    o.texts t = .ok ls ↔ ∃ strict lenient,
      List.Forall₂ (fun text l => Leaf.strict t text = .ok l) o.query.toList strict ∧
      List.Forall₂ (fun text l => Leaf.lenient t text = .ok l) o.safeQuery.toList lenient ∧
      strict ++ lenient = ls := by
  simp only [texts, Except.bind_eq_ok_iff, Except.mapM_eq_ok_iff, Except.ok.injEq, ← exists_and_left]

/-- The leaves are those of the query strings that are there. -/
def TextLeaves (o : QueryOptions) (ls : List Leaf) : Prop :=
  if o.hasText then ∃ t, o.target = .ok t ∧ o.texts t = .ok ls else ls = []

theorem textEdges_eq_ok_iff {es : List Edge} :
    o.textEdges s = .ok es ↔ ∃ ls, o.TextLeaves ls ∧
      ls.map (fun l => (.and, .leaf (l.withFuzzy (o.fuzzyConfig s)))) = es := by
  unfold textEdges TextLeaves
  by_cases h : o.hasText = true
  · simp only [if_pos h, Except.bind_eq_ok_iff, Except.mapError_eq_ok_iff, Except.ok.injEq]
    constructor
    · rintro ⟨t, ht, ls, hls, rfl⟩
      exact ⟨ls, ⟨t, ht, hls⟩, rfl⟩
    · rintro ⟨ls, ⟨t, ht, hls⟩, rfl⟩
      exact ⟨t, ht, ls, hls, rfl⟩
  · simp only [if_neg h, Except.ok.injEq, exists_eq_left, List.map_nil]

theorem group_eq_ok_iff {g : Group} :
    o.group s = .ok g ↔ ∃ conditions texts, o.conditionEdges s = .ok conditions ∧
      o.textEdges s = .ok texts ∧ ⟨conditions ++ texts, .wanted⟩ = g := by
  simp only [group, Except.bind_eq_ok_iff, Except.mapError_eq_ok_iff, Except.ok.injEq, ← exists_and_left]

/-! ## When there is a group -/

theorem exists_conditionEdges_iff :
    (∃ es, o.conditionEdges s = .ok es) ↔
      ∀ c ∈ o.must ++ o.mustNot ++ o.should, ∃ f, Field.resolve? c.field = some f := by
  have hleaves : ∀ cs : List FieldValue, (∃ ls, List.Forall₂ (o.LeafOf s) cs ls) ↔
      ∀ c ∈ cs, ∃ f, Field.resolve? c.field = some f := by
    intro cs
    rw [exists_forall₂_iff]
    exact forall₂_congr fun c _ => exists_leafOf_iff
  rw [List.forall_mem_append, List.forall_mem_append, ← hleaves, ← hleaves, ← hleaves]
  simp only [conditionEdges_eq_ok_iff]
  constructor
  · rintro ⟨es, must, mustNot, should, hm, hn, hs, -⟩
    exact ⟨⟨⟨must, hm⟩, mustNot, hn⟩, should, hs⟩
  · rintro ⟨⟨⟨must, hm⟩, mustNot, hn⟩, should, hs⟩
    exact ⟨_, must, mustNot, should, hm, hn, hs, rfl⟩

theorem exists_target_iff :
    (∃ t, o.target = .ok t) ↔ ∀ name ∈ o.queryFields, ∃ f, Field.resolve? name = some f := by
  simp only [target, Except.exists_map_eq_ok_iff, Except.mapM_eq_ok_iff, Field.resolve_eq_ok_iff,
    exists_forall₂_iff]

/-- Texts make leaves if none of them is blank, in either language. -/
theorem exists_leaves_iff (leaf : String → Except QueryError Leaf)
    (hleaf : ∀ text, (∃ l, leaf text = .ok l) ↔ allBlank text = false) (texts : List String) :
    (∃ ls, List.Forall₂ (fun text l => leaf text = .ok l) texts ls) ↔
      ∀ text ∈ texts, allBlank text = false := by
  rw [exists_forall₂_iff]
  exact forall₂_congr fun text _ => hleaf text

theorem exists_texts_iff {t : Target} :
    (∃ ls, o.texts t = .ok ls) ↔ ∀ text ∈ o.query.toList ++ o.safeQuery.toList, allBlank text = false := by
  rw [List.forall_mem_append, ← exists_leaves_iff (Leaf.strict t) fun _ => Leaf.exists_strict_iff,
    ← exists_leaves_iff (Leaf.lenient t) fun _ => Leaf.exists_lenient_iff]
  simp only [texts_eq_ok_iff]
  constructor
  · rintro ⟨ls, strict, lenient, hs, hl, -⟩
    exact ⟨⟨strict, hs⟩, lenient, hl⟩
  · rintro ⟨⟨strict, hs⟩, lenient, hl⟩
    exact ⟨_, strict, lenient, hs, hl, rfl⟩

theorem exists_textEdges_iff :
    (∃ es, o.textEdges s = .ok es) ↔ (o.hasText = true →
      (∀ name ∈ o.queryFields, ∃ f, Field.resolve? name = some f) ∧
        ∀ text ∈ o.query.toList ++ o.safeQuery.toList, allBlank text = false) := by
  simp only [textEdges_eq_ok_iff, TextLeaves]
  by_cases h : o.hasText = true
  · simp only [h, if_true, true_imp_iff, ← exists_target_iff]
    constructor
    · rintro ⟨es, ls, ⟨t, ht, hls⟩, -⟩
      exact ⟨⟨t, ht⟩, exists_texts_iff.1 ⟨ls, hls⟩⟩
    · rintro ⟨⟨t, ht⟩, hb⟩
      obtain ⟨ls, hls⟩ := exists_texts_iff.2 hb
      exact ⟨_, ls, ⟨t, ht, hls⟩, rfl⟩
  · simp [h]

/-! ## What the group means -/

/-- The leaves, all on edges with the operator. -/
def edgesOf (op : Operator) (ls : List Leaf) : List Edge := ls.map fun l => (op, .leaf l)

theorem on_edgesOf (op op' : Operator) (ls : List Leaf) :
    Branch.on op ((edgesOf op' ls).map Node.branch) =
      if op' = op then (edgesOf op' ls).map Node.branch else [] := by
  have hop : ∀ b ∈ (edgesOf op' ls).map Node.branch, b.operator = op' := by
    intro b hb
    obtain ⟨l, -, rfl⟩ := List.mem_map.1 (List.map_map ▸ hb)
    rfl
  by_cases h : op' = op
  · rw [if_pos h]
    exact List.filter_eq_self.2 fun b hb => by simp [hop b hb, h]
  · rw [if_neg h]
    exact List.filter_eq_nil_iff.2 fun b hb => by simp [hop b hb, h]

section
variable (v : Clause → Bool)

theorem signed_leaf (op : Operator) (l : Leaf) :
    (Node.branch (op, .leaf l)).signed v = l.polarity.sign (v l.compile) :=
  congrArg l.polarity.sign (l.compile_holds v)

theorem signed_wanted {op : Operator} {l : Leaf} (h : l.polarity = .wanted) :
    (Node.branch (op, .leaf l)).signed v = v l.compile := by
  rw [signed_leaf, h]
  rfl

theorem all_signed_wanted {op : Operator} {ls : List Leaf} (h : ∀ l ∈ ls, l.polarity = .wanted) :
    ((edgesOf op ls).map Node.branch).all (Branch.signed v) = (ls.map Leaf.compile).all v := by
  rw [Bool.eq_iff_iff, edgesOf, List.map_map, List.all_map, List.all_map, List.all_eq_true, List.all_eq_true]
  exact forall₂_congr fun l hl => Bool.eq_iff_iff.1 (signed_wanted v (h l hl))

theorem any_signed_wanted {op : Operator} {ls : List Leaf} (h : ∀ l ∈ ls, l.polarity = .wanted) :
    ((edgesOf op ls).map Node.branch).any (Branch.signed v) = (ls.map Leaf.compile).any v := by
  rw [Bool.eq_iff_iff, edgesOf, List.map_map, List.any_map, List.any_map, List.any_eq_true, List.any_eq_true]
  exact exists_congr fun l => and_congr_right fun hl => Bool.eq_iff_iff.1 (signed_wanted v (h l hl))

/-- A negated leaf is met when its clause is not. -/
theorem all_signed_negated (op : Operator) (ls : List Leaf) :
    ((edgesOf op (ls.map Leaf.negated)).map Node.branch).all (Branch.signed v) =
      !(ls.map Leaf.compile).any v := by
  rw [edgesOf, List.map_map, List.map_map, List.all_map, List.any_map, List.not_any_eq_all_not]
  exact congrArg ls.all (funext fun l => signed_leaf v op l.negated)

/-- A group of required, unwanted and alternative leaves asks for what its clauses say. Query strings stand
behind the alternatives and are required with the rest. -/
theorem holds_compile_edges_iff {must mustNot should texts : List Leaf} (hm : ∀ l ∈ must, l.polarity = .wanted)
    (hs : ∀ l ∈ should, l.polarity = .wanted) (ht : ∀ l ∈ texts, l.polarity = .wanted) (p : Polarity) :
    (Node.group (edgesOf .and must ++ edgesOf .and (mustNot.map Leaf.negated) ++ edgesOf .or should ++
        edgesOf .and texts) p).compile.holds v = true ↔
      Demand.MetBy ⟨must.map Leaf.compile, mustNot.map Leaf.compile, should.map Leaf.compile,
        texts.map Leaf.compile⟩ v := by
  have hon : ∀ op, Branch.on op ((edgesOf .and must ++ edgesOf .and (mustNot.map Leaf.negated) ++
      edgesOf .or should ++ edgesOf .and texts).map Node.branch) =
        if op = .and then (edgesOf .and must ++ edgesOf .and (mustNot.map Leaf.negated) ++
          edgesOf .and texts).map Node.branch else (edgesOf .or should).map Node.branch := by
    intro op
    simp only [List.map_append, Branch.on_append, on_edgesOf]
    cases op <;> simp
  have hempty : ((edgesOf .or should).map Node.branch).isEmpty = (should.map Leaf.compile).isEmpty := by
    simp [edgesOf]
  rw [Node.compile_group, Branch.holds_assemble, Branch.join_signed, hon, hon, Demand.metBy_iff]
  simp only [if_true, reduceCtorEq, if_false, List.map_append, List.all_append, all_signed_wanted v hm,
    all_signed_negated, all_signed_wanted v ht, any_signed_wanted v hs, hempty]

end

/-! ## The demand of the options -/

theorem searches_of_target {t : Target} (h : o.target = .ok t) : o.Searches t.paths := by
  obtain ⟨fs, hfs, rfl⟩ := target_eq_ok_iff.1 h
  rw [Target.paths, Target.toFields_ofFields]
  exact List.forall₂_map_right_iff.2 (hfs.imp fun _ f hf => ⟨f, hf, rfl⟩)

theorem strictFor_of_strict {t : Target} (ht : o.target = .ok t) {text : String} {l : Leaf}
    (h : Leaf.strict t text = .ok l) : o.StrictFor s text (l.withFuzzy (o.fuzzyConfig s)).compile := by
  obtain ⟨q, rfl, rfl⟩ := Leaf.strict_eq_ok_iff.1 h
  have hsearched := Condition.searched_strictClause t q ⟨o.fuzzyConfig s, none⟩
  have heq := Condition.strictClause_eq t q ⟨o.fuzzyConfig s, none⟩
  exact .clause (congrArg StrictClause.text heq) (hsearched ▸ searches_of_target ht)
    (congrArg StrictClause.operator heq) (congrArg StrictClause.fuzzy heq) rfl

theorem lenientFor_of_lenient {t : Target} (ht : o.target = .ok t) {text : String} {l : Leaf}
    (h : Leaf.lenient t text = .ok l) : o.LenientFor s text (l.withFuzzy (o.fuzzyConfig s)).compile := by
  obtain ⟨q, rfl, rfl⟩ := Leaf.lenient_eq_ok_iff.1 h
  exact .clause rfl (searches_of_target ht) rfl rfl rfl

/-- The clauses of the query strings, those in the strict language first. -/
theorem textsFor_of_textLeaves {ls : List Leaf} (h : o.TextLeaves ls) : ∃ strict lenient,
    List.Forall₂ (o.StrictFor s) o.query.toList strict ∧
      List.Forall₂ (o.LenientFor s) o.safeQuery.toList lenient ∧
      strict ++ lenient = (ls.map (Leaf.withFuzzy (o.fuzzyConfig s))).map Leaf.compile := by
  unfold TextLeaves at h
  by_cases ht : o.hasText = true
  · rw [if_pos ht] at h
    obtain ⟨t, htarget, hls⟩ := h
    obtain ⟨strict, lenient, hs, hl, rfl⟩ := texts_eq_ok_iff.1 hls
    refine ⟨_, _, ?_, ?_, by rw [List.map_map, List.map_append]⟩
    · exact List.forall₂_map_right_iff.2 (hs.imp fun _ _ h => strictFor_of_strict htarget h)
    · exact List.forall₂_map_right_iff.2 (hl.imp fun _ _ h => lenientFor_of_lenient htarget h)
  · rw [if_neg ht] at h
    obtain ⟨hquery, hsafe⟩ : o.query = none ∧ o.safeQuery = none := by simpa [hasText] using ht
    exact ⟨[], [], by simp [hquery], by simp [hsafe], by simp [h]⟩

theorem wanted_of_textLeaves {ls : List Leaf} (h : o.TextLeaves ls) : ∀ l ∈ ls, l.polarity = .wanted := by
  unfold TextLeaves at h
  by_cases ht : o.hasText = true
  · rw [if_pos ht] at h
    obtain ⟨t, -, hls⟩ := h
    obtain ⟨strict, lenient, hs, hl, rfl⟩ := texts_eq_ok_iff.1 hls
    refine List.forall_mem_append.2 ⟨forall_mem_of_forall₂ hs ?_, forall_mem_of_forall₂ hl ?_⟩
    · rintro text l h
      obtain ⟨q, -, rfl⟩ := Leaf.strict_eq_ok_iff.1 h
      rfl
    · rintro text l h
      obtain ⟨q, -, rfl⟩ := Leaf.lenient_eq_ok_iff.1 h
      rfl
  · rw [if_neg ht] at h
    simp [h]

theorem exists_group_iff : (∃ g, o.group s = .ok g) ↔
    (∃ es, o.conditionEdges s = .ok es) ∧ ∃ es, o.textEdges s = .ok es := by
  simp only [group_eq_ok_iff]
  constructor
  · rintro ⟨g, conditions, texts, hc, ht, -⟩
    exact ⟨⟨conditions, hc⟩, texts, ht⟩
  · rintro ⟨⟨conditions, hc⟩, texts, ht⟩
    exact ⟨_, conditions, texts, hc, ht, rfl⟩

theorem faulty_iff : o.Faulty ↔ ¬ ∃ g, o.group s = .ok g := by
  rw [exists_group_iff, exists_conditionEdges_iff, exists_textEdges_iff]
  constructor
  · rintro hf ⟨hc, ht⟩
    cases hf with
    | condition hmem hnone =>
      obtain ⟨f, hf⟩ := hc _ hmem
      simp [hnone] at hf
    | field htext hmem hnone =>
      obtain ⟨f, hf⟩ := (ht (by simpa [hasText] using htext)).1 _ hmem
      simp [hnone] at hf
    | text htext hblank =>
      have hhas : o.hasText = true := by
        rcases htext with h | h <;> simp [hasText, h]
      have := (ht hhas).2 _ (by simpa using htext)
      simp [hblank] at this
  · intro h
    by_contra hf
    -- Everything has a meaning, since the lack of one would be a fault.
    refine h ⟨fun c hc => ?_, fun htext => ⟨fun name hn => ?_, fun text ht => ?_⟩⟩
    · exact Option.ne_none_iff_exists'.1 fun hnone => hf (.condition hc hnone)
    · exact Option.ne_none_iff_exists'.1 fun hnone => hf (.field (by simpa [hasText] using htext) hn hnone)
    · by_contra hblank
      exact hf (.text (by simpa using ht) (by simpa using hblank))

theorem metBy_of_group {g : Group} (h : o.group s = .ok g) :
    ∃ d, o.Demands s d ∧ ∀ v, g.compile.holds v = true ↔ d.MetBy v := by
  obtain ⟨conditions, texts, hc, ht, rfl⟩ := group_eq_ok_iff.1 h
  obtain ⟨must, mustNot, should, hm, hn, hs, rfl⟩ := conditionEdges_eq_ok_iff.1 hc
  obtain ⟨ls, hls, rfl⟩ := textEdges_eq_ok_iff.1 ht
  have hclauses : ∀ {cs : List FieldValue} {ls : List Leaf}, List.Forall₂ (o.LeafOf s) cs ls →
      List.Forall₂ (o.StandsFor s) cs (ls.map Leaf.compile) := fun h =>
    List.forall₂_map_right_iff.2 (h.imp fun _ _ => standsFor_of_leafOf)
  have hwanted : ∀ {cs : List FieldValue} {ls : List Leaf}, List.Forall₂ (o.LeafOf s) cs ls →
      ∀ l ∈ ls, l.polarity = .wanted := fun h => forall_mem_of_forall₂ h fun _ _ => polarity_of_leafOf
  have htexts : ∀ l ∈ ls.map (Leaf.withFuzzy (o.fuzzyConfig s)), l.polarity = .wanted :=
    List.forall_mem_map.2 (wanted_of_textLeaves hls)
  refine ⟨⟨must.map Leaf.compile, mustNot.map Leaf.compile, should.map Leaf.compile,
    (ls.map (Leaf.withFuzzy (o.fuzzyConfig s))).map Leaf.compile⟩,
    ⟨hclauses hm, hclauses hn, hclauses hs, textsFor_of_textLeaves hls⟩, fun v => ?_⟩
  -- Both sides have the same four lists of leaves; only the way in which the edges are written differs.
  rw [← holds_compile_edges_iff v (hwanted hm) (hwanted hs) htexts .wanted]
  simp only [edgesOf, List.map_map]
  rfl

/-- **The options mean what they say** (`build_query`). There is no group just if something in them has no meaning;
and a group is met by the documents that meet the demand of the options. -/
theorem group_demands (o : QueryOptions) (s : Settings) :
    ((∃ f, o.group s = .error f) ↔ o.Faulty) ∧
      ∀ g, o.group s = .ok g → ∃ d, o.Demands s d ∧ ∀ v, g.compile.holds v = true ↔ d.MetBy v := by
  refine ⟨?_, fun g => metBy_of_group⟩
  rw [Except.exists_error_iff, faulty_iff]

/-- Options with conditions of all kinds and a query string. -/
def mixed : QueryOptions :=
  { must := [⟨"message", "disk full"⟩]
    mustNot := [⟨"level", "DEBUG"⟩, ⟨"thread", "gc"⟩]
    should := [⟨"thread", "main"⟩, ⟨"thread", "worker-1"⟩]
    term := false
    fuzzy := true
    query := some "disk AND full"
    safeQuery := none
    queryFields := ["message", "loggerName"] }

theorem group_demands_mixed :
    (∃ g d, mixed.group .standard = .ok g ∧ mixed.Demands .standard d ∧
      ∀ v, g.compile.holds v = true ↔ d.MetBy v) ∧
    ∃ f, { mixed with query := some " \t" }.group .standard = .error f := by
  constructor
  · have hsome : (mixed.group .standard).toOption.isSome = true := by decide +kernel
    cases h : mixed.group .standard with
    | error f => simp [h, Except.toOption] at hsome
    | ok g =>
      obtain ⟨d, hd, hv⟩ := (group_demands mixed .standard).2 g h
      exact ⟨g, d, rfl, hd, hv⟩
  · exact (group_demands _ .standard).1.2 (.text (.inl rfl) (by decide))

end QueryOptions

end CommandLine

end LogQuery
