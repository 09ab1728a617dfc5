import LogQuery.Proofs.Json.Alike
import LogQuery.Proofs.Query.Nested

/-!
# What the JSON form of a clause keeps

The JSON form of a clause determines the clause, but for the edit distance of lenient query strings,
for which it has no place. The names of the members are fixed for each kind of clause and differ from
each other, so that a form gives its parts back; each part has a form of its own, once its doubles are
numbers.

Main statement: the forms of two clauses are alike just if the clauses are, the distances of their
lenient query strings set aside (`Clause.alike_toJson_iff`).
-/

namespace LogQuery

variable {same : Float → Float → Prop}

/-! ## Parts of clauses -/

theorem Operator.alike_toJson_iff (o p : Operator) : Json.Alike same o.toJson p.toJson ↔ o = p := by
  cases o <;> cases p <;> simp [toJson, name, Json.Alike]

theorem Fuzziness.alike_toJson_iff (f g : Fuzziness) :
    Json.Alike same f.toJson g.toJson ↔ f = g := by
  match f, g with
  | auto, auto => simp [toJson, Json.Alike]
  | auto, fixed _ => simp [toJson, Json.Alike]
  | fixed _, auto => simp [toJson, Json.Alike]
  | fixed ⟨m, _⟩, fixed ⟨n, _⟩ =>
    rw [toJson, toJson, Json.Alike, Int.ofNat_inj]
    simp

theorem alike_ofUInt32_iff (m n : UInt32) :
    Json.Alike same (.int m.toNat) (.int n.toNat) ↔ m = n := by
  rw [Json.Alike, Int.ofNat_inj, UInt32.toNat_inj]

theorem rel_nonEmptyArray_iff {as bs : List Json} :
    Option.Rel (Json.Alike same) (Json.nonEmptyArray as) (Json.nonEmptyArray bs) ↔
      List.Forall₂ (Json.Alike same) as bs := by
  cases as <;> cases bs <;> simp [Json.nonEmptyArray, Json.Alike, Json.itemsAlike_iff]

theorem rel_texts_iff {ss ts : List String} :
    Option.Rel (Json.Alike same) (Json.nonEmptyArray (ss.map Json.text))
      (Json.nonEmptyArray (ts.map Json.text)) ↔ ss = ts := by
  rw [rel_nonEmptyArray_iff, List.forall₂_map_left_iff, List.forall₂_map_right_iff]
  simp only [Json.Alike]
  rw [List.forall₂_eq_eq_eq]

namespace Scalar

/-- The double that is compared with. -/
def numbers : Scalar → List Float
  | float x => [x]
  | _ => []

/-- Equal values of the same kind, but for doubles that `same` relates. -/
def Alike (same : Float → Float → Prop) : Scalar → Scalar → Prop
  | bool a, bool b => a = b
  | integer i, integer j => i = j
  | float x, float y => same x y
  | text s, text t => s = t
  | _, _ => False

/-- Values of different kinds stay apart: the form of a double is no integer and no text. -/
theorem alike_toJson_iff {a b : Scalar} (ha : ∀ x ∈ a.numbers, x.isFinite = true)
    (hb : ∀ x ∈ b.numbers, x.isFinite = true) :
    Json.Alike same a.toJson b.toJson ↔ a.Alike same b := by
  cases a <;> cases b <;>
    simp_all [toJson, numbers, Alike, Json.Alike, Json.ofFloat, Int64.toInt_inj]

theorem alike_eq_iff {a b : Scalar} : a.Alike Eq b ↔ a = b := by
  cases a <;> cases b <;> simp [Alike]

end Scalar

/-! ## Parameters of approximate matching -/

namespace FuzzyConfig

variable {f g : Option FuzzyConfig} {lead : String}

/-- The parameters but the distance, for which the backend's own choice stands. -/
def withoutDistance (f : FuzzyConfig) : FuzzyConfig := { f with fuzziness := .auto }

theorem distanceMember_name : (distanceMember f).1 = "fuzziness" := rfl

theorem rel_distanceMember_iff :
    Option.Rel (Json.Alike same) (distanceMember f).2 (distanceMember g).2 ↔
      f.map fuzziness = g.map fuzziness := by
  cases f <;> cases g <;> simp [distanceMember, Fuzziness.alike_toJson_iff]

/-- The members of an approximate match keep everything but the distance. -/
theorem alike_clauseMembers_iff :
    Members.Alike (Option.Rel (Json.Alike same)) (clauseMembers lead f) (clauseMembers lead g) ↔
      f.map withoutDistance = g.map withoutDistance := by
  cases f <;> cases g <;>
    simp [clauseMembers, withoutDistance, alike_ofUInt32_iff, Json.alike_bool_iff]

theorem eq_iff :
    f = g ↔ f.map fuzziness = g.map fuzziness ∧ f.map withoutDistance = g.map withoutDistance := by
  rcases f with _ | ⟨_, _, _, _⟩ <;> rcases g with _ | ⟨_, _, _, _⟩ <;> simp [withoutDistance]

end FuzzyConfig

/-! ## Clauses that look at documents -/

namespace MatchClause

def numbers (c : MatchClause) : List Float := c.boost :: c.value.numbers

/-- Equal parts, but for doubles that `same` relates; so for the other kinds. -/
def Alike (same : Float → Float → Prop) (c d : MatchClause) : Prop :=
  c.field = d.field ∧ c.value.Alike same d.value ∧ c.operator = d.operator ∧ c.fuzzy = d.fuzzy ∧
    same c.boost d.boost

theorem alike_toJson_iff {c d : MatchClause} (hc : ∀ x ∈ c.numbers, x.isFinite = true)
    (hd : ∀ x ∈ d.numbers, x.isFinite = true) :
    Json.Alike same c.toJson d.toJson ↔ c.Alike same d := by
  obtain ⟨hcb, hcv⟩ := List.forall_mem_cons.1 hc
  obtain ⟨hdb, hdv⟩ := List.forall_mem_cons.1 hd
  have hn : ["query", "operator", "fuzziness", "boost", "max_expansions", "prefix_length",
      "fuzzy_transpositions"].Nodup := by decide
  rw [toJson, toJson, Json.alike_single_iff, Json.alike_ofOptional_iff hn rfl rfl, Alike,
    FuzzyConfig.eq_iff]
  simp only [List.cons_append, List.nil_append, Members.alike_cons_iff, Option.rel_some_some,
    Scalar.alike_toJson_iff hcv hdv, rel_map_iff Operator.alike_toJson_iff,
    FuzzyConfig.distanceMember_name, FuzzyConfig.rel_distanceMember_iff,
    Json.alike_ofFloat_iff hcb hdb, FuzzyConfig.alike_clauseMembers_iff]
  tauto

theorem alike_eq_iff {c d : MatchClause} : c.Alike Eq d ↔ c = d := by
  obtain ⟨f, v, o, a, x⟩ := c
  obtain ⟨g, w, p, b, y⟩ := d
  simp [Alike, Scalar.alike_eq_iff]

end MatchClause

namespace TermClause

def numbers (c : TermClause) : List Float := c.boost :: c.value.numbers

def Alike (same : Float → Float → Prop) (c d : TermClause) : Prop :=
  c.field = d.field ∧ c.value.Alike same d.value ∧ same c.boost d.boost

theorem alike_toJson_iff {c d : TermClause} (hc : ∀ x ∈ c.numbers, x.isFinite = true)
    (hd : ∀ x ∈ d.numbers, x.isFinite = true) :
    Json.Alike same c.toJson d.toJson ↔ c.Alike same d := by
  obtain ⟨hcb, hcv⟩ := List.forall_mem_cons.1 hc
  obtain ⟨hdb, hdv⟩ := List.forall_mem_cons.1 hd
  have hn : ["value", "boost"].Nodup := by decide
  rw [toJson, toJson, Json.alike_single_iff, Json.alike_ofMembers_iff hn rfl rfl]
  simp only [Members.alike_cons_iff, Members.alike_nil, Scalar.alike_toJson_iff hcv hdv,
    Json.alike_ofFloat_iff hcb hdb, true_and, and_true, Alike]

theorem alike_eq_iff {c d : TermClause} : c.Alike Eq d ↔ c = d := by
  obtain ⟨f, v, x⟩ := c
  obtain ⟨g, w, y⟩ := d
  simp [Alike, Scalar.alike_eq_iff]

end TermClause

namespace RangeClause

def numbers (c : RangeClause) : List Float :=
  c.boost :: (c.bounds.lower.numbers ++ c.bounds.upper.numbers)

def Alike (same : Float → Float → Prop) (c d : RangeClause) : Prop :=
  c.field = d.field ∧ c.bounds.lower.Alike same d.bounds.lower ∧
    c.bounds.upper.Alike same d.bounds.upper ∧ same c.boost d.boost

theorem alike_toJson_iff {c d : RangeClause} (hc : ∀ x ∈ c.numbers, x.isFinite = true)
    (hd : ∀ x ∈ d.numbers, x.isFinite = true) :
    Json.Alike same c.toJson d.toJson ↔ c.Alike same d := by
  obtain ⟨hcb, hcv⟩ := List.forall_mem_cons.1 hc
  obtain ⟨hdb, hdv⟩ := List.forall_mem_cons.1 hd
  obtain ⟨hcl, hcu⟩ := List.forall_mem_append.1 hcv
  obtain ⟨hdl, hdu⟩ := List.forall_mem_append.1 hdv
  have hn : ["gte", "lte", "boost"].Nodup := by decide
  rw [toJson, toJson, Json.alike_single_iff, Json.alike_ofMembers_iff hn rfl rfl]
  simp only [Members.alike_cons_iff, Members.alike_nil, Scalar.alike_toJson_iff hcl hdl,
    Scalar.alike_toJson_iff hcu hdu, Json.alike_ofFloat_iff hcb hdb, true_and, and_true, Alike]

theorem alike_eq_iff {c d : RangeClause} : c.Alike Eq d ↔ c = d := by
  obtain ⟨f, ⟨v, w⟩, x⟩ := c
  obtain ⟨g, ⟨v', w'⟩, y⟩ := d
  simp [Alike, Scalar.alike_eq_iff, and_assoc]

end RangeClause

namespace StrictClause

def Alike (same : Float → Float → Prop) (c d : StrictClause) : Prop :=
  c.text = d.text ∧ c.defaultField = d.defaultField ∧ c.fields = d.fields ∧ c.operator = d.operator ∧
    c.fuzzy = d.fuzzy ∧ same c.boost d.boost

theorem alike_toJson_iff {c d : StrictClause} (hc : c.boost.isFinite = true)
    (hd : d.boost.isFinite = true) : Json.Alike same c.toJson d.toJson ↔ c.Alike same d := by
  have hn : ["query", "default_field", "fields", "default_operator", "fuzziness", "boost",
      "fuzzy_max_expansions", "fuzzy_prefix_length", "fuzzy_transpositions"].Nodup := by decide
  rw [toJson, toJson, Json.alike_ofOptional_iff hn rfl rfl, Alike, FuzzyConfig.eq_iff]
  simp only [List.cons_append, List.nil_append, Members.alike_cons_iff, Option.rel_some_some,
    Json.alike_text_iff, rel_map_iff fun _ _ => Json.alike_text_iff, rel_texts_iff, rel_map_iff Operator.alike_toJson_iff,
    FuzzyConfig.distanceMember_name, FuzzyConfig.rel_distanceMember_iff,
    Json.alike_ofFloat_iff hc hd, FuzzyConfig.alike_clauseMembers_iff]
  tauto

theorem alike_eq_iff {c d : StrictClause} : c.Alike Eq d ↔ c = d := by
  obtain ⟨s, f, fs, o, a, x⟩ := c
  obtain ⟨t, g, gs, p, b, y⟩ := d
  simp [Alike]

end StrictClause

namespace LenientClause

def Alike (same : Float → Float → Prop) (c d : LenientClause) : Prop :=
  c.text = d.text ∧ c.fields = d.fields ∧ c.operator = d.operator ∧ c.fuzzy = d.fuzzy ∧
    same c.boost d.boost

/-- The clause with the distance that the backend chooses, if anything approximate is asked for. -/
def withoutDistance (c : LenientClause) : LenientClause :=
  { c with fuzzy := c.fuzzy.map FuzzyConfig.withoutDistance }

theorem alike_toJson_iff {c d : LenientClause} (hc : c.boost.isFinite = true)
    (hd : d.boost.isFinite = true) :
    Json.Alike same c.toJson d.toJson ↔ c.withoutDistance.Alike same d.withoutDistance := by
  have hn : ["query", "fields", "default_operator", "boost", "fuzzy_max_expansions",
      "fuzzy_prefix_length", "fuzzy_transpositions"].Nodup := by decide
  rw [toJson, toJson, Json.alike_ofOptional_iff hn rfl rfl]
  simp only [List.cons_append, List.nil_append, Members.alike_cons_iff, Option.rel_some_some,
    Json.alike_text_iff, rel_texts_iff, rel_map_iff Operator.alike_toJson_iff, Json.alike_ofFloat_iff hc hd,
    FuzzyConfig.alike_clauseMembers_iff, Alike, withoutDistance]
  tauto

theorem alike_eq_iff {c d : LenientClause} : c.Alike Eq d ↔ c = d := by
  obtain ⟨s, fs, o, a, x⟩ := c
  obtain ⟨t, gs, p, b, y⟩ := d
  simp [Alike]

end LenientClause

/-! ## Clauses of any depth -/

namespace Clause

/-- The boost and the doubles to compare with, but for those of clauses inside. -/
def numbers : Clause → List Float
  | matchAll boost => [boost]
  | bool .. => []
  | fullText c => c.numbers
  | term c => c.numbers
  | range c => c.numbers
  | strict c => [c.boost]
  | lenient c => [c.boost]

/-- All doubles of the clause and of clauses inside are finite. -/
def FiniteNumbers (c : Clause) : Prop := ∀ d ∈ c.nested, ∀ x ∈ d.numbers, x.isFinite = true

instance (c : Clause) : Decidable c.FiniteNumbers :=
  inferInstanceAs (Decidable (∀ d ∈ c.nested, ∀ x ∈ d.numbers, x.isFinite = true))

theorem FiniteNumbers.own {c : Clause} (h : c.FiniteNumbers) : ∀ x ∈ c.numbers, x.isFinite = true :=
  h c (by cases c <;> simp [nested])

mutual

/-- The clause, where every lenient query string leaves the distance to the backend. -/
def withoutLenientDistance : Clause → Clause
  | bool must mustNot should =>
    bool (allWithoutLenientDistance must) (allWithoutLenientDistance mustNot)
      (allWithoutLenientDistance should)
  | lenient c => lenient c.withoutDistance
  | c => c

def allWithoutLenientDistance : List Clause → List Clause
  | [] => []
  | c :: cs => withoutLenientDistance c :: allWithoutLenientDistance cs

end

variable (same) in
mutual

/-- Equal clauses, but for doubles that `same` relates. -/
def Alike : Clause → Clause → Prop
  | matchAll x, matchAll y => same x y
  | bool must mustNot should, bool must' mustNot' should' =>
    AllAlike must must' ∧ AllAlike mustNot mustNot' ∧ AllAlike should should'
  | fullText c, fullText d => c.Alike same d
  | term c, term d => c.Alike same d
  | range c, range d => c.Alike same d
  | strict c, strict d => c.Alike same d
  | lenient c, lenient d => c.Alike same d
  | _, _ => False

def AllAlike : List Clause → List Clause → Prop
  | [], [] => True
  | c :: cs, d :: ds => Alike c d ∧ AllAlike cs ds
  | _, _ => False

end

mutual

theorem alike_eq_iff : ∀ c d : Clause, c.Alike Eq d ↔ c = d
  | matchAll _, d => by cases d <;> simp [Alike]
  | bool must mustNot should, d => by
    cases d with
    | bool must' mustNot' should' =>
      rw [Alike, allAlike_eq_iff must, allAlike_eq_iff mustNot, allAlike_eq_iff should, bool.injEq]
    | _ => simp [Alike]
  | fullText _, d => by cases d <;> simp [Alike, MatchClause.alike_eq_iff]
  | term _, d => by cases d <;> simp [Alike, TermClause.alike_eq_iff]
  | range _, d => by cases d <;> simp [Alike, RangeClause.alike_eq_iff]
  | strict _, d => by cases d <;> simp [Alike, StrictClause.alike_eq_iff]
  | lenient _, d => by cases d <;> simp [Alike, LenientClause.alike_eq_iff]

theorem allAlike_eq_iff : ∀ cs ds : List Clause, AllAlike Eq cs ds ↔ cs = ds
  | [], [] => by simp [AllAlike]
  | [], _ :: _ => by simp [AllAlike]
  | _ :: _, [] => by simp [AllAlike]
  | c :: cs, d :: ds => by rw [AllAlike, alike_eq_iff c, allAlike_eq_iff cs, List.cons.injEq]

end

/-! ### Kinds -/

theorem exists_toJson_eq (c : Clause) : ∃ v, c.toJson = .ofMembers [(c.kind, v)] := by
  cases c <;> exact ⟨_, rfl⟩

theorem kind_eq_of_alike_toJson {c d : Clause} (h : Json.Alike same c.toJson d.toJson) :
    c.kind = d.kind := by
  obtain ⟨v, hv⟩ := exists_toJson_eq c
  obtain ⟨w, hw⟩ := exists_toJson_eq d
  rw [hv, hw, Json.alike_single_iff] at h
  exact h.1

theorem kind_eq_of_alike {c d : Clause} (h : c.Alike same d) : c.kind = d.kind := by
  cases c <;> cases d <;> simp_all [Alike, kind]

theorem kind_withoutLenientDistance (c : Clause) : c.withoutLenientDistance.kind = c.kind := by
  cases c <;> simp [withoutLenientDistance, kind]

/-- Clauses of different kinds are apart, and so are their forms. -/
theorem alike_toJson_iff_of_kind_ne {c d : Clause} (h : c.kind ≠ d.kind) :
    Json.Alike same c.toJson d.toJson ↔
      c.withoutLenientDistance.Alike same d.withoutLenientDistance := by
  refine iff_of_false (fun ha => h (kind_eq_of_alike_toJson ha)) fun ha => h ?_
  rw [← kind_withoutLenientDistance c, ← kind_withoutLenientDistance d]
  exact kind_eq_of_alike ha

/-! ### The form of a clause -/

mutual

/-- **The JSON form keeps everything but the distances of lenient query strings.** -/
theorem alike_toJson_iff : ∀ c d : Clause, c.FiniteNumbers → d.FiniteNumbers →
    (Json.Alike same c.toJson d.toJson ↔
      c.withoutLenientDistance.Alike same d.withoutLenientDistance)
  | matchAll x, d, hc, hd => by
    cases d with
    | matchAll y =>
      have hx : x.isFinite = true := hc.own x (List.mem_singleton_self x)
      have hy : y.isFinite = true := hd.own y (List.mem_singleton_self y)
      exact Json.alike_named_iff.trans (Json.alike_named_iff.trans (Json.alike_ofFloat_iff hx hy))
    | _ => exact alike_toJson_iff_of_kind_ne (by simp [kind])
  | bool must mustNot should, d, hc, hd => by
    cases d with
    | bool must' mustNot' should' =>
      obtain ⟨-, hm, hn, hs⟩ := forall_nested_bool.1 hc
      obtain ⟨-, hm', hn', hs'⟩ := forall_nested_bool.1 hd
      have hnames : ["must", "must_not", "should"].Nodup := by decide
      rw [toJson, toJson, Json.alike_named_iff, Json.alike_ofOptional_iff hnames rfl rfl]
      simp only [Members.alike_cons_iff, Members.alike_nil, rel_nonEmptyArray_iff,
        alike_listToJson_iff must must' hm hm', alike_listToJson_iff mustNot mustNot' hn hn',
        alike_listToJson_iff should should' hs hs', true_and, and_true, withoutLenientDistance,
        Alike]
    | _ => exact alike_toJson_iff_of_kind_ne (by simp [kind])
  | fullText c, d, hc, hd => by
    cases d with
    | fullText d => exact Json.alike_named_iff.trans (MatchClause.alike_toJson_iff hc.own hd.own)
    | _ => exact alike_toJson_iff_of_kind_ne (by simp [kind])
  | term c, d, hc, hd => by
    cases d with
    | term d => exact Json.alike_named_iff.trans (TermClause.alike_toJson_iff hc.own hd.own)
    | _ => exact alike_toJson_iff_of_kind_ne (by simp [kind])
  | range c, d, hc, hd => by
    cases d with
    | range d => exact Json.alike_named_iff.trans (RangeClause.alike_toJson_iff hc.own hd.own)
    | _ => exact alike_toJson_iff_of_kind_ne (by simp [kind])
  | strict c, d, hc, hd => by
    cases d with
    | strict d =>
      have hx : c.boost.isFinite = true := hc.own _ (List.mem_singleton_self _)
      have hy : d.boost.isFinite = true := hd.own _ (List.mem_singleton_self _)
      exact Json.alike_named_iff.trans (StrictClause.alike_toJson_iff hx hy)
    | _ => exact alike_toJson_iff_of_kind_ne (by simp [kind])
  | lenient c, d, hc, hd => by
    cases d with
    | lenient d =>
      have hx : c.boost.isFinite = true := hc.own _ (List.mem_singleton_self _)
      have hy : d.boost.isFinite = true := hd.own _ (List.mem_singleton_self _)
      exact Json.alike_named_iff.trans (LenientClause.alike_toJson_iff hx hy)
    | _ => exact alike_toJson_iff_of_kind_ne (by simp [kind])

theorem alike_listToJson_iff : ∀ cs ds : List Clause, (∀ c ∈ cs, c.FiniteNumbers) →
    (∀ d ∈ ds, d.FiniteNumbers) →
    (List.Forall₂ (Json.Alike same) (listToJson cs) (listToJson ds) ↔
      AllAlike same (allWithoutLenientDistance cs) (allWithoutLenientDistance ds))
  | [], [], _, _ => by simp [listToJson, allWithoutLenientDistance, AllAlike]
  | [], _ :: _, _, _ => by simp [listToJson, allWithoutLenientDistance, AllAlike]
  | _ :: _, [], _, _ => by simp [listToJson, allWithoutLenientDistance, AllAlike]
  | c :: cs, d :: ds, hc, hd => by
    obtain ⟨hc, hcs⟩ := List.forall_mem_cons.1 hc
    obtain ⟨hd, hds⟩ := List.forall_mem_cons.1 hd
    rw [listToJson, listToJson, List.forall₂_cons, alike_toJson_iff c d hc hd,
      alike_listToJson_iff cs ds hcs hds, allWithoutLenientDistance, allWithoutLenientDistance,
      AllAlike]

end

end Clause

end LogQuery
