import LogQuery.Query.Clause
import LogQuery.Query.Error
import LogQuery.Query.Target

/-!
# Leaves of a query tree

A leaf is one condition on documents with a polarity and a weight. What a leaf cannot be is kept out
by its types: query text is never blank, a weight is finite and not negative, an edit distance is at
most two. Setters that are given something else report it, and leave the leaf to its holder.

Main statement: a weight that is set shows in the compiled clause (`boost?_compile`).
-/

namespace LogQuery

open LogQuery.Text

/-- Whether documents that match are wanted or unwanted. -/
inductive Polarity where
  | wanted
  | unwanted
  deriving DecidableEq, Repr

/-- The text of a query string. -/
structure QueryText where
  text : String
  notBlank : allBlank text = false

def QueryText.ofText? (s : String) : Option QueryText :=
  if h : allBlank s = false then some ⟨s, h⟩ else none

/-- A weight of a leaf against the others (`LeafOptions::boost`). -/
structure Boost where
  weight : Float
  allowed : weight.isFinite = true ∧ ¬ weight < 0

def Boost.ofFloat? (x : Float) : Option Boost :=
  if h : x.isFinite = true ∧ ¬ x < 0 then some ⟨x, h⟩ else none

/-- How analyzed text is compared: approximately or not, and how several terms join. -/
structure Analysis where
  fuzzy : Option FuzzyConfig
  operator : Option Operator

/-- Nothing approximate, and the backend's own way to join terms. -/
def Analysis.standard : Analysis := ⟨none, none⟩

/-- What is asked of a document (`Match`, `Term`, `Range`, `QueryString`, `SimpleQueryString`). -/
inductive Condition where
  /-- The analyzed text of a field has the terms of the value. -/
  | fullText (field : Field) (value : Scalar) (analysis : Analysis)
  /-- The unanalyzed word of a field is the value. -/
  | term (field : Field) (value : Scalar)
  | range (field : Field) (bounds : Bounds)
  /-- A query string whose syntax the backend checks. -/
  | strict (target : Target) (text : QueryText) (analysis : Analysis)
  /-- A query string of which the backend ignores malformed parts. -/
  | lenient (target : Target) (text : QueryText) (analysis : Analysis)

/-- A condition with a polarity and a weight (`Leaf`). -/
structure Leaf where
  condition : Condition
  polarity : Polarity
  boost : Boost

namespace Condition

/-- The field of a condition on exactly one. -/
def field? : Condition → Option Field
  | fullText f _ _ => some f
  | term f _ => some f
  | range f _ => some f
  | strict t _ _ => t.single?
  | lenient t _ _ => t.single?

/-- The fields that a query string names. -/
def target? : Condition → Option Target
  | strict t _ _ => some t
  | lenient t _ _ => some t
  | _ => none

/-- The parameters of a condition on analyzed text. -/
def analysis? : Condition → Option Analysis
  | fullText _ _ a => some a
  | strict _ _ a => some a
  | lenient _ _ a => some a
  | term .. | range .. => none

/-- Changes the parameters of a condition on analyzed text; others have none. -/
def mapAnalysis (f : Analysis → Analysis) : Condition → Condition
  | fullText fd v a => fullText fd v (f a)
  | strict t q a => strict t q (f a)
  | lenient t q a => lenient t q (f a)
  | term fd v => term fd v
  | range fd b => range fd b

/-- A strict query string names a single field as the default, and several in a list
(`QueryString::compile_leaf`). -/
def strictClause (t : Target) (q : QueryText) (a : Analysis) : StrictClause :=
  match t.single? with
  | some f => ⟨q.text, some f.path, [], a.operator, a.fuzzy, Clause.defaultBoost⟩
  | none => ⟨q.text, none, t.paths, a.operator, a.fuzzy, Clause.defaultBoost⟩

/-- The clause of a condition, with the default weight (`LeafQuery::compile_leaf`). -/
def compile : Condition → Clause
  | fullText f v a => .fullText ⟨f.path, v, a.operator, a.fuzzy, Clause.defaultBoost⟩
  | term f v => .term ⟨f.exactPath, v, Clause.defaultBoost⟩
  | range f b => .range ⟨f.path, b, Clause.defaultBoost⟩
  | strict t q a => .strict (strictClause t q a)
  | lenient t q a => .lenient ⟨q.text, t.paths, a.operator, a.fuzzy, Clause.defaultBoost⟩

end Condition

namespace Leaf

/-- The weight of a leaf that sets none. -/
def standardBoost : Boost := ⟨Clause.defaultBoost, by decide⟩

/-- A leaf that wants the condition, with the default weight. -/
def of (c : Condition) : Leaf := ⟨c, .wanted, standardBoost⟩

def fullText (f : Field) (v : Scalar) : Leaf := of (.fullText f v .standard)

def term (f : Field) (v : Scalar) : Leaf := of (.term f v)

def range (f : Field) (b : Bounds) : Leaf := of (.range f b)

/-- Text that must be there and not be blank (`require_query`). -/
def requireText (s : Option String) : Except QueryError QueryText :=
  match s.bind QueryText.ofText? with
  | some q => .ok q
  | none => .error .missingText

/-- A strict query string of text that may be absent. -/
def strictOf (t : Target) (s : Option String) : Except QueryError Leaf :=
  (requireText s).map fun q => of (.strict t q .standard)

/-- A lenient query string of text that may be absent. -/
def lenientOf (t : Target) (s : Option String) : Except QueryError Leaf :=
  (requireText s).map fun q => of (.lenient t q .standard)

def strict (t : Target) (s : String) : Except QueryError Leaf := strictOf t (some s)

def lenient (t : Target) (s : String) : Except QueryError Leaf := lenientOf t (some s)

/-! ## Setters -/

def withPolarity (p : Polarity) (l : Leaf) : Leaf := { l with polarity := p }

def negated (l : Leaf) : Leaf := l.withPolarity .unwanted

/-- Sets a weight that is finite and not negative (`LeafQuery::with_boost`). -/
def withBoost (l : Leaf) (x : Float) : Except QueryError Leaf :=
  match Boost.ofFloat? x with
  | some b => .ok { l with boost := b }
  | none => .error (.invalidBoost x)

def mapAnalysis (f : Analysis → Analysis) (l : Leaf) : Leaf :=
  { l with condition := l.condition.mapAnalysis f }

/-- Sets or clears approximate matching. -/
def withFuzzy (f : Option FuzzyConfig) (l : Leaf) : Leaf := l.mapAnalysis fun a => { a with fuzzy := f }

def withOperator (o : Operator) (l : Leaf) : Leaf :=
  l.mapAnalysis fun a => { a with operator := some o }

/-- Sets a fixed distance and keeps the other parameters, or takes the backend's when there are none
(`fixed_distance`). -/
def withEditDistance (l : Leaf) (n : Nat) : Except QueryError Leaf :=
  match EditDistance.ofNat? n with
  | some d => .ok (l.mapAnalysis fun a =>
      { a with fuzzy := some ((a.fuzzy.getD .auto).withDistance d) })
  | none => .error (.editDistanceTooFar n)

/-! ## Compiled form -/

/-- The clause of the condition with the weight of the leaf (`LeafQuery::compile`). The polarity is for the
group around the leaf to place. -/
def compile (l : Leaf) : Clause := l.condition.compile.withBoost l.boost.weight

theorem requireText_eq_ok_iff {s : Option String} {q : QueryText} :
    requireText s = .ok q ↔ s = some q.text := by
  cases s with
  | none => simp [requireText]
  | some s =>
    obtain ⟨t, ht⟩ := q
    by_cases hb : allBlank s = false
    · simp [requireText, QueryText.ofText?, hb]
    · have hne : s ≠ t := fun h => hb (h ▸ ht)
      simp [requireText, QueryText.ofText?, hb, hne]

/-- Text is refused just if it is blank. -/
theorem exists_requireText_iff {s : String} :
    (∃ q, requireText (some s) = .ok q) ↔ allBlank s = false := by
  simp only [requireText_eq_ok_iff, Option.some.injEq]
  constructor
  · rintro ⟨q, rfl⟩
    exact q.notBlank
  · intro hb
    exact ⟨⟨s, hb⟩, rfl⟩

theorem boost?_compile (l : Leaf) : l.compile.boost? = some l.boost.weight := by
  unfold compile
  cases l.condition <;> rfl

end Leaf

/-- A range of which the ends are not yet known to be there (`RangeBuilder`). -/
structure RangeDraft where
  field : Field
  lower : Option Scalar
  upper : Option Scalar

namespace RangeDraft

def ofField (f : Field) : RangeDraft := ⟨f, none, none⟩

def withEnd (e : RangeEnd) (v : Scalar) (r : RangeDraft) : RangeDraft :=
  match e with
  | .lower => { r with lower := some v }
  | .upper => { r with upper := some v }

/-- The range, if it has both ends; a missing lower end is reported first (`RangeBuilder::build`). -/
def build (r : RangeDraft) : Except QueryError Leaf :=
  match r.lower, r.upper with
  | some lo, some hi => .ok (.range r.field ⟨lo, hi⟩)
  | none, _ => .error (.missingBound r.field .lower)
  | some _, none => .error (.missingBound r.field .upper)

end RangeDraft

end LogQuery
