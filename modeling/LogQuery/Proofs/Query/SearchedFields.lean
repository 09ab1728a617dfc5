import LogQuery.Proofs.CommandLine.Demands
import LogQuery.Proofs.Json.Alike
import LogQuery.Proofs.Query.Setters

/-!
# The fields that query strings search

A strict query string names a single field as its default and several fields in a list; a lenient one has
lists only. Both name no field where all are searched. What their JSON forms say of the fields is read back
here, and it is the same for both: the fields of the target in their order, each as often as it is named, or
all fields if the target names none (`strict_lenient_search`). Calls of setters do not change it.

The fields of the target can be told from what is searched, so none of them is lost
(`SearchedFields.ofFields_injective`).
-/

namespace LogQuery

open LogQuery.Text

/-- What a query string searches. -/
inductive SearchedFields where
  | all
  /-- The fields with these paths, in order. -/
  | only (paths : List String)
  deriving DecidableEq, Repr

namespace SearchedFields

/-- Reads the list of fields; without one, all fields are searched. -/
def ofList? : Option Json → Option SearchedFields
  | none => some all
  | some (.array items) => (items.mapM Json.text?).map only
  | some _ => none

/-- Reads the body of a query string. A default field stands alone; otherwise the list of fields counts. -/
def ofBody? (body : Json) : Option SearchedFields :=
  match body.member? "default_field" with
  | some field => field.text?.map fun path => only [path]
  | none => ofList? (body.member? "fields")

/-- A list of fields, where none stands for all. -/
def ofFields (fs : List Field) : SearchedFields := if fs = [] then all else only (fs.map Field.path)

theorem ofFields_injective : Function.Injective ofFields := by
  have hpath : Function.Injective Field.path := fun f g h => by
    have hf := Field.ofText?_path f
    rw [h, Field.ofText?_path g] at hf
    exact (Option.some.inj hf).symm
  intro fs gs h
  unfold ofFields at h
  split at h <;> split at h
  · next hfs hgs => rw [hfs, hgs]
  · cases h
  · cases h
  · injection h with h
    exact List.map_injective_iff.2 hpath h

theorem mapM_text? (ps : List String) : (ps.map Json.text).mapM Json.text? = some ps := by
  induction ps with
  | nil => rfl
  | cons p ps ih => simp [ih, Json.text?]

/-- A list of paths is read back; where it is empty there is no list. -/
theorem ofList?_paths (fs : List Field) :
    ofList? (Json.nonEmptyArray ((fs.map Field.path).map Json.text)) = some (ofFields fs) := by
  unfold ofFields
  split
  · next h =>
    rw [h]
    rfl
  · next h =>
    have hne : ((fs.map Field.path).map Json.text).isEmpty = false := by simpa using h
    rw [Json.nonEmptyArray, hne]
    simp only [Bool.false_eq_true, if_false, ofList?, mapM_text?, Option.map_some]

end SearchedFields

/-! ## Members of the JSON form -/

theorem StrictClause.member?_fields (c : StrictClause) :
    c.toJson.member? "default_field" = c.defaultField.map .text ∧
      c.toJson.member? "fields" = Json.nonEmptyArray (c.fields.map .text) := by
  have hnames : ["query", "default_field", "fields", "default_operator", "fuzziness", "boost",
      "fuzzy_max_expansions", "fuzzy_prefix_length", "fuzzy_transpositions"].Nodup := by decide
  constructor
  · refine (Members.find?_ofOptional ?_ "default_field").trans ?_
    · exact hnames
    · rfl
  · refine (Members.find?_ofOptional ?_ "fields").trans ?_
    · exact hnames
    · rfl

theorem LenientClause.member?_fields (c : LenientClause) :
    c.toJson.member? "default_field" = none ∧
      c.toJson.member? "fields" = Json.nonEmptyArray (c.fields.map .text) := by
  have hnames : ["query", "fields", "default_operator", "boost", "fuzzy_max_expansions",
      "fuzzy_prefix_length", "fuzzy_transpositions"].Nodup := by decide
  constructor
  · refine (Members.find?_ofOptional ?_ "default_field").trans ?_
    · exact hnames
    · rfl
  · refine (Members.find?_ofOptional ?_ "fields").trans ?_
    · exact hnames
    · rfl

namespace Leaf

variable {l : Leaf} {t : Target} {q : QueryText} {a : Analysis}

/-- A query string of a kind in the query language, with a body that says to search the fields of the target.
The leaf is on a single field just if the target has exactly this one. -/
structure Searches (l : Leaf) (t : Target) (kind : String) (body : Json) : Prop where
  clause : l.compile.toJson = .ofMembers [(kind, body)]
  fields : SearchedFields.ofBody? body = some (.ofFields t.toFields)
  single : ∀ f, l.condition.field? = some f ↔ t.toFields = [f]

theorem exists_compile_strict (h : l.condition = .strict t q a) : ∃ c, l.compile = .strict c ∧
    c.defaultField = t.single?.map Field.path ∧ c.fields = if t.single? = none then t.paths else [] := by
  refine ⟨{ Condition.strictClause t q a with boost := l.boost.weight }, ?_, ?_, ?_⟩
  · rw [compile, h]
    rfl
  · rw [Condition.strictClause_eq]
  · rw [Condition.strictClause_eq]

/-- A strict query string has a default field just if its target has exactly one field. -/
theorem searches_of_strict (h : l.condition = .strict t q a) : ∃ body,
    l.Searches t "query_string" body ∧
      ((∃ v, body.member? "default_field" = some v) ↔ ∃ f, t.toFields = [f]) := by
  obtain ⟨c, hclause, hfield, hfields⟩ := exists_compile_strict h
  obtain ⟨hdefault, hlist⟩ := c.member?_fields
  rw [hfield] at hdefault
  rw [hfields] at hlist
  refine ⟨c.toJson, ⟨congrArg Clause.toJson hclause, ?_, fun f => ?_⟩, ?_⟩
  · unfold SearchedFields.ofBody?
    rw [hdefault, hlist]
    cases hsingle : t.single? with
    | some f =>
      rw [(t.single?_eq_some_iff f).1 hsingle]
      rfl
    | none => exact SearchedFields.ofList?_paths t.toFields
  · rw [h]
    exact t.single?_eq_some_iff f
  · rw [hdefault]
    simp only [Option.map_eq_some_iff, ← t.single?_eq_some_iff]
    grind

/-- A lenient query string never has a default field. -/
theorem searches_of_lenient (h : l.condition = .lenient t q a) : ∃ body,
    l.Searches t "simple_query_string" body ∧ body.member? "default_field" = none := by
  obtain ⟨condition, polarity, boost⟩ := l
  obtain rfl : condition = .lenient t q a := h
  obtain ⟨hdefault, hlist⟩ := LenientClause.member?_fields
    ⟨q.text, t.paths, a.operator, a.fuzzy, boost.weight⟩
  refine ⟨_, ⟨rfl, ?_, t.single?_eq_some_iff⟩, hdefault⟩
  unfold SearchedFields.ofBody?
  rw [hdefault, hlist]
  exact SearchedFields.ofList?_paths t.toFields

/-- **Strict and lenient query strings search the same fields** (`QueryTarget`). For any target, and any text that
is not blank, there is one of each kind. Whatever is then set of them, their clauses say to search the fields of the
target, in order; the strict one names a default field just if there is exactly one. A target of a list of fields
has these fields. -/
theorem strict_lenient_search (t : Target) {text : String} (htext : allBlank text = false) :
    ∃ strict lenient, Leaf.strict t text = .ok strict ∧ Leaf.lenient t text = .ok lenient ∧
      (∀ calls, ∃ body, (strict.run calls).Searches t "query_string" body ∧
        ((∃ v, body.member? "default_field" = some v) ↔ ∃ f, t.toFields = [f])) ∧
      (∀ calls, ∃ body, (lenient.run calls).Searches t "simple_query_string" body ∧
        body.member? "default_field" = none) ∧
      ∀ fs, t = .ofFields fs → t.toFields = fs := by
  obtain ⟨strict, hstrict⟩ := exists_strict_iff.2 htext
  obtain ⟨lenient, hlenient⟩ := exists_lenient_iff.2 htext
  refine ⟨strict, lenient, hstrict, hlenient, fun calls => ?_, fun calls => ?_, ?_⟩
  · obtain ⟨q, -, rfl⟩ := strict_eq_ok_iff.1 hstrict
    exact searches_of_strict (condition_run _ calls)
  · obtain ⟨q, -, rfl⟩ := lenient_eq_ok_iff.1 hlenient
    exact searches_of_lenient (condition_run _ calls)
  · rintro fs rfl
    exact Target.toFields_ofFields fs

/-- A list with a repetition. -/
theorem repeated_field_searched :
    ∃ strict body, Leaf.strict (.ofFields [.level, .message, .level]) "disk full" = .ok strict ∧
      strict.compile.toJson = .ofMembers [("query_string", body)] ∧
      SearchedFields.ofBody? body = some (.only ["level", "message", "level"]) ∧
      body.member? "default_field" = none := by
  have htext : allBlank "disk full" = false := by decide +kernel
  obtain ⟨strict, -, hstrict, -, hsearch, -, -⟩ :=
    strict_lenient_search (.ofFields [.level, .message, .level]) htext
  obtain ⟨body, hbody, hdefault⟩ := hsearch []
  refine ⟨strict, body, hstrict, hbody.clause, hbody.fields.trans ?_, Option.eq_none_iff_forall_ne_some.2 ?_⟩
  · decide +kernel
  · intro v hv
    obtain ⟨f, hf⟩ := hdefault.1 ⟨v, hv⟩
    cases hf

end Leaf

end LogQuery
