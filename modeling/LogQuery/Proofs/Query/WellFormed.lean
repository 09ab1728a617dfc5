import LogQuery.Proofs.Query.Construction
import LogQuery.Proofs.Query.Nested

/-!
# Only well-formed clauses are sent

What the backend asks of a clause beyond its shape, and what it would refuse or silently misread
otherwise: registered paths, text that is not blank, edit distances of at most two, weights that are
numbers, bool clauses that say something and whose choice counts.

Main statement: whatever is built from unchecked values, each clause anywhere in what it compiles to
is well-formed (`wellFormed_nested`).
-/

namespace LogQuery

open LogQuery.Text

/-! ## Parts of a clause -/

/-- The path of some field. -/
def RegisteredPath (s : String) : Prop := ∃ f ∈ Field.all, s = f.path

/-- The path for exact comparison of some field. -/
def RegisteredExactPath (s : String) : Prop := ∃ f ∈ Field.all, s = f.exactPath

/-- Some character of the text is no white space. -/
def HasText (s : String) : Prop := ∃ c ∈ s.toList, isBlank c = false

/-- A finite number that is not negative. -/
def AllowedWeight (x : Float) : Prop := x.isFinite = true ∧ ¬ x < 0

/-- The distance is written as the automatic choice or as 0, 1 or 2. -/
def AllowedFuzzy (f : FuzzyConfig) : Prop :=
  f.fuzziness.toJson ∈ [Json.text "AUTO", .int 0, .int 1, .int 2]

/-- What the backend asks of one clause, apart from the clauses inside it. -/
def Clause.WellFormed : Clause → Prop
  | .matchAll boost => AllowedWeight boost
  | .bool must mustNot should =>
    (must ≠ [] ∨ mustNot ≠ [] ∨ should ≠ []) ∧ (should ≠ [] → must = [] ∧ mustNot = [])
  | .fullText c => RegisteredPath c.field ∧ (∀ f ∈ c.fuzzy, AllowedFuzzy f) ∧ AllowedWeight c.boost
  | .term c => RegisteredExactPath c.field ∧ AllowedWeight c.boost
  | .range c => RegisteredPath c.field ∧ AllowedWeight c.boost
  | .strict c =>
    HasText c.text ∧ (∀ s ∈ c.defaultField, RegisteredPath s) ∧ (∀ s ∈ c.fields, RegisteredPath s) ∧
      (c.defaultField = none ∨ c.fields = []) ∧ (∀ f ∈ c.fuzzy, AllowedFuzzy f) ∧
        AllowedWeight c.boost
  | .lenient c =>
    HasText c.text ∧ (∀ s ∈ c.fields, RegisteredPath s) ∧ (∀ f ∈ c.fuzzy, AllowedFuzzy f) ∧
      AllowedWeight c.boost

theorem registeredPath_path (f : Field) : RegisteredPath f.path := ⟨f, f.mem_all, rfl⟩

theorem registeredExactPath_exactPath (f : Field) : RegisteredExactPath f.exactPath :=
  ⟨f, f.mem_all, rfl⟩

theorem Target.registeredPath_of_mem_paths {t : Target} {s : String} (h : s ∈ t.paths) :
    RegisteredPath s := by
  obtain ⟨f, _, rfl⟩ := List.mem_map.1 h
  exact registeredPath_path f

theorem QueryText.hasText (q : QueryText) : HasText q.text := by
  obtain ⟨c, hc, hb⟩ := List.all_eq_false.1 q.notBlank
  exact ⟨c, hc, Bool.eq_false_iff.2 hb⟩

theorem FuzzyConfig.allowedFuzzy (f : FuzzyConfig) : AllowedFuzzy f := by
  unfold AllowedFuzzy
  cases hf : f.fuzziness with
  | auto => simp [Fuzziness.toJson]
  | fixed d =>
    obtain ⟨n, hn⟩ := d
    have h : n = 0 ∨ n = 1 ∨ n = 2 := by unfold maxEditDistance at hn; omega
    rcases h with rfl | rfl | rfl <;> simp [Fuzziness.toJson]

/-! ## Leaves -/

theorem Condition.wellFormed_compile (c : Condition) {x : Float} (hx : AllowedWeight x) :
    (c.compile.withBoost x).WellFormed := by
  cases c with
  | fullText f v a => exact ⟨registeredPath_path f, fun g _ => g.allowedFuzzy, hx⟩
  | term f v => exact ⟨registeredExactPath_exactPath f, hx⟩
  | range f b => exact ⟨registeredPath_path f, hx⟩
  | strict t q a =>
    simp only [compile, strictClause]
    -- one field goes to the default, several go to the list; never both
    cases t.single? with
    | some f =>
      refine ⟨q.hasText, ?_, by simp, .inr rfl, fun g _ => g.allowedFuzzy, hx⟩
      rintro s hs
      obtain rfl := Option.some.inj hs
      exact registeredPath_path f
    | none =>
      exact ⟨q.hasText, by simp, fun s hs => t.registeredPath_of_mem_paths hs, .inl rfl,
        fun g _ => g.allowedFuzzy, hx⟩
  | lenient t q a =>
    exact ⟨q.hasText, fun s hs => t.registeredPath_of_mem_paths hs, fun g _ => g.allowedFuzzy, hx⟩

theorem Leaf.wellFormed_compile (l : Leaf) : l.compile.WellFormed :=
  l.condition.wellFormed_compile l.boost.allowed

/-! ## Trees -/

theorem closed_wellFormed : Closed Clause.WellFormed where
  demand _ _ h := ⟨h.imp_right .inl, fun hs => absurd rfl hs⟩
  choice _ h := ⟨.inr (.inr h), fun _ => ⟨rfl, rfl⟩⟩

theorem wellFormed_everything : Clause.everything.WellFormed := by
  unfold Clause.everything Clause.WellFormed AllowedWeight
  decide

theorem Node.wellFormed_compile (n : Node) : ∀ d ∈ n.compile.nested, d.WellFormed :=
  n.forall_nested_compile closed_wellFormed wellFormed_everything fun l _ => l.wellFormed_compile

/-- **Whatever callers do, only well-formed clauses are sent** (`Node::compile`, `QueryObject::to_json`). -/
theorem Construction.wellFormed_nested (c : Construction) :
    ∀ n ∈ c.node?, ∀ d ∈ n.compile.nested, d.WellFormed :=
  fun n _ => n.wellFormed_compile

/-- Alternatives of which one has been given weights and distances that are refused, and others after
them; blank query text is refused too. -/
def Construction.withRefusals : Construction :=
  .group .or
    [.leaf (.strict (.fields [.message]) (some "disk~"))
      [.boost (-1.0), .editDistance 9, .boost 2.5, .editDistance 2, .boost (0.0 / 0.0)]]
    [.lenient .allFields "  ", .push .or (.group .and [] [])]

theorem Construction.wellFormed_withRefusals :
    ∃ n ∈ withRefusals.node?, ∃ d ∈ n.compile.nested,
      d.kind = "query_string" ∧ d.boost? = some 2.5 ∧ d.WellFormed := by
  have hn : ∃ n, withRefusals.node? = some n ∧
      ∃ d ∈ n.compile.nested, d.kind = "query_string" ∧ d.boost? = some 2.5 :=
    ⟨_, rfl, _, .tail _ (.tail _ (.head _)), rfl, rfl⟩
  obtain ⟨n, hn, d, hd, hk, hb⟩ := hn
  exact ⟨n, hn, d, hd, hk, hb, wellFormed_nested withRefusals n hn d hd⟩

end LogQuery
