import LogQuery.Proofs.Query.Encoding
import LogQuery.Search.Request
import Mathlib.Data.List.Nodup

/-!
# What the body of a request keeps

Of two requests with the same body, everything but the index is the same, as far as the JSON form of
their queries tells: the edit distances of lenient query strings are not sent. This holds whichever way
doubles are compared, by their bits or as numbers, for which the two zeros are one.

Main statement: the body loses nothing else (`SearchRequest.body_lossless`).
-/

namespace LogQuery

variable {same : Float → Float → Prop}

/-- No two fields are sorted on at the same path. -/
theorem Field.exactPath_injective : Function.Injective Field.exactPath := by
  have hd : (Field.all.map exactPath).Nodup := by decide +kernel
  intro f g h
  exact List.inj_on_of_nodup_map hd (mem_all f) (mem_all g) h

theorem SortOrder.alike_toJson_iff (o p : SortOrder) :
    Json.Alike same o.toJson p.toJson ↔ o = p := by
  cases o <;> cases p <;> simp [toJson, name, Json.Alike]

theorem SortKey.alike_toJson_iff (s t : SortKey) : Json.Alike same s.toJson t.toJson ↔ s = t := by
  obtain ⟨f, o⟩ := s
  obtain ⟨g, p⟩ := t
  rw [toJson, toJson, Json.alike_single_iff, Json.alike_single_iff, SortOrder.alike_toJson_iff,
    Field.exactPath_injective.eq_iff]
  simp

namespace SearchRequest

variable {r₁ r₂ : SearchRequest}

theorem alike_body_iff (h₁ : r₁.query.FiniteNumbers) (h₂ : r₂.query.FiniteNumbers) :
    Json.Alike same r₁.body r₂.body ↔
      r₁.sort = r₂.sort ∧ r₁.first? = r₂.first? ∧ r₁.size? = r₂.size? ∧
        r₁.query.withoutLenientDistance.Alike same r₂.query.withoutLenientDistance := by
  have hn : ["query", "sort", "from", "size"].Nodup := by decide
  have hsort : ∀ s t : SortKey, Json.Alike same (.array [s.toJson]) (.array [t.toJson]) ↔ s = t := by
    intro s t
    simp [Json.Alike, Json.ItemsAlike, SortKey.alike_toJson_iff]
  rw [body, body, Json.alike_ofOptional_iff hn rfl rfl]
  simp only [Members.alike_cons_iff, Members.alike_nil, Option.rel_some_some,
    Clause.alike_toJson_iff _ _ h₁ h₂, rel_map_iff hsort, rel_map_iff alike_ofUInt32_iff]
  tauto

/-- **The body of a request is lossless** (`SearchRequest::body`). Two requests whose doubles are finite have the
same body just if they have the same sort, the same page, and queries that differ at most in the edit distances of
lenient query strings. -/
theorem body_lossless (h₁ : r₁.query.FiniteNumbers) (h₂ : r₂.query.FiniteNumbers) :
    (r₁.body = r₂.body ↔
      r₁.sort = r₂.sort ∧ r₁.first? = r₂.first? ∧ r₁.size? = r₂.size? ∧
        r₁.query.withoutLenientDistance = r₂.query.withoutLenientDistance) ∧
    (r₁.body.Alike (· == ·) r₂.body ↔
      r₁.sort = r₂.sort ∧ r₁.first? = r₂.first? ∧ r₁.size? = r₂.size? ∧
        r₁.query.withoutLenientDistance.Alike (· == ·) r₂.query.withoutLenientDistance) := by
  refine ⟨?_, alike_body_iff h₁ h₂⟩
  rw [← Json.alike_eq_iff, ← Clause.alike_eq_iff]
  exact alike_body_iff h₁ h₂

/-- A request of all kinds of values, with a lenient query string of this distance. -/
def withDistance (f : Fuzziness) : SearchRequest where
  index := "logs"
  query := .bool
    [.range ⟨"threadId", ⟨.integer 1, .float 1.0⟩, 0.5⟩, .term ⟨"endOfBatch", .bool true, 1.0⟩]
    [.fullText ⟨"message", .text "1", some .and, some .auto, 2.0⟩]
    [.bool [] [.lenient ⟨"retry~", ["message"], none, some ⟨f, 50, 0, true⟩, 1.0⟩] []]
  sort := some ⟨.message, .descending⟩
  first? := none
  size? := some 10

theorem body_withDistance :
    (withDistance .auto).query.FiniteNumbers ∧ (withDistance (.fixed ⟨2, by decide⟩)).query.FiniteNumbers ∧
      (withDistance .auto).body = (withDistance (.fixed ⟨2, by decide⟩)).body :=
  have h₁ : (withDistance .auto).query.FiniteNumbers := by decide +kernel
  have h₂ : (withDistance (.fixed ⟨2, by decide⟩)).query.FiniteNumbers := by decide +kernel
  ⟨h₁, h₂, (body_lossless h₁ h₂).1.2 ⟨rfl, rfl, rfl, rfl⟩⟩

end SearchRequest

end LogQuery
