import LogQuery.Proofs.Json.Written
import LogQuery.Search.Page

/-!
# Pages on the wire

A page of results is read back from the value that it is written as. A document that is `null` and a score
that is no number cannot be told from absent ones there, and come back as absent (`Page.settled`); all else
comes back as it was. Whoever reads the page sees no difference.

Each part is read back first (`TotalHits.decode?_toJson`, `Hit.decode?_toJson`), then the page. Main statement:
pages survive the wire (`Page.through_wire`).
-/

namespace LogQuery

/-! ## Scores -/

/-- A score that is a number. -/
def finite? (score : Option Float) : Option Float := score.filter Float.isFinite

theorem finite?_eq_self_iff (score : Option Float) : finite? score = score ↔ ∀ x ∈ score, x.isFinite = true := by
  cases score with
  | none => simp [finite?]
  | some x => by_cases hx : x.isFinite = true <;> simp [finite?, hx]

theorem nullable?_float? (score : Option Float) :
    Document.nullable? Document.float? (.ofJson (score.elim .null .ofFloat)) = some (finite? score) := by
  cases score with
  | none => rfl
  | some x =>
    by_cases hx : x.isFinite = true
    · simp [Json.ofFloat, hx, Document.ofJson, Document.nullable?, Document.float?, finite?, Option.filter_some]
    · simp [Json.ofFloat, hx, Document.ofJson, Document.nullable?, finite?, Option.filter_some]

/-! ## Totals -/

namespace TotalHits

theorem decode?_toJson (t : TotalHits) : decode? (.ofJson t.toJson) = some t := by
  cases t with
  | count n =>
    have hn := Document.uint64?_ofJson n
    simp only [toJson, Document.ofJson] at hn ⊢
    simp [decode?, Document.value?, hn]
  | tracked n relation =>
    obtain ⟨parts, hparts, hfind⟩ := Document.exists_parts?_ofMembers
      [("value", .int n.toNat), ("relation", .text relation)] (show _ = ["value", "relation"] from rfl) (by decide)
    have hvalue : parts.required? "value" Document.uint64? = some n := by
      rw [Members.required?, hfind _ (by decide)]
      exact Document.uint64?_ofJson n
    have hrelation : parts.required? "relation" Document.text? = some relation := by
      rw [Members.required?, hfind _ (by decide)]
      rfl
    -- Parts of a total are only looked for after the whole of it was found to be a value.
    have hcanonical : ∀ m ∈ [("value", Json.int n.toNat), ("relation", .text relation)], m.2.Canonical := by
      simpa using ⟨Json.Canonical.int n.toNat, Json.Canonical.text relation⟩
    have hwhole := Document.value?_ofMembers hcanonical
    simp only [Json.ofMembers, Document.ofJson, Document.parts?] at hparts hwhole
    simp [toJson, Json.ofMembers, Document.ofJson, decode?, hwhole, hparts, hvalue, hrelation]

end TotalHits

/-! ## Hits -/

namespace Hit

/-- The hit as it comes back from the wire: without a document that is `null`, and without a score that is no
number. -/
def settled (h : Hit) : Hit := { h with score := finite? h.score, source := Json.given h.source }

theorem nullable?_source {source : Option Json} (h : ∀ v, source = some v → v.Canonical) :
    (source.map Document.ofJson).elim (some none) (Document.nullable? Document.value?) =
      some (Json.given source) := by
  cases source with
  | none => rfl
  | some v =>
    have hv := Document.value?_ofJson (h v rfl)
    cases v <;> simp_all [Document.ofJson, Document.nullable?, Json.given, Json.isNull, Option.filter_some]

/-- **A hit** comes back settled. -/
theorem decode?_toJson (h : Hit) (hsource : ∀ v, h.source = some v → v.Canonical) :
    decode? (.ofJson h.toJson) = some h.settled := by
  obtain ⟨parts, hparts, hfind⟩ := Document.exists_parts?_ofOptional
    [("_index", some (.text h.index)), ("_id", some (.text h.id)), ("_score", some (h.score.elim .null .ofFloat)),
      ("_source", h.source)] (show _ = ["_index", "_id", "_score", "_source"] from rfl) (by decide)
  have hindex : parts.optional? "_index" "" Document.text? = some h.index := by
    rw [Members.optional?, hfind _ (by decide)]
    rfl
  have hid : parts.optional? "_id" "" Document.text? = some h.id := by
    rw [Members.optional?, hfind _ (by decide)]
    rfl
  have hscore : parts.optional? "_score" none (Document.nullable? Document.float?) = some (finite? h.score) := by
    rw [Members.optional?, hfind _ (by decide)]
    exact nullable?_float? h.score
  have hgiven : parts.optional? "_source" none (Document.nullable? Document.value?) =
      some (Json.given h.source) := by
    rw [Members.optional?, hfind _ (by decide), ← nullable?_source hsource]
    cases hs : h.source <;> rfl
  rw [decode?, toJson, hparts]
  simp [hindex, hid, hscore, hgiven, settled]

theorem settled_eq_self_iff (h : Hit) :
    h.settled = h ↔ (∀ x ∈ h.score, x.isFinite = true) ∧ h.source ≠ some .null := by
  have hgiven : Json.given h.source = h.source ↔ h.source ≠ some .null := by
    rcases hs : h.source with _ | v
    · simp
    · by_cases hv : v = .null
      · simp [hv]
      · simp [Json.given_of_ne_null hv, hv]
  rw [← finite?_eq_self_iff, ← hgiven]
  cases h
  simp [settled]

theorem record?_null {h : Hit} (hs : h.source = some .null) : h.record? = none := by
  rw [record?, hs]
  rfl

/-- A document that is `null` is no record. -/
theorem record?_settled (h : Hit) : h.settled.record? = h.record? := by
  cases hs : h.source with
  | none => simp [record?, settled, hs]
  | some v =>
    by_cases hv : v = .null
    · subst hv
      rw [record?_null hs]
      simp [record?, settled, hs]
    · simp [record?, settled, hs, Json.given_of_ne_null hv]

end Hit

/-! ## Pages -/

namespace Page

/-- The page as it comes back from the wire. -/
def settled (p : Page) : Page := { p with maxScore := finite? p.maxScore, hits := p.hits.map Hit.settled }

theorem settled_eq_self_iff (p : Page) :
    p.settled = p ↔ (∀ x ∈ p.maxScore, x.isFinite = true) ∧
      ∀ h ∈ p.hits, (∀ x ∈ h.score, x.isFinite = true) ∧ h.source ≠ some .null := by
  have hhits : p.hits.map Hit.settled = p.hits.map id ↔ ∀ h ∈ p.hits, h.settled = id h := List.map_inj_left
  simp only [List.map_id, id_eq, Hit.settled_eq_self_iff] at hhits
  rw [← hhits, ← finite?_eq_self_iff]
  cases p
  simp [settled]

theorem records_settled (p : Page) : p.settled.records = p.records := by
  rw [records, settled, List.filterMap_map]
  exact List.filterMap_congr fun h _ => h.record?_settled

theorem nullable?_total (t : Option TotalHits) :
    ((t.map TotalHits.toJson).map Document.ofJson).elim (some none) (Document.nullable? TotalHits.decode?) =
      some t := by
  cases t with
  | none => rfl
  | some t =>
    have ht := TotalHits.decode?_toJson t
    cases t <;> simp_all [TotalHits.toJson, Json.ofMembers, Document.ofJson, Document.nullable?]

/-- The inner part of a page comes back settled. -/
theorem decodeHits?_ofOptional (p : Page) (hsources : ∀ h ∈ p.hits, ∀ v, h.source = some v → v.Canonical) :
    decodeHits? (.ofJson (.ofOptional [("total", p.totalHits.map TotalHits.toJson),
      ("max_score", some (p.maxScore.elim .null .ofFloat)), ("hits", some (.array (p.hits.map Hit.toJson)))])) =
      some (p.totalHits, finite? p.maxScore, p.hits.map Hit.settled) := by
  obtain ⟨parts, hparts, hfind⟩ := Document.exists_parts?_ofOptional
    [("total", p.totalHits.map TotalHits.toJson), ("max_score", some (p.maxScore.elim .null .ofFloat)),
      ("hits", some (.array (p.hits.map Hit.toJson)))] (show _ = ["total", "max_score", "hits"] from rfl) (by decide)
  have htotal : parts.optional? "total" none (Document.nullable? TotalHits.decode?) = some p.totalHits := by
    rw [Members.optional?, hfind _ (by decide), ← nullable?_total p.totalHits]
    cases ht : p.totalHits <;> rfl
  have hmax : parts.optional? "max_score" none (Document.nullable? Document.float?) = some (finite? p.maxScore) := by
    rw [Members.optional?, hfind _ (by decide)]
    exact nullable?_float? p.maxScore
  have hhits : parts.optional? "hits" [] (Document.list? Hit.decode?) = some (p.hits.map Hit.settled) := by
    rw [Members.optional?, hfind _ (by decide)]
    exact Document.list?_ofItems fun h hh => h.decode?_toJson (hsources h hh)
  rw [decodeHits?, hparts]
  simp [htotal, hmax, hhits]

/-- The page as a whole comes back settled. -/
theorem decode?_toJson (p : Page) (hsources : ∀ h ∈ p.hits, ∀ v, h.source = some v → v.Canonical) :
    decode? (.ofJson p.toJson) = some p.settled := by
  obtain ⟨parts, hparts, hfind⟩ := Document.exists_parts?_ofMembers
    [("took", .int p.took.toNat), ("timed_out", .bool p.timedOut),
      ("hits", .ofOptional [("total", p.totalHits.map TotalHits.toJson),
        ("max_score", some (p.maxScore.elim .null .ofFloat)), ("hits", some (.array (p.hits.map Hit.toJson)))])]
    (show _ = ["took", "timed_out", "hits"] from rfl) (by decide)
  have htook : parts.optional? "took" 0 Document.uint64? = some p.took := by
    rw [Members.optional?, hfind _ (by decide)]
    exact Document.uint64?_ofJson p.took
  have htimedOut : parts.optional? "timed_out" false Document.bool? = some p.timedOut := by
    rw [Members.optional?, hfind _ (by decide)]
    rfl
  have hhits : parts.optional? "hits" (none, none, []) decodeHits? =
      some (p.totalHits, finite? p.maxScore, p.hits.map Hit.settled) := by
    rw [Members.optional?, hfind _ (by decide)]
    exact p.decodeHits?_ofOptional hsources
  rw [decode?, toJson, hparts]
  simp [htook, htimedOut, hhits, settled]

/-- **Pages survive the wire** (`ResultPage`). A page is read back from what it is written as, and comes back
settled. Only a score that is no number and a document that is `null` keep it from being the same page; how many
documents match, and in which form that was told, stays, and so does all that a reader takes from the page. -/
theorem through_wire (p : Page) (hsources : ∀ h ∈ p.hits, ∀ v, h.source = some v → v.Canonical) :
    decode? (.ofJson p.toJson) = some p.settled ∧
      (p.settled = p ↔ (∀ x ∈ p.maxScore, x.isFinite = true) ∧
        ∀ h ∈ p.hits, (∀ x ∈ h.score, x.isFinite = true) ∧ h.source ≠ some .null) ∧
      p.settled.totalHits = p.totalHits ∧ p.settled.records = p.records ∧ p.settled.total = p.total ∧
      p.settled.size = p.size ∧ p.settled.isEmpty = p.isEmpty ∧
      ∀ h ∈ p.hits, h.source = some .null → h.record? = none ∧ h.settled.record? = none := by
  have htotal : p.settled.total = p.total := by simp [total, settled]
  have hsize : p.settled.size = p.size := by simp [size, settled]
  have hempty : p.settled.isEmpty = p.isEmpty := by simp [isEmpty, settled]
  have hnull : ∀ h ∈ p.hits, h.source = some .null → h.record? = none ∧ h.settled.record? = none := by
    intro h _ hs
    have hnone := Hit.record?_null hs
    exact ⟨hnone, h.record?_settled.trans hnone⟩
  exact ⟨p.decode?_toJson hsources, p.settled_eq_self_iff, rfl, p.records_settled, htotal, hsize, hempty, hnull⟩

/-- Two hits of which the second holds a document that is `null`, among five that match. -/
def nullHit : Page :=
  ⟨3, false, some (.tracked 5 "gte"), none,
    [⟨"log", "a", none, some (.object [("message", .text "up")])⟩, ⟨"log", "b", none, some .null⟩]⟩

theorem through_wire_nullHit :
    (∀ h ∈ nullHit.hits, ∀ v, h.source = some v → v.Canonical) ∧
      ∃ q, decode? (.ofJson nullHit.toJson) = some q ∧ q ≠ nullHit ∧ q.total = 5 ∧ q.size = 2 ∧
        q.records.map Record.message = [some "up"] := by
  have hsources : ∀ h ∈ nullHit.hits, ∀ v, h.source = some v → v.Canonical := by
    have hup : (Json.object [("message", .text "up")]).Canonical :=
      Json.canonical_object_iff.2 ⟨List.pairwise_singleton _ _, by simpa using Json.Canonical.text _⟩
    simpa [nullHit] using ⟨hup, Json.Canonical.null⟩
  obtain ⟨hread, hsame, _, hrecords, htotal, hsize, _⟩ := through_wire nullHit hsources
  refine ⟨hsources, nullHit.settled, hread, ?_, htotal, hsize, ?_⟩
  · rw [Ne, hsame]
    simp [nullHit]
  · rw [hrecords]
    with_unfolding_all rfl

end Page

end LogQuery
