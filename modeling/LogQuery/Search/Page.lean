import LogQuery.Record
import LogQuery.Text.Integer

/-!
# Pages of results

What the backend answers to a search: how long it took, how many documents match, and some of these as
hits. A hit that holds no readable record is passed over when the records are taken.
-/

namespace LogQuery

open LogQuery.Text

/-- The number of matching documents, bare or with how it relates to the real number. -/
inductive TotalHits where
  | count (n : UInt64)
  | tracked (n : UInt64) (relation : String)
  deriving DecidableEq

namespace TotalHits

def value : TotalHits → UInt64
  | count n => n
  | tracked n _ => n

def toJson : TotalHits → Json
  | count n => .int n.toNat
  | tracked n relation => .ofMembers [("value", .int n.toNat), ("relation", .text relation)]

/-- Every part must have a meaning, also those that are not used. -/
def decode? (d : Document) : Option TotalHits :=
  match d.value?, d with
  | some _, .int _ => d.uint64?.map count
  | some _, .object ms => do
    let parts ← Document.knownMembers? ["value", "relation"] ms
    let n ← parts.required? "value" Document.uint64?
    let relation ← parts.required? "relation" Document.text?
    some (tracked n relation)
  | _, _ => none

end TotalHits

/-- One matching document. -/
structure Hit where
  index : String
  id : String
  score : Option Float
  source : Option Json

namespace Hit

def decode? (d : Document) : Option Hit := do
  let parts ← d.parts? ["_index", "_id", "_score", "_source"]
  let index ← parts.optional? "_index" "" Document.text?
  let id ← parts.optional? "_id" "" Document.text?
  let score ← parts.optional? "_score" none (Document.nullable? Document.float?)
  let source ← parts.optional? "_source" none (Document.nullable? Document.value?)
  some { index, id, score, source }

/-- A missing score is written as `null`, a missing document is left out. -/
def toJson (h : Hit) : Json :=
  .ofOptional [("_index", some (.text h.index)), ("_id", some (.text h.id)),
    ("_score", some (h.score.elim .null .ofFloat)), ("_source", h.source)]

/-- The record of the hit, if it holds one (`Hit::record`). -/
def record? (h : Hit) : Option Record := h.source.bind Record.ofJson?

end Hit

/-- One page of results (`ResultPage`). -/
structure Page where
  /-- The milliseconds that the backend took. -/
  took : UInt64
  timedOut : Bool
  totalHits : Option TotalHits
  maxScore : Option Float
  hits : List Hit

namespace Page

def empty : Page := ⟨0, false, none, none, []⟩

/-- The inner part of a page on the wire. -/
def decodeHits? (d : Document) : Option (Option TotalHits × Option Float × List Hit) := do
  let parts ← d.parts? ["total", "max_score", "hits"]
  let total ← parts.optional? "total" none (Document.nullable? TotalHits.decode?)
  let maxScore ← parts.optional? "max_score" none (Document.nullable? Document.float?)
  let hits ← parts.optional? "hits" [] (Document.list? Hit.decode?)
  some (total, maxScore, hits)

def decode? (d : Document) : Option Page := do
  let parts ← d.parts? ["took", "timed_out", "hits"]
  let took ← parts.optional? "took" 0 Document.uint64?
  let timedOut ← parts.optional? "timed_out" false Document.bool?
  let (totalHits, maxScore, hits) ← parts.optional? "hits" (none, none, []) decodeHits?
  some { took, timedOut, totalHits, maxScore, hits }

def toJson (p : Page) : Json :=
  .ofMembers [("took", .int p.took.toNat), ("timed_out", .bool p.timedOut),
    ("hits", .ofOptional [("total", p.totalHits.map TotalHits.toJson),
      ("max_score", some (p.maxScore.elim .null .ofFloat)),
      ("hits", some (.array (p.hits.map Hit.toJson)))])]

/-- The document at a position among the given ones, as a hit. -/
def sourceHit (index : String) (position : Nat) (source : Json) : Hit :=
  ⟨index, ofNat position, some 1.0, some source⟩

/-- A page that holds the given documents as hits, in order (`ResultPage::from_sources`). -/
def ofSources (index : String) (sources : List Json) : Page :=
  { took := 0
    timedOut := false
    totalHits := some (.tracked (UInt64.ofNat sources.length) "eq")
    maxScore := if sources.isEmpty then none else some 1.0
    hits := sources.mapIdx (sourceHit index) }

/-- The number of matching documents that the backend reports, or else of hits on the page
(`ResultPage::total`). -/
def total (p : Page) : Nat := p.totalHits.elim p.hits.length fun t => t.value.toNat

def size (p : Page) : Nat := p.hits.length

def isEmpty (p : Page) : Bool := p.hits.isEmpty

/-- The records of the hits, in order (`ResultPage::records`). -/
def records (p : Page) : List Record := p.hits.filterMap Hit.record?

end Page

end LogQuery
