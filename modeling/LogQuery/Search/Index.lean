import LogQuery.Calendar.Format
import LogQuery.Search.Transport

/-!
# Names of indices

Records are written to one index a period, named by a lead, a base name and the date in a pattern. A
name is computed for an instant and stays until it is computed again. A pattern may be accepted and
still have a piece that cannot be written; then a name is left as it was.

Main statement: recomputing with a writable pattern forgets the name before
(`name_recalculate`).
-/

namespace LogQuery

/-- The name of the index that searches run against. -/
structure LogIndex where
  /-- What every name starts with. -/
  lead : String
  /-- The part between the lead and the date. -/
  base : String
  pattern : Pattern
  name : String

namespace LogIndex

/-- The date pattern that settings start from (`DEFAULT_DATE_FORMAT`). -/
def defaultPattern : String := "%Y%m%d"

/-- The name at an instant, unless the pattern cannot be written. -/
def nameAt? (lead base : String) (pattern : Pattern) (t : Instant) : Option String :=
  (pattern.render? t).map fun date => lead ++ base ++ "_" ++ String.ofList date

/-- Computes the name for an instant (`LogIndex::recalculate_at`). -/
def recalculate (t : Instant) (x : LogIndex) : LogIndex :=
  { x with name := (nameAt? x.lead x.base x.pattern t).getD x.name }

/-- An index named for an instant, if the text is a pattern (`LogIndex::new`). -/
def create (lead base pattern : String) (t : Instant) : Except SearchError LogIndex :=
  match Pattern.ofText? pattern with
  | some p => .ok (recalculate t ⟨lead, base, p, ""⟩)
  | none => .error (.config ("invalid index date format: " ++ pattern))

theorem name_recalculate (t : Instant) (x : LogIndex) (h : x.pattern.Writable) :
    (x.recalculate t).name = (nameAt? x.lead x.base x.pattern t).getD "" := by
  have hs := (Pattern.isSome_render?_iff t x.pattern).2 h
  obtain ⟨date, hd⟩ := Option.isSome_iff_exists.1 hs
  simp [recalculate, nameAt?, hd]

end LogIndex

end LogQuery
