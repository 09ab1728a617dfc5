import LogQuery.Calendar.Format
import LogQuery.Json.Decode
import LogQuery.Text.Blank

/-!
# Log records

A record as it is stored: every known property may be missing, and members with other names are kept
as they are, so that records of differently configured writers can be read. A member that is `null`
counts as missing. On a line of text a record shows its time, level, thread, logger and message.
-/

namespace LogQuery

open LogQuery.Text

/-- The place in a program that wrote a record. -/
structure Source where
  className : Option String
  method : Option String
  file : Option String
  line : Option Int32
  classLoaderName : Option String
  /-- The members with other names. -/
  additional : Members Json

/-- A log record (`LogRecord`). -/
structure Record where
  /-- Milliseconds since the start of 1970. -/
  timeMillis : Option Int64
  thread : Option String
  level : Option String
  loggerName : Option String
  message : Option String
  endOfBatch : Option Bool
  loggerFqcn : Option String
  contextMap : Option (Members Json)
  threadId : Option Int64
  threadPriority : Option Int32
  source : Option Source
  /-- The members with other names. -/
  additional : Members Json

/-- The members whose names are not known, each name once. -/
def Document.additional? (known : List String) (ms : List (String × Document)) :
    Option (Members Json) :=
  (memberValues? (ms.filter fun m => !known.contains m.1)).map .ofList

namespace Source

def partNames : List String := ["class", "method", "file", "line", "classLoaderName"]

/-- An object only; its known members may each be given once. -/
def decode? : Document → Option Source
  | .object ms => do
    let parts ← Document.knownMembers? partNames ms
    let text name := parts.optional? name none (Document.nullable? Document.text?)
    let className ← text "class"
    let method ← text "method"
    let file ← text "file"
    let line ← parts.optional? "line" none (Document.nullable? Document.int32?)
    let classLoaderName ← text "classLoaderName"
    let additional ← Document.additional? partNames ms
    some { className, method, file, line, classLoaderName, additional }
  | _ => none

def toJson (s : Source) : Json :=
  .ofOptional
    ([("class", s.className.map .text), ("method", s.method.map .text), ("file", s.file.map .text),
      ("line", s.line.map fun i => .int i.toInt),
      ("classLoaderName", s.classLoaderName.map .text)] ++ s.additional.map fun m => (m.1, some m.2))

end Source

namespace Record

def partNames : List String :=
  ["timeMillis", "thread", "level", "loggerName", "message", "endOfBatch", "loggerFqcn", "contextMap",
    "threadId", "threadPriority", "source"]

/-- An object only; its known members may each be given once. -/
def decode? : Document → Option Record
  | .object ms => do
    let parts ← Document.knownMembers? partNames ms
    let text name := parts.optional? name none (Document.nullable? Document.text?)
    let timeMillis ← parts.optional? "timeMillis" none (Document.nullable? Document.int64?)
    let thread ← text "thread"
    let level ← text "level"
    let loggerName ← text "loggerName"
    let message ← text "message"
    let endOfBatch ← parts.optional? "endOfBatch" none (Document.nullable? Document.bool?)
    let loggerFqcn ← text "loggerFqcn"
    let contextMap ← parts.optional? "contextMap" none (Document.nullable? Document.table?)
    let threadId ← parts.optional? "threadId" none (Document.nullable? Document.int64?)
    let threadPriority ← parts.optional? "threadPriority" none (Document.nullable? Document.int32?)
    let source ← parts.optional? "source" none (Document.nullable? Source.decode?)
    let additional ← Document.additional? partNames ms
    some { timeMillis, thread, level, loggerName, message, endOfBatch, loggerFqcn, contextMap, threadId,
           threadPriority, source, additional }
  | _ => none

/-- The record that a value holds (`LogRecord::from_value`). -/
def ofJson? (v : Json) : Option Record := decode? (.ofJson v)

/-- Missing properties are left out. -/
def toJson (r : Record) : Json :=
  .ofOptional
    ([("timeMillis", r.timeMillis.map fun i => .int i.toInt), ("thread", r.thread.map .text),
      ("level", r.level.map .text), ("loggerName", r.loggerName.map .text),
      ("message", r.message.map .text), ("endOfBatch", r.endOfBatch.map .bool),
      ("loggerFqcn", r.loggerFqcn.map .text), ("contextMap", r.contextMap.map .object),
      ("threadId", r.threadId.map fun i => .int i.toInt),
      ("threadPriority", r.threadPriority.map fun i => .int i.toInt),
      ("source", r.source.map Source.toJson)] ++ r.additional.map fun m => (m.1, some m.2))

/-- The time of the record, if it has one that the calendar knows (`LogRecord::timestamp`). -/
def time? (r : Record) : Option Instant := r.timeMillis.bind fun ms => Instant.ofMillis? ms.toInt

/-- The time in a line of text; a dash if there is none. -/
def timeText (r : Record) : String := r.time?.elim "-" Instant.lineText

/-- The record on one line. Missing parts are dashes, a missing message is empty. -/
def line (r : Record) : String :=
  r.timeText ++ " " ++ padRight 5 (r.level.getD "-") ++ " [" ++ r.thread.getD "-" ++ "] " ++
    r.loggerName.getD "-" ++ ": " ++ r.message.getD ""

end Record

theorem Members.mem_ofList_names {α : Type} {pairs : Members α} {m : String × α}
    (h : m ∈ Members.ofList pairs) : m ∈ pairs := by
  have go : ∀ ps acc : Members α, m ∈ ps.foldl (fun ms p => Members.insert p.1 p.2 ms) acc →
      m ∈ acc ∨ m ∈ ps := by
    intro ps
    induction ps with
    | nil => exact fun _ h => .inl h
    | cons p ps ih =>
      intro acc h
      rcases ih _ h with h | h
      · rcases Members.mem_insert h with rfl | h
        · exact .inr List.mem_cons_self
        · exact .inl h
      · exact .inr (List.mem_cons_of_mem _ h)
  simpa using go pairs [] h

end LogQuery
