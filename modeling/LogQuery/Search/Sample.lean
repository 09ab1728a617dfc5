import LogQuery.Search.Index
import LogQuery.Search.Transport

/-!
# Searching without a backend

The canned transport writes every request down and gives the answers that were queued, in their order; when
there are none left it gives empty pages. A search of it has two steps, `record` and `take`, between which
other searches may come.

The sample documents are as a log writer stores them, at given distances from a fixed point of time, with an
index named for that time. They are what a client is tried out with before there is a backend.
-/

namespace LogQuery

/-! ## A transport with canned answers -/

/-- A transport with queued answers (`MockTransport`). -/
structure Canned where
  /-- The answers to come, the next one first. -/
  answers : List SearchResult
  /-- The requests so far, the oldest first. -/
  requests : List SearchRequest

namespace Canned

def empty : Canned := ⟨[], []⟩

/-- A transport with one page queued. -/
def ofPage (p : Page) : Canned := ⟨[.ok p], []⟩

/-- Queues an answer (`MockTransport::push_page`, `MockTransport::push_error`). -/
def push (r : SearchResult) (c : Canned) : Canned := { c with answers := c.answers ++ [r] }

/-- Writes a request down. -/
def record (r : SearchRequest) (c : Canned) : Canned := { c with requests := c.requests ++ [r] }

/-- Takes the next answer. -/
def take (c : Canned) : SearchResult × Canned :=
  match c.answers with
  | [] => (.ok .empty, c)
  | a :: rest => (a, { c with answers := rest })

/-- Writes the request down and takes the next answer (`MockTransport::search`). -/
def search : Transport (StateM Canned) := fun r c => (c.record r).take

def lastRequest? (c : Canned) : Option SearchRequest := c.requests.getLast?

end Canned

/-! ## Sample documents -/

namespace Sample

/-- The morning of 15 January 2024, nine o'clock in universal time. -/
def baseTime : Instant := ⟨1705309200000, by decide, by decide, ⟨0, by decide⟩⟩

def writerClass : String := "com.example.storage.DiskMonitor"

/-- A stored document, written `offset` milliseconds after the base time (`log_document`). -/
def document (offset : Int) (level thread message : String) : Json :=
  .ofMembers [("timeMillis", .int (baseTime.millis + offset)), ("thread", .text thread),
    ("level", .text level), ("loggerName", .text writerClass), ("message", .text message),
    ("endOfBatch", .bool false),
    ("loggerFqcn", .text "org.apache.logging.log4j.spi.AbstractLogger"),
    ("threadId", .int 1), ("threadPriority", .int 5),
    ("source", .ofMembers [("class", .text writerClass), ("method", .text "check"),
      ("file", .text "DiskMonitor.java"), ("line", .int 42)])]

/-- The index of the base time. -/
def index : Except SearchError LogIndex :=
  LogIndex.create "ea_" "log" LogIndex.defaultPattern baseTime

/-- A transport with one page of the documents queued, as hits of the index (`TestHarness::new`). -/
def transport (x : LogIndex) (documents : List Json) : Canned :=
  .ofPage (.ofSources x.name documents)

end Sample

end LogQuery
