import LogQuery.CommandLine.Query
import LogQuery.Http.Transport
import LogQuery.Search.Query
import LogQuery.Settings.Load

/-!
# Running a command

Listing the fields needs no settings. The other commands load them first; a log level of the command line
replaces theirs. Compiling prints the query. Searching prepares everything that can be at fault on this
side before the first request is sent, and prints one line a record.

Main statement: a search that cannot be prepared sends nothing (`run_of_prepare_error`).
-/

namespace LogQuery.CommandLine

def programName : String := "logsearch"

def version : String := "0.3.0"

/-- What a command prints: lines, and the number of records where it brought some. -/
structure Report where
  lines : List String
  records : Option Nat

namespace Report

def output (r : Report) : String := String.join (r.lines.map fun l => l ++ "\n")

/-- What is said about the number of records. -/
def note? (r : Report) : Option String := r.records.map fun n => Text.ofNat n ++ " record(s)"

end Report

/-- A search that is ready to be sent. -/
structure Prepared where
  nodes : Http.Nodes
  timeoutSecs : UInt64
  query : BooleanQuery
  first : UInt32
  size : UInt32

/-- The settings with the nodes of the command line, if it names any. -/
def SearchOptions.settings (o : SearchOptions) (s : Settings) : Except Failure Settings :=
  if o.nodes.isEmpty then .ok s
  else (Settings.validate { s with nodes := o.nodes }).mapError .nodes

/-- The index that is searched. -/
def SearchOptions.logIndex (o : SearchOptions) (s : Settings) (now : Instant) :
    Except Failure LogIndex :=
  (LogIndex.create s.indexLead (o.index.getD s.indexName) s.indexDateFormat now).mapError .index

def SearchOptions.order (o : SearchOptions) : SortOrder :=
  if o.descending then .descending else .ascending

/-- The query with the sort of the command line, if it names a field for it. -/
def SearchOptions.sorted (o : SearchOptions) (q : BooleanQuery) : Except Failure BooleanQuery :=
  match o.sort with
  | none => .ok q
  | some name => ((Field.resolve name).mapError .sortField).map fun f =>
      (q.useSorting.sortOn f).withSortOrder o.order

/-- Prepares a search: nodes, group, transport, index and sort, in the order in which their faults are met. -/
def prepare (now : Instant) (s : Settings) (q : QueryOptions) (o : SearchOptions) :
    Except Failure Prepared := do
  let s ← o.settings s
  let root ← q.group s
  let nodes ← (Http.Nodes.ofSettings s).mapError .transport
  let index ← o.logIndex s now
  let query ← o.sorted ((SearchClient.mk index).query.withRoot root)
  .ok ⟨nodes, s.requestTimeoutSecs, query, o.first, o.size.getD s.defaultPageSize⟩

/-- What is printed about the result of a search. -/
def reportOf (r : SearchResult) : Except Failure Report :=
  ((SearchResult.records r).mapError .search).map fun rs => ⟨rs.map Record.line, some rs.length⟩

/-- The settings that a command runs with (`load_settings`). -/
def Invocation.settings (i : Invocation) (sources : SettingsSources) : Except Failure Settings :=
  ((Settings.load sources).mapError .settings).map fun s => { s with logLevel := i.logLevel.getD s.logLevel }

variable {m : Type → Type} [Monad m]

/-- Sends a search, where `send` posts to a node within a number of seconds. -/
def Prepared.run (send : UInt64 → Http.Post → m Http.Reply) (p : Prepared) :
    m (Except Failure Report) := do
  let r ← p.query.runPage (Http.search (send p.timeoutSecs) p.nodes) p.first p.size
  pure (reportOf r)

/-- Runs a command at an instant (`handle_fields`, `handle_compile`, `handle_search`). -/
def run (send : UInt64 → Http.Post → m Http.Reply) (now : Instant) (sources : SettingsSources)
    (i : Invocation) : m (Except Failure Report) :=
  match i.command with
  | .fields => pure (.ok ⟨Field.table, none⟩)
  | .compile q => pure do
    let s ← i.settings sources
    let g ← q.group s
    .ok ⟨[g.compile.display], none⟩
  | .search q o =>
    match i.settings sources >>= fun s => prepare now s q o with
    | .error f => pure (.error f)
    | .ok p => p.run send

theorem run_of_prepare_error (send : UInt64 → Http.Post → m Http.Reply) (now : Instant)
    (sources : SettingsSources) (i : Invocation) (q : QueryOptions) (o : SearchOptions) (f : Failure)
    (hc : i.command = .search q o)
    (h : (i.settings sources >>= fun s => prepare now s q o) = .error f) :
    run send now sources i = pure (.error f) := by
  simp only [run, hc, h]

end LogQuery.CommandLine
