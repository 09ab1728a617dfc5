import LogQuery.CommandLine.Help
import LogQuery.Http.Message
import LogQuery.Settings.Load
import Std.Async.DNS
import Std.Async.TCP
import Std.Async.Timer

/-!
# The program

Reads arguments, configuration files, variables and the clock, runs the command, and prints what comes of
it. Nodes are reached over plain connections.
-/

namespace LogQuery.Program

open Std.Async Std.Net

/-! ## Posting to a node -/

/-- All bytes that come until the connection is closed. -/
partial def receive (c : TCP.Socket.Client) (seen : ByteArray) : Async ByteArray := do
  match ← c.recv? 65536 with
  | none => return seen
  | some more => receive c (seen ++ more)

def socketAddress (port : UInt16) : IPAddr → SocketAddress
  | .v4 addr => .v4 ⟨addr, port⟩
  | .v6 addr => .v6 ⟨addr, port⟩

/-- Connects to the host of an address. -/
def connect (u : Http.Url) : Async TCP.Socket.Client := do
  let found ← DNS.getAddrInfo u.host.toText (Text.ofNat u.port)
  match found[0]? with
  | none => throw (IO.userError "dns error")
  | some addr => do
    let c ← TCP.Socket.Client.mk
    c.connect (socketAddress (UInt16.ofNat u.port) addr)
    return c

/-- Writes a request and reads the answer. -/
def exchange (p : Http.Post) (c : TCP.Socket.Client) : Async Http.Reply := do
  try
    c.send p.message.toUTF8
    let bytes ← receive c .empty
    return .ofBytes bytes.toList
  catch e => return .broken (toString e)

/-- Posts to a node over a connection that is made for it. -/
def postPlain (p : Http.Post) : Async Http.Reply := do
  try
    let c ← connect p.url
    exchange p c
  catch e => return .unreachable (toString e)

/-- Posts to a node. Its answer counts as it is: no redirection is followed. -/
def post (p : Http.Post) : Async Http.Reply :=
  match p.url.scheme with
  | .https => return .broken "secure connections are not supported"
  | .http => postPlain p

/-- Gives up after a number of milliseconds. -/
def giveUp (millis : Nat) : Async Http.Reply := do
  sleep (Std.Time.Millisecond.Offset.ofNat millis)
  return .unreachable "operation timed out"

instance : Inhabited Http.Reply := ⟨.unreachable ""⟩

def send (timeoutSecs : UInt64) (p : Http.Post) : IO Http.Reply :=
  (Async.race (post p) (giveUp (timeoutSecs.toNat * 1000))).block

/-! ## Where settings come from -/

/-- The text of a file, if it is there. -/
def contents? (path : String) : IO (Option String) := do
  try return some (← IO.FS.readFile path) catch _ => return none

/-- The first file of some places that is there. -/
def firstFile : List (String × FileFormat) → IO (Option ConfigFile)
  | [] => return none
  | (path, format) :: rest => do
    match ← contents? path with
    | some text => return some ⟨format, text⟩
    | none => firstFile rest

def sources (config : Option String) : IO SettingsSources := do
  let userName := ConfigFile.userName (← IO.getEnv "XDG_CONFIG_HOME") (← IO.getEnv "HOME")
  let userFile ← firstFile (ConfigFile.places userName)
  let namedFile ← config.mapM fun name => do
    return ((← firstFile (ConfigFile.places name)).elim NamedFile.missing NamedFile.found)
  let found ← Settings.variableNames.mapM fun n => do return (n, ← IO.getEnv n)
  let environment := found.filterMap fun v => v.2.map fun text => (v.1, text)
  return { userFile, namedFile, environment }

/-- The present instant. -/
def now : IO Instant := do
  let t ← Std.Time.Timestamp.now
  match Instant.ofMillis? t.toMillisecondsSinceUnixEpoch.toInt with
  | some t => return t
  | none => throw (IO.userError "the clock is outside of the calendar")

/-! ## Running -/

def printReport (r : CommandLine.Report) : IO UInt32 := do
  IO.print r.output
  match r.note? with
  | some note => IO.eprintln note
  | none => pure ()
  return 0

def runInvocation (i : CommandLine.Invocation) : IO UInt32 := do
  match ← CommandLine.run send (← now) (← sources i.config) i with
  | .ok r => printReport r
  | .error f => do
    IO.eprintln f.report
    return 1

def usage (e : CommandLine.UsageError) : IO UInt32 := do
  if e.isRequest then IO.print e.message else IO.eprint e.message
  return e.exitCode

end LogQuery.Program

def main (args : List String) : IO UInt32 :=
  match LogQuery.CommandLine.Invocation.ofArguments args with
  | .error e => LogQuery.Program.usage e
  | .ok i => LogQuery.Program.runInvocation i
