import LogQuery.Http.Credentials
import LogQuery.Http.ErrorTree
import LogQuery.Http.Url
import LogQuery.Search.Transport

/-!
# Searching over HTTP

A search is posted to the first node. Where a node cannot be reached, or gives no sign of an answer in
time, the next one is tried; the first node that answers decides, whatever it says. A success must hold a
page. Of the other answers, one with status 400 to a query with a strict query string may report that its
text is malformed; all others are faults of the backend.
-/

namespace LogQuery.Http

/-- What is posted to a node. -/
structure Post where
  url : Url
  /-- The values of the headers of authorization, in order. -/
  authorizations : List String
  body : Json

/-- The first header of authorization, if there is any. -/
def Post.authorization (p : Post) : Option String := p.authorizations.head?

/-- What is read of the body of an answer. -/
inductive Body where
  | text (s : String)
  /-- The connection ended before the body did. -/
  | cut

/-- What came of sending a request. -/
inductive Reply where
  /-- There was no connection, or no answer in time. -/
  | unreachable (reason : String)
  /-- The request could not be sent for another reason. -/
  | broken (reason : String)
  /-- The answer at the end of any redirections, which the sender follows. -/
  | answered (status : Nat) (body : Body)

/-- The nodes of a backend, and who asks them (`HttpTransportConfig`). -/
structure Nodes where
  addresses : List String
  nonempty : addresses ≠ []
  credentials : Option Credentials

namespace Nodes

/-- Nodes to search, unless there are none (`HttpTransport::new`). -/
def create (addresses : List String) (credentials : Option Credentials) :
    Except SearchError Nodes :=
  if h : addresses ≠ [] then .ok ⟨addresses, h, credentials⟩ else .error .noNodes

/-- The nodes of settings (`HttpTransport::from_settings`). -/
def ofSettings (s : Settings) : Except SearchError Nodes :=
  create s.nodes (Credentials.ofSettings? s)

theorem ofSettings_eq_ok_iff {s : Settings} {nodes : Nodes} :
    ofSettings s = .ok nodes ↔
      nodes.addresses = s.nodes ∧ nodes.credentials = Credentials.ofSettings? s := by
  obtain ⟨addresses, nonempty, credentials⟩ := nodes
  by_cases h : s.nodes ≠ []
  · simp [ofSettings, create, h, eq_comm]
  · have hne : addresses ≠ s.nodes := fun he => h (he ▸ nonempty)
    simp [ofSettings, create, h, hne]

theorem exists_ofSettings {s : Settings} (h : s.nodes ≠ []) : ∃ nodes, ofSettings s = .ok nodes :=
  ⟨⟨s.nodes, h, Credentials.ofSettings? s⟩, ofSettings_eq_ok_iff.2 ⟨rfl, rfl⟩⟩

end Nodes

/-- The address of the search in an index of a node (`HttpTransport::search_url`). -/
def searchAddress (node index : String) : String :=
  String.ofList (node.toList.reverse.dropWhile (· = '/')).reverse ++ "/" ++ index ++ "/_search"

/-! ## Reading an answer -/

def isSuccess (status : Nat) : Bool := 200 ≤ status && status < 300

/-- Answers with these statuses have no body. -/
def isBodiless (status : Nat) : Bool := status = 204 || status = 304

def received (status : Nat) (body : Body) : Body := if isBodiless status then .text "" else body

/-- A page, if the whole body came and is one. -/
def pageOf? : Body → Option Page
  | .text s => (Json.document? s).bind Page.decode?
  | .cut => none

/-- The body of an error, without a mark of its byte order, or why it could not be read (`error_body`). -/
def errorText : Body → String
  | .text s =>
    match s.toList with
    | '\ufeff' :: cs => String.ofList cs
    | _ => s
  | .cut => "failed to read response body: error decoding response body"

/-- The fault that an answer without success reports, to a query with or without a strict query string
(`error_from_status`). -/
def faultOf (hasStrict : Bool) (status : Nat) (text : String) : SearchError :=
  match if status = 400 ∧ hasStrict then (Json.parse? text).bind ErrorTree.unreadableReason? else none with
  | some reason => .malformedQuery reason
  | none => .backend status text

/-- What an answer means for a query. -/
def resultOf (query : Clause) (status : Nat) (body : Body) : SearchResult :=
  let body := received status body
  if isSuccess status then
    match pageOf? body with
    | some p => .ok p
    | none => .error (.undecodable "error decoding response body")
  else .error (faultOf query.hasStrict status (errorText body))

/-! ## Trying the nodes -/

/-- What trying one node came to (`SendError`). -/
inductive Outcome where
  | unreachable (reason : String)
  | settled (r : SearchResult)

def Reply.outcome (query : Clause) : Reply → Outcome
  | unreachable reason => .unreachable reason
  | broken reason => .settled (.error (.http reason))
  | answered status body => .settled (resultOf query status body)

/-- What is posted to a node, if its address can be read. The credentials do not stand in for those of the
address but come after them. -/
def post? (credentials : Option Credentials) (r : SearchRequest) (node : String) : Option Post :=
  (Url.parse? (searchAddress node r.index)).map fun url =>
    ⟨url, url.authorizations ++ (credentials.map Credentials.header).toList, r.body⟩

variable {m : Type → Type} [Monad m]

/-- Tries one node (`HttpTransport::send`). A node whose address cannot be read settles the search. Where the
address is one, but of no web scheme or without a host, a client adds it to the text of the fault; that is left
out. -/
def tryNode (send : Post → m Reply) (credentials : Option Credentials) (r : SearchRequest)
    (node : String) : m Outcome :=
  match post? credentials r node with
  | none => pure (.settled (.error (.http "builder error")))
  | some p => do
    let reply ← send p
    pure (reply.outcome r.query)

/-- Tries the nodes in order until one settles the search; `last` is why the node before could not be reached
(`HttpTransport::search`). -/
def searchNodes (attempt : String → m Outcome) : List String → String → m SearchResult
  | [], last => pure (.error (.http ("no search node reachable: " ++ last)))
  | node :: rest, _ => do
    match ← attempt node with
    | .settled r => pure r
    | .unreachable reason => searchNodes attempt rest reason

/-- Runs a request against the nodes, where `send` posts it to one. -/
def search (send : Post → m Reply) (nodes : Nodes) : Transport m := fun r =>
  searchNodes (tryNode send nodes.credentials r) nodes.addresses ""

end LogQuery.Http
