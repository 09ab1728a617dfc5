import LogQuery.Query.Error
import LogQuery.Search.Page
import LogQuery.Search.Request

/-!
# Transports

A transport takes a request to the backend and brings a page or a fault. What it may do on the way is up
to the monad that it runs in. Everything that can be wrong between a query and the page that answers it is a
fault of the search.
-/

namespace LogQuery

/-- What can be wrong between a query and the page that answers it (`ClientError`). -/
inductive SearchError where
  /-- The backend refused the text of a strict query string. -/
  | malformedQuery (reason : String)
  /-- The backend answered with a status that is no success. -/
  | backend (status : Nat) (body : String)
  /-- No request could be sent, or no node could be reached. -/
  | http (reason : String)
  /-- The answer of the backend is no page. -/
  | undecodable (reason : String)
  /-- A search was run before it had a condition. -/
  | emptyQuery
  /-- There is no node to send requests to. -/
  | noNodes
  | config (reason : String)
  | query (fault : QueryError)

namespace SearchError

def message : SearchError → String
  | malformedQuery reason => "Malformed query string: " ++ reason
  | backend status body => "Backend returned HTTP " ++ Text.ofNat status ++ ": " ++ body
  | http reason => "HTTP request failed: " ++ reason
  | undecodable reason => "Failed to decode search response: " ++ reason
  | emptyQuery => "Cannot execute an empty query"
  | noNodes => "No search nodes configured"
  | config reason => "Invalid client configuration: " ++ reason
  | query fault => fault.message

end SearchError

/-- What a search came to. -/
abbrev SearchResult := Except SearchError Page

/-- The records that a search brought. -/
def SearchResult.records (r : SearchResult) : Except SearchError (List Record) := r.map Page.records

/-- A way to run requests (`SearchTransport`). -/
abbrev Transport (m : Type → Type) := SearchRequest → m SearchResult

end LogQuery
