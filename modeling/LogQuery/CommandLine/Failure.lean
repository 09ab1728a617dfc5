import LogQuery.Search.Transport
import LogQuery.Settings.Basic

/-!
# Failures of a command

A failure of a command is told by what was being done, followed by the cause. What is wrong with a condition
or with the text of a query speaks for itself.
-/

namespace LogQuery.CommandLine

inductive Failure where
  | settings (cause : SettingsError)
  /-- The nodes of the command line cannot be used. -/
  | nodes (cause : SettingsFault)
  /-- A condition or the text of a query is at fault. -/
  | query (fault : QueryError)
  | queryField (cause : QueryError)
  | transport (cause : SearchError)
  | index (cause : SearchError)
  | sortField (cause : QueryError)
  | search (cause : SearchError)

namespace Failure

/-- What there is to tell, the cause behind what it kept from being done. -/
def messages : Failure → List String
  | settings cause => ["Failed to load configuration", cause.message]
  | nodes cause => ["Invalid --node", cause.message]
  | query fault => [fault.message]
  | queryField cause => ["Invalid --query-field", cause.message]
  | transport cause => ["Failed to create HTTP transport", cause.message]
  | index cause => ["Invalid index configuration", cause.message]
  | sortField cause => ["Invalid --sort field", cause.message]
  | search cause => ["Search failed", cause.message]

/-- The lines of a cause, each indented. -/
def indented (s : String) : String :=
  "\n".intercalate ((s.splitOn "\n").map fun line => "    " ++ line)

/-- The text of messages: the first, and the causes under a heading. -/
def render : List String → String
  | [] => ""
  | [m] => "Error: " ++ m
  | m :: causes => "Error: " ++ m ++ "\n\nCaused by:\n" ++ "\n".intercalate (causes.map indented)

def report (f : Failure) : String := render f.messages

end Failure

end LogQuery.CommandLine
