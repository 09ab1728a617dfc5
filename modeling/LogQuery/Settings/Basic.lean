import LogQuery.Fuzzy

/-!
# Settings

What a search needs to know about its surroundings: the nodes of the backend and how to log in, how
indices are named, and what is assumed when a search does not say. Settings are checked before they are
used; the first fault in the order of the checks is reported.

Main statement: checked settings have a user whenever they have a password
(`username_of_validate`).
-/

namespace LogQuery

open LogQuery.Text

/-- What the program is configured with (`Settings`). -/
structure Settings where
  /-- The addresses of the nodes, tried in order. -/
  nodes : List String
  username : Option String
  password : Option String
  /-- What every index name starts with. -/
  indexLead : String
  /-- The part of an index name between the lead and the date. -/
  indexName : String
  /-- The date pattern of index names. -/
  indexDateFormat : String
  /-- The number of hits of a search that does not set one. -/
  defaultPageSize : UInt32
  requestTimeoutSecs : UInt64
  logLevel : String
  /-- The parameters of approximate matching, where it is asked for. -/
  fuzzy : Option FuzzyConfig

/-- Why settings cannot be used. -/
inductive SettingsFault where
  | noNodes
  | notHttp (node : String)
  | blankIndexName
  | emptyPages
  | passwordWithoutUser
  deriving DecidableEq, Repr

/-- Why there are no settings (`ConfigError`). -/
inductive SettingsError where
  /-- A layer could not be read, or a value has no use as what it is to be. -/
  | load
  | invalid (fault : SettingsFault)
  deriving DecidableEq, Repr

def SettingsFault.message : SettingsFault → String
  | noNodes => "Invalid configuration: at least one node is required"
  | notHttp node => "Invalid configuration: node must be an http(s) URL, got " ++ node
  | blankIndexName => "Invalid configuration: index_name must not be empty"
  | emptyPages => "Invalid configuration: default_page_size must be > 0"
  | passwordWithoutUser => "Invalid configuration: password is set but username is missing"

def SettingsError.message : SettingsError → String
  | load => "Configuration error: a source could not be read, or holds a value of the wrong kind"
  | invalid fault => fault.message

namespace Settings

/-- What holds when nothing is configured (`Settings::default`). -/
def standard : Settings :=
  { nodes := ["http://localhost:9200"]
    username := none
    password := none
    indexLead := "ea_"
    indexName := "log"
    indexDateFormat := "%Y%m%d"
    defaultPageSize := 10
    requestTimeoutSecs := 30
    logLevel := "info"
    fuzzy := none }

def toJson (s : Settings) : Json :=
  .ofMembers [("nodes", .array (s.nodes.map .text)), ("username", s.username.elim .null .text),
    ("password", s.password.elim .null .text), ("index_prefix", .text s.indexLead),
    ("index_name", .text s.indexName), ("index_date_format", .text s.indexDateFormat),
    ("default_page_size", .int s.defaultPageSize.toNat),
    ("request_timeout_secs", .int s.requestTimeoutSecs.toNat), ("log_level", .text s.logLevel),
    ("fuzzy", s.fuzzy.elim .null FuzzyConfig.toJson)]

/-- The names of the parts, in their order as an array. -/
def partNames : List String :=
  ["nodes", "username", "password", "index_prefix", "index_name", "index_date_format",
    "default_page_size", "request_timeout_secs", "log_level", "fuzzy"]

/-- Parts that are absent take the standard. -/
def decode? (d : Document) : Option Settings := do
  let ms ← d.parts? partNames
  let text name absent := ms.optional? name absent Document.text?
  let nodes ← ms.optional? "nodes" standard.nodes (Document.list? Document.text?)
  let username ← ms.optional? "username" standard.username (Document.nullable? Document.text?)
  let password ← ms.optional? "password" standard.password (Document.nullable? Document.text?)
  let indexLead ← text "index_prefix" standard.indexLead
  let indexName ← text "index_name" standard.indexName
  let indexDateFormat ← text "index_date_format" standard.indexDateFormat
  let defaultPageSize ← ms.optional? "default_page_size" standard.defaultPageSize Document.uint32?
  let requestTimeoutSecs ←
    ms.optional? "request_timeout_secs" standard.requestTimeoutSecs Document.uint64?
  let logLevel ← text "log_level" standard.logLevel
  let fuzzy ← ms.optional? "fuzzy" standard.fuzzy (Document.nullable? FuzzyConfig.decode?)
  some { nodes, username, password, indexLead, indexName, indexDateFormat, defaultPageSize,
         requestTimeoutSecs, logLevel, fuzzy }

/-- The text starts with the scheme of an address that requests can be sent to. -/
def isHttp (node : String) : Bool := node.startsWith "http://" || node.startsWith "https://"

/-- The first fault of the settings. -/
def fault? (s : Settings) : Option SettingsFault :=
  if s.nodes.isEmpty then some .noNodes
  else
    match s.nodes.find? fun n => !isHttp n with
    | some n => some (.notHttp n)
    | none =>
      if allBlank s.indexName then some .blankIndexName
      else if s.defaultPageSize = 0 then some .emptyPages
      else if s.password.isSome && s.username.isNone then some .passwordWithoutUser
      else none

/-- The settings, if they can be used (`Settings::validate`). -/
def validate (s : Settings) : Except SettingsFault Settings :=
  match s.fault? with
  | some f => .error f
  | none => .ok s

theorem validate_eq_ok_iff {s t : Settings} : s.validate = .ok t ↔ s.fault? = none ∧ s = t := by
  unfold validate
  cases s.fault? <;> simp

theorem nodes_ne_nil_of_fault? {s : Settings} (h : s.fault? = none) : s.nodes ≠ [] := by
  intro hnil
  simp [fault?, hnil] at h

theorem username_of_validate {s : Settings} (h : s.fault? = none) (hp : s.password.isSome) :
    s.username.isSome := by
  cases hu : s.username with
  | some u => rfl
  | none => grind [fault?]

end Settings

end LogQuery
