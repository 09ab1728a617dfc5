import LogQuery.Json.Reader
import LogQuery.Settings.Environment
import LogQuery.Toml.Reader

/-!
# Loading settings

Four layers make the settings: what is built in, the user's own file, a file that is named, and the
environment. The user's file may be missing, the named one may not. The values of all layers together
are turned into settings, and these are checked.

Main statement: loaded settings have been checked (`fault?_of_load`).
-/

namespace LogQuery

/-- The formats of configuration files. -/
inductive FileFormat where
  | json
  | toml
  deriving DecidableEq, Repr

/-- A configuration file: its format and its text. -/
structure ConfigFile where
  format : FileFormat
  text : String

/-- A file that is named: there or not. -/
inductive NamedFile where
  | found (file : ConfigFile)
  | missing

/-- Where settings come from. -/
structure SettingsSources where
  userFile : Option ConfigFile
  namedFile : Option NamedFile
  /-- The variables of the environment with their values. -/
  environment : List (String × String)

namespace ConfigFile

/-- The entries of a file; nothing if it does not follow its format, or is no table. -/
def layer? (f : ConfigFile) : Option Layer :=
  match f.format with
  | .toml => Toml.members? f.text
  | .json =>
    match Json.parse? f.text with
    | some (.object ms) => some (Loose.ofMembers ms)
    | _ => none

end ConfigFile

namespace Settings

/-- The layer of what is built in. There is no user, no password and nothing approximate. -/
def standardLayer : Layer :=
  [("nodes", .list (standard.nodes.map .text)), ("index_prefix", .text standard.indexLead),
    ("index_name", .text standard.indexName), ("index_date_format", .text standard.indexDateFormat),
    ("default_page_size", .int standard.defaultPageSize.toNat),
    ("request_timeout_secs", .int standard.requestTimeoutSecs.toNat),
    ("log_level", .text standard.logLevel)]

/-- The layers of the sources, the lowest first; nothing if a file cannot be read. -/
def layers? (s : SettingsSources) : Option (List Layer) := do
  let user ← match s.userFile with
    | none => some []
    | some f => f.layer?
  let named ← match s.namedFile with
    | none => some []
    | some .missing => none
    | some (.found f) => f.layer?
  some [standardLayer, user, named, Environment.layer s.environment]

/-- The values of the layers together, each put over those before it. -/
def merged (layers : List Layer) : Loose :=
  layers.foldl (fun root layer => Layer.applyTo layer root) (.table [])

/-- The settings of the sources, not yet checked. -/
def gather? (s : SettingsSources) : Option Settings :=
  (layers? s).bind fun layers => ofTable? (merged layers).members

/-- The settings of the sources (`Settings::load`). -/
def load (s : SettingsSources) : Except SettingsError Settings :=
  match gather? s with
  | none => .error .load
  | some settings => settings.validate.mapError .invalid

theorem fault?_of_load {s : SettingsSources} {settings : Settings} (h : load s = .ok settings) :
    settings.fault? = none := by
  unfold load at h
  split at h
  · cases h
  · next g _ =>
    unfold validate at h
    split at h
    · cases h
    · next hf => cases h; exact hf

end Settings

/-! ## Where sources are -/

namespace FileFormat

def all : List FileFormat := [.toml, .json]

def ending : FileFormat → String
  | json => ".json"
  | toml => ".toml"

/-- The format that the ending of a path stands for. -/
def ofPath? (path : String) : Option FileFormat := all.find? fun f => path.endsWith f.ending

end FileFormat

namespace ConfigFile

/-- Where a file may be that goes by a name, with the format that it has there. -/
def places (name : String) : List (String × FileFormat) :=
  ((FileFormat.ofPath? name).map fun f => (name, f)).toList ++
    FileFormat.all.map fun f => (name ++ f.ending, f)

/-- The name of the user's own file. Configuration lies in a directory of its own, or below the user's. -/
def userName (configHome home : Option String) : String :=
  match configHome.filter fun s => !s.isEmpty, home with
  | some d, _ => d ++ "/log-search/config"
  | none, some d => d ++ "/.config/log-search/config"
  | none, none => "./config"

end ConfigFile

/-- The variables that settings may come from. -/
def Settings.variableNames : List String :=
  partNames.map fun n => String.ofList ((Environment.lead ++ n).toList.map Char.toUpper)

end LogQuery
