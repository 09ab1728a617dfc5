import LogQuery.Json.Decode
import LogQuery.Text.Blank

/-!
# Searchable fields

Every attribute of a log record that can be searched, once, with its symbolic name, its dotted path
inside the stored document, and whether the index also keeps it as one unanalyzed word. Callers name
a field by its symbolic name or its path.

Main statements: names and paths each determine their field (`ofText?_name`, `ofText?_path`), and
every field is in the registry (`mem_all`).
-/

namespace LogQuery

open LogQuery.Text

inductive Field where
  | contextMap
  | endOfBatch
  | level
  | loggerFqcn
  | loggerName
  | message
  | creationTime
  | thread
  | threadId
  | threadPriority
  | sourceClass
  | sourceMethod
  | sourceFile
  | sourceLine
  | sourceClassLoaderName
  deriving DecidableEq, Repr

namespace Field

/-- The registry, in its order of declaration (`Field::ALL`). -/
def all : List Field :=
  [contextMap, endOfBatch, level, loggerFqcn, loggerName, message, creationTime, thread, threadId,
    threadPriority, sourceClass, sourceMethod, sourceFile, sourceLine, sourceClassLoaderName]

/-- The name that callers and configuration files use. -/
def name : Field → String
  | contextMap => "contextMap"
  | endOfBatch => "endOfBatch"
  | level => "level"
  | loggerFqcn => "loggerFQCN"
  | loggerName => "loggerName"
  | message => "message"
  | creationTime => "creationTimeMs"
  | thread => "thread"
  | threadId => "threadId"
  | threadPriority => "threadPriority"
  | sourceClass => "sourceClass"
  | sourceMethod => "sourceMethod"
  | sourceFile => "sourceFile"
  | sourceLine => "sourceLine"
  | sourceClassLoaderName => "sourceClassLoaderName"

/-- The names of the nested members that lead to the field in a stored document. -/
def segments : Field → List String
  | contextMap => ["contextMap"]
  | endOfBatch => ["endOfBatch"]
  | level => ["level"]
  | loggerFqcn => ["loggerFqcn"]
  | loggerName => ["loggerName"]
  | message => ["message"]
  | creationTime => ["timeMillis"]
  | thread => ["thread"]
  | threadId => ["threadId"]
  | threadPriority => ["threadPriority"]
  | sourceClass => ["source", "class"]
  | sourceMethod => ["source", "method"]
  | sourceFile => ["source", "file"]
  | sourceLine => ["source", "line"]
  | sourceClassLoaderName => ["source", "classLoaderName"]

/-- The position of the field in a stored document. -/
def path (f : Field) : String := ".".intercalate f.segments

/-- Whether the index keeps the field as one unanalyzed word beside its analyzed text
(`Field::has_exact_variant`). -/
def hasExact : Field → Bool
  | level | loggerFqcn | loggerName | message | thread => true
  | sourceClass | sourceMethod | sourceFile | sourceClassLoaderName => true
  | contextMap | endOfBatch | creationTime | threadId | threadPriority | sourceLine => false

/-- What a path ends in when it leads to the unanalyzed word (`KEYWORD_SUFFIX`). -/
def exactSuffix : String := ".keyword"

/-- The path for exact comparison and for sorting (`Field::exact_variant`). -/
def exactPath (f : Field) : String := if f.hasExact then f.path ++ exactSuffix else f.path

/-- The field with this symbolic name or this path (`Field::parse`). -/
def ofText? (s : String) : Option Field := all.find? fun f => f.name = s || f.path = s

/-- The field of a text that may have blanks around it (`Field::resolve`). -/
def resolve? (s : String) : Option Field := ofText? (trim s)

/-- A field is written as its symbolic name. -/
def toJson (f : Field) : Json := .text f.name

def decode? (d : Document) : Option Field :=
  d.choice?.bind fun s => all.find? fun f => f.name = s

/-- One line a field: symbolic name, path and exact path, in columns. -/
def tableLine (name path exactPath : String) : String :=
  padRight 24 name ++ " " ++ padRight 24 path ++ " " ++ exactPath

/-- The lines of the table of fields (`field_table`). -/
def table : List String :=
  tableLine "FIELD" "PATH" "EXACT" :: all.map fun f => tableLine f.name f.path f.exactPath

/-! ## The registry determines its fields -/

theorem mem_all (f : Field) : f ∈ all := by cases f <;> decide

theorem ofText?_name (f : Field) : ofText? f.name = some f := by cases f <;> decide +kernel

theorem ofText?_path (f : Field) : ofText? f.path = some f := by cases f <;> decide +kernel

end Field

end LogQuery
