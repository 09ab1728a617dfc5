import LogQuery.CommandLine.FieldValue
import LogQuery.Text.Integer

/-!
# Options of the command line

The program has three commands. Options have a long name, and some a letter; they carry nothing, a text, a
condition, or a number. Which of them are known depends on the place: before the name of a command, or
behind it. Most may be given once; the lists of conditions, fields and nodes grow with each time that they
are given.

Main statement: long names tell options apart (`ofLong?_long`).
-/

namespace LogQuery.CommandLine

inductive CommandName where
  | compile
  | search
  | fields
  deriving DecidableEq, Repr

inductive OptionName where
  | config
  | logLevel
  | must
  | mustNot
  | should
  | term
  | fuzzy
  | query
  | safeQuery
  | queryField
  | first
  | size
  | sort
  | descending
  | index
  | node
  deriving DecidableEq, Repr

/-- What an option carries. -/
inductive Kind where
  | flag
  | text
  | condition
  | number
  deriving DecidableEq, Repr

/-- The type of what an option of a kind carries. -/
def Kind.Value : Kind → Type
  | flag => Unit
  | text => String
  | condition => FieldValue
  | number => UInt32

/-- Why a command line does not name a command, or asks for something else. -/
inductive UsageError where
  /-- The help was asked for. -/
  | help
  /-- The version was asked for. -/
  | version
  | nothingGiven
  | noCommand
  | unknownCommand (word : String)
  | unknownArgument (argument : String)
  /-- An option stands without its value. -/
  | missingValue (o : OptionName)
  /-- A value is attached to an option that carries none. -/
  | unexpectedValue (name : String)
  /-- An option is given twice that may be given once. -/
  | repeated (o : OptionName)
  /-- Two options are given of which only one may be. -/
  | conflict (o other : OptionName)
  /-- An option is given without one that it needs. -/
  | missing (o needed : OptionName)
  | badCondition (o : OptionName) (fault : FieldValueError)
  | badNumber (o : OptionName) (text : String)

namespace CommandName

def all : List CommandName := [compile, search, fields]

def name : CommandName → String
  | compile => "compile"
  | search => "search"
  | fields => "fields"

def ofName? (s : String) : Option CommandName := all.find? fun c => c.name = s

end CommandName

namespace OptionName

def all : List OptionName :=
  [config, logLevel, must, mustNot, should, term, fuzzy, query, safeQuery, queryField, first, size, sort,
    descending, index, node]

def kind : OptionName → Kind
  | config | logLevel | query | safeQuery | queryField | sort | index | node => .text
  | must | mustNot | should => .condition
  | term | fuzzy | descending => .flag
  | first | size => .number

/-- The type of what the option carries. -/
abbrev Value (o : OptionName) : Type := o.kind.Value

/-- The name behind two hyphens. -/
def long : OptionName → String
  | config => "config"
  | logLevel => "log-level"
  | must => "must"
  | mustNot => "must-not"
  | should => "should"
  | term => "term"
  | fuzzy => "fuzzy"
  | query => "query"
  | safeQuery => "safe-query"
  | queryField => "query-field"
  | first => "from"
  | size => "size"
  | sort => "sort"
  | descending => "desc"
  | index => "index"
  | node => "node"

/-- The letter behind one hyphen. -/
def letter? : OptionName → Option Char
  | config => some 'c'
  | logLevel => some 'l'
  | _ => none

def isRepeatable : OptionName → Bool
  | must | mustNot | should | queryField | node => true
  | _ => false

/-- Whether the option is known without a command and behind every command. -/
def isGlobal : OptionName → Bool
  | config | logLevel => true
  | _ => false

/-- Whether the option describes a query. -/
def isQuery : OptionName → Bool
  | must | mustNot | should | term | fuzzy | query | safeQuery | queryField => true
  | _ => false

def ofLong? (s : String) : Option OptionName := all.find? fun o => o.long = s

def ofLetter? (c : Char) : Option OptionName := all.find? fun o => o.letter? = some c

/-- What a text says to an option, by its kind. -/
def readAs (o : OptionName) (text : String) : (k : Kind) → Except UsageError k.Value
  | .flag => .ok ()
  | .text => .ok text
  | .condition => (FieldValue.read text).mapError (.badCondition o)
  | .number =>
    match Text.readIntWithin? 0 (UInt32.size - 1) text.toList with
    | some i => .ok (UInt32.ofNat i.toNat)
    | none => .error (.badNumber o text)

def readValue (o : OptionName) (text : String) : Except UsageError o.Value := readAs o text o.kind

theorem mem_all (o : OptionName) : o ∈ all := by cases o <;> decide

theorem ofLong?_long (o : OptionName) : ofLong? o.long = some o := by cases o <;> decide +kernel

end OptionName

/-- A place where options stand. -/
inductive Place where
  /-- Before the name of the command. -/
  | front
  | behind (c : CommandName)
  deriving DecidableEq, Repr

namespace Place

/-- The options that are known at the place. -/
def knows : Place → OptionName → Bool
  | front, o => o.isGlobal
  | behind .fields, o => o.isGlobal
  | behind .compile, o => o.isGlobal || o.isQuery
  | behind .search, _ => true

/-- The version is shown only when it is asked for in front. -/
def showsVersion : Place → Bool
  | front => true
  | behind _ => false

end Place

end LogQuery.CommandLine
