import LogQuery.CommandLine.Scan

/-!
# Invocations

A command line names a command, gives its options, and may name a configuration file and a log level. The
two of these may stand in front of the command or behind it; behind it they win. Each option is checked
when it counts; what options ask of each other is checked at the end.
-/

namespace LogQuery.CommandLine

/-- The conditions of a query (`QueryArgs`). -/
structure QueryOptions where
  /-- Conditions that must hold. -/
  must : List FieldValue
  /-- Conditions that must not hold. -/
  mustNot : List FieldValue
  /-- Conditions of which one must hold. -/
  should : List FieldValue
  /-- Compare values exactly. -/
  term : Bool
  /-- Match approximately. -/
  fuzzy : Bool
  /-- A query string in the strict language. -/
  query : Option String
  /-- A query string in the lenient language. -/
  safeQuery : Option String
  /-- The fields that the query strings search. -/
  queryFields : List String
  deriving DecidableEq, Repr

/-- What a search needs besides its query. -/
structure SearchOptions where
  first : UInt32
  size : Option UInt32
  sort : Option String
  descending : Bool
  index : Option String
  nodes : List String
  deriving DecidableEq, Repr

/-- What is to be done (`Commands`). -/
inductive Command where
  | compile (query : QueryOptions)
  | search (query : QueryOptions) (options : SearchOptions)
  | fields
  deriving DecidableEq, Repr

/-- A command line that has been read (`Cli`). -/
structure Invocation where
  config : Option String
  logLevel : Option String
  command : Command
  deriving DecidableEq, Repr

/-- An option with what it carries. -/
structure Setting where
  option : OptionName
  value : option.Value

/-- What an option carries, each time that it was given. -/
def valuesOf (o : OptionName) (given : List Setting) : List o.Value :=
  given.filterMap fun s => if h : s.option = o then some (h ▸ s.value) else none

/-- What an option carries that may be given once. -/
def valueOf? (o : OptionName) (given : List Setting) : Option o.Value := (valuesOf o given).head?

def isGiven (o : OptionName) (given : List Setting) : Bool := given.any fun s => s.option = o

/-! ## Checking options -/

/-- The option with its value, if it has one where it needs one. -/
def Occurrence.read (x : Occurrence) (isTaken : Bool) : Except UsageError Setting :=
  if x.option.kind ≠ .flag ∧ x.value = none then .error (.missingValue x.option)
  else if isTaken then .error (.repeated x.option)
  else (x.option.readValue (x.value.getD "")).map fun v => ⟨x.option, v⟩

/-- Whether the option was given and may not be given again. -/
def isTaken (given : List Setting) (o : OptionName) : Bool := !o.isRepeatable && isGiven o given

/-- Puts an option to those that count. -/
def settle (given : List Setting) (x : Occurrence) : Except UsageError (List Setting) :=
  (x.read (isTaken given x.option)).map fun s => given ++ [s]

def settleAll (given : List Setting) (os : List Occurrence) : Except UsageError (List Setting) :=
  os.foldlM settle given

/-- What options ask of each other. -/
def fault? (given : List Setting) : Option UsageError :=
  if isGiven .query given && isGiven .safeQuery given then some (.conflict .query .safeQuery)
  else if isGiven .descending given && !isGiven .sort given then some (.missing .descending .sort)
  else none

/-! ## From arguments to an invocation -/

/-- The options behind a command. Words have no place there. -/
def readBehind (c : CommandName) (arguments : List String) : Except UsageError (List Setting) := do
  let (os, stop) := scan (.behind c) none arguments
  let given ← settleAll [] os
  match stop with
  | .fault e => .error e
  | .word s _ _ | .pastEscape s => .error (.unknownArgument s)
  | .finished =>
    match fault? given with
    | some e => .error e
    | none => .ok given

def QueryOptions.ofGiven (given : List Setting) : QueryOptions :=
  { must := valuesOf .must given
    mustNot := valuesOf .mustNot given
    should := valuesOf .should given
    term := isGiven .term given
    fuzzy := isGiven .fuzzy given
    query := valueOf? .query given
    safeQuery := valueOf? .safeQuery given
    queryFields := valuesOf .queryField given }

def SearchOptions.ofGiven (given : List Setting) : SearchOptions :=
  { first := (valueOf? .first given).getD (0 : UInt32)
    size := valueOf? .size given
    sort := valueOf? .sort given
    descending := isGiven .descending given
    index := valueOf? .index given
    nodes := valuesOf .node given }

def Command.ofGiven (given : List Setting) : CommandName → Command
  | .compile => .compile (.ofGiven given)
  | .search => .search (.ofGiven given) (.ofGiven given)
  | .fields => .fields

namespace Invocation

/-- An invocation of the options in front of a command and behind it. -/
def ofGiven (front : List Setting) (c : CommandName) (behind : List Setting) : Invocation :=
  { config := valueOf? .config behind <|> valueOf? .config front
    logLevel := valueOf? .logLevel behind <|> valueOf? .logLevel front
    command := .ofGiven behind c }

/-- The word that asks for help on a command. -/
def helpWord : String := "help"

/-- The word is known where a command is expected. -/
def isKnownWord (s : String) : Bool := s = helpWord || (CommandName.ofName? s).isSome

/-- What comes of asking for help on some words: at most one, and it must be known. -/
def helpOn : List String → UsageError
  | [] => .help
  | [s] => if isKnownWord s then .help else .unknownCommand s
  | s :: t :: _ => if isKnownWord s then .unknownCommand t else .unknownCommand s

/-- What is wrong with a word behind `--` in front of a command. -/
def pastEscape (s : String) : UsageError :=
  if isKnownWord s then .unknownArgument s else .unknownCommand s

/-- The invocation at a word in front, where `last` is an option in front that does not count yet. The
options behind the command count before it. -/
def atWord (front : List Setting) (s : String) (rest : List String) (last : Option Occurrence) :
    Except UsageError Invocation :=
  if s = helpWord then .error (helpOn rest)
  else
    match CommandName.ofName? s with
    | none => .error (.unknownCommand s)
    | some c => do
      let behind ← readBehind c rest
      let front ← settleAll front last.toList
      .ok (ofGiven front c behind)

def ofArguments (arguments : List String) : Except UsageError Invocation := do
  let (os, stop) := scan .front none arguments
  let front ← settleAll [] os
  match stop with
  | .fault e => .error e
  | .pastEscape s => .error (pastEscape s)
  | .finished => .error (if front.isEmpty then .nothingGiven else .noCommand)
  | .word s rest last => atWord front s rest last

end Invocation

end LogQuery.CommandLine
