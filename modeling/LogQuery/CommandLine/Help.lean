import LogQuery.CommandLine.Run

/-!
# Help

The text that explains the commands and options, and the text for each way in which a command line can be
wrong.
-/

namespace LogQuery.CommandLine

def CommandName.about : CommandName → String
  | compile => "Print the compiled query JSON without contacting the backend"
  | search => "Run a query and print the matching log records"
  | fields => "List the searchable fields"

namespace OptionName

def about : OptionName → String
  | config => "Path to config file"
  | logLevel => "Set log level (trace, debug, info, warn, error)"
  | must => "Condition that must hold"
  | mustNot => "Condition that must not hold"
  | should => "Alternative conditions; at least one must hold"
  | term => "Compare values exactly instead of full-text matching"
  | fuzzy => "Apply fuzzy matching (parameters from config, AUTO otherwise)"
  | query => "Query in the strict query-string syntax"
  | safeQuery => "Query in the lenient query-string syntax"
  | queryField => "Field searched by --query/--safe-query; repeatable, all fields when absent"
  | first => "Offset of the first record [default: 0]"
  | size => "Maximum number of records (default from config)"
  | sort => "Field to sort on"
  | descending => "Sort descending instead of ascending"
  | index => "Index base name (default from config)"
  | node => "Backend node URL; repeat to fail over between nodes (default from config)"

/-- What stands for the value of an option. -/
def placeholder : OptionName → String
  | must | mustNot | should => " <FIELD=VALUE>"
  | queryField | sort => " <FIELD>"
  | node => " <URL>"
  | term | fuzzy | descending => ""
  | config => " <CONFIG>"
  | logLevel => " <LOG_LEVEL>"
  | query => " <QUERY>"
  | safeQuery => " <SAFE_QUERY>"
  | first => " <FROM>"
  | size => " <SIZE>"
  | index => " <INDEX>"

def written (o : OptionName) : String := "--" ++ o.long ++ o.placeholder

/-- The option with its letter in a column of its own. -/
def entry (o : OptionName) : String :=
  (o.letter?.elim "    " fun c => "-" ++ String.singleton c ++ ", ") ++ o.written

end OptionName

/-- A line of two columns. -/
def helpLine (left about : String) : String := "  " ++ Text.padRight 32 left ++ about

def helpLines : List String :=
  ["Build boolean queries over indexed log records and run them against an",
    "Elasticsearch-compatible backend.", "", "Usage: " ++ programName ++ " [OPTIONS] <COMMAND>", "",
    "Commands:"] ++
    CommandName.all.map (fun c => helpLine c.name c.about) ++
    ["  help", "", "Options:"] ++
    OptionName.all.map (fun o => helpLine o.entry o.about) ++
    [helpLine "-h, --help" "Print help", helpLine "-V, --version" "Print version"]

def helpText : String := String.join (helpLines.map fun l => l ++ "\n")

namespace UsageError

def message : UsageError → String
  | help => helpText
  | version => programName ++ " " ++ CommandLine.version ++ "\n"
  | nothingGiven => helpText
  | noCommand => "error: a command is required\n"
  | unknownCommand word => "error: unrecognized command '" ++ word ++ "'\n"
  | unknownArgument argument => "error: unexpected argument '" ++ argument ++ "'\n"
  | missingValue o => "error: a value is required for '" ++ o.written ++ "'\n"
  | unexpectedValue name => "error: unexpected value for '" ++ name ++ "'\n"
  | repeated o => "error: '" ++ o.written ++ "' cannot be used multiple times\n"
  | conflict o other => "error: '" ++ o.written ++ "' cannot be used with '" ++ other.written ++ "'\n"
  | missing _ needed => "error: '" ++ needed.written ++ "' is required\n"
  | badCondition o fault => "error: invalid value for '" ++ o.written ++ "': " ++ fault.message ++ "\n"
  | badNumber o text => "error: invalid value '" ++ text ++ "' for '" ++ o.written ++ "'\n"

/-- Whether the text is what was asked for, and not what is wrong. -/
def isRequest : UsageError → Bool
  | help | version => true
  | _ => false

def exitCode (e : UsageError) : UInt32 := if e.isRequest then 0 else 2

end UsageError

end LogQuery.CommandLine
