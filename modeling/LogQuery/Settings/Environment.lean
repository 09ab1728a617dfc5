import LogQuery.Decimal.Read
import LogQuery.Settings.Layer

/-!
# Settings from the environment

A variable belongs to the settings if its name starts with `LOGSEARCH_`, in any case; the rest of the name
is the name of the entry. What its text looks like decides its type: a switch, an integer, a double, or
text. Several nodes are given with commas between them.
-/

namespace LogQuery.Environment

open LogQuery.Text

/-- What the names of variables for settings start with. -/
def lead : String := "logsearch_"

def bool? (s : String) : Option Bool :=
  let s := Loose.lower s
  if s = "true" then some true else if s = "false" then some false else none

/-- The type that a text looks like; nothing if it is only text. -/
def typed? (s : String) : Option Loose :=
  match bool? s, readIntWithin? Int64.minValue.toInt Int64.maxValue.toInt s.toList, Decimal.read? s with
  | some b, _, _ => some (.bool b)
  | none, some i, _ => some (.int i)
  | none, none, some x => some (.float x)
  | none, none, none => none

/-- The value of an entry. -/
def value (key text : String) : Loose :=
  match typed? text with
  | some v => v
  | none => if key = "nodes" then .list ((text.splitOn ",").map .text) else .text text

/-- The entry of a variable, if it belongs to the settings. -/
def named? (name text : String) : Option (String × Loose) :=
  let key := Loose.lower name
  if lead.toList.isPrefixOf key.toList then
    let key := String.ofList (key.toList.drop lead.length)
    some (key, value key text)
  else none

/-- The layer of the variables. -/
def layer (named : List (String × String)) : Layer :=
  named.filterMap fun v => named? v.1 v.2

end LogQuery.Environment
