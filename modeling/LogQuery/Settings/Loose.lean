import LogQuery.Decimal.Layout
import LogQuery.Settings.Basic

/-!
# Loosely typed settings

The layers that settings come from do not agree on types: a number may be given as text, text as a
number, a switch as either. Values are kept as they are given and turned into what a part of the
settings wants at the end. Numbers and switches become text where text is wanted; text becomes a number
or a switch where it reads as one; a double becomes the whole number next to it, halves going away from
zero; lists and tables become nothing else.
-/

namespace LogQuery

open LogQuery.Text

inductive Loose where
  | nil
  | bool (b : Bool)
  | int (i : Int)
  | float (x : Float)
  | text (s : String)
  | list (items : List Loose)
  | table (members : List (String × Loose))
  deriving Inhabited

namespace Loose

/-- The members of a table; none for a value of another kind. -/
def members : Loose → Members Loose
  | table ms => ms
  | _ => []

/-- The items of a list; none for a value of another kind. -/
def items : Loose → List Loose
  | list vs => vs
  | _ => []

mutual

/-- A JSON value. Integers that no signed word of 64 bits holds become doubles. -/
def ofJson : Json → Loose
  | .null => nil
  | .bool b => bool b
  | .int i =>
    if Int64.minValue.toInt ≤ i ∧ i ≤ Int64.maxValue.toInt then int i else float (Float.ofInt i)
  | .float x => float x
  | .text s => text s
  | .array vs => list (ofItems vs)
  | .object ms => table (ofMembers ms)

def ofItems : List Json → List Loose
  | [] => []
  | v :: vs => ofJson v :: ofItems vs

def ofMembers : List (String × Json) → List (String × Loose)
  | [] => []
  | (k, v) :: ms => (k, ofJson v) :: ofMembers ms

end

/-! ## What a value is wanted as -/

def text? : Loose → Option String
  | text s => some s
  | bool true => some "true"
  | bool false => some "false"
  | int i => some (ofInt i)
  | float x => some (Decimal.plainText x)
  | nil | list _ | table _ => none

def onWords : List String := ["true", "on", "yes"]

def offWords : List String := ["false", "off", "no"]

def lower (s : String) : String := String.ofList (s.toList.map Char.toLower)

theorem toLower_toLower (c : Char) : c.toLower.toLower = c.toLower := by
  by_cases h : c.val ≥ 'A'.val ∧ c.val ≤ 'Z'.val
  · have hval : c.toLower.val = c.val + 32 := congrArg Char.val (dif_pos h)
    refine dif_neg ?_
    rw [hval]
    grind [UInt32.toNat_add]
  · have hself : c.toLower = c := dif_neg h
    rw [hself, hself]

/-- A whole number that an unsigned word of 64 bits holds. -/
def word? : Loose → Option Nat
  | bool b => some b.toNat
  | int i => if 0 ≤ i then some i.toNat else none
  | float x => some x.round.toUInt64.toNat
  | text s =>
    if onWords.contains (lower s) then some 1
    else if offWords.contains (lower s) then some 0
    else (readNat? s.toList).filter (· < UInt64.size)
  | nil | list _ | table _ => none

def uint32? (v : Loose) : Option UInt32 := (v.word?.filter (· < UInt32.size)).map UInt32.ofNat

def uint64? (v : Loose) : Option UInt64 := v.word?.map UInt64.ofNat

def bool? : Loose → Option Bool
  | bool b => some b
  | int i => some (i ≠ 0)
  | float x => some (x != 0)
  | text s =>
    if lower s = "1" || onWords.contains (lower s) then some true
    else if lower s = "0" || offWords.contains (lower s) then some false
    else none
  | nil | list _ | table _ => none

def texts? : Loose → Option (List String)
  | list vs => vs.mapM text?
  | _ => none

/-- A value that `nil` makes absent. -/
def nullable? {α : Type} (read? : Loose → Option α) : Loose → Option (Option α)
  | nil => some none
  | v => (read? v).map some

/-- A fuzziness is a whole number or text, and nothing that could become one. -/
def fuzziness? : Loose → Option Fuzziness
  | int i => (Fuzziness.ofJson (.int i)).toOption
  | text s => (Fuzziness.ofText s).toOption
  | _ => none

/-- The parts of a record: a table, or a list in the order of the names. -/
def parts? (names : List String) : Loose → Option (Members Loose)
  | table ms => some ms
  | list vs => some (names.zip vs)
  | _ => none

/-- Reads a part that may be absent. -/
def part? {α : Type} (ms : Members Loose) (name : String) (absent : α) (read? : Loose → Option α) :
    Option α :=
  match ms.find? name with
  | none => some absent
  | some v => read? v

def fuzzyConfig? (v : Loose) : Option FuzzyConfig := do
  let ms ← v.parts? FuzzyConfig.partNames
  let auto := FuzzyConfig.auto
  let fuzziness ← part? ms "fuzziness" auto.fuzziness fuzziness?
  let maxExpansions ← part? ms "max_expansions" auto.maxExpansions uint32?
  let prefixLength ← part? ms "prefix_length" auto.prefixLength uint32?
  let transpositions ← part? ms "transpositions" auto.transpositions bool?
  some ⟨fuzziness, maxExpansions, prefixLength, transpositions⟩

end Loose

/-- The settings of a table; parts that are absent take the standard. -/
def Settings.ofTable? (ms : Members Loose) : Option Settings := do
  let standard := Settings.standard
  let text name absent := Loose.part? ms name absent Loose.text?
  let nodes ← Loose.part? ms "nodes" standard.nodes Loose.texts?
  let username ← Loose.part? ms "username" standard.username (Loose.nullable? Loose.text?)
  let password ← Loose.part? ms "password" standard.password (Loose.nullable? Loose.text?)
  let indexLead ← text "index_prefix" standard.indexLead
  let indexName ← text "index_name" standard.indexName
  let indexDateFormat ← text "index_date_format" standard.indexDateFormat
  let defaultPageSize ← Loose.part? ms "default_page_size" standard.defaultPageSize Loose.uint32?
  let requestTimeoutSecs ←
    Loose.part? ms "request_timeout_secs" standard.requestTimeoutSecs Loose.uint64?
  let logLevel ← text "log_level" standard.logLevel
  let fuzzy ← Loose.part? ms "fuzzy" standard.fuzzy (Loose.nullable? Loose.fuzzyConfig?)
  some { nodes, username, password, indexLead, indexName, indexDateFormat, defaultPageSize,
         requestTimeoutSecs, logLevel, fuzzy }

end LogQuery
