import LogQuery.Calendar.Instant
import LogQuery.Json.Decode
import LogQuery.Decimal.Layout

/-!
# Values to compare with

A condition compares a field with one value, or with the two ends of a range. A value has one of four
kinds; JSON keeps the kind, so that the integer `1`, the double `1.0` and the text `1` stay apart.

Main statement: a value that JSON can write is read back as itself, and the doubles that are no
numbers are the only ones that cannot be (`ofJson?_toJson_eq_none_iff`).
-/

namespace LogQuery

/-- The values that a field is compared with (`Scalar`). -/
inductive Scalar where
  | bool (b : Bool)
  | integer (i : Int64)
  | float (x : Float)
  | text (s : String)
  deriving Repr, BEq

namespace Scalar

/-- Times are stored as milliseconds since the start of 1970. -/
def ofInstant (t : Instant) : Scalar := integer (Int64.ofInt t.millis)

/-- The value as it stands in a line of text. -/
def toText : Scalar → String
  | bool true => "true"
  | bool false => "false"
  | integer i => Text.ofInt i.toInt
  | float x => Decimal.plainText x
  | text s => s

def toJson : Scalar → Json
  | bool b => .bool b
  | integer i => .int i.toInt
  | float x => .ofFloat x
  | text s => .text s

/-- An integer beyond 64 bits with sign becomes the nearest double. -/
def ofJson? : Json → Option Scalar
  | .bool b => some (bool b)
  | .int i =>
    if Int64.minValue.toInt ≤ i ∧ i ≤ Int64.maxValue.toInt then some (integer (Int64.ofInt i))
    else some (float (Float.ofInt i))
  | .float x => some (float x)
  | .text s => some (text s)
  | .null | .array _ | .object _ => none

def decode? (d : Document) : Option Scalar := d.value?.bind ofJson?

end Scalar

/-- The two ends of a range, both included (`RangeValue`). -/
structure Bounds where
  lower : Scalar
  upper : Scalar
  deriving Repr, BEq

namespace Bounds

def toJson (b : Bounds) : Json := .ofMembers [("from", b.lower.toJson), ("to", b.upper.toJson)]

/-- Both ends must be present. -/
def decode? (d : Document) : Option Bounds := do
  let ms ← d.parts? ["from", "to"]
  let lower ← ms.required? "from" Scalar.decode?
  let upper ← ms.required? "to" Scalar.decode?
  some ⟨lower, upper⟩

end Bounds

theorem Scalar.ofJson?_toJson (s : Scalar) (h : ∀ x, s = .float x → x.isFinite = true) :
    ofJson? s.toJson = some s := by
  cases s with
  | bool b => rfl
  | text s => rfl
  | float x => simp [toJson, Json.ofFloat, h x rfl, ofJson?]
  | integer i =>
    simp only [toJson, ofJson?]
    rw [if_pos ⟨i.minValue_le_toInt, i.toInt_le⟩, Int64.ofInt_toInt]

theorem Scalar.ofJson?_toJson_eq_none_iff (s : Scalar) :
    ofJson? s.toJson = none ↔ ∃ x, s = .float x ∧ x.isFinite = false := by
  cases s with
  | float x => by_cases h : x.isFinite = true <;> simp [toJson, Json.ofFloat, h, ofJson?]
  | integer i =>
    rw [Scalar.ofJson?_toJson _ (by simp)]
    simp
  | bool b => simp [toJson, ofJson?]
  | text s => simp [toJson, ofJson?]

end LogQuery
