import LogQuery.Json.Decode
import LogQuery.Text.Blank
import LogQuery.Text.Integer

/-!
# Approximate matching

How far an analyzed term may differ from the word it is compared with. The backend takes a distance
of its own choice or a fixed one of at most two edits; an edit distance cannot be larger here. Absent
parameters mean that nothing approximate is asked for.

Main statement: decoding gives back what was encoded (`Fuzziness.ofJson_toJson`).
-/

namespace LogQuery

open LogQuery.Text

/-- The largest fixed distance that the backend accepts (`MAX_EDIT_DISTANCE`). -/
def maxEditDistance : Nat := 2

/-- A fixed number of edits. -/
structure EditDistance where
  edits : Nat
  le_max : edits ≤ maxEditDistance := by decide
  deriving DecidableEq, Repr

def EditDistance.ofNat? (n : Nat) : Option EditDistance :=
  if h : n ≤ maxEditDistance then some ⟨n, h⟩ else none

/-- The largest difference of a term. -/
inductive Fuzziness where
  /-- The backend chooses by the length of the term. -/
  | auto
  | fixed (distance : EditDistance)
  deriving DecidableEq, Repr

/-- Why a value is no fuzziness. -/
inductive FuzzinessError where
  | tooFar (edits : Nat)
  | unknownText (s : String)
  | wrongKind
  deriving DecidableEq, Repr

def FuzzinessError.message : FuzzinessError → String
  | tooFar n => "Invalid edit distance " ++ ofNat n ++ ": must be 0, 1 or 2"
  | unknownText s => "invalid fuzziness: " ++ s
  | wrongKind => "data did not match any variant of untagged enum Raw"

namespace Fuzziness

/-- A fixed distance, unless it is too far (`Fuzziness::fixed`). -/
def ofEdits (n : Nat) : Except FuzzinessError Fuzziness :=
  match EditDistance.ofNat? n with
  | some d => .ok (.fixed d)
  | none => .error (.tooFar n)

def toText : Fuzziness → String
  | auto => "AUTO"
  | fixed d => ofNat d.edits

def toJson : Fuzziness → Json
  | auto => .text "AUTO"
  | fixed d => .int d.edits

/-- The text of the automatic choice in any case, or the digits of a byte. -/
def ofText (s : String) : Except FuzzinessError Fuzziness :=
  if sameIgnoringCase s "auto" then .ok auto
  else
    match (readNat? s.toList).filter (· < 256) with
    | some n => ofEdits n
    | none => .error (.unknownText s)

def ofJson : Json → Except FuzzinessError Fuzziness
  | .int i => if 0 ≤ i ∧ i < 256 then ofEdits i.toNat else .error .wrongKind
  | .text s => ofText s
  | _ => .error .wrongKind

def decode? (d : Document) : Option Fuzziness := d.value?.bind fun v => (ofJson v).toOption

theorem ofJson_toJson (f : Fuzziness) : ofJson f.toJson = .ok f := by
  cases f with
  | auto =>
    have h : sameIgnoringCase "AUTO" "auto" = true := by decide +kernel
    simp [toJson, ofJson, ofText, h]
  | fixed d =>
    have h : d.edits ≤ 2 := d.le_max
    have hi : (0 : Int) ≤ d.edits ∧ (d.edits : Int) < 256 := by omega
    simp [toJson, ofJson, hi, ofEdits, EditDistance.ofNat?, d.le_max]

end Fuzziness

/-- The parameters of approximate matching. -/
structure FuzzyConfig where
  fuzziness : Fuzziness
  /-- The number of terms that the query is expanded to. -/
  maxExpansions : UInt32
  /-- The number of leading characters that must be equal. -/
  prefixLength : UInt32
  /-- Whether exchanging two neighbours counts as one edit. -/
  transpositions : Bool
  deriving DecidableEq, Repr

namespace FuzzyConfig

/-- The defaults of the backend (`FuzzyConfig::AUTO`). -/
def auto : FuzzyConfig := ⟨.auto, 50, 0, true⟩

def withDistance (f : FuzzyConfig) (d : EditDistance) : FuzzyConfig := { f with fuzziness := .fixed d }

def toJson (f : FuzzyConfig) : Json :=
  .ofMembers [("fuzziness", f.fuzziness.toJson), ("max_expansions", .int f.maxExpansions.toNat),
    ("prefix_length", .int f.prefixLength.toNat), ("transpositions", .bool f.transpositions)]

/-- The names of the parts, in their order as an array. -/
def partNames : List String := ["fuzziness", "max_expansions", "prefix_length", "transpositions"]

/-- Parts that are absent take the backend's defaults. -/
def decode? (d : Document) : Option FuzzyConfig := do
  let ms ← d.parts? partNames
  let fuzziness ← ms.optional? "fuzziness" auto.fuzziness Fuzziness.decode?
  let maxExpansions ← ms.optional? "max_expansions" auto.maxExpansions Document.uint32?
  let prefixLength ← ms.optional? "prefix_length" auto.prefixLength Document.uint32?
  let transpositions ← ms.optional? "transpositions" auto.transpositions Document.bool?
  some ⟨fuzziness, maxExpansions, prefixLength, transpositions⟩

end FuzzyConfig

end LogQuery
