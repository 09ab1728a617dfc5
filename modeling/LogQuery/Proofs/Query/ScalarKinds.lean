import LogQuery.Json.Number
import LogQuery.Proofs.Decimal.NearestDouble
import LogQuery.Proofs.Json.Written
import LogQuery.Proofs.Query.Nulls

/-!
# Kinds of values in JSON

A value to compare with is written without its kind, and the kind is found again from what is written: a truth
value, a number without a fraction, a number with one, or a text. Only a double that is no number is lost
(`Scalar.decode?_toJson`). The ends of a range are written and read one by one (`Bounds.decode?_ofEnds`).

Main statement: what is written of a value is read as it was, and what is read of a plain JSON value is written as
it was, but for the integers beyond a signed word, which become doubles (`Scalar.kept_by_json`).
-/

namespace LogQuery

/-! ## Plain JSON values -/

/-- A truth value, a number or a text, as documents have them: integers of 64 bits with or without sign, and
doubles that are numbers. -/
inductive Json.Plain : Json → Prop
  | bool (b : Bool) : Plain (.bool b)
  | int {i : Int} : Int64.minValue.toInt ≤ i → i < UInt64.size → Plain (.int i)
  | float {x : Float} : x.isFinite = true → Plain (.float x)
  | text (s : String) : Plain (.text s)

namespace Scalar

/-! ## From a value and back -/

theorem value?_ofJson_toJson (s : Scalar) : (Document.ofJson s.toJson).value? = some s.toJson := by
  cases s with
  | float x =>
    rw [toJson, Json.ofFloat]
    split <;> rfl
  | _ => rfl

theorem decode?_toJson (s : Scalar) : decode? (.ofJson s.toJson) = ofJson? s.toJson := by
  rw [decode?, value?_ofJson_toJson, Option.bind_some]

theorem noNumber_iff {s : Scalar} : s.NoNumber ↔ ∃ x, s = .float x ∧ x.isFinite = false := by
  simp only [NoNumber, isFinite_eq_false_iff]

theorem decode?_eq_none_iff (s : Scalar) : decode? (.ofJson s.toJson) = none ↔ s.NoNumber := by
  rw [decode?_toJson, ofJson?_toJson_eq_none_iff, noNumber_iff]

theorem decode?_eq_self_iff (s : Scalar) : decode? (.ofJson s.toJson) = some s ↔ ¬ s.NoNumber := by
  constructor
  · intro h hno
    rw [(decode?_eq_none_iff s).2 hno] at h
    cases h
  · intro hno
    rw [decode?_toJson]
    refine ofJson?_toJson s fun x hx => ?_
    by_contra hfinite
    exact hno (noNumber_iff.2 ⟨x, hx, Bool.eq_false_iff.2 hfinite⟩)

/-! ## From JSON and back -/

/-- The value read of a plain one is what is written, but for the integers beyond a signed word. -/
inductive ReadAs : Json → Scalar → Prop
  | same {v : Json} {s : Scalar} : s.toJson = v → ReadAs v s
  | nearest {i : Int} {x : Float} : Int64.maxValue.toInt < i → Double.IsNearest x i → ReadAs (.int i) (.float x)

theorem exists_readAs {v : Json} (hv : v.Plain) : ∃ s, decode? (.ofJson v) = some s ∧ ReadAs v s := by
  cases hv with
  | bool b => exact ⟨.bool b, rfl, .same rfl⟩
  | text s => exact ⟨.text s, rfl, .same rfl⟩
  | @float x hx => exact ⟨.float x, rfl, .same (if_pos hx)⟩
  | @int i hlower hupper =>
    have hmax : Int64.maxValue.toInt = 2 ^ 63 - 1 := by decide
    have hread : decode? (.ofJson (.int i)) = ofJson? (.int i) := rfl
    by_cases hi : i ≤ Int64.maxValue.toInt
    · refine ⟨.integer (Int64.ofInt i), hread.trans (if_pos ⟨hlower, hi⟩), .same ?_⟩
      rw [toJson, Int64.toInt_ofInt_of_le hlower (by omega)]
    · obtain ⟨n, rfl⟩ := Int.eq_ofNat_of_zero_le (by omega : 0 ≤ i)
      have hsize : UInt64.size = 2 ^ 64 := rfl
      have hbits : n.log2 < 64 := (Nat.log2_lt (by omega)).2 (by omega)
      refine ⟨.float (Float.ofNat n), hread.trans (if_neg fun h => hi h.2), .nearest (Int.not_le.1 hi) ?_⟩
      exact Double.isNearest_ofNat (by omega) (by omega)

/-- Null, arrays and objects are no value to compare with. -/
theorem decode?_container (ds : List Document) (ms : List (String × Document)) :
    decode? .null = none ∧ decode? (.array ds) = none ∧ decode? (.object ms) = none := by
  refine ⟨rfl, ?_, ?_⟩
  · rw [decode?, Document.value?]
    cases Document.itemValues? ds <;> rfl
  · rw [decode?, Document.value?]
    cases Document.memberValues? ms <;> rfl

end Scalar

/-! ## The ends of a range -/

namespace Bounds

/-- Each end is read on its own. -/
theorem decode?_ofEnds (v w : Json) :
    decode? (.ofJson (.ofMembers [("from", v), ("to", w)])) =
      (Scalar.decode? (.ofJson v)).bind fun lower =>
        (Scalar.decode? (.ofJson w)).map fun upper => ⟨lower, upper⟩ := by
  have hnames : Members.names [("from", v), ("to", w)] = ["from", "to"] := rfl
  obtain ⟨parts, hparts, hfind⟩ := Document.exists_parts?_ofMembers [("from", v), ("to", w)] hnames (by decide)
  have hlower : parts.required? "from" Scalar.decode? = Scalar.decode? (.ofJson v) := by
    rw [Members.required?, hfind _ (by decide)]
    rfl
  have hupper : parts.required? "to" Scalar.decode? = Scalar.decode? (.ofJson w) := by
    rw [Members.required?, hfind _ (by decide)]
    rfl
  rw [decode?, hparts, Option.bind_eq_bind, Option.bind_some, hlower, hupper]
  cases Scalar.decode? (.ofJson v) with
  | none => rfl
  | some lower => cases Scalar.decode? (.ofJson w) <;> rfl

theorem decode?_eq_none_iff (b : Bounds) :
    decode? (.ofJson b.toJson) = none ↔ b.lower.NoNumber ∨ b.upper.NoNumber := by
  rw [toJson, decode?_ofEnds, ← Scalar.decode?_eq_none_iff, ← Scalar.decode?_eq_none_iff]
  cases Scalar.decode? (.ofJson b.lower.toJson) with
  | none => simp
  | some lower => simp

theorem decode?_eq_self_iff (b : Bounds) :
    decode? (.ofJson b.toJson) = some b ↔ ¬ b.lower.NoNumber ∧ ¬ b.upper.NoNumber := by
  constructor
  · intro h
    rw [← not_or, ← decode?_eq_none_iff, h]
    exact Option.some_ne_none b
  · rintro ⟨hlower, hupper⟩
    rw [toJson, decode?_ofEnds, (Scalar.decode?_eq_self_iff _).2 hlower, (Scalar.decode?_eq_self_iff _).2 hupper]
    rfl

end Bounds

/-- **JSON keeps the kind of a value** (`Scalar`). What is written of a value is read as that very value, and
nothing is read exactly if it was a double that is no number; so it is with both ends of a range, which are read one
by one. What is read of a plain JSON value is written as that value again, unless it is an integer beyond a signed
word: that becomes the nearest double. Null, arrays and objects are not read. -/
theorem Scalar.kept_by_json :
    (∀ s : Scalar, (decode? (.ofJson s.toJson) = some s ↔ ¬ s.NoNumber) ∧
      (decode? (.ofJson s.toJson) = none ↔ s.NoNumber)) ∧
    (∀ b : Bounds,
      (Bounds.decode? (.ofJson b.toJson) = some b ↔ ¬ b.lower.NoNumber ∧ ¬ b.upper.NoNumber) ∧
      (Bounds.decode? (.ofJson b.toJson) = none ↔ b.lower.NoNumber ∨ b.upper.NoNumber)) ∧
    (∀ v w : Json, Bounds.decode? (.ofJson (.ofMembers [("from", v), ("to", w)])) =
      (decode? (.ofJson v)).bind fun lower => (decode? (.ofJson w)).map fun upper => ⟨lower, upper⟩) ∧
    (∀ v : Json, v.Plain → ∃ s, decode? (.ofJson v) = some s ∧ ReadAs v s) ∧
    ∀ (ds : List Document) (ms : List (String × Document)),
      decode? .null = none ∧ decode? (.array ds) = none ∧ decode? (.object ms) = none :=
  ⟨fun s => ⟨decode?_eq_self_iff s, decode?_eq_none_iff s⟩,
    fun b => ⟨Bounds.decode?_eq_self_iff b, Bounds.decode?_eq_none_iff b⟩,
    Bounds.decode?_ofEnds, fun _ => exists_readAs, decode?_container⟩

/-- The first integer beyond a signed word is read as a double. -/
theorem Scalar.kept_by_json_beyondWord :
    (Json.int 9223372036854775808).Plain ∧ ∃ s, decode? (.ofJson (.int 9223372036854775808)) = some s ∧
      ReadAs (.int 9223372036854775808) s := by
  have hplain : (Json.int 9223372036854775808).Plain := .int (by decide) (by decide)
  exact ⟨hplain, kept_by_json.2.2.2.1 _ hplain⟩

end LogQuery
