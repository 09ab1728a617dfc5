import LogQuery.Proofs.Json.Canonical

/-!
# Positions in a value

A position leads into a value step by step, to the member of an object or to an item of an array. The
nulls of an object or an array are those of the parts from which it was made, one step further down
(`nullAt_ofOptional_iff`, `nullAt_array_iff`); of the other values only a double that JSON cannot write is
one (`nullAt_ofFloat_iff`).
-/

namespace LogQuery

namespace Json

/-- A step to a part of a value. -/
inductive Step where
  | member (name : String)
  | item (index : Nat)
  deriving DecidableEq, Repr

/-- The steps from a value to a part of it. -/
abbrev Position := List Step

/-- The value at a position. -/
def at? : Json → Position → Option Json
  | v, [] => some v
  | v, .member name :: p => (v.member? name).bind fun w => at? w p
  | v, .item i :: p => v.items[i]?.bind fun w => at? w p

/-- There is a null at the position. -/
def NullAt (v : Json) (p : Position) : Prop := v.at? p = some .null

end Json

/-- Below the name of one of the parts, there is a null at the position. -/
def Members.NullAt (ps : Members (Option Json)) (p : Json.Position) : Prop :=
  ∃ m ∈ ps, ∃ q, p = .member m.1 :: q ∧ ∃ v ∈ m.2, v.NullAt q

/-! ## Parts of an object -/

namespace Members

variable {α : Type} {p : Json.Position}

theorem not_nullAt_nil : ¬ NullAt [] p := by simp [NullAt]

theorem nullAt_cons_iff {k : String} {v : Option Json} {ps : Members (Option Json)} :
    NullAt ((k, v) :: ps) p ↔ (∃ q, p = .member k :: q ∧ ∃ w ∈ v, w.NullAt q) ∨ NullAt ps p := by
  simp [NullAt]

/-- Of parts with different names, an object has as members those that are present. -/
theorem mem_ofOptional_iff {ps : Members (Option α)} (hd : ps.names.Nodup) {k : String} {v : α} :
    (k, v) ∈ ofOptional ps ↔ (k, some v) ∈ ps := by
  have hsorted : Sorted (ofOptional ps) := sorted_ofList _
  rw [← find?_eq_some_iff hsorted.nodup_names, find?_ofOptional hd, Option.join_eq_some_iff,
    find?_eq_some_iff hd]

end Members

namespace Json

variable {p : Position}

/-! ## Values without parts -/

theorem nullAt_plain_iff {v : Json} (hm : ∀ name, v.member? name = none) (hi : v.items = []) :
    v.NullAt p ↔ p = [] ∧ v = .null := by
  cases p with
  | nil => simp [NullAt, at?]
  | cons t p => cases t <;> simp [NullAt, at?, hm, hi]

theorem not_nullAt_plain {v : Json} (hm : ∀ name, v.member? name = none) (hi : v.items = [])
    (hv : v ≠ .null) : ¬ v.NullAt p :=
  fun h => hv ((nullAt_plain_iff hm hi).1 h).2

theorem not_nullAt_text (s : String) : ¬ (text s).NullAt p :=
  not_nullAt_plain (fun _ => rfl) rfl Json.noConfusion

theorem not_nullAt_int (i : Int) : ¬ (int i).NullAt p :=
  not_nullAt_plain (fun _ => rfl) rfl Json.noConfusion

theorem not_nullAt_bool (b : Bool) : ¬ (bool b).NullAt p :=
  not_nullAt_plain (fun _ => rfl) rfl Json.noConfusion

theorem nullAt_ofFloat_iff {x : Float} : (ofFloat x).NullAt p ↔ p = [] ∧ x.isFinite = false := by
  rw [← ofFloat_eq_null_iff]
  refine nullAt_plain_iff (fun name => ?_) ?_ <;>
    · unfold ofFloat
      split <;> rfl

/-! ## Values with parts -/

theorem nullAt_array_iff {vs : List Json} :
    (array vs).NullAt p ↔ ∃ i v, vs[i]? = some v ∧ ∃ q, p = .item i :: q ∧ v.NullAt q := by
  unfold NullAt
  cases p with
  | nil => simp [at?]
  | cons t p =>
    cases t with
    | member name => simp [at?, member?]
    | item i => simp [at?, items, Option.bind_eq_some_iff]

theorem nullAt_object_iff {ms : Members Json} (hd : ms.names.Nodup) :
    (object ms).NullAt p ↔ ∃ k v, (k, v) ∈ ms ∧ ∃ q, p = .member k :: q ∧ v.NullAt q := by
  unfold NullAt
  cases p with
  | nil => simp [at?]
  | cons t p =>
    cases t with
    | item i => simp [at?, items]
    | member name => simp [at?, member?, Option.bind_eq_some_iff, Members.find?_eq_some_iff hd]

/-- **The nulls of an object** of different names are those of its parts, below these names. -/
theorem nullAt_ofOptional_iff {ks : List String} (hd : ks.Nodup) {ps : Members (Option Json)}
    (hp : ps.names = ks) : (ofOptional ps).NullAt p ↔ ps.NullAt p := by
  have hn : (Members.ofOptional ps).names.Nodup := (Members.sorted_ofList _).nodup_names
  rw [ofOptional, nullAt_object_iff hn, Members.NullAt]
  simp only [Members.mem_ofOptional_iff (hp ▸ hd)]
  constructor
  · rintro ⟨k, v, hm, q, hq, hv⟩
    exact ⟨(k, some v), hm, q, hq, v, rfl, hv⟩
  · rintro ⟨⟨k, _⟩, hm, q, hq, v, rfl, hv⟩
    exact ⟨k, v, hm, q, hq, hv⟩

theorem nullAt_ofMembers_iff {ks : List String} (hd : ks.Nodup) {ps : Members Json}
    (hp : ps.names = ks) :
    (ofMembers ps).NullAt p ↔ Members.NullAt (ps.map fun m => (m.1, some m.2)) p := by
  have hnames : Members.names (ps.map fun m => (m.1, some m.2)) = ks := by
    rw [← hp, Members.names, List.map_map]
    rfl
  rw [ofMembers, ← Members.ofOptional_some, ← ofOptional, nullAt_ofOptional_iff hd hnames]

/-- An object with one member, whose name may be any. -/
theorem nullAt_single_iff {k : String} {v : Json} :
    (ofMembers [(k, v)]).NullAt p ↔ ∃ q, p = .member k :: q ∧ v.NullAt q := by
  rw [nullAt_ofMembers_iff (List.nodup_singleton k) rfl]
  simp [Members.NullAt]

end Json

end LogQuery
