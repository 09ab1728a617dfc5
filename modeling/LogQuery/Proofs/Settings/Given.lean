import Mathlib.Data.Option.Basic
import Mathlib.Logic.Function.Basic
import LogQuery.Proofs.Json.Written
import LogQuery.Proofs.Settings.Layers

/-!
# Values of declared kinds

Parts of a table have names, and each is declared as a value of some kind. A table that only has declared parts,
each a value of its kind as it is, gives some of the parts a value (`Vocabulary.Gives`). Put over another such
table, it gives what it has and leaves the rest (`Vocabulary.holds_assignAll`). What it gives is read from it,
from a loose table (`Vocabulary.part?_of_holds`) as from a document (`Vocabulary.optional?_of_holds`).
-/

namespace LogQuery

/-! ## Loose values of documents -/

namespace Loose

/-- An integer that no signed word holds is a double; every other loose value shows what it was made of. -/
theorem ofJson_int (i : Int) : ofJson (.int i) = .int i ∨ ∃ x, ofJson (.int i) = .float x := by
  by_cases hi : Int64.minValue.toInt ≤ i ∧ i ≤ Int64.maxValue.toInt
  · exact .inl (if_pos hi)
  · exact .inr ⟨_, if_neg hi⟩

variable {j : Json}

theorem eq_null_of_ofJson (h : ofJson j = .nil) : j = .null := by
  cases j with
  | int i => obtain hi | ⟨x, hx⟩ := ofJson_int i <;> simp_all
  | _ => first | rfl | cases h

theorem eq_bool_of_ofJson {b : Bool} (h : ofJson j = .bool b) : j = .bool b := by
  cases j with
  | int i => obtain hi | ⟨x, hx⟩ := ofJson_int i <;> simp_all
  | _ => cases h <;> rfl

theorem eq_int_of_ofJson {i : Int} (h : ofJson j = .int i) : j = .int i := by
  cases j with
  | int i => obtain hi | ⟨x, hx⟩ := ofJson_int i <;> simp_all
  | _ => cases h

theorem eq_text_of_ofJson {s : String} (h : ofJson j = .text s) : j = .text s := by
  cases j with
  | int i => obtain hi | ⟨x, hx⟩ := ofJson_int i <;> simp_all
  | _ => cases h <;> rfl

theorem eq_array_of_ofJson {vs : List Loose} (h : ofJson j = .list vs) : ∃ js, j = .array js ∧ ofItems js = vs := by
  cases j with
  | int i => obtain hi | ⟨x, hx⟩ := ofJson_int i <;> simp_all
  | array js => exact ⟨js, rfl, Loose.list.inj h⟩
  | _ => cases h

theorem eq_object_of_ofJson {fs : List (String × Loose)} (h : ofJson j = .table fs) :
    ∃ ms, j = .object ms ∧ ofMembers ms = fs := by
  cases j with
  | int i => obtain hi | ⟨x, hx⟩ := ofJson_int i <;> simp_all
  | object ms => exact ⟨ms, rfl, Loose.table.inj h⟩
  | _ => cases h

theorem eq_texts_of_ofItems {js : List Json} {ss : List String} (h : ofItems js = ss.map .text) :
    js = ss.map .text := by
  induction js generalizing ss with
  | nil =>
    cases ss with
    | nil => rfl
    | cons s ss => cases h
  | cons j js ih =>
    cases ss with
    | nil => cases h
    | cons s ss =>
      obtain ⟨hj, hjs⟩ := List.cons.inj h
      rw [eq_text_of_ofJson hj, ih hjs, List.map_cons]

theorem ofMembers_eq_map (ms : List (String × Json)) : ofMembers ms = ms.map fun m => (m.1, ofJson m.2) := by
  induction ms with
  | nil => rfl
  | cons m ms ih => rw [ofMembers, ih, List.map_cons]

theorem find?_ofMembers (ms : Members Json) (name : String) :
    Members.find? (ofMembers ms) name = (ms.find? name).map ofJson := by
  rw [ofMembers_eq_map]
  exact Members.find?_map (fun _ => ofJson) ms name

theorem names_ofMembers (ms : Members Json) : Members.names (ofMembers ms) = ms.names := by
  rw [ofMembers_eq_map, Members.names, List.map_map]
  rfl

end Loose

/-! ## Kinds of values -/

/-- What a part is declared as. -/
inductive ValueKind where
  | texts
  | text
  /-- A text, or nothing. -/
  | optionalText
  | word32
  | word64
  | switch
  | fuzziness
  deriving DecidableEq, Repr

namespace ValueKind

def Value : ValueKind → Type
  | texts => List String
  | text => String
  | optionalText => Option String
  | word32 => UInt32
  | word64 => UInt64
  | switch => Bool
  | fuzziness => Fuzziness

/-- The loose value is one of the kind as it is; nothing needs to be turned into something else. -/
def Is : (k : ValueKind) → Loose → k.Value → Prop
  | texts, v, ss => v = .list (List.map .text ss)
  | text, v, s => v = .text s
  | optionalText, v, s => v = Option.elim s .nil .text
  | word32, v, n => v = .int (UInt32.toNat n)
  | word64, v, n => v = .int (UInt64.toNat n)
  | switch, v, b => v = .bool b
  | fuzziness, v, f => v.fuzziness? = some f

def read? : (k : ValueKind) → Loose → Option k.Value
  | texts => Loose.texts?
  | text => Loose.text?
  | optionalText => Loose.nullable? Loose.text?
  | word32 => Loose.uint32?
  | word64 => Loose.uint64?
  | switch => Loose.bool?
  | fuzziness => Loose.fuzziness?

def decode? : (k : ValueKind) → Document → Option k.Value
  | texts => Document.list? Document.text?
  | text => Document.text?
  | optionalText => Document.nullable? Document.text?
  | word32 => Document.uint32?
  | word64 => Document.uint64?
  | switch => Document.bool?
  | fuzziness => Fuzziness.decode?

theorem ne_table_of_is {k : ValueKind} {v : Loose} {x : k.Value} (h : k.Is v x) (ms : List (String × Loose)) :
    v ≠ .table ms := by
  rintro rfl
  cases k with
  | optionalText => cases x <;> cases h
  | _ => cases h

theorem texts?_texts (ss : List String) : Loose.texts? (.list (ss.map .text)) = some ss := by
  rw [Loose.texts?]
  induction ss with
  | nil => rfl
  | cons s ss ih => simp [Loose.text?, ih]

theorem list?_texts (ss : List String) :
    Document.list? Document.text? (.ofJson (.array (ss.map .text))) = some ss := by
  have hread : ∀ s ∈ ss, Document.text? (.ofJson (.text s)) = some (id s) := fun s _ => rfl
  rw [Document.list?_ofItems hread, List.map_id]

theorem word?_natCast (n : Nat) : Loose.word? (.int n) = some n := by simp [Loose.word?]

/-- A value of the kind is read as it is. -/
theorem read?_of_is : ∀ {k : ValueKind} {v : Loose} {x : k.Value}, k.Is v x → k.read? v = some x
  | texts, _, ss, rfl => texts?_texts ss
  | text, _, _, rfl => rfl
  | optionalText, _, none, rfl => rfl
  | optionalText, _, some _, rfl => rfl
  | word32, _, (n : UInt32), rfl => by
    have hsize : n.toNat < UInt32.size := n.toNat_lt_size
    show ((Loose.word? (.int n.toNat)).filter (· < UInt32.size)).map UInt32.ofNat = some n
    rw [word?_natCast, Option.filter_some, if_pos (decide_eq_true hsize), Option.map_some, UInt32.ofNat_toNat]
  | word64, _, (n : UInt64), rfl => by
    show (Loose.word? (.int n.toNat)).map UInt64.ofNat = some n
    rw [word?_natCast, Option.map_some, UInt64.ofNat_toNat]
  | switch, _, _, rfl => rfl
  | fuzziness, _, _, h => h

/-- A value of the kind is decoded as it is. -/
theorem decode?_of_is {k : ValueKind} {j : Json} {x : k.Value} (h : k.Is (.ofJson j) x) :
    k.decode? (.ofJson j) = some x := by
  cases k with
  | texts =>
    obtain ⟨js, rfl, hjs⟩ := Loose.eq_array_of_ofJson h
    rw [Loose.eq_texts_of_ofItems hjs]
    exact list?_texts x
  | text =>
    rw [Loose.eq_text_of_ofJson h]
    rfl
  | optionalText =>
    cases x with
    | none =>
      rw [Loose.eq_null_of_ofJson h]
      rfl
    | some s =>
      rw [Loose.eq_text_of_ofJson h]
      rfl
  | word32 =>
    rw [Loose.eq_int_of_ofJson h]
    exact Document.uint32?_ofJson x
  | word64 =>
    rw [Loose.eq_int_of_ofJson h]
    exact Document.uint64?_ofJson x
  | switch =>
    rw [Loose.eq_bool_of_ofJson h]
    rfl
  | fuzziness =>
    have hf : (Loose.ofJson j).fuzziness? = some x := h
    cases hj : Loose.ofJson j with
    | int i =>
      rw [hj] at hf
      rw [Loose.eq_int_of_ofJson hj]
      exact hf
    | text s =>
      rw [hj] at hf
      rw [Loose.eq_text_of_ofJson hj]
      exact hf
    | _ => rw [hj] at hf; cases hf

end ValueKind

/-! ## An entry at the end -/

namespace Members

variable {α : Type} {ms : Members α} {key : String}

theorem names_snoc (v : α) : names (ms ++ [(key, v)]) = names ms ++ [key] := List.map_append

theorem find?_snoc_self (hkey : key ∉ names ms) (v : α) : find? (ms ++ [(key, v)]) key = some v := by
  rw [find?_append, find?_eq_none hkey, Option.none_or, find?_cons, if_pos rfl]

theorem find?_snoc_of_ne {name : String} (hname : name ≠ key) (v : α) :
    find? (ms ++ [(key, v)]) name = find? ms name := by
  have hother : find? [(key, v)] name = none := by
    rw [find?_cons, if_neg (Ne.symm hname)]
    rfl
  rw [find?_append, hother, Option.or_none]

/-- The names stay different only if the entry has a new one. -/
theorem nodup_names_snoc {v : α} (h : (names (ms ++ [(key, v)])).Nodup) : (names ms).Nodup ∧ key ∉ names ms := by
  rw [names_snoc, List.nodup_append] at h
  exact ⟨h.1, fun hmem => h.2.2 key hmem key (List.mem_singleton_self key) rfl⟩

end Members

/-! ## Putting a value under a name -/

namespace Layer

/-- Other names keep what they have. -/
theorem find?_assign_of_ne {key name : String} (hname : name ≠ Loose.lower key) (value root : Loose) :
    (assign value key root).members.find? name = root.members.find? name := by
  cases value with
  | table ms => rw [assign, Loose.members, Members.find?_insert, if_neg hname]
  | _ => exact (Members.find?_insert ..).trans (if_neg hname)

theorem find?_assign_table (ms : List (String × Loose)) (key : String) (root : Loose) :
    (assign (.table ms) key root).members.find? (Loose.lower key) =
      some (assignAll ms ((root.members.find? (Loose.lower key)).getD (.table []))) := by
  rw [assign, Loose.members, Members.find?_insert, if_pos rfl]

theorem assignAll_append (ms ns : List (String × Loose)) (root : Loose) :
    assignAll (ms ++ ns) root = assignAll ns (assignAll ms root) := by
  induction ms generalizing root with
  | nil => rfl
  | cons m ms ih =>
    rw [List.cons_append, assignAll, ih]
    rfl

end Layer

/-! ## Tables of declared parts -/

/-- The names of the parts of a table, and what they are declared as. -/
structure Vocabulary (ν : Type) where
  key : ν → String
  kind : ν → ValueKind
  key_injective : Function.Injective key
  lower_key : ∀ n, Loose.lower (key n) = key n

namespace Vocabulary

variable {ν : Type}

/-- What is given to each part, if anything. -/
def Given (V : Vocabulary ν) : Type := (n : ν) → Option (V.kind n).Value

variable {V : Vocabulary ν}

namespace Given

def nothing : V.Given := fun _ => none

/-- What the first gives, and what only the second gives. -/
def onto (hi lo : V.Given) : V.Given := fun n => (hi n).or (lo n)

def set [DecidableEq ν] (g : V.Given) (n : ν) (x : (V.kind n).Value) : V.Given := Function.update g n (some x)

theorem set_self [DecidableEq ν] (g : V.Given) (n : ν) (x : (V.kind n).Value) : g.set n x n = some x :=
  Function.update_self ..

theorem set_of_ne [DecidableEq ν] (g : V.Given) {m n : ν} (hm : m ≠ n) (x : (V.kind n).Value) :
    g.set n x m = g m := Function.update_of_ne hm ..

theorem onto_nothing (g : V.Given) : g.onto nothing = g := by
  funext n
  simp [onto, nothing]

theorem onto_assoc (a b c : V.Given) : (a.onto b).onto c = a.onto (b.onto c) := by
  funext n
  simp [onto, Option.or_assoc]

theorem set_onto [DecidableEq ν] (g g₀ : V.Given) (n : ν) (x : (V.kind n).Value) :
    (g.set n x).onto g₀ = (g.onto g₀).set n x := by
  funext m
  by_cases hm : m = n
  · subst hm
    rw [onto, set_self, set_self, Option.some_or]
  · rw [onto, set_of_ne _ hm, set_of_ne _ hm, onto]

end Given

/-- The table has, of all parts, those that are given, each a value of its kind. -/
def Holds (V : Vocabulary ν) (ms : Members Loose) (g : V.Given) : Prop :=
  ∀ n, Option.Rel (V.kind n).Is (ms.find? (V.key n)) (g n)

/-- The entries are of declared parts, each a value of its kind; of entries for the same part the last one
counts. -/
inductive Gives [DecidableEq ν] (V : Vocabulary ν) : List (String × Loose) → V.Given → Prop
  | nil : Gives V [] .nothing
  | snoc {ms : List (String × Loose)} {g : V.Given} {n : ν} {v : Loose} {x : (V.kind n).Value} :
    Gives V ms g → (V.kind n).Is v x → Gives V (ms ++ [(V.key n, v)]) (g.set n x)

theorem holds_nil : V.Holds [] .nothing := fun _ => .none

section
variable [DecidableEq ν] {ms : List (String × Loose)} {g g₀ : V.Given} {root : Loose}

/-- One entry. -/
theorem holds_assign (h : V.Holds root.members g) {n : ν} {v : Loose} {x : (V.kind n).Value}
    (hv : (V.kind n).Is v x) : V.Holds (Layer.assign v (V.key n) root).members (g.set n x) := by
  intro m
  by_cases hm : m = n
  · subst hm
    have hfind := Layer.find?_assign (ValueKind.ne_table_of_is hv) (V.key m) root
    rw [V.lower_key] at hfind
    rw [hfind, Given.set_self]
    exact .some hv
  · have hkey : V.key m ≠ Loose.lower (V.key n) := by
      rw [V.lower_key]
      exact fun hkey => hm (V.key_injective hkey)
    rw [Layer.find?_assign_of_ne hkey, Given.set_of_ne _ hm]
    exact h m

/-- All entries, one by one, put over what is there. -/
theorem holds_assignAll (hg : V.Gives ms g) (h : V.Holds root.members g₀) :
    V.Holds (Layer.assignAll ms root).members (g.onto g₀) := by
  induction hg with
  | nil => exact h
  | snoc _ hv ih =>
    rw [Layer.assignAll_append, Given.set_onto]
    exact holds_assign ih hv

/-- One entry by a new name at the end. -/
theorem holds_snoc (h : V.Holds ms g) {n : ν} (hfresh : V.key n ∉ Members.names ms) {v : Loose}
    {x : (V.kind n).Value} (hv : (V.kind n).Is v x) : V.Holds (ms ++ [(V.key n, v)]) (g.set n x) := by
  intro m
  by_cases hm : m = n
  · subst hm
    rw [Members.find?_snoc_self hfresh, Given.set_self]
    exact .some hv
  · have hkey : V.key m ≠ V.key n := fun hkey => hm (V.key_injective hkey)
    rw [Members.find?_snoc_of_ne hkey, Given.set_of_ne _ hm]
    exact h m

/-- A table whose entries have different names holds what it gives. -/
theorem holds_of_gives (hg : V.Gives ms g) (hd : (Members.names ms).Nodup) : V.Holds ms g := by
  induction hg with
  | nil => exact holds_nil
  | snoc _ hv ih =>
    obtain ⟨hms, hfresh⟩ := Members.nodup_names_snoc hd
    exact holds_snoc (ih hms) hfresh hv

end

/-! ## What is read of the parts -/

theorem part?_of_holds {ms : Members Loose} {g : V.Given} (h : V.Holds ms g) (n : ν) (absent : (V.kind n).Value) :
    Loose.part? ms (V.key n) absent (V.kind n).read? = some ((g n).getD absent) := by
  have hn := h n
  rw [Loose.part?]
  revert hn
  generalize Members.find? ms (V.key n) = v
  generalize g n = x
  rintro (hv | _)
  · exact ValueKind.read?_of_is hv
  · rfl

/-- The same parts are decoded from a document, if the entries were made of it. -/
theorem optional?_of_holds {ms : Members Json} {g : V.Given} (h : V.Holds (Loose.ofMembers ms) g) (n : ν)
    (absent : (V.kind n).Value) {parts : Members Document}
    (hparts : parts.find? (V.key n) = (ms.find? (V.key n)).map .ofJson) :
    parts.optional? (V.key n) absent (V.kind n).decode? = some ((g n).getD absent) := by
  have hn := h n
  rw [Loose.find?_ofMembers] at hn
  rw [Members.optional?, hparts]
  revert hn
  generalize Members.find? ms (V.key n) = j
  generalize g n = x
  intro hn
  cases j with
  | none =>
    cases hn
    rfl
  | some j =>
    cases hn with
    | some hv => exact ValueKind.decode?_of_is hv

/-- Entries give something, unless there are none. -/
theorem Gives.eq_nil_iff [DecidableEq ν] {ms : List (String × Loose)} {g : V.Given} (h : V.Gives ms g) :
    ms = [] ↔ ∀ n, g n = none := by
  cases h with
  | nil => exact iff_of_true rfl fun _ => rfl
  | @snoc ms g n v x _ hv =>
    refine iff_of_false (by simp) fun hnone => ?_
    have hn := hnone n
    rw [Given.set_self] at hn
    cases hn

end Vocabulary

end LogQuery
