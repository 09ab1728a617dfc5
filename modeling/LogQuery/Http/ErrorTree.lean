import LogQuery.Json.Reader

/-!
# Errors of the backend

An answer that reports an error holds a tree of causes. A node has a type and a reason, one cause below
`caused_by`, several below `root_cause`, and one below the `reason` of each item of `failed_shards`. A
query string that the backend could not read shows as a node of one of two types whose reason starts in a
fixed way. The search keeps the nodes that are still to be looked at, the next one first; children are
looked at before what was there already, failed shards from the last to the first, then the root causes
likewise, then the cause.

Main statement: the children of a node are smaller than it (`size_children_lt`), so the search ends.
-/

namespace LogQuery.ErrorTree

/-- A member as text; empty if it is missing or something else. -/
def textAt (name : String) (v : Json) : String := ((v.member? name).bind Json.text?).getD ""

def itemsAt (name : String) (v : Json) : List Json := ((v.member? name).map Json.items).getD []

/-- The causes below a node, the one to be looked at last first. -/
def children (v : Json) : List Json :=
  (v.member? "caused_by").toList ++ itemsAt "root_cause" v ++
    (itemsAt "failed_shards" v).filterMap fun s => s.member? "reason"

/-- The type and the reason of a query string that could not be read (`is_query_parser_failure`). -/
def isUnreadable (kind reason : String) : Bool :=
  (kind = "query_shard_exception" && reason.startsWith "Failed to parse query [") ||
    (kind = "parse_exception" && reason.startsWith "Cannot parse '")

/-- The reason of a node that reports an unreadable query string. -/
def reason? (v : Json) : Option String :=
  let reason := textAt "reason" v
  if isUnreadable (textAt "type" v) reason then some reason else none

/-! ## Sizes -/

mutual

/-- The number of values in a value, itself included. -/
def size : Json → Nat
  | .array vs => 1 + itemsSize vs
  | .object ms => 1 + membersSize ms
  | _ => 1

def itemsSize : List Json → Nat
  | [] => 0
  | v :: vs => size v + itemsSize vs

def membersSize : List (String × Json) → Nat
  | [] => 0
  | (_, v) :: ms => size v + membersSize ms

end

theorem itemsSize_append (vs ws : List Json) : itemsSize (vs ++ ws) = itemsSize vs + itemsSize ws := by
  induction vs with
  | nil => simp [itemsSize]
  | cons v vs ih => simp [itemsSize, ih]; omega

theorem itemsSize_reverse (vs : List Json) : itemsSize vs.reverse = itemsSize vs := by
  induction vs with
  | nil => rfl
  | cons v vs ih => simp [itemsSize_append, itemsSize, ih]; omega

theorem itemsSize_toList (o : Option Json) : itemsSize o.toList = (o.map size).getD 0 := by
  cases o <;> simp [itemsSize]

/-- Members with different names are different parts of an object. -/
theorem size_members_le (ms : List (String × Json)) {a b c : String} (hab : a ≠ b) (hac : a ≠ c)
    (hbc : b ≠ c) :
    ((Members.find? ms a).map size).getD 0 + ((Members.find? ms b).map size).getD 0 +
      ((Members.find? ms c).map size).getD 0 ≤ membersSize ms := by
  induction ms with
  | nil => simp [Members.find?]
  | cons m ms ih =>
    obtain ⟨k, v⟩ := m
    by_cases ha : k = a
    · subst ha
      simp [Members.find?, hab, hac, membersSize] at ih ⊢
      omega
    · by_cases hb : k = b
      · subst hb
        simp [Members.find?, ha, hbc, membersSize] at ih ⊢
        omega
      · by_cases hc : k = c
        · subst hc
          simp [Members.find?, ha, hb, membersSize] at ih ⊢
          omega
        · simp [Members.find?, ha, hb, hc, membersSize] at ih ⊢
          omega

theorem itemsSize_items_le (v : Json) : itemsSize v.items ≤ size v := by
  cases v <;> simp [Json.items, itemsSize, size]

theorem itemsSize_itemsAt_le (name : String) (v : Json) :
    itemsSize (itemsAt name v) ≤ ((v.member? name).map size).getD 0 := by
  unfold itemsAt
  cases v.member? name with
  | none => simp [itemsSize]
  | some w => simpa using itemsSize_items_le w

theorem size_member?_le (name : String) (v : Json) : ((v.member? name).map size).getD 0 ≤ size v := by
  cases v with
  | object ms =>
    suffices h : ((Members.find? ms name).map size).getD 0 ≤ membersSize ms by
      simp only [Json.member?, size]; omega
    induction ms with
    | nil => simp [Members.find?]
    | cons m ms ih =>
      obtain ⟨k, v⟩ := m
      by_cases hk : k = name
      · simp [Members.find?, hk, membersSize]
      · simp [Members.find?, hk, membersSize] at ih ⊢
        omega
  | _ => simp [Json.member?]

theorem itemsSize_filterMap_le (name : String) (vs : List Json) :
    itemsSize (vs.filterMap fun s => s.member? name) ≤ itemsSize vs := by
  induction vs with
  | nil => simp
  | cons v vs ih =>
    have hv := size_member?_le name v
    rw [List.filterMap_cons]
    cases h : v.member? name with
    | none => simp only [itemsSize]; omega
    | some w =>
      rw [h] at hv
      simp only [itemsSize, Option.map_some, Option.getD_some] at hv ⊢
      omega

theorem member?_object (ms : List (String × Json)) (name : String) :
    (Json.object ms).member? name = Members.find? ms name := rfl

theorem size_children_lt (v : Json) : itemsSize (children v) < size v := by
  have h1 := itemsSize_itemsAt_le "root_cause" v
  have h2 := itemsSize_itemsAt_le "failed_shards" v
  have h3 := itemsSize_filterMap_le "reason" (itemsAt "failed_shards" v)
  rw [children, itemsSize_append, itemsSize_append, itemsSize_toList]
  cases v with
  | object ms =>
    have h := size_members_le ms (a := "caused_by") (b := "root_cause") (c := "failed_shards")
      (by decide) (by decide) (by decide)
    rw [member?_object] at h1 h2 ⊢
    rw [size]
    omega
  | array vs =>
    simp only [Json.member?, size, itemsAt, Option.map_none, Option.getD_none, List.filterMap_nil, itemsSize]
    omega
  | _ => simp [Json.member?, size, itemsSize, itemsAt]

/-! ## The search -/

/-- The reason of the first node among those to be looked at and all below them. -/
def search : List Json → Option String
  | [] => none
  | v :: rest =>
    match reason? v with
    | some r => some r
    | none => search ((children v).reverse ++ rest)
termination_by vs => itemsSize vs
decreasing_by
  have h := size_children_lt v
  rw [itemsSize_append, itemsSize_reverse, itemsSize]
  omega

/-- The reason why the backend could not read a query string, if that is what an answer reports
(`malformed_query_reason`). -/
def unreadableReason? (answer : Json) : Option String :=
  (answer.member? "error").bind fun v => search [v]

end LogQuery.ErrorTree
