import LogQuery.Proofs.Json.Alike
import LogQuery.Record
import Mathlib.Data.List.Sort

/-!
# Values in order

The members of an object are sorted, at every depth. Sorted members are determined by what is read from them
by name (`Members.eq_of_find?_eq`), so objects can be compared name by name.

Main statements: every value that is read from a document is in order (`Document.canonical_of_value?`), and a
value in order is read back from the document that it makes (`Document.value?_ofJson`).
-/

namespace LogQuery

/-! ## Sorted members -/

namespace Members

variable {α β : Type} {ms ns : Members α}

instance (ms : Members α) : Decidable (Sorted ms) :=
  inferInstanceAs (Decidable (List.Pairwise (fun a b => a.1 < b.1) ms))

theorem Sorted.nodup_names (h : Sorted ms) : ms.names.Nodup := by
  refine List.pairwise_map.2 (h.imp ?_)
  intro a b hlt heq
  rw [heq] at hlt
  exact String.lt_irrefl b.1 hlt

theorem Sorted.filter (h : Sorted ms) (p : String × α → Bool) : Sorted (List.filter p ms) :=
  List.Pairwise.filter p h

/-- Names decide the order, whatever becomes of the values. -/
theorem Sorted.map (h : Sorted ms) (f : String × α → String × β) (hf : ∀ m, (f m).1 = m.1) :
    Sorted (List.map f ms) := by
  refine List.pairwise_map.2 (h.imp fun hlt => ?_)
  rwa [hf, hf]

theorem find?_eq_some_iff (h : ms.names.Nodup) (k : String) (v : α) :
    find? ms k = some v ↔ (k, v) ∈ ms := by
  induction ms with
  | nil => simp [find?]
  | cons m ms ih =>
    obtain ⟨j, w⟩ := m
    obtain ⟨hj, hms⟩ := List.nodup_cons.1 h
    rw [find?_cons, List.mem_cons]
    by_cases hk : j = k
    · subst hk
      have hnot : (j, v) ∉ ms := fun hm => hj (List.mem_map.2 ⟨(j, v), hm, rfl⟩)
      simp [hnot, eq_comm]
    · simp [hk, Ne.symm hk, ih hms]

/-- **Sorted members** are the same if the same is read from them by every name. -/
theorem eq_of_find?_eq (hm : Sorted ms) (hn : Sorted ns) (h : ∀ k, find? ms k = find? ns k) : ms = ns := by
  have hirrefl : Std.Irrefl fun a b : String × α => a.1 < b.1 := ⟨fun a => String.lt_irrefl a.1⟩
  have hantisymm : Std.Antisymm fun a b : String × α => a.1 < b.1 :=
    ⟨fun a b hab hba => absurd (String.lt_trans hab hba) (String.lt_irrefl a.1)⟩
  refine List.Pairwise.eq_of_mem_iff hm hn fun ⟨k, v⟩ => ?_
  rw [← find?_eq_some_iff hm.nodup_names, ← find?_eq_some_iff hn.nodup_names, h]

theorem ofList_of_sorted (h : Sorted ms) : ofList ms = ms :=
  eq_of_find?_eq (sorted_ofList ms) h (find?_ofList h.nodup_names)

/-- Of different names, a look-up by name sees what the filter leaves of the member. -/
theorem find?_filter (h : ms.names.Nodup) (p : String × α → Bool) (k : String) :
    find? (List.filter p ms) k = (find? ms k).filter fun v => p (k, v) := by
  induction ms with
  | nil => rfl
  | cons m ms ih =>
    obtain ⟨j, w⟩ := m
    obtain ⟨hj, hms⟩ := List.nodup_cons.1 h
    rw [List.filter_cons, find?_cons]
    by_cases hk : j = k
    · subst hk
      rw [if_pos rfl, Option.filter_some]
      by_cases hp : p (j, w) = true
      · rw [if_pos hp, if_pos hp, find?_cons, if_pos rfl]
      · rw [if_neg hp, if_neg hp, ih hms, find?_eq_none hj, Option.filter_none]
    · rw [if_neg hk, ← ih hms]
      by_cases hp : p (j, w) = true
      · rw [if_pos hp, find?_cons, if_neg hk]
      · rw [if_neg hp]

theorem find?_without (h : ms.names.Nodup) (ks : List String) (k : String) :
    find? (ms.without ks) k = if k ∈ ks then none else find? ms k := by
  rw [without, find?_filter h]
  by_cases hk : k ∈ ks
  · simp [hk]
  · cases hfind : find? ms k <;> simp [hk]

theorem find?_append (ms ns : Members α) (k : String) :
    find? (ms ++ ns) k = (find? ms k).or (find? ns k) := by
  induction ms with
  | nil => rfl
  | cons m ms ih =>
    rw [List.cons_append, find?_cons, find?_cons, ih]
    by_cases hk : m.1 = k
    · rw [if_pos hk, if_pos hk, Option.some_or]
    · rw [if_neg hk, if_neg hk]

theorem find?_map (f : String → α → β) (ms : Members α) (k : String) :
    find? (List.map (fun m => (m.1, f m.1 m.2)) ms) k = (find? ms k).map (f k) := by
  induction ms with
  | nil => rfl
  | cons m ms ih =>
    rw [List.map_cons, find?_cons, find?_cons, ih]
    by_cases hk : m.1 = k
    · simp [hk]
    · simp [hk]

end Members

/-! ## Values in order -/

/-- All objects in the value have sorted members. -/
inductive Json.Canonical : Json → Prop
  | null : Canonical .null
  | bool (b : Bool) : Canonical (.bool b)
  | int (i : Int) : Canonical (.int i)
  | float (x : Float) : Canonical (.float x)
  | text (s : String) : Canonical (.text s)
  | array {vs : List Json} (h : ∀ v ∈ vs, Canonical v) : Canonical (.array vs)
  | object {ms : List (String × Json)} (hs : Members.Sorted ms) (h : ∀ m ∈ ms, Canonical m.2) :
      Canonical (.object ms)

theorem Json.canonical_object_iff {ms : Members Json} :
    (Json.object ms).Canonical ↔ Members.Sorted ms ∧ ∀ m ∈ ms, m.2.Canonical := by
  constructor
  · intro h
    cases h with
    | object hs h => exact ⟨hs, h⟩
  · exact fun h => .object h.1 h.2

theorem Json.Canonical.sorted {ms : Members Json} (h : (Json.object ms).Canonical) : Members.Sorted ms :=
  (canonical_object_iff.1 h).1

theorem Json.Canonical.of_find? {ms : Members Json} (h : (Json.object ms).Canonical) {k : String} {v : Json}
    (hv : ms.find? k = some v) : v.Canonical :=
  (canonical_object_iff.1 h).2 (k, v) ((Members.find?_eq_some_iff h.sorted.nodup_names k v).1 hv)

namespace Document

theorem ofMembers_eq_map (ms : Members Json) : ofMembers ms = List.map (fun m => (m.1, ofJson m.2)) ms := by
  induction ms with
  | nil => rfl
  | cons m ms ih => rw [ofMembers, ih, List.map_cons]

theorem itemValues?_ofItems {vs : List Json} (h : ∀ v ∈ vs, (ofJson v).value? = some v) :
    itemValues? (ofItems vs) = some vs := by
  induction vs with
  | nil => rfl
  | cons v vs ih =>
    obtain ⟨hv, hvs⟩ := List.forall_mem_cons.1 h
    rw [ofItems, itemValues?, hv, ih hvs]

theorem memberValues?_ofMembers {ms : Members Json} (h : ∀ m ∈ ms, (ofJson m.2).value? = some m.2) :
    memberValues? (ofMembers ms) = some ms := by
  induction ms with
  | nil => rfl
  | cons m ms ih =>
    obtain ⟨hm, hms⟩ := List.forall_mem_cons.1 h
    rw [ofMembers, memberValues?, hm, ih hms]

/-- **A value in order** is the value of the document that it makes. -/
theorem value?_ofJson {v : Json} (h : v.Canonical) : (ofJson v).value? = some v := by
  induction h with
  | array _ ih => rw [ofJson, value?, itemValues?_ofItems ih, Option.map_some]
  | object hs _ ih =>
    rw [ofJson, value?, memberValues?_ofMembers ih, Option.map_some, Json.ofMembers,
      Members.ofList_of_sorted hs]
  | _ => rfl

mutual

/-- **Every value that is read is in order.** -/
theorem canonical_of_value? : ∀ {d : Document} {v : Json}, d.value? = some v → v.Canonical
  | .null, _, h => Option.some.inj h ▸ .null
  | .bool b, _, h => Option.some.inj h ▸ .bool b
  | .int i, _, h => Option.some.inj h ▸ .int i
  | .float x, _, h => Option.some.inj h ▸ .float x
  | .text s, _, h => Option.some.inj h ▸ .text s
  | .array ds, v, h => by
    obtain ⟨vs, hvs, rfl⟩ := Option.map_eq_some_iff.1 h
    exact .array (canonical_of_itemValues? hvs)
  | .object ms, v, h => by
    obtain ⟨vs, hvs, rfl⟩ := Option.map_eq_some_iff.1 h
    refine .object (Members.sorted_ofList vs) fun m hm => ?_
    exact canonical_of_memberValues? hvs m (Members.mem_ofList_names hm)
  | .meaningless, _, h => nomatch h

theorem canonical_of_itemValues? : ∀ {ds : List Document} {vs : List Json}, itemValues? ds = some vs →
    ∀ v ∈ vs, v.Canonical
  | [], _, h => by
    obtain rfl := Option.some.inj h
    exact fun v hv => absurd hv List.not_mem_nil
  | d :: ds, vs, h => by
    unfold itemValues? at h
    split at h
    · next v vs' hv hvs =>
      obtain rfl := Option.some.inj h
      exact List.forall_mem_cons.2 ⟨canonical_of_value? hv, canonical_of_itemValues? hvs⟩
    · cases h

theorem canonical_of_memberValues? : ∀ {ms : List (String × Document)} {vs : List (String × Json)},
    memberValues? ms = some vs → ∀ m ∈ vs, m.2.Canonical
  | [], _, h => by
    obtain rfl := Option.some.inj h
    exact fun m hm => absurd hm List.not_mem_nil
  | (k, d) :: ms, vs, h => by
    unfold memberValues? at h
    split at h
    · next v vs' hv hvs =>
      obtain rfl := Option.some.inj h
      exact List.forall_mem_cons.2 ⟨canonical_of_value? hv, canonical_of_memberValues? hvs⟩
    · cases h

end

end Document

end LogQuery
