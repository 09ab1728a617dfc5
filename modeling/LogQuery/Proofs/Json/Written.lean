import LogQuery.Proofs.Json.Parts

/-!
# Reading what was written

An object that is written from named parts is read part by part: each is found under its name, as it was
written (`exists_parts?_ofMembers`, `exists_parts?_ofOptional`). Lists are read item by item, and integers of a
word are read as they were.
-/

namespace LogQuery

namespace Document

/-- An object that was written from optional parts of different names gives them back under these names. -/
theorem exists_parts?_ofOptional (pairs : Members (Option Json)) {known : List String}
    (hk : pairs.names = known) (hd : known.Nodup) :
    ∃ parts, (ofJson (.ofOptional pairs)).parts? known = some parts ∧
      ∀ name ∈ known, Members.find? parts name = (pairs.find? name).join.map ofJson := by
  obtain ⟨parts, hparts, hfind⟩ := exists_parts? (Members.sorted_ofList (Members.present pairs)) known
  refine ⟨parts, hparts, fun name hname => ?_⟩
  rw [hfind name hname, ← Members.ofOptional_eq, Members.find?_ofOptional (hk ▸ hd)]

theorem exists_parts?_ofMembers (pairs : Members Json) {known : List String} (hk : pairs.names = known)
    (hd : known.Nodup) :
    ∃ parts, (ofJson (.ofMembers pairs)).parts? known = some parts ∧
      ∀ name ∈ known, Members.find? parts name = (pairs.find? name).map ofJson := by
  obtain ⟨parts, hparts, hfind⟩ := exists_parts? (Members.sorted_ofList pairs) known
  refine ⟨parts, hparts, fun name hname => ?_⟩
  rw [hfind name hname, Members.find?_ofList (hk ▸ hd)]

theorem value?_ofMembers {pairs : Members Json} (h : ∀ m ∈ pairs, m.2.Canonical) :
    (ofJson (.ofMembers pairs)).value? = some (.ofMembers pairs) :=
  value?_ofJson (.object (Members.sorted_ofList pairs) fun m hm => h m (Members.mem_ofList_names hm))

/-- Items that are each read back are so as a list. -/
theorem list?_ofItems {α : Type} {decode? : Document → Option α} {toJson : α → Json} {settled : α → α}
    {as : List α} (h : ∀ a ∈ as, decode? (.ofJson (toJson a)) = some (settled a)) :
    list? decode? (.ofJson (.array (as.map toJson))) = some (as.map settled) := by
  have hitems : (ofItems (as.map toJson)).mapM decode? = some (as.map settled) := by
    induction as with
    | nil => rfl
    | cons a as ih =>
      obtain ⟨ha, has⟩ := List.forall_mem_cons.1 h
      simp [ofItems, ha, ih has]
  rw [ofJson, list?, hitems]

theorem uint64?_ofJson (n : UInt64) : uint64? (.ofJson (.int n.toNat)) = some n := by
  have hlower : (0 : Int) ≤ n.toNat := Int.natCast_nonneg _
  have hupper : (n.toNat : Int) ≤ UInt64.size - 1 := by
    have h := n.toNat_lt_size
    omega
  rw [ofJson, uint64?, intWithin?, if_pos ⟨hlower, hupper⟩, Option.map_some, Int.toNat_natCast, UInt64.ofNat_toNat]

theorem uint32?_ofJson (n : UInt32) : uint32? (.ofJson (.int n.toNat)) = some n := by
  have hlower : (0 : Int) ≤ n.toNat := Int.natCast_nonneg _
  have hupper : (n.toNat : Int) ≤ UInt32.size - 1 := by
    have h := n.toNat_lt_size
    omega
  rw [ofJson, uint32?, intWithin?, if_pos ⟨hlower, hupper⟩, Option.map_some, Int.toNat_natCast, UInt32.ofNat_toNat]

end Document

end LogQuery
