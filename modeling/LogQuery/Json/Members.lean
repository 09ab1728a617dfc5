/-!
# Members of an object

The members of a JSON object, and of any table with named entries, are a list of pairs in the order
of their names by code point, each name once. A list that is built with `insert` stays so; inserting
a name again replaces its value.

Main statements: what `find?` sees after `insert` (`find?_insert`), and that `ofList` has sorted
names (`sorted_ofList`).
-/

namespace LogQuery

/-- Pairs of a name and a value. -/
abbrev Members (α : Type) := List (String × α)

namespace Members

variable {α : Type}

def insert (k : String) (v : α) : Members α → Members α
  | [] => [(k, v)]
  | (k', v') :: ms =>
    if k < k' then (k, v) :: (k', v') :: ms
    else if k = k' then (k, v) :: ms
    else (k', v') :: insert k v ms

/-- The members of a list of pairs; of pairs with the same name the last one counts. -/
def ofList (pairs : Members α) : Members α :=
  List.foldl (fun ms p => insert p.1 p.2 ms) [] pairs

/-- The members that are present. -/
def ofOptional (pairs : Members (Option α)) : Members α :=
  ofList (pairs.filterMap fun p => p.2.map fun v => (p.1, v))

def find? (ms : Members α) (k : String) : Option α := (List.find? (fun m => m.1 = k) ms).map (·.2)

def names (ms : Members α) : List String := List.map (·.1) ms

/-- The members whose name is not one of `ks`. -/
def without (ks : List String) (ms : Members α) : Members α :=
  List.filter (fun m => !ks.contains m.1) ms

/-- Names strictly increase. -/
def Sorted (ms : Members α) : Prop := ms.Pairwise fun a b => a.1 < b.1

/-! ## Lookup after insertion -/

theorem find?_insert (k : String) (v : α) (ms : Members α) (j : String) :
    (insert k v ms).find? j = if j = k then some v else ms.find? j := by
  induction ms with
  | nil => by_cases h : j = k <;> simp [insert, find?, h, eq_comm]
  | cons m ms ih =>
    obtain ⟨k', v'⟩ := m
    unfold insert
    split
    · by_cases h : j = k <;> simp [find?, h, eq_comm]
    · split
      · next h =>
        subst h
        by_cases h : j = k <;> simp [find?, h, eq_comm]
      · next hne =>
        have ih' := ih
        simp only [find?] at ih'
        by_cases h : k' = j
        · subst h
          simp [find?, Ne.symm hne]
        · simp [find?, h, ih']

theorem mem_insert {k : String} {v : α} {ms : Members α} {m : String × α} :
    m ∈ insert k v ms → m = (k, v) ∨ m ∈ ms := by
  induction ms with
  | nil => simp [insert]
  | cons m' ms ih =>
    obtain ⟨k', v'⟩ := m'
    unfold insert
    intro h
    split at h
    · simpa using h
    · split at h
      · rcases List.mem_cons.1 h with h | h
        · exact .inl h
        · exact .inr (List.mem_cons_of_mem _ h)
      · rcases List.mem_cons.1 h with h | h
        · exact .inr (h ▸ List.mem_cons_self)
        · exact (ih h).imp_right (List.mem_cons_of_mem _)

theorem sorted_insert {k : String} {v : α} {ms : Members α} (h : Sorted ms) :
    Sorted (insert k v ms) := by
  induction ms with
  | nil => simp [insert, Sorted]
  | cons m ms ih =>
    obtain ⟨k', v'⟩ := m
    obtain ⟨hlt, hs⟩ := List.pairwise_cons.1 h
    unfold insert
    split
    · next hk =>
      refine List.pairwise_cons.2 ⟨fun m hm => ?_, h⟩
      rcases List.mem_cons.1 hm with rfl | hm
      · exact hk
      · exact String.lt_trans hk (hlt m hm)
    · split
      · next hk => exact List.pairwise_cons.2 ⟨fun m hm => hk ▸ hlt m hm, hs⟩
      · next hn hne =>
        refine List.pairwise_cons.2 ⟨fun m hm => ?_, ih hs⟩
        rcases mem_insert hm with rfl | hm
        · exact String.not_le.1 fun h => hne (String.le_antisymm h (String.not_lt.1 hn))
        · exact hlt m hm

theorem sorted_ofList (pairs : Members α) : Sorted (ofList pairs) := by
  have go : ∀ (ps acc : Members α), Sorted acc →
      Sorted (ps.foldl (fun ms p => insert p.1 p.2 ms) acc) := by
    intro ps
    induction ps with
    | nil => exact fun _ h => h
    | cons p ps ih => exact fun acc h => ih _ (sorted_insert h)
  exact go pairs [] List.Pairwise.nil

end Members

end LogQuery
