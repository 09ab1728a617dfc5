import LogQuery.Json.Basic
import Mathlib.Data.List.Forall2

/-!
# Values that are alike

JSON values compared member by member, with doubles compared by a relation of choice: by equality, which
makes alike the same as equal (`alike_eq_iff`), or by the comparison of numbers, for which the two
zeros are alike.

Objects are built from lists of named parts, some of them absent. When the names are fixed and differ
from each other, an object gives its parts back: two objects are alike just if their parts are
(`alike_ofOptional_iff`). Reading an object by names is what both directions rest on (`find?_ofList`).
-/

namespace LogQuery

namespace Members

variable {α : Type} {R : α → α → Prop}

/-- The same names in the same order, with related values. -/
def Alike (R : α → α → Prop) (ms ns : Members α) : Prop :=
  List.Forall₂ (fun m n => m.1 = n.1 ∧ R m.2 n.2) ms ns

@[simp] theorem alike_nil : Alike R ([] : Members α) [] := .nil

@[simp] theorem alike_cons_iff {m n : String × α} {ms ns : Members α} :
    Alike R (m :: ms) (n :: ns) ↔ (m.1 = n.1 ∧ R m.2 n.2) ∧ Alike R ms ns :=
  List.forall₂_cons

theorem alike_insert (k : String) {v w : α} (hv : R v w) {ms ns : Members α} (h : Alike R ms ns) :
    Alike R (insert k v ms) (insert k w ns) := by
  induction h with
  | nil => exact .cons ⟨rfl, hv⟩ .nil
  | @cons m n ms ns hmn h ih =>
    obtain ⟨k', v'⟩ := m
    obtain ⟨_, w'⟩ := n
    obtain ⟨rfl, hw⟩ := hmn
    unfold insert
    split
    · exact .cons ⟨rfl, hv⟩ (.cons ⟨rfl, hw⟩ h)
    · split
      · exact .cons ⟨rfl, hv⟩ h
      · exact .cons ⟨rfl, hw⟩ ih

theorem alike_ofList {ps qs : Members α} (h : Alike R ps qs) : Alike R (ofList ps) (ofList qs) := by
  have go : ∀ {ps qs : Members α}, Alike R ps qs → ∀ {ms ns : Members α}, Alike R ms ns →
      Alike R (ps.foldl (fun ms p => insert p.1 p.2 ms) ms)
        (qs.foldl (fun ms p => insert p.1 p.2 ms) ns) := by
    intro ps qs h
    induction h with
    | nil => exact id
    | @cons p q ps qs hpq _ ih =>
      obtain ⟨k, v⟩ := p
      obtain ⟨_, w⟩ := q
      obtain ⟨rfl, hv⟩ := hpq
      exact fun hm => ih (alike_insert _ hv hm)
  exact go h .nil

/-! ## Reading by names -/

theorem find?_cons (m : String × α) (ms : Members α) (k : String) :
    find? (m :: ms) k = if m.1 = k then some m.2 else find? ms k := by
  by_cases h : m.1 = k <;> simp [find?, h]

theorem find?_eq_none {ms : Members α} {k : String} (h : k ∉ ms.names) : find? ms k = none := by
  induction ms with
  | nil => rfl
  | cons m ms ih =>
    have hm : m.1 ≠ k := fun hm => h (hm ▸ List.mem_cons_self)
    rw [find?_cons, if_neg hm, ih fun hk => h (List.mem_cons_of_mem _ hk)]

theorem alike_find? {ms ns : Members α} (h : Alike R ms ns) (k : String) :
    Option.Rel R (find? ms k) (find? ns k) := by
  induction h with
  | nil => exact .none
  | @cons m n ms ns hmn _ ih =>
    rw [find?_cons, find?_cons, ← hmn.1]
    split
    · exact .some hmn.2
    · exact ih

/-- Of pairs with different names, each counts. -/
theorem find?_ofList {ps : Members α} (hd : ps.names.Nodup) (k : String) :
    (ofList ps).find? k = find? ps k := by
  have go : ∀ (ps : Members α), ps.names.Nodup → ∀ ms : Members α,
      find? (ps.foldl (fun ms p => insert p.1 p.2 ms) ms) k = (find? ps k).or (find? ms k) := by
    intro ps
    induction ps with
    | nil => exact fun _ _ => rfl
    | cons p ps ih =>
      intro hd ms
      obtain ⟨hp, hps⟩ := List.nodup_cons.1 hd
      rw [List.foldl_cons, ih hps, find?_insert, find?_cons]
      by_cases hk : p.1 = k
      · subst hk
        simp [find?_eq_none hp]
      · simp [hk, Ne.symm hk]
  rw [ofList, go ps hd]
  simp [find?]

/-- The pairs that are present. -/
def present (ps : Members (Option α)) : Members α := ps.filterMap fun p => p.2.map fun v => (p.1, v)

theorem ofOptional_eq (ps : Members (Option α)) : ofOptional ps = ofList (present ps) := rfl

theorem names_present_sublist (ps : Members (Option α)) : (present ps).names.Sublist ps.names := by
  induction ps with
  | nil => exact .slnil
  | cons p ps ih =>
    obtain ⟨k, v⟩ := p
    cases v with
    | none => exact ih.cons k
    | some v => exact ih.cons_cons k

theorem find?_present {ps : Members (Option α)} (hd : ps.names.Nodup) (k : String) :
    find? (present ps) k = (find? ps k).join := by
  induction ps with
  | nil => rfl
  | cons p ps ih =>
    obtain ⟨j, v⟩ := p
    obtain ⟨hj, hps⟩ := List.nodup_cons.1 hd
    rw [find?_cons]
    cases v with
    | none =>
      change find? (present ps) k = _
      by_cases hk : j = k
      · subst hk
        simp [ih hps, find?_eq_none hj]
      · simp [ih hps, hk]
    | some v =>
      change find? ((j, v) :: present ps) k = _
      rw [find?_cons]
      by_cases hk : j = k <;> simp [ih hps, hk]

theorem find?_ofOptional {ps : Members (Option α)} (hd : ps.names.Nodup) (k : String) :
    (ofOptional ps).find? k = (find? ps k).join := by
  rw [ofOptional_eq, find?_ofList (hd.sublist (names_present_sublist ps)), find?_present hd]

theorem alike_present {ps qs : Members (Option α)} (h : Alike (Option.Rel R) ps qs) :
    Alike R (present ps) (present qs) := by
  refine List.rel_filterMap (fun p q hpq => ?_) h
  obtain ⟨k, a⟩ := p
  obtain ⟨_, b⟩ := q
  obtain ⟨rfl, hab⟩ := hpq
  cases hab with
  | none => exact .none
  | some hv => exact .some ⟨rfl, hv⟩

/-! ## Objects of fixed names -/

theorem alike_of_find? {ps qs : Members (Option α)} (hn : ps.names = qs.names) (hd : ps.names.Nodup)
    (h : ∀ k, Option.Rel R (find? ps k).join (find? qs k).join) : Alike (Option.Rel R) ps qs := by
  induction ps generalizing qs with
  | nil =>
    obtain rfl := List.map_eq_nil_iff.1 hn.symm
    exact .nil
  | cons p ps ih =>
    obtain ⟨q, qs, rfl, hpq, hqs⟩ := List.map_eq_cons_iff.1 hn.symm
    obtain ⟨hk, hks⟩ := List.nodup_cons.1 hd
    have hk' : p.1 ∉ names qs := by
      rw [names, hqs]
      exact hk
    refine .cons ⟨hpq.symm, by simpa [find?_cons, hpq] using h p.1⟩ (ih hqs.symm hks fun j => ?_)
    by_cases hj : p.1 = j
    · rw [← hj, find?_eq_none hk, find?_eq_none hk']
      exact .none
    · simpa [find?_cons, hpq, hj] using h j

/-- **An object of different names gives its parts back.** -/
theorem alike_ofOptional_iff {ks : List String} (hd : ks.Nodup) {ps qs : Members (Option α)}
    (hp : ps.names = ks) (hq : qs.names = ks) :
    Alike R (ofOptional ps) (ofOptional qs) ↔ Alike (Option.Rel R) ps qs := by
  have hdp : ps.names.Nodup := hp ▸ hd
  have hdq : qs.names.Nodup := hq ▸ hd
  constructor
  · intro h
    refine alike_of_find? (hp.trans hq.symm) hdp fun k => ?_
    have hk := alike_find? h k
    rwa [ofOptional_eq, ofOptional_eq, find?_ofList (hdp.sublist (names_present_sublist ps)),
      find?_ofList (hdq.sublist (names_present_sublist qs)), find?_present hdp, find?_present hdq] at hk
  · exact fun h => alike_ofList (alike_present h)

theorem ofOptional_some (ps : Members α) : ofOptional (ps.map fun p => (p.1, some p.2)) = ofList ps := by
  rw [ofOptional_eq, present, List.filterMap_map]
  exact congrArg ofList List.filterMap_some

/-- The same for objects of which all parts are present. -/
theorem alike_ofList_iff {ks : List String} (hd : ks.Nodup) {ps qs : Members α}
    (hp : ps.names = ks) (hq : qs.names = ks) : Alike R (ofList ps) (ofList qs) ↔ Alike R ps qs := by
  have hnames : ∀ rs : Members α, names (rs.map fun p => (p.1, some p.2)) = rs.names := fun rs => by
    simp [names]
  rw [← ofOptional_some, ← ofOptional_some,
    alike_ofOptional_iff hd ((hnames ps).trans hp) ((hnames qs).trans hq)]
  simp [Alike, List.forall₂_map_left_iff, List.forall₂_map_right_iff]

end Members

/-! ## JSON values -/

namespace Json

variable (same : Float → Float → Prop)

mutual

/-- Equal values, but for doubles that `same` relates. -/
def Alike : Json → Json → Prop
  | null, null => True
  | bool a, bool b => a = b
  | int a, int b => a = b
  | float x, float y => same x y
  | text a, text b => a = b
  | array as, array bs => ItemsAlike as bs
  | object ms, object ns => MembersAlike ms ns
  | _, _ => False

def ItemsAlike : List Json → List Json → Prop
  | [], [] => True
  | a :: as, b :: bs => Alike a b ∧ ItemsAlike as bs
  | _, _ => False

def MembersAlike : List (String × Json) → List (String × Json) → Prop
  | [], [] => True
  | (k, a) :: ms, (j, b) :: ns => (k = j ∧ Alike a b) ∧ MembersAlike ms ns
  | _, _ => False

end

theorem itemsAlike_iff : ∀ as bs : List Json, ItemsAlike same as bs ↔ List.Forall₂ (Alike same) as bs
  | [], [] => by simp [ItemsAlike]
  | [], _ :: _ => by simp [ItemsAlike]
  | _ :: _, [] => by simp [ItemsAlike]
  | a :: as, b :: bs => by rw [ItemsAlike, itemsAlike_iff as bs, List.forall₂_cons]

theorem membersAlike_iff :
    ∀ ms ns : List (String × Json), MembersAlike same ms ns ↔ Members.Alike (Alike same) ms ns
  | [], [] => by simp [MembersAlike, Members.Alike]
  | [], _ :: _ => by simp [MembersAlike, Members.Alike]
  | _ :: _, [] => by simp [MembersAlike, Members.Alike]
  | (k, a) :: ms, (j, b) :: ns => by
    rw [MembersAlike, membersAlike_iff ms ns, Members.alike_cons_iff]

mutual

/-- Equality is the likeness of values whose doubles are equal. -/
theorem alike_eq_iff : ∀ a b : Json, Alike Eq a b ↔ a = b
  | null, b => by cases b <;> simp [Alike]
  | bool _, b => by cases b <;> simp [Alike]
  | int _, b => by cases b <;> simp [Alike]
  | float _, b => by cases b <;> simp [Alike]
  | text _, b => by cases b <;> simp [Alike]
  | array as, b => by
    cases b with
    | array bs => rw [Alike, itemsAlike_eq_iff as bs, array.injEq]
    | _ => simp [Alike]
  | object ms, b => by
    cases b with
    | object ns => rw [Alike, membersAlike_eq_iff ms ns, object.injEq]
    | _ => simp [Alike]

theorem itemsAlike_eq_iff : ∀ as bs : List Json, ItemsAlike Eq as bs ↔ as = bs
  | [], [] => by simp [ItemsAlike]
  | [], _ :: _ => by simp [ItemsAlike]
  | _ :: _, [] => by simp [ItemsAlike]
  | a :: as, b :: bs => by
    rw [ItemsAlike, alike_eq_iff a b, itemsAlike_eq_iff as bs, List.cons.injEq]

theorem membersAlike_eq_iff :
    ∀ ms ns : List (String × Json), MembersAlike Eq ms ns ↔ ms = ns
  | [], [] => by simp [MembersAlike]
  | [], _ :: _ => by simp [MembersAlike]
  | _ :: _, [] => by simp [MembersAlike]
  | (k, a) :: ms, (j, b) :: ns => by
    rw [MembersAlike, alike_eq_iff a b, membersAlike_eq_iff ms ns, List.cons.injEq, Prod.mk.injEq]

end

/-! ## Values made of parts -/

variable {same}

theorem alike_bool_iff {a b : Bool} : Alike same (.bool a) (.bool b) ↔ a = b := by rw [Alike]

theorem alike_text_iff {a b : String} : Alike same (.text a) (.text b) ↔ a = b := by rw [Alike]

theorem alike_ofFloat_iff {x y : Float} (hx : x.isFinite = true) (hy : y.isFinite = true) :
    Alike same (ofFloat x) (ofFloat y) ↔ same x y := by
  simp [ofFloat, hx, hy, Alike]

theorem alike_ofOptional_iff {ks : List String} (hd : ks.Nodup) {ps qs : Members (Option Json)}
    (hp : ps.names = ks) (hq : qs.names = ks) :
    Alike same (ofOptional ps) (ofOptional qs) ↔ Members.Alike (Option.Rel (Alike same)) ps qs := by
  rw [ofOptional, ofOptional, Alike, membersAlike_iff, Members.alike_ofOptional_iff hd hp hq]

theorem alike_ofMembers_iff {ks : List String} (hd : ks.Nodup) {ps qs : Members Json}
    (hp : ps.names = ks) (hq : qs.names = ks) :
    Alike same (ofMembers ps) (ofMembers qs) ↔ Members.Alike (Alike same) ps qs := by
  rw [ofMembers, ofMembers, Alike, membersAlike_iff, Members.alike_ofList_iff hd hp hq]

/-- An object with one member, whose name may be any. -/
theorem alike_single_iff {k j : String} {a b : Json} :
    Alike same (ofMembers [(k, a)]) (ofMembers [(j, b)]) ↔ k = j ∧ Alike same a b := by
  simp [ofMembers, Members.ofList, Members.insert, Alike, MembersAlike]

theorem alike_named_iff {k : String} {a b : Json} :
    Alike same (ofMembers [(k, a)]) (ofMembers [(k, b)]) ↔ Alike same a b := by
  rw [alike_single_iff]
  exact and_iff_right rfl

end Json

/-- An optional part of which each value has its own form. -/
theorem rel_map_iff {α β : Type} {R : β → β → Prop} {f : α → β} (hf : ∀ a b, R (f a) (f b) ↔ a = b)
    {a b : Option α} : Option.Rel R (a.map f) (b.map f) ↔ a = b := by
  cases a <;> cases b <;> simp [hf]

end LogQuery
