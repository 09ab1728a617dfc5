import LogQuery.Proofs.Json.Canonical

/-!
# Objects made of parts

An object of known parts is read part by part: a part may be absent or `null`, else its value must be one of
its kind, and the members with other names are kept. A layout lists the parts with their kinds. A value that is
read through a layout is written back without the `null`s among the known parts, and what is written is read
back the same (`Layout.toJson_of_decode?`, `Layout.decode?_clean`). So a layout is itself a kind of part
(`Layout.kind`), and objects can be parts of objects.
-/

namespace LogQuery

/-! ## Kinds of values -/

namespace Json

def IsText (v : Json) : Prop := ∃ s, v = .text s

def IsBool (v : Json) : Prop := ∃ b, v = .bool b

/-- An integer between the bounds, both included. -/
def IsIntWithin (lo hi : Int) (v : Json) : Prop := ∃ i, v = .int i ∧ lo ≤ i ∧ i ≤ hi

def IsObject (v : Json) : Prop := ∃ ms, v = .object ms

def isNull : Json → Bool
  | .null => true
  | _ => false

/-- A member that is `null` counts as absent. -/
def given (member : Option Json) : Option Json := member.filter fun v => !v.isNull

@[simp] theorem given_none : given none = none := rfl

@[simp] theorem given_null : given (some .null) = none := rfl

theorem given_of_ne_null {v : Json} (h : v ≠ .null) : given (some v) = some v := by
  cases v <;> first | rfl | exact absurd rfl h

theorem eq_some_of_given {member : Option Json} {v : Json} (h : given member = some v) : member = some v :=
  (Option.filter_eq_some_iff.1 h).1

/-- Each of these members is absent, `null`, or as its kind demands. -/
def HasParts (parts : List (String × (Json → Prop))) (v : Json) : Prop :=
  ∃ ms, v = .object ms ∧ ∀ p ∈ parts, ∀ w, Members.find? ms p.1 = some w → w = .null ∨ p.2 w

end Json

/-- A kind of part: how its values are read and written, which values are of the kind, and what is left of a
value when what reading passes over is dropped. -/
structure PartKind (α : Type) where
  decode? : Document → Option α
  toJson : α → Json
  Fits : Json → Prop
  clean : Json → Json
  fits_iff : ∀ {v}, v.Canonical → (Fits v ↔ ∃ a, decode? (.ofJson v) = some a)
  toJson_of_decode? : ∀ {v a}, v.Canonical → decode? (.ofJson v) = some a → toJson a = clean v
  decode?_clean : ∀ {v a}, v.Canonical → decode? (.ofJson v) = some a → decode? (.ofJson (clean v)) = some a
  canonical_clean : ∀ {v a}, v.Canonical → decode? (.ofJson v) = some a → (clean v).Canonical
  clean_ne_null : ∀ {v a}, v.Canonical → decode? (.ofJson v) = some a → clean v ≠ .null

namespace PartKind

/-- A kind of which every value is read and written as it is. -/
def plain {α : Type} (decode? : Document → Option α) (toJson : α → Json) (Fits : Json → Prop)
    (hdecode : ∀ {v a}, v.Canonical → (decode? (.ofJson v) = some a ↔ v = toJson a))
    (hfits : ∀ {v}, Fits v ↔ ∃ a, v = toJson a) (hnull : ∀ a, toJson a ≠ .null) : PartKind α where
  decode? := decode?
  toJson := toJson
  Fits := Fits
  clean := id
  fits_iff hv := hfits.trans (exists_congr fun _ => (hdecode hv).symm)
  toJson_of_decode? hv h := ((hdecode hv).1 h).symm
  decode?_clean _ h := h
  canonical_clean hv _ := hv
  clean_ne_null hv h := (hdecode hv).1 h ▸ hnull _

def text : PartKind String :=
  plain Document.text? .text Json.IsText
    (fun {v _} _ => by cases v <;> simp [Document.ofJson, Document.text?]) Iff.rfl (fun _ => nofun)

def bool : PartKind Bool :=
  plain Document.bool? .bool Json.IsBool
    (fun {v _} _ => by cases v <;> simp [Document.ofJson, Document.bool?]) Iff.rfl (fun _ => nofun)

/-- Integers that fit a word. -/
def integer {α : Type} (lo hi : Int) (ofInt : Int → α) (toInt : α → Int) (hof : ∀ a, ofInt (toInt a) = a)
    (hto : ∀ i, lo ≤ i → i ≤ hi → toInt (ofInt i) = i) (hlo : ∀ a, lo ≤ toInt a) (hhi : ∀ a, toInt a ≤ hi) :
    PartKind α :=
  plain (fun d => (d.intWithin? lo hi).map ofInt) (fun a => .int (toInt a)) (Json.IsIntWithin lo hi)
    (fun {v a} _ => by
      cases v with
      | int i =>
        rw [Document.ofJson, Document.intWithin?, Json.int.injEq]
        constructor
        · intro h
          obtain ⟨j, hj, rfl⟩ := Option.map_eq_some_iff.1 h
          split at hj
          · next hi =>
            obtain rfl := Option.some.inj hj
            exact (hto i hi.1 hi.2).symm
          · cases hj
        · rintro rfl
          rw [if_pos ⟨hlo a, hhi a⟩, Option.map_some, hof]
      | _ => simp [Document.ofJson, Document.intWithin?])
    ⟨fun ⟨i, hv, h⟩ => ⟨ofInt i, by rw [hto i h.1 h.2, hv]⟩, fun ⟨a, hv⟩ => ⟨toInt a, hv, hlo a, hhi a⟩⟩
    (fun _ => nofun)

def int32 : PartKind Int32 :=
  integer Int32.minValue.toInt Int32.maxValue.toInt Int32.ofInt Int32.toInt Int32.ofInt_toInt
    (fun _ hlo hhi => Int32.toInt_ofInt_of_le (Int32.toInt_minValue ▸ hlo)
      (Int.lt_of_le_sub_one (Int32.toInt_maxValue ▸ hhi)))
    Int32.minValue_le_toInt Int32.toInt_le

def int64 : PartKind Int64 :=
  integer Int64.minValue.toInt Int64.maxValue.toInt Int64.ofInt Int64.toInt Int64.ofInt_toInt
    (fun _ hlo hhi => Int64.toInt_ofInt_of_le (Int64.toInt_minValue ▸ hlo)
      (Int.lt_of_le_sub_one (Int64.toInt_maxValue ▸ hhi)))
    Int64.minValue_le_toInt Int64.toInt_le

theorem table?_ofJson_iff {v : Json} (hv : v.Canonical) (ms : Members Json) :
    Document.table? (.ofJson v) = some ms ↔ v = .object ms := by
  cases hv with
  | object hs h =>
    have hvalue := Document.memberValues?_ofMembers fun m hm => Document.value?_ofJson (h m hm)
    simp [Document.ofJson, Document.table?, hvalue, Members.ofList_of_sorted hs]
  | _ => simp [Document.ofJson, Document.table?]

def table : PartKind (Members Json) :=
  plain Document.table? .object Json.IsObject (fun hv => table?_ofJson_iff hv _) Iff.rfl (fun _ => nofun)

/-! ## Reading one part -/

variable {α : Type}

/-- The part of an object from its member, which may be absent or `null`. -/
def read? (k : PartKind α) : Option Json → Option (Option α)
  | none => some none
  | some v => Document.nullable? k.decode? (.ofJson v)

/-- The member has been read as the part: an absent or `null` one as no part. -/
def Reads (k : PartKind α) (member : Option Json) (part : Option α) : Prop :=
  Option.Rel (fun v a => k.decode? (.ofJson v) = some a) (Json.given member) part

variable {k : PartKind α} {member : Option Json} {part : Option α}

/-- Either there is nothing to read and no part, or a value has been read. -/
theorem Reads.cases (h : k.Reads member part) :
    (Json.given member = none ∧ part = none) ∨
      ∃ v a, Json.given member = some v ∧ part = some a ∧ k.decode? (.ofJson v) = some a := by
  rw [Reads] at h
  generalize Json.given member = value at h ⊢
  cases h with
  | none => exact .inl ⟨rfl, rfl⟩
  | some ha => exact .inr ⟨_, _, rfl, rfl, ha⟩

theorem read?_eq_some_iff : k.read? member = some part ↔ k.Reads member part := by
  rw [Reads]
  cases member with
  | none => cases part <;> simp [read?]
  | some v =>
    by_cases hv : v = .null
    · subst hv
      cases part <;> simp [read?, Document.ofJson, Document.nullable?]
    · have hread : k.read? (some v) = (k.decode? (.ofJson v)).map some := by
        cases v <;> first | rfl | exact absurd rfl hv
      rw [hread, Json.given_of_ne_null hv]
      cases part <;> simp

/-- A member is read as some part just if it is absent, `null`, or of the kind. -/
theorem exists_reads_iff (hc : ∀ v, member = some v → v.Canonical) :
    (∃ part, k.Reads member part) ↔ ∀ v, member = some v → v = .null ∨ k.Fits v := by
  cases member with
  | none => exact ⟨fun _ => nofun, fun _ => ⟨none, .none⟩⟩
  | some v =>
    by_cases hv : v = .null
    · subst hv
      exact ⟨fun _ w hw => .inl (Option.some.inj hw).symm, fun _ => ⟨none, .none⟩⟩
    · have hgiven := Json.given_of_ne_null hv
      constructor
      · rintro ⟨part, hread⟩ w hw
        obtain rfl := Option.some.inj hw
        rw [Reads, hgiven] at hread
        obtain ⟨ha⟩ := hread
        exact .inr ((k.fits_iff (hc v rfl)).2 ⟨_, ha⟩)
      · intro h
        obtain ⟨a, ha⟩ := (k.fits_iff (hc v rfl)).1 ((h v rfl).resolve_left hv)
        refine ⟨some a, ?_⟩
        rw [Reads, hgiven]
        exact .some ha

end PartKind

/-! ## Known and other members -/

namespace Document

/-- What is set apart by their names in a document is set apart in the value. -/
theorem filter_ofMembers (p : String → Bool) (ms : Members Json) :
    (ofMembers ms).filter (fun m => p m.1) = ofMembers (ms.filter fun m => p m.1) := by
  rw [ofMembers_eq_map, ofMembers_eq_map, List.filter_map]
  rfl

theorem find?_ofMembers (ms : Members Json) (k : String) :
    Members.find? (ofMembers ms) k = (ms.find? k).map ofJson := by
  rw [ofMembers_eq_map]
  exact Members.find?_map (fun _ => ofJson) ms k

variable {ms : Members Json}

/-- A value has no name twice. -/
theorem knownMembers?_ofMembers (h : Members.Sorted ms) (known : List String) :
    knownMembers? known (ofMembers ms) = some (ofMembers (ms.filter fun m => known.contains m.1)) := by
  have hrepeated : hasRepeated known (ofMembers ms) = false := by
    rw [hasRepeated, List.any_eq_false]
    intro k _
    have hcount : (ofMembers ms).countP (fun m => m.1 = k) = ms.names.count k := by
      rw [ofMembers_eq_map, List.countP_map, Members.names, List.count, List.countP_map]
      rfl
    have hle := List.nodup_iff_count_le_one.1 h.nodup_names k
    simp [hcount, hle]
  rw [knownMembers?, hrepeated, ← filter_ofMembers]
  rfl

theorem additional?_ofMembers (h : (Json.object ms).Canonical) (known : List String) :
    additional? known (ofMembers ms) = some (ms.without known) := by
  obtain ⟨hs, hvalues⟩ := Json.canonical_object_iff.1 h
  have hread : memberValues? (ofMembers (ms.without known)) = some (ms.without known) :=
    memberValues?_ofMembers fun m hm => value?_ofJson (hvalues m (List.mem_of_mem_filter hm))
  rw [additional?, filter_ofMembers fun k => !known.contains k]
  change (memberValues? (ofMembers (ms.without known))).map _ = _
  rw [hread, Option.map_some]
  exact congrArg some (Members.ofList_of_sorted (hs.filter _))

end Document

/-- A known name is looked up among the known members as among all. -/
theorem Document.find?_knownMembers {known : List String} {name : String} (hname : name ∈ known)
    {ms : Members Json} (h : Members.Sorted ms) :
    Members.find? (ofMembers (ms.filter fun m => known.contains m.1)) name = (ms.find? name).map ofJson := by
  have hfind : Members.find? (ms.filter fun m => known.contains m.1) name = ms.find? name := by
    rw [Members.find?_filter h.nodup_names]
    cases ms.find? name <;> simp [hname]
  rw [find?_ofMembers, hfind]

/-- A part is read from the known members as from all. -/
theorem PartKind.optional?_ofMembers {α : Type} (k : PartKind α) {known : List String} {name : String}
    (hname : name ∈ known) {ms : Members Json} (h : Members.Sorted ms) :
    Members.optional? (Document.ofMembers (ms.filter fun m => known.contains m.1)) name none
      (Document.nullable? k.decode?) = k.read? (ms.find? name) := by
  rw [Members.optional?, Document.find?_knownMembers hname h]
  cases ms.find? name <;> rfl

/-- An object gives its known parts, each under its name. -/
theorem Document.exists_parts? {ms : Members Json} (h : Members.Sorted ms) (known : List String) :
    ∃ parts, (ofJson (.object ms)).parts? known = some parts ∧
      ∀ name ∈ known, Members.find? parts name = (ms.find? name).map ofJson :=
  ⟨_, knownMembers?_ofMembers h known, fun _ hname => find?_knownMembers hname h⟩

/-! ## Layouts -/

/-- The members without the `null`s among those with the names `known`. -/
def Members.withoutNulls (known : List String) (ms : Members Json) : Members Json :=
  List.filter (fun m => !(known.contains m.1 && m.2.isNull)) ms

/-- A known part of the values of `ρ`: its name, its kind, and where they keep it. -/
structure Slot (ρ : Type) where
  name : String
  {α : Type}
  kind : PartKind α
  get : ρ → Option α

namespace Slot

variable {ρ : Type}

/-- The part as a member that is absent if there is none. -/
def member (s : Slot ρ) (r : ρ) : String × Option Json := (s.name, (s.get r).map s.kind.toJson)

/-- The part has been read from these members. -/
def Holds (s : Slot ρ) (ms : Members Json) (r : ρ) : Prop := s.kind.Reads (ms.find? s.name) (s.get r)

end Slot

/-- How the values of `ρ` are laid out in an object: in known parts, beside which other members are kept. -/
structure Layout (ρ : Type) where
  slots : List (Slot ρ)
  additional : ρ → Members Json
  decode? : Document → Option ρ
  toJson : ρ → Json
  nodup_names : (slots.map Slot.name).Nodup
  toJson_eq : ∀ r, toJson r =
    .ofOptional (slots.map (·.member r) ++ (additional r).map fun m => (m.1, some m.2))
  isObject_of_decode? : ∀ {v r}, decode? (.ofJson v) = some r → v.IsObject
  decode?_eq_some_iff : ∀ {ms : Members Json} {r}, (Json.object ms).Canonical →
    (decode? (.ofJson (.object ms)) = some r ↔
      (∀ s ∈ slots, s.Holds ms r) ∧ additional r = ms.without (slots.map Slot.name))
  exists_decode? : ∀ {ms : Members Json}, (Json.object ms).Canonical →
    (∀ s ∈ slots, ∃ part, s.kind.Reads (ms.find? s.name) part) → ∃ r, decode? (.ofJson (.object ms)) = some r

namespace Layout

variable {ρ : Type} (l : Layout ρ)

def names : List String := l.slots.map Slot.name

/-- The value of a member without what does not count in it. -/
def cleanPart (name : String) (v : Json) : Json :=
  match l.slots.find? fun s => s.name = name with
  | some s => s.kind.clean v
  | none => v

/-- The members without the known ones that are `null`. -/
def cleanMembers (ms : Members Json) : Members Json :=
  (Members.withoutNulls l.names ms).map fun m => (m.1, l.cleanPart m.1 m.2)

def clean : Json → Json
  | .object ms => .object (l.cleanMembers ms)
  | v => v

def Fits : Json → Prop := Json.HasParts (l.slots.map fun s => (s.name, s.kind.Fits))

variable {l} {s : Slot ρ} {ms : Members Json} {r : ρ}

theorem find?_slot (hs : s ∈ l.slots) : l.slots.find? (fun t => t.name = s.name) = some s := by
  obtain ⟨before, after, hall⟩ := List.append_of_mem hs
  have hnodup := l.nodup_names
  rw [hall, List.map_append, List.nodup_append] at hnodup
  refine List.find?_eq_some_iff_append.2 ⟨by simp, before, after, hall, fun t ht => ?_⟩
  have hne := hnodup.2.2 t.name (List.mem_map_of_mem ht) s.name (by simp)
  simp [hne]

theorem cleanPart_slot (hs : s ∈ l.slots) (v : Json) : l.cleanPart s.name v = s.kind.clean v := by
  rw [cleanPart, find?_slot hs]

/-- Values of which everything counts are left as they are. -/
theorem cleanPart_eq_self {k : String} (hk : ∀ s ∈ l.slots, s.name = k → s.kind.clean = id) (v : Json) :
    l.cleanPart k v = v := by
  rw [cleanPart]
  split
  · next s hs =>
    have hname := List.find?_some hs
    rw [decide_eq_true_iff] at hname
    rw [hk s (List.mem_of_find?_eq_some hs) hname, id]
  · rfl

theorem cleanPart_other {k : String} (hk : k ∉ l.names) (v : Json) : l.cleanPart k v = v :=
  cleanPart_eq_self (fun _ hs hname => absurd (List.mem_map.2 ⟨_, hs, hname⟩) hk) v

theorem name_mem (hs : s ∈ l.slots) : s.name ∈ l.names := List.mem_map_of_mem hs

/-! ### The cleaned members -/

theorem sorted_cleanMembers (h : Members.Sorted ms) : Members.Sorted (l.cleanMembers ms) :=
  (h.filter _).map _ fun _ => rfl

theorem find?_cleanMembers (h : Members.Sorted ms) (k : String) :
    (l.cleanMembers ms).find? k =
      ((ms.find? k).filter fun v => !(l.names.contains k && v.isNull)).map (l.cleanPart k) := by
  rw [cleanMembers, Members.find?_map l.cleanPart, Members.withoutNulls, Members.find?_filter h.nodup_names]

theorem find?_cleanMembers_slot (h : Members.Sorted ms) (hs : s ∈ l.slots) :
    (l.cleanMembers ms).find? s.name = (Json.given (ms.find? s.name)).map s.kind.clean := by
  have hclean : l.cleanPart s.name = s.kind.clean := funext (cleanPart_slot hs)
  have hname : l.names.contains s.name = true := List.contains_iff_mem.2 (name_mem hs)
  rw [find?_cleanMembers h, hclean, hname, Json.given]
  simp only [Bool.true_and]

theorem find?_cleanMembers_other (h : Members.Sorted ms) {k : String} (hk : k ∉ l.names) :
    (l.cleanMembers ms).find? k = ms.find? k := by
  have hclean : l.cleanPart k = id := funext (cleanPart_other hk)
  rw [find?_cleanMembers h, hclean]
  cases ms.find? k <;> simp [hk]

/-- A known part keeps what was read. -/
theorem holds_cleanMembers (hc : (Json.object ms).Canonical) (hs : s ∈ l.slots) (h : s.Holds ms r) :
    s.Holds (l.cleanMembers ms) r := by
  rw [Slot.Holds, PartKind.Reads, find?_cleanMembers_slot hc.sorted hs]
  rcases h.cases with ⟨hm, hget⟩ | ⟨v, a, hm, hget, ha⟩
  · rw [hm, hget]
    exact .none
  · have hv : v.Canonical := hc.of_find? (Json.eq_some_of_given hm)
    rw [hm, hget, Option.map_some, Json.given_of_ne_null (s.kind.clean_ne_null hv ha)]
    exact .some (s.kind.decode?_clean hv ha)

theorem additional_cleanMembers (h : Members.Sorted ms) :
    Members.without l.names (l.cleanMembers ms) = ms.without l.names := by
  have hclean := sorted_cleanMembers (l := l) h
  refine Members.eq_of_find?_eq (hclean.filter _) (h.filter _) fun k => ?_
  rw [Members.find?_without hclean.nodup_names, Members.find?_without h.nodup_names]
  by_cases hk : k ∈ l.names
  · rw [if_pos hk, if_pos hk]
  · rw [if_neg hk, if_neg hk, find?_cleanMembers_other h hk]

theorem canonical_cleanMembers (hc : (Json.object ms).Canonical) (hr : ∀ s ∈ l.slots, s.Holds ms r) :
    (Json.object (l.cleanMembers ms)).Canonical := by
  have hsorted := sorted_cleanMembers (l := l) hc.sorted
  refine Json.canonical_object_iff.2 ⟨hsorted, fun ⟨k, v⟩ hm => ?_⟩
  have hfind := (Members.find?_eq_some_iff hsorted.nodup_names k v).2 hm
  by_cases hk : k ∈ l.names
  · obtain ⟨s, hs, rfl⟩ := List.mem_map.1 hk
    rw [find?_cleanMembers_slot hc.sorted hs] at hfind
    obtain ⟨w, hw, rfl⟩ := Option.map_eq_some_iff.1 hfind
    rcases (hr s hs).cases with ⟨hnone, -⟩ | ⟨w', a, hw', -, ha⟩
    · rw [hnone] at hw
      cases hw
    · obtain rfl := Option.some.inj (hw.symm.trans hw')
      exact s.kind.canonical_clean (hc.of_find? (Json.eq_some_of_given hw)) ha
  · rw [find?_cleanMembers_other hc.sorted hk] at hfind
    exact hc.of_find? hfind

/-! ### Writing what was read -/

/-- The members that `toJson` writes. -/
def parts (l : Layout ρ) (r : ρ) : Members (Option Json) :=
  l.slots.map (·.member r) ++ (l.additional r).map fun m => (m.1, some m.2)

theorem names_members (r : ρ) : Members.names (l.slots.map (·.member r)) = l.names := by
  simp [Members.names, names, Slot.member, Function.comp_def]

theorem names_parts (r : ρ) : Members.names (l.parts r) = l.names ++ (l.additional r).names := by
  have hadditional : Members.names ((l.additional r).map fun m => (m.1, some m.2)) = (l.additional r).names := by
    simp [Members.names, Function.comp_def]
  rw [parts, Members.names, List.map_append, ← Members.names, ← Members.names, names_members, hadditional]

theorem find?_parts_slot (hs : s ∈ l.slots) (r : ρ) :
    (l.parts r).find? s.name = some ((s.get r).map s.kind.toJson) := by
  have hmember : Members.find? (l.slots.map (·.member r)) s.name = some ((s.get r).map s.kind.toJson) := by
    refine (Members.find?_eq_some_iff ?_ _ _).2 (List.mem_map_of_mem hs)
    rw [names_members]
    exact l.nodup_names
  rw [parts, Members.find?_append, hmember, Option.some_or]

theorem find?_parts_other {k : String} (hk : k ∉ l.names) (r : ρ) :
    (l.parts r).find? k = ((l.additional r).find? k).map some := by
  have hnone : Members.find? (l.slots.map (·.member r)) k = none := by
    refine Members.find?_eq_none ?_
    rwa [names_members]
  rw [parts, Members.find?_append, hnone, Option.none_or]
  exact Members.find?_map (fun _ => some) _ k

/-- A known part is written as it was read. -/
theorem written_of_holds (hc : (Json.object ms).Canonical) (h : s.Holds ms r) :
    (Json.given (ms.find? s.name)).map s.kind.clean = (s.get r).map s.kind.toJson := by
  rcases h.cases with ⟨hm, hget⟩ | ⟨v, a, hm, hget, ha⟩
  · rw [hm, hget]
    rfl
  · have hv : v.Canonical := hc.of_find? (Json.eq_some_of_given hm)
    rw [hm, hget, Option.map_some, Option.map_some, s.kind.toJson_of_decode? hv ha]

/-- **What was read is written** as it stood, without the `null`s among the known members. -/
theorem toJson_of_holds (hc : (Json.object ms).Canonical) (hr : ∀ s ∈ l.slots, s.Holds ms r)
    (hother : l.additional r = ms.without l.names) : l.toJson r = .object (l.cleanMembers ms) := by
  have hsorted : Members.Sorted (l.additional r) := by
    rw [hother]
    exact hc.sorted.filter _
  have hnodup : (l.parts r).names.Nodup := by
    rw [names_parts]
    refine List.nodup_append.2 ⟨l.nodup_names, hsorted.nodup_names, fun k hk j hj hkj => ?_⟩
    obtain ⟨m, hm, hj⟩ := List.mem_map.1 hj
    rw [hother] at hm
    have hnot := (List.mem_filter.1 hm).2
    simp [hj, ← hkj, hk] at hnot
  rw [l.toJson_eq, Json.ofOptional]
  refine congrArg Json.object (Members.eq_of_find?_eq (Members.sorted_ofList _)
    (sorted_cleanMembers hc.sorted) fun k => ?_)
  change Members.find? (Members.ofList (l.parts r).present) k = _
  rw [Members.find?_ofList (hnodup.sublist (Members.names_present_sublist _)), Members.find?_present hnodup]
  by_cases hk : k ∈ l.names
  · obtain ⟨s, hs, rfl⟩ := List.mem_map.1 hk
    rw [find?_parts_slot hs, find?_cleanMembers_slot hc.sorted hs, written_of_holds hc (hr s hs), Option.join_some]
  · rw [find?_parts_other hk, find?_cleanMembers_other hc.sorted hk, hother,
      Members.find?_without hc.sorted.nodup_names, if_neg hk]
    cases ms.find? k <;> rfl

/-! ### A layout is a kind of part -/

theorem fits_object_iff (hc : (Json.object ms).Canonical) :
    l.Fits (.object ms) ↔ ∀ s ∈ l.slots, ∃ part, s.kind.Reads (ms.find? s.name) part := by
  have hreads : ∀ s : Slot ρ, (∃ part, s.kind.Reads (ms.find? s.name) part) ↔
      ∀ v, ms.find? s.name = some v → v = .null ∨ s.kind.Fits v :=
    fun s => PartKind.exists_reads_iff fun v hv => hc.of_find? hv
  simp [Fits, Json.HasParts, hreads]

theorem fits_iff {v : Json} (hv : v.Canonical) : l.Fits v ↔ ∃ r, l.decode? (.ofJson v) = some r := by
  constructor
  · intro h
    obtain ⟨ms, rfl, -⟩ := id h
    exact l.exists_decode? hv ((fits_object_iff hv).1 h)
  · rintro ⟨r, hr⟩
    obtain ⟨ms, rfl⟩ := l.isObject_of_decode? hr
    obtain ⟨hslots, -⟩ := (l.decode?_eq_some_iff hv).1 hr
    exact (fits_object_iff hv).2 fun s hs => ⟨s.get r, hslots s hs⟩

/-- **A value that was read** is an object. It is written without the `null`s among the known members; what is
written is in order and read back the same, and the other members are kept. -/
theorem decode?_spec {v : Json} (hv : v.Canonical) (hr : l.decode? (.ofJson v) = some r) :
    l.toJson r = l.clean v ∧ l.decode? (.ofJson (l.clean v)) = some r ∧ (l.clean v).Canonical ∧
      ∃ ms : Members Json, v = .object ms ∧ l.additional r = ms.without l.names := by
  obtain ⟨ms, rfl⟩ := l.isObject_of_decode? hr
  obtain ⟨hslots, hother⟩ := (l.decode?_eq_some_iff hv).1 hr
  have hclean := canonical_cleanMembers hv hslots
  have hback : l.decode? (.ofJson (.object (l.cleanMembers ms))) = some r := by
    refine (l.decode?_eq_some_iff hclean).2 ⟨fun s hs => holds_cleanMembers hv hs (hslots s hs), ?_⟩
    rw [hother]
    exact (additional_cleanMembers hv.sorted).symm
  exact ⟨toJson_of_holds hv hslots hother, hback, hclean, ms, rfl, hother⟩

/-- Objects of a layout as parts of other objects. -/
def kind (l : Layout ρ) : PartKind ρ where
  decode? := l.decode?
  toJson := l.toJson
  Fits := l.Fits
  clean := l.clean
  fits_iff := fits_iff
  toJson_of_decode? hv hr := (decode?_spec hv hr).1
  decode?_clean hv hr := (decode?_spec hv hr).2.1
  canonical_clean hv hr := (decode?_spec hv hr).2.2.1
  clean_ne_null hv hr := by
    obtain ⟨ms, rfl, -⟩ := (decode?_spec hv hr).2.2.2
    nofun

end Layout

end LogQuery
