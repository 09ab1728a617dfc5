import LogQuery.Proofs.Settings.Precedence
import LogQuery.Proofs.Text.DigitsAndLetters

/-!
# What may be written for approximate matching

A fuzziness is the word for the automatic choice, in any case, or a count of edits: an integer, or a text with an
optional plus sign and digits, of which any number may be leading zeros. What a value is read as is the relation
`Fuzziness.Reading`, and the decoder follows it in every case (`Fuzziness.ofJson_eq_iff`); a count is refused as
too many edits only if a byte holds it. The parameters are an object whose known members are each given once or
not at all (`FuzzyConfig.decode?_object_iff`).

Main statement: what is accepted, what it becomes, and that an encoding is decoded as it was (`written_fuzzy`).
-/

namespace LogQuery

open Text

namespace Fuzziness

/-! ## A fuzziness -/

/-- The text is the word for the automatic choice. -/
def IsAuto (s : String) : Prop := InAnyCase s.toList ['a', 'u', 't', 'o']

theorem sameIgnoringCase_auto_iff {s : String} : sameIgnoringCase s "auto" = true ↔ IsAuto s := by
  have hword : "auto".toList.map Char.toLower = ['a', 'u', 't', 'o'] := by decide +kernel
  rw [sameIgnoringCase, beq_iff_eq, hword, map_toLower_eq_iff (by decide), IsAuto]

/-- The value is a number of edits: an integer, or the text of one. -/
inductive Counts : Json → ℕ → Prop
  | int (n : ℕ) : Counts (.int n) n
  | text {s : String} {n : ℕ} : CountText s.toList n → Counts (.text s) n

theorem counts_int_iff {i : ℤ} {n : ℕ} : Counts (.int i) n ↔ i = n := by
  constructor
  · rintro ⟨⟩
    rfl
  · rintro rfl
    exact .int n

theorem counts_text_iff {s : String} {n : ℕ} : Counts (.text s) n ↔ readNat? s.toList = some n := by
  rw [readNat?_eq_some_iff]
  exact ⟨fun h => by cases h with | text h => exact h, .text⟩

/-- The word for the automatic choice does not start like a number. -/
theorem IsAuto.not_counts {s : String} (h : IsAuto s) (n : ℕ) : ¬ Counts (.text s) n := by
  rw [counts_text_iff]
  rw [IsAuto] at h
  generalize s.toList = cs at h
  cases h with
  | @cons c _ ds _ hc _ =>
    have hnone : readNat? (c :: ds) = none := by
      rcases hc with rfl | rfl <;> rfl
    rw [hnone]
    exact (Option.some_ne_none n).symm

theorem ofEdits_edits (d : EditDistance) : ofEdits d.edits = .ok (.fixed d) := by
  rw [ofEdits, EditDistance.ofNat?, dif_pos d.le_max]

theorem ofEdits_of_lt {n : ℕ} (hn : maxEditDistance < n) : ofEdits n = .error (.tooFar n) := by
  rw [ofEdits, EditDistance.ofNat?, dif_neg (Nat.not_le.2 hn)]

/-- What a value is read as. A number of edits that no byte holds is none. -/
inductive Reading : Json → Except FuzzinessError Fuzziness → Prop
  | auto {s : String} : IsAuto s → Reading (.text s) (.ok .auto)
  | fixed {v : Json} {d : EditDistance} : Counts v d.edits → Reading v (.ok (.fixed d))
  | tooFar {v : Json} {n : ℕ} : Counts v n → maxEditDistance < n → n < 256 → Reading v (.error (.tooFar n))
  | unknownText {s : String} : ¬ IsAuto s → (∀ n < 256, ¬ Counts (.text s) n) →
    Reading (.text s) (.error (.unknownText s))
  | wrongKind {v : Json} : (∀ s, v ≠ .text s) → (∀ n < 256, ¬ Counts v n) → Reading v (.error .wrongKind)

theorem Counts.reading {v : Json} {n : ℕ} (h : Counts v n) (hn : n < 256) : Reading v (ofEdits n) := by
  by_cases hle : n ≤ maxEditDistance
  · have hd : ofEdits n = .ok (.fixed ⟨n, hle⟩) := ofEdits_edits ⟨n, hle⟩
    exact hd ▸ .fixed h
  · rw [ofEdits_of_lt (Nat.not_le.1 hle)]
    exact .tooFar h (Nat.not_le.1 hle) hn

theorem reading_ofText (s : String) : Reading (.text s) (ofText s) := by
  rw [ofText]
  by_cases hs : sameIgnoringCase s "auto" = true
  · rw [if_pos hs]
    exact .auto (sameIgnoringCase_auto_iff.1 hs)
  · rw [if_neg hs]
    cases hread : (readNat? s.toList).filter (· < 256) with
    | some n =>
      obtain ⟨hn, hlt⟩ := Option.filter_eq_some_iff.1 hread
      exact (counts_text_iff.2 hn).reading (of_decide_eq_true hlt)
    | none =>
      refine .unknownText (fun h => hs (sameIgnoringCase_auto_iff.2 h)) fun n hn hcount => ?_
      rw [counts_text_iff.1 hcount, Option.filter_some, if_pos (decide_eq_true hn)] at hread
      exact Option.some_ne_none n hread

theorem reading_ofJson (v : Json) : Reading v (ofJson v) := by
  cases v with
  | text s => exact reading_ofText s
  | int i =>
    by_cases hi : 0 ≤ i ∧ i < 256
    · obtain ⟨n, rfl⟩ := Int.eq_ofNat_of_zero_le hi.1
      rw [ofJson, if_pos hi, Int.toNat_natCast]
      exact (Counts.int n).reading (Int.ofNat_lt.1 hi.2)
    · rw [ofJson, if_neg hi]
      refine .wrongKind (by rintro s ⟨⟩) fun n hn hcount => hi ?_
      rw [counts_int_iff.1 hcount]
      omega
  | _ => exact .wrongKind (by rintro s ⟨⟩) (by rintro n - ⟨⟩)

theorem ofJson_of_counts {v : Json} {n : ℕ} (h : Counts v n) (hn : n < 256) : ofJson v = ofEdits n := by
  cases h with
  | int n =>
    have hrange : (0 : ℤ) ≤ n ∧ (n : ℤ) < 256 := by omega
    rw [ofJson, if_pos hrange, Int.toNat_natCast]
  | @text s n hs =>
    have hcount : Counts (.text s) n := .text hs
    have hauto : ¬ sameIgnoringCase s "auto" = true := fun h => (sameIgnoringCase_auto_iff.1 h).not_counts n hcount
    rw [ofJson, ofText, if_neg hauto, counts_text_iff.1 hcount, Option.filter_some, if_pos (decide_eq_true hn)]

theorem ofJson_eq_iff {v : Json} {r : Except FuzzinessError Fuzziness} : ofJson v = r ↔ Reading v r := by
  refine ⟨fun h => h ▸ reading_ofJson v, fun h => ?_⟩
  cases h with
  | auto hs => exact if_pos (sameIgnoringCase_auto_iff.2 hs)
  | @fixed v d hd =>
    have hbyte : d.edits < 256 := Nat.lt_of_le_of_lt d.le_max (by decide)
    rw [ofJson_of_counts hd hbyte, ofEdits_edits]
  | tooFar hn hlt hbyte => rw [ofJson_of_counts hn hbyte, ofEdits_of_lt hlt]
  | @unknownText s hs hnone =>
    have hread : (readNat? s.toList).filter (· < 256) = none := by
      rw [Option.filter_eq_none_iff]
      exact fun n hn hbyte => hnone n (of_decide_eq_true hbyte) (counts_text_iff.2 hn)
    rw [ofJson, ofText, if_neg fun h => hs (sameIgnoringCase_auto_iff.1 h), hread]
  | @wrongKind v htext hnone =>
    cases v with
    | text s => exact absurd rfl (htext s)
    | int i =>
      refine if_neg fun hi => ?_
      obtain ⟨n, rfl⟩ := Int.eq_ofNat_of_zero_le hi.1
      exact hnone n (by omega) (.int n)
    | _ => rfl

theorem ofJson_eq_auto_iff {v : Json} : ofJson v = .ok auto ↔ ∃ s, v = .text s ∧ IsAuto s := by
  rw [ofJson_eq_iff]
  constructor
  · rintro ⟨hs⟩
    exact ⟨_, rfl, hs⟩
  · rintro ⟨s, rfl, hs⟩
    exact .auto hs

theorem ofJson_eq_fixed_iff {v : Json} {d : EditDistance} : ofJson v = .ok (.fixed d) ↔ Counts v d.edits := by
  rw [ofJson_eq_iff]
  exact ⟨fun h => by cases h with | fixed hd => exact hd, .fixed⟩

theorem ofJson_eq_tooFar_iff {v : Json} {n : ℕ} :
    ofJson v = .error (.tooFar n) ↔ Counts v n ∧ 3 ≤ n ∧ n ≤ 255 := by
  rw [ofJson_eq_iff]
  constructor
  · intro h
    cases h with
    | tooFar hn hlt hbyte => exact ⟨hn, hlt, Nat.le_of_lt_succ hbyte⟩
  · rintro ⟨hn, hlower, hupper⟩
    exact .tooFar hn hlower (Nat.lt_succ_of_le hupper)

theorem ofJson_eq_error_iff {v : Json} :
    (∃ e, ofJson v = .error e) ↔ ¬ (∃ s, v = .text s ∧ IsAuto s) ∧ ¬ ∃ n ≤ 2, Counts v n := by
  rw [← ofJson_eq_auto_iff]
  have hfixed : (∃ n ≤ 2, Counts v n) ↔ ∃ d, ofJson v = .ok (.fixed d) := by
    simp only [ofJson_eq_fixed_iff]
    exact ⟨fun ⟨n, hn, h⟩ => ⟨⟨n, hn⟩, h⟩, fun ⟨d, h⟩ => ⟨d.edits, d.le_max, h⟩⟩
  rw [hfixed]
  cases ofJson v with
  | error e => exact iff_of_true ⟨e, rfl⟩ ⟨by rintro ⟨⟩, by rintro ⟨d, ⟨⟩⟩⟩
  | ok f =>
    refine iff_of_false (by rintro ⟨e, ⟨⟩⟩) fun h => ?_
    cases f with
    | auto => exact h.1 rfl
    | fixed d => exact h.2 ⟨d, rfl⟩

theorem decode?_eq_some_iff {d : Document} {f : Fuzziness} :
    decode? d = some f ↔ ∃ v, d.value? = some v ∧ ofJson v = .ok f := by
  rw [decode?, Option.bind_eq_some_iff]
  refine exists_congr fun v => and_congr_right fun _ => ?_
  cases ofJson v <;> simp [Except.toOption]

theorem decode?_ofJson_toJson (f : Fuzziness) : decode? (.ofJson f.toJson) = some f := by
  have hvalue : (Document.ofJson f.toJson).value? = some f.toJson := by cases f <;> rfl
  exact decode?_eq_some_iff.2 ⟨_, hvalue, ofJson_toJson f⟩

end Fuzziness

/-! ## Known names of an object -/

namespace Document

variable {known : List String} {name : String} {ms : List (String × Document)}

/-- The members with a name, in their order. -/
def named (ms : List (String × Document)) (name : String) : List (String × Document) :=
  ms.filter fun m => m.1 = name

theorem knownMembers?_eq_some_iff {parts : Members Document} :
    knownMembers? known ms = some parts ↔
      (∀ name ∈ known, (named ms name).length ≤ 1) ∧ parts = ms.filter fun m => known.contains m.1 := by
  have hrepeated : hasRepeated known ms = true ↔ ∃ name ∈ known, 1 < (named ms name).length := by
    simp only [hasRepeated, List.any_eq_true, decide_eq_true_eq, List.countP_eq_length_filter, named]
  rw [knownMembers?]
  by_cases h : hasRepeated known ms = true
  · rw [if_pos h]
    obtain ⟨name, hname, hlt⟩ := hrepeated.1 h
    exact iff_of_false (Option.some_ne_none parts).symm fun hall => Nat.not_le.2 hlt (hall.1 name hname)
  · rw [if_neg h, Option.some_inj]
    have hall : ∀ name ∈ known, (named ms name).length ≤ 1 := fun name hname =>
      Nat.not_lt.1 fun hlt => h (hrepeated.2 ⟨name, hname, hlt⟩)
    exact ⟨fun hp => ⟨hall, hp.symm⟩, fun hp => hp.2.symm⟩

/-- A known name is found where the object has it first. -/
theorem find?_known (hname : name ∈ known) :
    Members.find? (ms.filter fun m => known.contains m.1) name = (named ms name).head?.map (·.2) := by
  rw [Members.find?, ← List.head?_filter, List.filter_filter, named]
  congr 3
  funext m
  by_cases hm : m.1 = name <;> simp [hm, hname]

end Document

/-! ## The parameters together -/

namespace FuzzyName

open Document

theorem key_mem (n : FuzzyName) : vocabulary.key n ∈ FuzzyConfig.partNames := by cases n <;> decide

theorem exists_of_mem {name : String} (h : name ∈ FuzzyConfig.partNames) : ∃ n, vocabulary.key n = name := by
  simp only [FuzzyConfig.partNames, List.mem_cons, List.not_mem_nil, or_false] at h
  obtain rfl | rfl | rfl | rfl := h
  · exact ⟨.fuzziness, rfl⟩
  · exact ⟨.maxExpansions, rfl⟩
  · exact ⟨.prefixLength, rfl⟩
  · exact ⟨.transpositions, rfl⟩

/-- The document is a value of the parameter. -/
def Denotes : (n : FuzzyName) → Document → (vocabulary.kind n).Value → Prop
  | .fuzziness, d, f => ∃ v, d.value? = some v ∧ Fuzziness.Reading v (.ok f)
  | .maxExpansions, d, k | .prefixLength, d, k => d = .int (UInt32.toNat k)
  | .transpositions, d, b => d = .bool b

theorem uint32?_eq_some_iff {d : Document} {k : UInt32} : d.uint32? = some k ↔ d = .int k.toNat := by
  constructor
  · intro h
    rw [uint32?, Option.map_eq_some_iff] at h
    obtain ⟨i, hi, rfl⟩ := h
    cases d with
    | int j =>
      rw [intWithin?] at hi
      obtain ⟨hrange, hj⟩ := Option.ite_none_right_eq_some.1 hi
      cases hj
      have hsize : (UInt32.size : ℤ) = 4294967296 := rfl
      have hmod : i.toNat % 2 ^ 32 = i.toNat := Nat.mod_eq_of_lt (by omega)
      rw [UInt32.toNat_ofNat', hmod, Int.toNat_of_nonneg hrange.1]
    | _ => cases hi
  · rintro rfl
    exact Document.uint32?_ofJson k

theorem bool?_eq_some_iff {d : Document} {b : Bool} : d.bool? = some b ↔ d = .bool b := by
  cases d <;> simp [bool?]

theorem decode?_eq_some_iff {n : FuzzyName} {d : Document} {x : (vocabulary.kind n).Value} :
    (vocabulary.kind n).decode? d = some x ↔ n.Denotes d x := by
  cases n with
  | fuzziness =>
    refine Fuzziness.decode?_eq_some_iff.trans (exists_congr fun v => and_congr_right fun _ => ?_)
    exact Fuzziness.ofJson_eq_iff
  | maxExpansions => exact uint32?_eq_some_iff
  | prefixLength => exact uint32?_eq_some_iff
  | transpositions => exact bool?_eq_some_iff

/-- What the members say of a parameter: nothing, or a single value under its name. -/
inductive Found (ms : List (String × Document)) (n : FuzzyName) : Option (vocabulary.kind n).Value → Prop
  | absent : named ms (vocabulary.key n) = [] → Found ms n none
  | given {d : Document} {x : (vocabulary.kind n).Value} : named ms (vocabulary.key n) = [(vocabulary.key n, d)] →
    n.Denotes d x → Found ms n (some x)

variable {ms : List (String × Document)} {n : FuzzyName}

theorem Found.length_le {y : Option (vocabulary.kind n).Value} (h : Found ms n y) :
    (named ms (vocabulary.key n)).length ≤ 1 := by
  cases h with
  | absent hnil => rw [hnil]; exact Nat.zero_le 1
  | given hone _ => rw [hone, List.length_singleton]

/-- A parameter is what the members say of it, or what it is if they say nothing. -/
theorem optional?_eq_some_iff (h : (named ms (vocabulary.key n)).length ≤ 1) (absent : (vocabulary.kind n).Value)
    {x : (vocabulary.kind n).Value} :
    Members.optional? (ms.filter fun m => FuzzyConfig.partNames.contains m.1) (vocabulary.key n) absent
      (vocabulary.kind n).decode? = some x ↔ ∃ y, Found ms n y ∧ y.getD absent = x := by
  have hmem : ∀ m ∈ named ms (vocabulary.key n), m.1 = vocabulary.key n := fun m hm =>
    of_decide_eq_true (List.mem_filter.1 hm).2
  rw [Members.optional?, find?_known n.key_mem]
  cases hnamed : named ms (vocabulary.key n) with
  | nil =>
    rw [List.head?_nil, Option.map_none]
    constructor
    · rintro ⟨⟩
      exact ⟨none, .absent hnamed, rfl⟩
    · rintro ⟨y, hy, rfl⟩
      cases hy with
      | absent => rfl
      | given hone => rw [hnamed] at hone; cases hone
  | cons m others =>
    rw [hnamed, List.length_cons] at h
    obtain rfl : others = [] := List.eq_nil_of_length_eq_zero (by omega)
    have hone : named ms (vocabulary.key n) = [(vocabulary.key n, m.2)] := by
      rw [hnamed, ← hmem m (hnamed ▸ List.mem_cons_self)]
    rw [List.head?_cons, Option.map_some]
    constructor
    · intro hx
      exact ⟨some x, .given hone (decode?_eq_some_iff.1 hx), rfl⟩
    · rintro ⟨y, hy, rfl⟩
      cases hy with
      | absent hnil => rw [hone] at hnil; cases hnil
      | given hother hx =>
        rw [hone] at hother
        cases hother
        exact decode?_eq_some_iff.2 hx

end FuzzyName

namespace FuzzyGiven

def ofParts (fuzziness : Option Fuzziness) (maxExpansions prefixLength : Option UInt32)
    (transpositions : Option Bool) : FuzzyGiven
  | .fuzziness => fuzziness
  | .maxExpansions => maxExpansions
  | .prefixLength => prefixLength
  | .transpositions => transpositions

/-- The members give these parameters their values and no others. -/
def StandsIn (f : FuzzyGiven) (ms : List (String × Document)) : Prop := ∀ n, FuzzyName.Found ms n (f n)

end FuzzyGiven

namespace FuzzyConfig

open Document FuzzyName

theorem decode?_object_iff {ms : List (String × Document)} {c : FuzzyConfig} :
    decode? (.object ms) = some c ↔ ∃ f : FuzzyGiven, f.StandsIn ms ∧ f.complete = c := by
  simp only [decode?, parts?, Option.bind_eq_bind, Option.bind_eq_some_iff]
  constructor
  · rintro ⟨parts, hparts, fz, hfz, me, hme, pl, hpl, tr, htr, hc⟩
    obtain ⟨hlen, rfl⟩ := knownMembers?_eq_some_iff.1 hparts
    have hle := fun n : FuzzyName => hlen _ n.key_mem
    obtain ⟨yfz, hyfz, rfl⟩ := (optional?_eq_some_iff (hle .fuzziness) _).1 hfz
    obtain ⟨yme, hyme, rfl⟩ := (optional?_eq_some_iff (hle .maxExpansions) _).1 hme
    obtain ⟨ypl, hypl, rfl⟩ := (optional?_eq_some_iff (hle .prefixLength) _).1 hpl
    obtain ⟨ytr, hytr, rfl⟩ := (optional?_eq_some_iff (hle .transpositions) _).1 htr
    refine ⟨.ofParts yfz yme ypl ytr, fun n => ?_, Option.some.inj hc⟩
    cases n
    · exact hyfz
    · exact hyme
    · exact hypl
    · exact hytr
  · rintro ⟨f, hf, rfl⟩
    have hlen : ∀ name ∈ partNames, (named ms name).length ≤ 1 := by
      intro name hname
      obtain ⟨n, rfl⟩ := exists_of_mem hname
      exact (hf n).length_le
    have hread := fun n : FuzzyName => fun absent =>
      (optional?_eq_some_iff (hlen _ n.key_mem) absent).2 ⟨f n, hf n, rfl⟩
    exact ⟨_, knownMembers?_eq_some_iff.2 ⟨hlen, rfl⟩, _, hread .fuzziness _, _, hread .maxExpansions _, _,
      hread .prefixLength _, _, hread .transpositions _, rfl⟩

/-- The encoding has its members in the order of their names. -/
theorem toJson_eq (c : FuzzyConfig) :
    c.toJson = .object [("fuzziness", c.fuzziness.toJson), ("max_expansions", .int c.maxExpansions.toNat),
      ("prefix_length", .int c.prefixLength.toNat), ("transpositions", .bool c.transpositions)] := by
  have hsorted : Members.Sorted [("fuzziness", c.fuzziness.toJson), ("max_expansions", .int c.maxExpansions.toNat),
      ("prefix_length", .int c.prefixLength.toNat), ("transpositions", .bool c.transpositions)] := by
    simp only [Members.Sorted, List.pairwise_cons, List.forall_mem_cons, List.Pairwise.nil]
    decide +kernel
  rw [toJson, Json.ofMembers, Members.ofList_of_sorted hsorted]

theorem decode?_ofJson_toJson (c : FuzzyConfig) : decode? (.ofJson c.toJson) = some c := by
  rw [toJson_eq]
  refine decode?_object_iff.2
    ⟨.ofParts (some c.fuzziness) (some c.maxExpansions) (some c.prefixLength) (some c.transpositions), ?_, rfl⟩
  intro n
  cases n with
  | fuzziness => exact .given rfl (decode?_eq_some_iff.1 (Fuzziness.decode?_ofJson_toJson c.fuzziness))
  | maxExpansions => exact .given rfl rfl
  | prefixLength => exact .given rfl rfl
  | transpositions => exact .given rfl rfl

end FuzzyConfig

/-- **What may be written for approximate matching** (`Fuzziness`, `FuzzyConfig`). A fuzziness is the word for the
automatic choice in any case, or an integer or a numeral of at most two edits; three to 255 edits are refused as too
many, and nothing else is read. What is encoded is decoded as it was. An object gives the parameters that it names,
once each and with a value of theirs; it may have other members, and what it does not name is as the backend has it. -/
theorem written_fuzzy :
    (∀ v : Json,
      (Fuzziness.ofJson v = .ok .auto ↔ ∃ s, v = .text s ∧ Fuzziness.IsAuto s) ∧
      (∀ d : EditDistance, Fuzziness.ofJson v = .ok (.fixed d) ↔ Fuzziness.Counts v d.edits) ∧
      ((∃ e, Fuzziness.ofJson v = .error e) ↔
        ¬ (∃ s, v = .text s ∧ Fuzziness.IsAuto s) ∧ ¬ ∃ n ≤ 2, Fuzziness.Counts v n) ∧
      ∀ n, Fuzziness.ofJson v = .error (.tooFar n) ↔ Fuzziness.Counts v n ∧ 3 ≤ n ∧ n ≤ 255) ∧
    (∀ f : Fuzziness, Fuzziness.decode? (.ofJson f.toJson) = some f) ∧
    (∀ c : FuzzyConfig, FuzzyConfig.decode? (.ofJson c.toJson) = some c) ∧
    ∀ (ms : List (String × Document)) (c : FuzzyConfig),
      FuzzyConfig.decode? (.object ms) = some c ↔ ∃ f : FuzzyGiven, f.StandsIn ms ∧ f.complete = c :=
  ⟨fun _ => ⟨Fuzziness.ofJson_eq_auto_iff, fun _ => Fuzziness.ofJson_eq_fixed_iff,
      Fuzziness.ofJson_eq_error_iff, fun _ => Fuzziness.ofJson_eq_tooFar_iff⟩,
    Fuzziness.decode?_ofJson_toJson, FuzzyConfig.decode?_ofJson_toJson, fun _ _ => FuzzyConfig.decode?_object_iff⟩

end LogQuery
