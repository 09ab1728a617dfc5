import LogQuery.Search.Sample

/-!
# Names of an index over time

A text is a date pattern just if it is made of literal characters and of directives behind percent signs
(`Pattern.ofChars?_eq_some_iff`). An index is made from any such text. If all pieces of the pattern can be
written, the index is always named for the last instant that it was computed for; if one cannot, the index has
the empty name for good, without its lead and its base (`name_recalculateAll`, `name_of_offsetPattern`).
-/

namespace LogQuery

/-! ## Texts of patterns -/

namespace Directive

/-- A directive is found by its name, whatever stands behind it: no other name begins the text. -/
theorem find?_name_append {d : Directive} (hd : d ∈ all) (cs : List Char) : find? (d.name ++ cs) = some d := by
  obtain ⟨before, after, hall⟩ := List.append_of_mem hd
  have hindependent := names_independent
  rw [hall, List.map_append, List.pairwise_append] at hindependent
  refine List.find?_eq_some_iff_append.2 ⟨by simp, before, after, hall, fun e he => ?_⟩
  obtain ⟨hed, hde⟩ := hindependent.2.2 e.name (List.mem_map_of_mem he) d.name (by simp)
  rw [Bool.not_eq_true', Bool.eq_false_iff]
  intro hprefix
  have hd' : d.name <+: d.name ++ cs := List.prefix_append ..
  rcases List.prefix_or_prefix_of_prefix (List.isPrefixOf_iff_prefix.1 hprefix) hd' with h | h
  · exact absurd (List.isPrefixOf_iff_prefix.2 h) (by simp [hed])
  · exact absurd (List.isPrefixOf_iff_prefix.2 h) (by simp [hde])

theorem of_find? {cs : List Char} {d : Directive} (h : find? cs = some d) :
    d ∈ all ∧ cs = d.name ++ cs.drop d.name.length := by
  have hprefix := List.find?_some h
  refine ⟨List.mem_of_find?_eq_some h, ?_⟩
  exact List.prefix_iff_eq_append.1 (List.isPrefixOf_iff_prefix.1 hprefix) |>.symm

end Directive

namespace Pattern

/-- The characters are those of the pattern: literal ones, and directives behind percent signs. -/
inductive Spells : Pattern → List Char → Prop
  | nil : Spells [] []
  | literal {ps : Pattern} {cs : List Char} {c : Char} (hc : c ≠ '%') (h : Spells ps cs) :
      Spells (.literal c :: ps) (c :: cs)
  | directive {ps : Pattern} {cs : List Char} {d : Directive} (hd : d ∈ Directive.all) (h : Spells ps cs) :
      Spells (d.items ++ ps) ('%' :: (d.name ++ cs))

theorem spells_of_ofChars? {cs : List Char} {ps : Pattern} (h : ofChars? cs = some ps) : ps.Spells cs := by
  fun_induction ofChars? cs generalizing ps with
  | case1 =>
    obtain rfl := Option.some.inj h
    exact .nil
  | case2 cs d hfind ih =>
    obtain ⟨qs, hqs, rfl⟩ := Option.map_eq_some_iff.1 h
    obtain ⟨hd, hcs⟩ := Directive.of_find? hfind
    rw [hcs]
    exact .directive hd (ih hqs)
  | case3 cs hfind => cases h
  | case4 c cs hc ih =>
    obtain ⟨qs, hqs, rfl⟩ := Option.map_eq_some_iff.1 h
    exact .literal hc (ih hqs)

theorem ofChars?_of_spells {cs : List Char} {ps : Pattern} (h : ps.Spells cs) : ofChars? cs = some ps := by
  induction h with
  | nil => rw [ofChars?]
  | literal hc _ ih => rw [ofChars?, if_neg hc, ih, Option.map_some]
  | directive hd _ ih =>
    rw [ofChars?, if_pos rfl, Directive.find?_name_append hd]
    simp [ih]

/-- **Reading a pattern** accepts just the texts that spell one. -/
theorem ofChars?_eq_some_iff (cs : List Char) (ps : Pattern) : ofChars? cs = some ps ↔ ps.Spells cs :=
  ⟨spells_of_ofChars?, ofChars?_of_spells⟩

end Pattern

/-! ## Computing the name again and again -/

namespace LogIndex

/-- The index after its name was computed for these instants, one after the other. -/
def recalculateAll (x : LogIndex) (ts : List Instant) : LogIndex := ts.foldl (fun x t => x.recalculate t) x

theorem recalculateAll_concat (x : LogIndex) (ts : List Instant) (t : Instant) :
    x.recalculateAll (ts ++ [t]) = (x.recalculateAll ts).recalculate t := by
  rw [recalculateAll, List.foldl_append]
  rfl

/-- Only the name is computed again. -/
theorem parts_recalculateAll (x : LogIndex) (ts : List Instant) :
    (x.recalculateAll ts).lead = x.lead ∧ (x.recalculateAll ts).base = x.base ∧
      (x.recalculateAll ts).pattern = x.pattern := by
  induction ts generalizing x with
  | nil => exact ⟨rfl, rfl, rfl⟩
  | cons t ts ih => exact ih (x.recalculate t)

/-- A pattern that can be written names the index for the last instant, whatever its name was before. -/
theorem name_recalculateAll_concat {x : LogIndex} (h : x.pattern.Writable) (ts : List Instant) (t : Instant) :
    ∃ date, x.pattern.render? t = some date ∧
      (x.recalculateAll (ts ++ [t])).name = x.lead ++ x.base ++ "_" ++ String.ofList date := by
  obtain ⟨date, hdate⟩ := Option.isSome_iff_exists.1 ((Pattern.isSome_render?_iff t x.pattern).2 h)
  obtain ⟨hlead, hbase, hpattern⟩ := parts_recalculateAll x ts
  refine ⟨date, hdate, ?_⟩
  rw [recalculateAll_concat, name_recalculate t _ (hpattern ▸ h), hlead, hbase, hpattern]
  simp [nameAt?, hdate]

/-- A pattern that cannot be written leaves the name as it is. -/
theorem name_recalculateAll_of_not_writable {x : LogIndex} (h : ¬ x.pattern.Writable) (ts : List Instant) :
    (x.recalculateAll ts).name = x.name := by
  induction ts generalizing x with
  | nil => rfl
  | cons t ts ih =>
    have hrender : x.pattern.render? t = none := by
      rw [← Option.not_isSome_iff_eq_none, Pattern.isSome_render?_iff]
      exact h
    have hname : (x.recalculate t).name = x.name := by simp [recalculate, nameAt?, hrender]
    rw [← hname]
    exact ih h

theorem create_eq_ok_iff (lead base text : String) (t : Instant) (x : LogIndex) :
    create lead base text t = .ok x ↔
      ∃ ps : Pattern, ps.Spells text.toList ∧ x = recalculate t ⟨lead, base, ps, ""⟩ := by
  rw [create, Pattern.ofText?]
  simp only [← Pattern.ofChars?_eq_some_iff]
  cases Pattern.ofChars? text.toList <;> simp [eq_comm]

/-- The last of some instants that start with this one. -/
theorem exists_cons_eq_concat (start : Instant) (later : List Instant) :
    ∃ before, start :: later = before ++ [later.getLastD start] := by
  rcases List.eq_nil_or_concat later with rfl | ⟨before, t, rfl⟩
  · exact ⟨[], rfl⟩
  · exact ⟨start :: before, by simp⟩

/-- **The name of an index** (`LogIndex::recalculate_at`). It is made from any text that spells a pattern. If the
pattern can be written, the name is the lead, the base and the date of the last instant; it is empty just if the
pattern cannot be written, and then it stays so. -/
theorem name_recalculateAll (lead base text : String) (start : Instant) (later : List Instant) :
    ((∃ x, create lead base text start = .ok x) ↔ ∃ ps : Pattern, ps.Spells text.toList) ∧
    ∀ x, create lead base text start = .ok x →
      x.pattern.Spells text.toList ∧
      (x.pattern.Writable → ∃ date, x.pattern.render? (later.getLastD start) = some date ∧
        (x.recalculateAll later).name = lead ++ base ++ "_" ++ String.ofList date) ∧
      ((x.recalculateAll later).name = "" ↔ ¬ x.pattern.Writable) := by
  constructor
  · constructor
    · rintro ⟨x, hx⟩
      obtain ⟨ps, hps, -⟩ := (create_eq_ok_iff ..).1 hx
      exact ⟨ps, hps⟩
    · rintro ⟨ps, hps⟩
      exact ⟨_, (create_eq_ok_iff ..).2 ⟨ps, hps, rfl⟩⟩
  · intro x hx
    obtain ⟨ps, hps, rfl⟩ := (create_eq_ok_iff ..).1 hx
    obtain ⟨before, hlast⟩ := exists_cons_eq_concat start later
    have hrun : (recalculate start ⟨lead, base, ps, ""⟩).recalculateAll later =
        recalculateAll ⟨lead, base, ps, ""⟩ (before ++ [later.getLastD start]) := by
      rw [← hlast]
      rfl
    have hname : ps.Writable → ∃ date, ps.render? (later.getLastD start) = some date ∧
        (recalculateAll ⟨lead, base, ps, ""⟩ (before ++ [later.getLastD start])).name =
          lead ++ base ++ "_" ++ String.ofList date :=
      fun h => name_recalculateAll_concat (x := ⟨lead, base, ps, ""⟩) h before _
    rw [hrun]
    refine ⟨hps, hname, fun hempty hw => ?_, fun hw => ?_⟩
    · obtain ⟨date, -, hdate⟩ := hname hw
      rw [hempty] at hdate
      have hlength := congrArg String.length hdate
      have hbar : "_".length = 1 := rfl
      simp only [String.length_append, String.length_empty, hbar] at hlength
      omega
    · exact name_recalculateAll_of_not_writable (x := ⟨lead, base, ps, ""⟩) hw _

/-- A pattern that is read but cannot be written makes an index without a name, on every day. -/
theorem name_of_offsetPattern :
    ∃ x, create "ea_" "log" "%#z" Sample.baseTime = .ok x ∧ x.name = "" ∧
      ∀ later, (x.recalculateAll later).name = "" := by
  have hfind : Directive.find? ['#', 'z'] = some ⟨['#', 'z'], [.unwritable]⟩ := rfl
  have hspells : Pattern.Spells [.unwritable] "%#z".toList := .directive (Directive.of_find? hfind).1 .nil
  have hunwritable : ¬ Pattern.Writable [.unwritable] := by decide
  refine ⟨_, (create_eq_ok_iff ..).2 ⟨_, hspells, rfl⟩, rfl, fun later => ?_⟩
  exact name_recalculateAll_of_not_writable hunwritable later

end LogIndex

end LogQuery
