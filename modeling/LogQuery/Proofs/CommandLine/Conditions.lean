import LogQuery.CommandLine.Query
import LogQuery.Proofs.CommandLine.Spelling
import Mathlib.Data.List.TakeWhile

/-!
# Conditions, from their text to a leaf

A condition is cut by its first equals sign. What stands before is trimmed of blanks and must name a field,
by its symbolic name or by its path; what stands behind is the value, character for character. Said from the
other side, the conditions on a field and a value are the texts that are put together of blanks, a name of
the field, blanks, an equals sign and the value (`FieldValue.Writes`).

Trimming is told by what is left of a text (`Text.trimmed_iff`) and the registry by the names of a field
(`Field.ofText?_eq_some_iff`). Then both sides meet in what is read (`FieldValue.writes_iff`): a text becomes a
leaf just if it is a condition on some field, which it determines together with the value
(`FieldValue.split_and_resolved`).
-/

namespace LogQuery

open LogQuery.Text

/-! ## Trimming, told by what is left -/

namespace Text

/-- What is left of a text without the blanks at its two ends. -/
structure Trimmed (text core : String) : Prop where
  around : ∃ lead trail, allBlank lead = true ∧ allBlank trail = true ∧ text = lead ++ core ++ trail
  first : ∀ c ∈ core.toList.head?, isBlank c = false
  last : ∀ c ∈ core.toList.getLast?, isBlank c = false

/-- Blanks around a text change nothing in what is left of it. -/
theorem trimChars_append {lead core trail : List Char} (hlead : ∀ c ∈ lead, isBlank c = true)
    (htrail : ∀ c ∈ trail, isBlank c = true) : trimChars (lead ++ core ++ trail) = trimChars core := by
  have htrail' : ∀ c ∈ trail.reverse, isBlank c = true := fun c hc => htrail c (List.mem_reverse.1 hc)
  rw [trimChars, List.append_assoc, List.dropWhile_append_of_pos hlead, List.dropWhile_append]
  by_cases hcore : core.dropWhile isBlank = []
  · have hnone : trail.dropWhile isBlank = [] := List.dropWhile_eq_nil_iff.2 htrail
    simp [trimChars, hcore, hnone]
  · rw [if_neg (by simpa using hcore), List.reverse_append, List.dropWhile_append_of_pos htrail', trimChars]

theorem trimmed_iff {text core : String} : Trimmed text core ↔ trim text = core := by
  constructor
  · rintro ⟨⟨lead, trail, hlead, htrail, rfl⟩, hfirst, hlast⟩
    rw [trim, String.toList_append, String.toList_append,
      trimChars_append (List.all_eq_true.1 hlead) (List.all_eq_true.1 htrail),
      trimChars_eq_self hfirst hlast, String.ofList_toList]
  · rintro rfl
    obtain ⟨lead, trail, hlead, htrail, htext⟩ := trim_append text.toList
    refine ⟨⟨.ofList lead, .ofList trail, ?_, ?_, ?_⟩, ?_, ?_⟩
    · rw [allBlank, String.toList_ofList]
      exact List.all_eq_true.2 hlead
    · rw [allBlank, String.toList_ofList]
      exact List.all_eq_true.2 htrail
    · rw [trim, ← String.ofList_append, ← String.ofList_append, ← htext, String.ofList_toList]
    · rw [trim, String.toList_ofList]
      exact not_isBlank_head?_trimChars
    · rw [trim, String.toList_ofList]
      exact not_isBlank_getLast?_trimChars

theorem Trimmed.trim_core {text core : String} (h : Trimmed text core) : trim core = core := by
  rw [trim, trimChars_eq_self h.first h.last, String.ofList_toList]

end Text

/-! ## Names of fields -/

namespace Field

/-- The text is the symbolic name or the path of the field. -/
def NamedBy (f : Field) (s : String) : Prop := s = f.name ∨ s = f.path

theorem ofText?_eq_some_iff {s : String} {f : Field} : ofText? s = some f ↔ f.NamedBy s := by
  constructor
  · intro h
    have hf := List.find?_some h
    rw [Bool.or_eq_true, decide_eq_true_eq, decide_eq_true_eq] at hf
    exact hf.imp Eq.symm Eq.symm
  · rintro (rfl | rfl)
    · exact ofText?_name f
    · exact ofText?_path f

/-- No name is empty or has a blank or an equals sign in it. -/
theorem NamedBy.plain {f : Field} {s : String} (h : f.NamedBy s) :
    s.toList ≠ [] ∧ ∀ c ∈ s.toList, isBlank c = false ∧ c ≠ '=' := by
  have hname : (!s.toList.isEmpty && s.toList.all fun c => !isBlank c && c != '=') = true := by
    rcases h with rfl | rfl
    · cases f <;> decide +kernel
    · cases f <;> decide +kernel
  simpa using hname

theorem NamedBy.trimmed {f : Field} {s : String} (h : f.NamedBy s) {lead trail : String}
    (hlead : allBlank lead = true) (htrail : allBlank trail = true) : Trimmed (lead ++ s ++ trail) s where
  around := ⟨lead, trail, hlead, htrail, rfl⟩
  first c hc := (h.plain.2 c (List.mem_of_mem_head? hc)).1
  last c hc := (h.plain.2 c (List.mem_of_mem_getLast? hc)).1

end Field

namespace CommandLine.FieldValue

/-! ## Cutting -/

/-- The text is cut in two by its first equals sign. -/
structure CutAs (text before after : String) : Prop where
  whole : text = before ++ "=" ++ after
  first : '=' ∉ before.toList

theorem cutAs_iff {text before after : String} :
    CutAs text before after ↔ cut? '=' text.toList = some (before.toList, after.toList) := by
  have hwhole : text = before ++ "=" ++ after ↔ text.toList = before.toList ++ '=' :: after.toList := by
    rw [← String.toList_inj]
    simp
  rw [cut?_eq_some_iff, ← hwhole]
  exact ⟨fun h => ⟨h.whole, h.first⟩, fun h => ⟨h.1, h.2⟩⟩

theorem CutAs.unique {text before after before' after' : String} (h : CutAs text before after)
    (h' : CutAs text before' after') : before = before' ∧ after = after' := by
  have heq := (cutAs_iff.1 h).symm.trans (cutAs_iff.1 h')
  simpa only [Option.some.injEq, Prod.mk.injEq, String.toList_inj] using heq

/-- A condition is read off the two parts: the first must not be blank and is trimmed, the second is kept. -/
theorem read_eq_ok_iff_cutAs {text : String} {c : FieldValue} :
    read text = .ok c ↔
      ∃ before, CutAs text before c.value ∧ allBlank before = false ∧ Trimmed before c.field := by
  rw [read_eq_ok_iff]
  constructor
  · rintro ⟨before, after, hwhole, hfirst, hblank, rfl⟩
    refine ⟨.ofList before, cutAs_iff.2 ?_, ?_, trimmed_iff.2 ?_⟩
    · rw [String.toList_ofList, String.toList_ofList]
      exact cut?_eq_some_iff.2 ⟨hwhole, hfirst⟩
    · rwa [allBlank, String.toList_ofList]
    · rw [trim, String.toList_ofList]
  · rintro ⟨before, hcut, hblank, htrimmed⟩
    obtain ⟨hwhole, hfirst⟩ := cut?_eq_some_iff.1 (cutAs_iff.1 hcut)
    have hfield : String.ofList (trimChars before.toList) = c.field := trimmed_iff.1 htrimmed
    refine ⟨before.toList, c.value.toList, hwhole, hfirst, hblank, ?_⟩
    rw [hfield, String.ofList_toList]

/-! ## Conditions on a field and a value -/

/-- The text is a condition on the field and the value: a name of the field with blanks around it, an equals
sign, and the value. -/
inductive Writes (f : Field) (value : String) : String → Prop
  | of {lead name trail : String} : allBlank lead = true → f.NamedBy name → allBlank trail = true →
    Writes f value (lead ++ name ++ trail ++ "=" ++ value)

/-- The conditions on a field and a value are the texts that are read as this value under a name of it. -/
theorem writes_iff {f : Field} {value text : String} :
    Writes f value text ↔ ∃ c, read text = .ok c ∧ c.value = value ∧ Field.resolve? c.field = some f := by
  constructor
  · rintro @⟨lead, name, trail, hlead, hname, htrail⟩
    have htrimmed : Trimmed (lead ++ name ++ trail) name := hname.trimmed hlead htrail
    obtain ⟨hne, hplain⟩ := hname.plain
    refine ⟨⟨name, value⟩, read_eq_ok_iff_cutAs.2 ⟨_, ⟨rfl, ?_⟩, ?_, htrimmed⟩, rfl, ?_⟩
    · have hblank : ∀ {s : String}, allBlank s = true → '=' ∉ s.toList := fun hs hmem =>
        absurd (List.all_eq_true.1 hs _ hmem) (by decide)
      simp only [String.toList_append, List.mem_append, not_or]
      exact ⟨⟨hblank hlead, fun hmem => (hplain _ hmem).2 rfl⟩, hblank htrail⟩
    · obtain ⟨c, hc⟩ := List.exists_mem_of_ne_nil _ hne
      rw [allBlank, String.toList_append, String.toList_append, List.all_append, List.all_append,
        List.all_eq_false.2 ⟨c, hc, by simp [(hplain c hc).1]⟩, Bool.and_false, Bool.false_and]
    · rw [Field.resolve?, htrimmed.trim_core, Field.ofText?_eq_some_iff]
      exact hname
  · rintro ⟨c, hread, rfl, hf⟩
    obtain ⟨before, hcut, -, htrimmed⟩ := read_eq_ok_iff_cutAs.1 hread
    rw [Field.resolve?, htrimmed.trim_core, Field.ofText?_eq_some_iff] at hf
    obtain ⟨lead, trail, hlead, htrail, rfl⟩ := htrimmed.around
    rw [hcut.whole]
    exact .of hlead hf htrail

/-- A text is a condition on one field and one value at most. -/
theorem Writes.unique {f g : Field} {v w text : String} (h : Writes f v text) (h' : Writes g w text) :
    f = g ∧ v = w := by
  obtain ⟨c, hc, rfl, hf⟩ := writes_iff.1 h
  obtain ⟨d, hd, rfl, hg⟩ := writes_iff.1 h'
  obtain rfl : c = d := Except.ok.inj (hc.symm.trans hd)
  exact ⟨Option.some.inj (hf.symm.trans hg), rfl⟩

/-! ## Leaves of conditions -/

/-- The leaf that compares the field with the text of the value, as one whole word or else as analyzed text. -/
def comparison (word : Bool) (fuzzy : Option FuzzyConfig) (f : Field) (value : String) : Leaf :=
  .of (if word then .term f (.text value) else .fullText f (.text value) ⟨fuzzy, none⟩)

theorem comparison_injective {word : Bool} {fuzzy : Option FuzzyConfig} {f g : Field} {v w : String}
    (h : comparison word fuzzy f v = comparison word fuzzy g w) : f = g ∧ v = w := by
  cases word <;> simpa [comparison, Leaf.of] using h

theorem leaf_eq_ok_iff {word : Bool} {fuzzy : Option FuzzyConfig} {c : FieldValue} {l : Leaf} :
    c.leaf word fuzzy = .ok l ↔
      ∃ f, Field.resolve? c.field = some f ∧ comparison word fuzzy f c.value = l := by
  simp only [leaf, Except.map_eq_ok_iff, Field.resolve_eq_ok_iff]
  cases word <;> rfl

theorem leaf_eq_error_iff {word : Bool} {fuzzy : Option FuzzyConfig} {c : FieldValue} {e : QueryError} :
    c.leaf word fuzzy = .error e ↔ Field.resolve? c.field = none ∧ e = .unknownField c.field := by
  rw [leaf, Field.resolve]
  cases Field.resolve? c.field <;> simp [Except.map, eq_comm]

/-- The text is read as a condition that becomes the leaf. -/
def Builds (word : Bool) (fuzzy : Option FuzzyConfig) (text : String) (l : Leaf) : Prop :=
  ∃ c, read text = .ok c ∧ c.leaf word fuzzy = .ok l

theorem builds_iff {word : Bool} {fuzzy : Option FuzzyConfig} {text : String} {l : Leaf} :
    Builds word fuzzy text l ↔ ∃ f v, Writes f v text ∧ comparison word fuzzy f v = l := by
  simp only [Builds, leaf_eq_ok_iff, writes_iff]
  constructor
  · rintro ⟨c, hread, f, hf, hl⟩
    exact ⟨f, c.value, ⟨c, hread, rfl, hf⟩, hl⟩
  · rintro ⟨f, -, ⟨c, hread, rfl, hf⟩, hl⟩
    exact ⟨c, hread, f, hf, hl⟩

theorem exists_read_iff {text : String} :
    (∃ c, read text = .ok c) ↔
      ∃ before after, CutAs text before after ∧ ∃ x ∈ before.toList, isBlank x = false := by
  have hblank : ∀ before : String, allBlank before = false ↔ ∃ x ∈ before.toList, isBlank x = false := by
    intro before
    simp [allBlank]
  simp only [read_eq_ok_iff_cutAs, ← hblank]
  constructor
  · rintro ⟨c, before, hcut, hbefore, -⟩
    exact ⟨before, c.value, hcut, hbefore⟩
  · rintro ⟨before, after, hcut, hbefore⟩
    exact ⟨⟨trim before, after⟩, before, hcut, hbefore, trimmed_iff.2 rfl⟩

/-- **Conditions are split at the first equals sign and resolved by their field** (`parse_condition`,
`condition_leaf`). A text is read just if there is such a sign and more than blanks before it; the part before is
trimmed and the part behind is kept as it is. It becomes the leaf for a field and a value just if it is a condition
on them, which it is on no other field and value. What is read and is a condition on no field is at fault for its
trimmed field. -/
theorem split_and_resolved (text : String) :
    ((∃ c, read text = .ok c) ↔
        ∃ before after, CutAs text before after ∧ ∃ x ∈ before.toList, isBlank x = false) ∧
      (∀ before after c, CutAs text before after → read text = .ok c →
        Trimmed before c.field ∧ c.value = after) ∧
      (∀ f g v w, Writes f v text → Writes g w text → f = g ∧ v = w) ∧
      ∀ word fuzzy,
        (∀ f v, Builds word fuzzy text (comparison word fuzzy f v) ↔ Writes f v text) ∧
          (∀ l, Builds word fuzzy text l → ∃ f v, l = comparison word fuzzy f v) ∧
          ∀ c e, read text = .ok c →
            (c.leaf word fuzzy = .error e ↔ (∀ f v, ¬ Writes f v text) ∧ e = .unknownField c.field) := by
  refine ⟨exists_read_iff, fun before after c hcut hread => ?_, fun f g v w => Writes.unique,
    fun word fuzzy => ⟨fun f v => ?_, fun l hl => ?_, fun c e hread => ?_⟩⟩
  · obtain ⟨before', hcut', -, htrimmed⟩ := read_eq_ok_iff_cutAs.1 hread
    obtain ⟨rfl, rfl⟩ := hcut.unique hcut'
    exact ⟨htrimmed, rfl⟩
  · rw [builds_iff]
    constructor
    · rintro ⟨g, w, hwrites, heq⟩
      obtain ⟨rfl, rfl⟩ := comparison_injective heq
      exact hwrites
    · exact fun hwrites => ⟨f, v, hwrites, rfl⟩
  · obtain ⟨f, v, -, rfl⟩ := builds_iff.1 hl
    exact ⟨f, v, rfl⟩
  · have hnone : (∀ f v, ¬ Writes f v text) ↔ Field.resolve? c.field = none := by
      simp only [writes_iff, hread, Except.ok.injEq, exists_eq_left', not_and, forall_eq',
        Option.eq_none_iff_forall_ne_some, ne_eq]
    rw [leaf_eq_error_iff, hnone]

/-- Blanks around the path of a field, and a value with an equals sign and blanks of its own. -/
def spacedCondition : String := "\u2003source.class\t= a=b "

/-- A condition on something that is no field. -/
def foreignCondition : String := " host=web-1"

theorem split_and_resolved_spaced :
    CutAs spacedCondition "\u2003source.class\t" " a=b " ∧
      read spacedCondition = .ok ⟨"source.class", " a=b "⟩ ∧
      Trimmed "\u2003source.class\t" "source.class" ∧
      Builds false none spacedCondition (comparison false none .sourceClass " a=b ") ∧
      (∀ g w, Writes g w spacedCondition → Field.sourceClass = g ∧ " a=b " = w) ∧
      read foreignCondition = .ok ⟨"host", "web-1"⟩ ∧ (∀ f v, ¬ Writes f v foreignCondition) ∧
      leaf true none ⟨"host", "web-1"⟩ = .error (.unknownField "host") := by
  have hcut : CutAs spacedCondition "\u2003source.class\t" " a=b " := ⟨by decide +kernel, by decide +kernel⟩
  have hread : read spacedCondition = .ok ⟨"source.class", " a=b "⟩ := by decide +kernel
  have hwrites : Writes .sourceClass " a=b " spacedCondition :=
    writes_iff.2 ⟨_, hread, rfl, by decide +kernel⟩
  have hforeign : read foreignCondition = .ok ⟨"host", "web-1"⟩ := by decide +kernel
  have hnone : ∀ f v, ¬ Writes f v foreignCondition := by
    intro f v h
    obtain ⟨c, hc, -, hf⟩ := writes_iff.1 h
    obtain rfl := Except.ok.inj (hforeign.symm.trans hc)
    have hunknown : Field.resolve? "host" = none := by decide +kernel
    rw [hunknown] at hf
    cases hf
  obtain ⟨-, hparts, hunique, hleaves⟩ := split_and_resolved spacedCondition
  obtain ⟨-, -, -, hfaults⟩ := split_and_resolved foreignCondition
  exact ⟨hcut, hread, (hparts _ _ _ hcut hread).1, ((hleaves false none).1 _ _).2 hwrites,
    fun g w => hunique _ g _ w hwrites, hforeign, hnone, ((hfaults true none).2.2 _ _ hforeign).2 ⟨hnone, rfl⟩⟩

end CommandLine.FieldValue

end LogQuery
