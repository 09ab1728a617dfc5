import LogQuery.CommandLine.Invocation
import LogQuery.Proofs.Computations

/-!
# Options as they are written

An option with what it carries is written as one argument, `--name=value`, or `--name` if it carries nothing.
Read behind a command that knows it, the argument gives back the option with what it carries, whatever that
is; only a condition must have a tidy field (`FieldValue.Tidy`), which every condition that is read has.

Main statements: written options are scanned as they were written (`scan_arguments`) and count as they were
given (`settleAll_occurrences`), and options that count carry what can be written (`fits_of_settleAll`).
-/

namespace LogQuery

open LogQuery.Text

/-! ## Trimmed text -/

namespace Text

theorem trimChars_eq_self {cs : List Char} (hfirst : ∀ c ∈ cs.head?, isBlank c = false)
    (hlast : ∀ c ∈ cs.getLast?, isBlank c = false) : trimChars cs = cs := by
  have hdrop : ∀ ds : List Char, (∀ c ∈ ds.head?, isBlank c = false) → ds.dropWhile isBlank = ds := by
    intro ds hds
    cases ds with
    | nil => rfl
    | cons d ds => simp [hds d rfl]
  have hback : cs.reverse.dropWhile isBlank = cs.reverse := hdrop _ (by rwa [List.head?_reverse])
  rw [trimChars, hdrop cs hfirst, hback, List.reverse_reverse]

theorem not_isBlank_head?_dropWhile {cs : List Char} : ∀ c ∈ (cs.dropWhile isBlank).head?, isBlank c = false := by
  intro c hc
  have h := List.head?_dropWhile_not isBlank cs
  rw [Option.mem_def.1 hc] at h
  simpa using h

theorem not_isBlank_getLast?_trimChars {cs : List Char} : ∀ c ∈ (trimChars cs).getLast?, isBlank c = false := by
  rw [trimChars, List.getLast?_reverse]
  exact not_isBlank_head?_dropWhile

/-- What is taken off at the end is not the start, unless nothing stays. -/
theorem not_isBlank_head?_trimChars {cs : List Char} : ∀ c ∈ (trimChars cs).head?, isBlank c = false := by
  intro c hc
  have hprefix : trimChars cs <+: cs.dropWhile isBlank := by
    have hsuffix := List.dropWhile_suffix isBlank (l := (cs.dropWhile isBlank).reverse)
    simpa [trimChars] using List.reverse_prefix.2 hsuffix
  obtain ⟨rest, hrest⟩ := hprefix
  have hdropped : c ∈ (cs.dropWhile isBlank).head? := by
    rw [← hrest, List.head?_append, Option.mem_def.1 hc]
    rfl
  exact not_isBlank_head?_dropWhile c hdropped

theorem trimChars_ne_nil {cs : List Char} (h : cs.all isBlank = false) : trimChars cs ≠ [] := by
  intro hnil
  obtain ⟨before, after, hbefore, hafter, hcs⟩ := trim_append cs
  have hall : cs.all isBlank = true := by
    rw [hcs, hnil, List.append_nil, List.all_append, List.all_eq_true.2 hbefore, List.all_eq_true.2 hafter]
    rfl
  rw [hall] at h
  cases h

theorem mem_of_mem_trimChars {cs : List Char} {c : Char} (h : c ∈ trimChars cs) : c ∈ cs := by
  obtain ⟨before, after, -, -, hcs⟩ := trim_append cs
  rw [hcs]
  exact List.mem_append_left _ (List.mem_append_right _ h)

end Text

namespace CommandLine

/-! ## Conditions -/

namespace FieldValue

/-- The field is not empty, no blanks stand around it, and no equals sign in it. -/
structure Tidy (p : FieldValue) : Prop where
  nonempty : p.field.toList ≠ []
  first : ∀ c ∈ p.field.toList.head?, isBlank c = false
  last : ∀ c ∈ p.field.toList.getLast?, isBlank c = false
  plain : '=' ∉ p.field.toList

theorem tidy_iff {p : FieldValue} : p.Tidy ↔ (!p.field.toList.isEmpty && p.field.toList.head?.all (!isBlank ·) &&
    p.field.toList.getLast?.all (!isBlank ·) && !p.field.toList.contains '=') = true := by
  have hall : ∀ x : Option Char, x.all (!isBlank ·) = true ↔ ∀ c ∈ x, isBlank c = false := by
    intro x
    cases x <;> simp
  simp only [Bool.and_eq_true, hall, Bool.not_eq_true', List.isEmpty_eq_false_iff, List.contains_eq_mem,
    decide_eq_false_iff_not]
  constructor
  · exact fun h => ⟨⟨⟨h.nonempty, h.first⟩, h.last⟩, h.plain⟩
  · rintro ⟨⟨⟨hne, hfirst⟩, hlast⟩, hplain⟩
    exact ⟨hne, hfirst, hlast, hplain⟩

instance (p : FieldValue) : Decidable p.Tidy := decidable_of_iff' _ tidy_iff

/-- The text of a condition. -/
def text (p : FieldValue) : String := p.field ++ "=" ++ p.value

theorem tidy_of_read {text : String} {p : FieldValue} (h : read text = .ok p) : p.Tidy := by
  obtain ⟨before, after, -, hplain, hblank, rfl⟩ := read_eq_ok_iff.1 h
  refine ⟨?_, ?_, ?_, ?_⟩ <;> simp only [String.toList_ofList]
  · exact trimChars_ne_nil hblank
  · exact not_isBlank_head?_trimChars
  · exact not_isBlank_getLast?_trimChars
  · exact fun hmem => hplain (mem_of_mem_trimChars hmem)

theorem Tidy.read_text {p : FieldValue} (h : p.Tidy) : read p.text = .ok p := by
  have hblank : p.field.toList.all isBlank = false := by
    obtain ⟨c, cs, hcs⟩ := List.exists_cons_of_ne_nil h.nonempty
    have hc : isBlank c = false := h.first c (by rw [hcs]; rfl)
    rw [hcs, List.all_cons, hc, Bool.false_and]
  have htrim : trimChars p.field.toList = p.field.toList := trimChars_eq_self h.first h.last
  refine read_eq_ok_iff.2 ⟨p.field.toList, p.value.toList, ?_, h.plain, hblank, ?_⟩
  · simp [text]
  · rw [htrim, String.ofList_toList, String.ofList_toList]

end FieldValue

/-! ## Writing what an option carries -/

/-- Only the field of a condition must be of a certain form to be written. -/
def Kind.Fits : (k : Kind) → k.Value → Prop
  | .condition, p => FieldValue.Tidy p
  | .flag, _ | .text, _ | .number, _ => True

/-- What is written behind the equals sign; nothing for a flag. -/
def Kind.attached : (k : Kind) → k.Value → Option String
  | .flag, _ => none
  | .text, s => some s
  | .condition, p => some (FieldValue.text p)
  | .number, n => some (Text.ofNat (UInt32.toNat n))

theorem Kind.attached_eq_none_iff {k : Kind} {v : k.Value} : k.attached v = none ↔ k = .flag := by
  cases k <;> simp [attached]

theorem readIntWithin?_ofNat (n : UInt32) :
    readIntWithin? 0 (UInt32.size - 1) (Text.ofNat n.toNat).toList = some (n.toNat : Int) := by
  have hread : readInt? (natChars n.toNat) = some (n.toNat : Int) := by
    have hchars : intChars (n.toNat : Int) = natChars n.toNat := by simp [intChars]
    rw [← hchars, readInt?_intChars]
  have hbounds : (decide ((0 : Int) ≤ n.toNat) && decide ((n.toNat : Int) ≤ UInt32.size - 1)) = true := by
    have h := n.toNat_lt_size
    rw [Bool.and_eq_true, decide_eq_true_iff, decide_eq_true_iff]
    omega
  rw [readIntWithin?, Text.ofNat, String.toList_ofList, hread, Option.filter_some, if_pos hbounds]

/-- What is written is read as what it was. -/
theorem OptionName.readAs_attached (o : OptionName) :
    ∀ {k : Kind} {v : k.Value}, k.Fits v → o.readAs ((k.attached v).getD "") k = .ok v
  | .flag, (), _ => rfl
  | .text, _, _ => rfl
  | .condition, p, h => by
    have hread : FieldValue.read (p : FieldValue).text = .ok p := FieldValue.Tidy.read_text h
    simp only [Kind.attached, Option.getD_some, readAs, hread]
    rfl
  | .number, n, _ => by
    have hread := readIntWithin?_ofNat n
    simp only [Kind.attached, Option.getD_some, readAs, hread, Int.toNat_natCast]
    exact congrArg Except.ok UInt32.ofNat_toNat

/-- What is read can be written. -/
theorem OptionName.fits_of_readAs (o : OptionName) {text : String} :
    ∀ {k : Kind} {v : k.Value}, o.readAs text k = .ok v → k.Fits v
  | .flag, _, _ | .text, _, _ | .number, _, _ => trivial
  | .condition, p, h => by
    have hread : FieldValue.read text = .ok p := Except.mapError_eq_ok_iff.1 h
    exact FieldValue.tidy_of_read hread

namespace Setting

def Fits (s : Setting) : Prop := s.option.kind.Fits s.value

/-- The option as it is given when it is written as one argument. -/
def occurrence (s : Setting) : Occurrence := ⟨s.option, s.option.kind.attached s.value⟩

end Setting

/-- The option written as one argument. -/
def Occurrence.argument (x : Occurrence) : String :=
  "--" ++ x.option.long ++ x.value.elim "" fun text => "=" ++ text

/-- The option with what it carries, written as one argument. -/
def Setting.argument (s : Setting) : String := s.occurrence.argument

/-! ## Scanning written options -/

theorem OptionName.long_plain (o : OptionName) : '=' ∉ o.long.toList := by cases o <;> decide +kernel

theorem OptionName.long_ne_nil (o : OptionName) : o.long.toList ≠ [] := by cases o <;> decide +kernel

theorem Shape.of_argument (x : Occurrence) : Shape.of x.argument = .long x.option.long x.value := by
  obtain ⟨o, value⟩ := x
  obtain ⟨c, cs, hcs⟩ := List.exists_cons_of_ne_nil o.long_ne_nil
  have hname : String.ofList (c :: cs) = o.long := by rw [← hcs, String.ofList_toList]
  cases value with
  | none =>
    have hchars : (Occurrence.argument ⟨o, none⟩).toList = '-' :: '-' :: c :: cs := by
      simp [Occurrence.argument, hcs]
    have hcut : cut? '=' (c :: cs) = none := cut?_eq_none_iff.2 (hcs ▸ o.long_plain)
    simp [Shape.of, hchars, ofLong, hcut, hname]
  | some text =>
    have hchars : (Occurrence.argument ⟨o, some text⟩).toList = '-' :: '-' :: c :: (cs ++ '=' :: text.toList) := by
      simp [Occurrence.argument, hcs]
    have hcut : cut? '=' (c :: (cs ++ '=' :: text.toList)) = some (c :: cs, text.toList) :=
      cut?_eq_some_iff.2 ⟨rfl, hcs ▸ o.long_plain⟩
    simp [Shape.of, hchars, ofLong, hcut, hname]

theorem Place.metLong?_long {c : CommandName} {o : OptionName} (hk : (behind c).knows o = true) :
    (behind c).metLong? o.long = some (.option o) := by
  have hhelp : o.long ≠ "help" := by cases o <;> decide
  simp [metLong?, hhelp, showsVersion, OptionName.ofLong?_long, hk]

/-- Behind a command that knows it, a written option is complete. -/
theorem Place.step?_argument {c : CommandName} {s : Setting} (hk : (behind c).knows s.option = true) :
    (behind c).step? s.argument = some (.complete s.occurrence) := by
  have hmet : Met.step s.option.long s.occurrence.value (.option s.option) = .complete s.occurrence := by
    obtain ⟨o, v⟩ := s
    have hnone : (o.kind.attached v = none) ↔ o.kind = .flag := Kind.attached_eq_none_iff
    simp only [Setting.occurrence, Met.step]
    split <;> simp_all
  have hshape : Shape.of s.argument = .long s.option.long s.occurrence.value := Shape.of_argument s.occurrence
  simp [step?, hshape, metLong?_long hk, hmet]

/-- Written options are scanned one by one, and nothing else is found. -/
theorem scan_arguments {c : CommandName} {l : List Setting} (h : ∀ s ∈ l, (Place.behind c).knows s.option = true) :
    scan (.behind c) none (l.map Setting.argument) = (l.map Setting.occurrence, .finished) := by
  induction l with
  | nil => rfl
  | cons s l ih =>
    obtain ⟨hs, hl⟩ := List.forall_mem_cons.1 h
    rw [List.map_cons, scan_attached _ (Place.step?_argument hs), ih hl, List.map_cons]

/-! ## Options that count -/

theorem mem_valuesOf_iff {o : OptionName} {v : o.Value} {l : List Setting} : v ∈ valuesOf o l ↔ ⟨o, v⟩ ∈ l := by
  simp only [valuesOf, List.mem_filterMap, Option.dite_none_right_eq_some, Option.some.injEq]
  constructor
  · rintro ⟨⟨o', v'⟩, hmem, rfl, rfl⟩
    exact hmem
  · exact fun hmem => ⟨⟨o, v⟩, hmem, rfl, rfl⟩

theorem valuesOf_append (o : OptionName) (l m : List Setting) :
    valuesOf o (l ++ m) = valuesOf o l ++ valuesOf o m := List.filterMap_append

theorem valuesOf_cons_self (s : Setting) (l : List Setting) :
    valuesOf s.option (s :: l) = s.value :: valuesOf s.option l := by simp [valuesOf]

/-- An option is given when it carries something, be it nothing of interest. -/
theorem isGiven_eq (o : OptionName) (l : List Setting) : isGiven o l = !(valuesOf o l).isEmpty := by
  rw [Bool.eq_iff_iff, Bool.not_eq_true', List.isEmpty_eq_false_iff, isGiven, List.any_eq_true]
  constructor
  · rintro ⟨s, hs, ho⟩
    obtain rfl := of_decide_eq_true ho
    exact List.ne_nil_of_mem (mem_valuesOf_iff.2 hs)
  · intro h
    obtain ⟨v, hv⟩ := List.exists_mem_of_ne_nil _ h
    exact ⟨⟨o, v⟩, mem_valuesOf_iff.1 hv, decide_eq_true rfl⟩

/-- A written option counts if it may still be given. -/
theorem settle_occurrence {given : List Setting} {s : Setting} (hs : s.Fits)
    (hfree : isTaken given s.option = false) : settle given s.occurrence = .ok (given ++ [s]) := by
  have hvalue : ¬ (s.occurrence.option.kind ≠ .flag ∧ s.occurrence.value = none) := by
    rintro ⟨hflag, hnone⟩
    exact hflag (Kind.attached_eq_none_iff.1 hnone)
  have hread : s.option.readValue (s.occurrence.value.getD "") = .ok s.value := s.option.readAs_attached hs
  have hoccurrence : s.occurrence.read (isTaken given s.option) = .ok s := by
    rw [Occurrence.read, if_neg hvalue, hfree]
    simp only [Bool.false_eq_true, if_false]
    exact Except.map_eq_ok_iff.2 ⟨s.value, hread, rfl⟩
  exact Except.map_eq_ok_iff.2 ⟨s, hoccurrence, rfl⟩

/-- Written options all count if each that may be given once is. -/
theorem settleAll_occurrences {given l : List Setting} (hfits : ∀ s ∈ l, s.Fits)
    (honce : ∀ o : OptionName, o.isRepeatable = false → (valuesOf o (given ++ l)).length ≤ 1) :
    settleAll given (l.map Setting.occurrence) = .ok (given ++ l) := by
  induction l generalizing given with
  | nil =>
    rw [List.append_nil]
    rfl
  | cons s l ih =>
    obtain ⟨hs, hl⟩ := List.forall_mem_cons.1 hfits
    have hfree : isTaken given s.option = false := by
      cases hrep : s.option.isRepeatable with
      | true => simp [isTaken, hrep]
      | false =>
        have hlen := honce s.option hrep
        rw [valuesOf_append, valuesOf_cons_self, List.length_append, List.length_cons] at hlen
        have hnone : valuesOf s.option given = [] := List.eq_nil_of_length_eq_zero (by omega)
        simp [isTaken, hrep, isGiven_eq, hnone]
    have hsplit : given ++ s :: l = (given ++ [s]) ++ l := by simp
    rw [hsplit] at honce ⊢
    have hstep := settle_occurrence hs hfree
    rw [settleAll, List.map_cons, List.foldlM_cons, hstep]
    exact ih hl honce

/-- An option that counts carries what can be written. -/
theorem fits_of_settle {given after : List Setting} {x : Occurrence} (h : settle given x = .ok after)
    (hg : ∀ s ∈ given, s.Fits) : ∀ s ∈ after, s.Fits := by
  obtain ⟨s, hs, rfl⟩ := Except.map_eq_ok_iff.1 h
  have hfits : s.Fits := by
    rw [Occurrence.read] at hs
    split at hs
    · cases hs
    · split at hs
      · cases hs
      · obtain ⟨v, hv, rfl⟩ := Except.map_eq_ok_iff.1 hs
        exact x.option.fits_of_readAs hv
  intro t ht
  rcases List.mem_append.1 ht with ht | ht
  · exact hg t ht
  · rw [List.mem_singleton.1 ht]
    exact hfits

theorem fits_of_settleAll {given after : List Setting} {xs : List Occurrence} (h : settleAll given xs = .ok after)
    (hg : ∀ s ∈ given, s.Fits) : ∀ s ∈ after, s.Fits := by
  induction xs generalizing given with
  | nil =>
    cases h
    exact hg
  | cons x xs ih =>
    rw [settleAll, List.foldlM_cons] at h
    obtain ⟨next, hnext, hrest⟩ := Except.bind_eq_ok_iff.1 h
    exact ih hrest (fits_of_settle hnext hg)

end CommandLine

end LogQuery
