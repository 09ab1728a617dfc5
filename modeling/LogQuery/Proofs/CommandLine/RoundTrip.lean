import LogQuery.Proofs.CommandLine.Spelling

/-!
# Invocations as they are written

An invocation is written as the name of its command and behind it its options, each as one argument. The
options may be mixed in any way as long as those that are given several times keep their order among each
other (`Invocation.SpelledBy`). The arguments are read as the invocation that was written, if it is admissible:
its query is in one language, a descending order has a field to sort by, and its conditions have tidy fields.
No other invocation is ever read.

Main statement: command lines round-trip (`Invocation.round_trip`).
-/

namespace LogQuery.CommandLine

/-! ## What an invocation gives to each option -/

/-- What a flag carries, each time that it is given. -/
def flagged (b : Bool) : List Unit := if b then [()] else []

@[simp] theorem isEmpty_flagged (b : Bool) : (flagged b).isEmpty = !b := by cases b <;> rfl

theorem length_flagged (b : Bool) : (flagged b).length ≤ 1 := by cases b <;> decide

/-- What an option carries when it is not given. -/
def OptionName.ungiven : (o : OptionName) → List o.Value
  | .first => [(0 : UInt32)]
  | _ => []

def QueryOptions.values (q : QueryOptions) : (o : OptionName) → List o.Value
  | .must => q.must
  | .mustNot => q.mustNot
  | .should => q.should
  | .term => flagged q.term
  | .fuzzy => flagged q.fuzzy
  | .query => q.query.toList
  | .safeQuery => q.safeQuery.toList
  | .queryField => q.queryFields
  | _ => []

def SearchOptions.values (s : SearchOptions) : (o : OptionName) → List o.Value
  | .first => [s.first]
  | .size => s.size.toList
  | .sort => s.sort.toList
  | .descending => flagged s.descending
  | .index => s.index.toList
  | .node => s.nodes
  | _ => []

namespace Command

def name : Command → CommandName
  | compile _ => .compile
  | search _ _ => .search
  | fields => .fields

def values : Command → (o : OptionName) → List o.Value
  | compile q, o => q.values o
  | search q s, o => bif o.isQuery then q.values o else s.values o
  | fields, _ => []

end Command

namespace Invocation

def values (i : Invocation) : (o : OptionName) → List o.Value
  | .config => i.config.toList
  | .logLevel => i.logLevel.toList
  | o => i.command.values o

/-- The settings say what the invocation has: each option is given with all that it carries, in that order.
One that carries what it carries anyway may be left out. -/
def SpelledBy (i : Invocation) (l : List Setting) : Prop :=
  ∀ o, valuesOf o l = i.values o ∨ valuesOf o l = [] ∧ i.values o = o.ungiven

/-- The options of the invocation, one after the other. -/
def options (i : Invocation) : List Setting := OptionName.all.flatMap fun o => (i.values o).map fun v => ⟨o, v⟩

end Invocation

/-! ## Settings option by option -/

theorem valuesOf_same {o : OptionName} (vs : List o.Value) : valuesOf o (vs.map fun v => ⟨o, v⟩) = vs := by
  induction vs with
  | nil => rfl
  | cons v vs ih => rw [List.map_cons, valuesOf_cons_self ⟨o, v⟩, ih]

theorem valuesOf_eq_nil {o : OptionName} {l : List Setting} (h : ∀ s ∈ l, s.option ≠ o) : valuesOf o l = [] :=
  List.eq_nil_iff_forall_not_mem.2 fun v hv => h ⟨o, v⟩ (mem_valuesOf_iff.1 hv) rfl

/-- Settings that were put one option behind the other give back what each option carries. -/
theorem valuesOf_flatMap {os : List OptionName} (f : (o : OptionName) → List o.Value) (hd : os.Nodup)
    {o : OptionName} (ho : o ∈ os) : valuesOf o (os.flatMap fun o => (f o).map fun v => ⟨o, v⟩) = f o := by
  induction os with
  | nil => cases ho
  | cons o' os ih =>
    obtain ⟨hfresh, hd⟩ := List.nodup_cons.1 hd
    rw [List.flatMap_cons, valuesOf_append]
    by_cases he : o' = o
    · subst he
      have hrest : valuesOf o' (os.flatMap fun o => (f o).map fun v => (⟨o, v⟩ : Setting)) = [] := by
        refine valuesOf_eq_nil fun s hs hso => ?_
        obtain ⟨o'', ho'', hs⟩ := List.mem_flatMap.1 hs
        obtain ⟨v, -, rfl⟩ := List.mem_map.1 hs
        exact hfresh (hso ▸ ho'')
      rw [valuesOf_same, hrest, List.append_nil]
    · have hfirst : valuesOf o ((f o').map fun v => (⟨o', v⟩ : Setting)) = [] := by
        refine valuesOf_eq_nil fun s hs hso => ?_
        obtain ⟨v, -, rfl⟩ := List.mem_map.1 hs
        exact he hso
      rw [hfirst, List.nil_append]
      exact ih hd ((List.mem_cons.1 ho).resolve_left (Ne.symm he))

/-- Every invocation has settings that say what it has. -/
theorem Invocation.spelledBy_options (i : Invocation) : i.SpelledBy i.options := fun o =>
  .inl (valuesOf_flatMap i.values (by decide) o.mem_all)

/-! ## Admissible invocations -/

structure QueryOptions.Admissible (q : QueryOptions) : Prop where
  /-- There is a text in one language at most. -/
  language : q.query = none ∨ q.safeQuery = none
  conditions : ∀ p ∈ q.must ++ q.mustNot ++ q.should, p.Tidy

def Command.Admissible : Command → Prop
  | compile q => q.Admissible
  | search q s => q.Admissible ∧ (s.descending = true → s.sort ≠ none)
  | fields => True

/-- The invocation can be asked for. -/
def Invocation.Admissible (i : Invocation) : Prop := i.command.Admissible

/-! ## What the options of an invocation are like -/

theorem length_toList {α : Type} (x : Option α) : x.toList.length ≤ 1 := by cases x <;> simp

theorem QueryOptions.length_values_le (q : QueryOptions) {o : OptionName} (ho : o.isRepeatable = false) :
    (q.values o).length ≤ 1 := by
  cases o <;> first | exact absurd ho (by decide) | exact length_toList _ | exact length_flagged _ | exact Nat.zero_le _

theorem SearchOptions.length_values_le (s : SearchOptions) {o : OptionName} (ho : o.isRepeatable = false) :
    (s.values o).length ≤ 1 := by
  cases o <;>
    first
    | exact absurd ho (by decide)
    | exact length_toList _
    | exact length_flagged _
    | exact Nat.zero_le _
    | exact Nat.le_refl _

theorem QueryOptions.Admissible.fits_of_mem_values {q : QueryOptions} (h : q.Admissible) {o : OptionName}
    {v : o.Value} (hv : v ∈ q.values o) : o.kind.Fits v := by
  cases o with
  | must => exact h.conditions v (List.mem_append_left _ (List.mem_append_left _ hv))
  | mustNot => exact h.conditions v (List.mem_append_left _ (List.mem_append_right _ hv))
  | should => exact h.conditions v (List.mem_append_right _ hv)
  | _ => trivial

theorem SearchOptions.fits_of_mem_values (s : SearchOptions) {o : OptionName} {v : o.Value}
    (hv : v ∈ s.values o) : o.kind.Fits v := by
  cases o with
  | must | mustNot | should => cases hv
  | _ => trivial

namespace Invocation

variable {i : Invocation} {l : List Setting} {o : OptionName}

theorem knows_of_values (h : i.values o ≠ []) : (Place.behind i.command.name).knows o = true := by
  obtain ⟨config, logLevel, command⟩ := i
  cases command <;> cases o <;> first | rfl | exact absurd rfl h

/-- What may be given once is. -/
theorem length_values_le (ho : o.isRepeatable = false) : (i.values o).length ≤ 1 := by
  have hcommand : (i.command.values o).length ≤ 1 := by
    rcases i.command with q | ⟨q, s⟩ | _
    · exact q.length_values_le ho
    · rw [Command.values]
      cases o.isQuery
      · exact s.length_values_le ho
      · exact q.length_values_le ho
    · exact Nat.zero_le _
  cases o <;> first | exact length_toList _ | exact hcommand

theorem fits_of_mem_values (h : i.Admissible) {v : o.Value} (hv : v ∈ i.values o) : o.kind.Fits v := by
  have hcommand : v ∈ i.command.values o → o.kind.Fits v := by
    intro hv
    rcases hc : i.command with q | ⟨q, s⟩ | _ <;> rw [Invocation.Admissible, hc] at h <;> rw [hc] at hv
    · exact h.fits_of_mem_values hv
    · rw [Command.values] at hv
      cases hq : o.isQuery <;> rw [hq] at hv
      · exact s.fits_of_mem_values hv
      · exact h.1.fits_of_mem_values hv
    · cases hv
  cases o with
  | config | logLevel => trivial
  | _ => exact hcommand hv

/-- An admissible invocation breaks none of the rules between options. -/
theorem compatible_of_admissible (h : i.Admissible) :
    (i.values .query = [] ∨ i.values .safeQuery = []) ∧ (i.values .descending ≠ [] → i.values .sort ≠ []) := by
  obtain ⟨config, logLevel, command⟩ := i
  have hquery : ∀ {q : QueryOptions}, q.Admissible → q.query.toList = [] ∨ q.safeQuery.toList = [] := by
    intro q hq
    rcases hq.language with hnone | hnone <;> simp [hnone]
  rcases command with q | ⟨q, s⟩ | _
  · exact ⟨hquery h, fun hd => absurd rfl hd⟩
  · have hsort : flagged s.descending ≠ [] → s.sort.toList ≠ [] := by
      intro hd hnone
      have hdescending : s.descending = true := by
        cases hs : s.descending with
        | true => rfl
        | false => simp [hs, flagged] at hd
      exact h.2 hdescending (Option.toList_eq_nil_iff.1 hnone)
    exact ⟨hquery h.1, hsort⟩
  · exact ⟨.inl rfl, fun hd => absurd rfl hd⟩

theorem valuesOf_eq (hl : i.SpelledBy l) (ho : o ≠ .first) : valuesOf o l = i.values o := by
  rcases hl o with h | ⟨hnone, hungiven⟩
  · exact h
  · rw [hnone, hungiven]
    cases o <;> first | rfl | exact absurd rfl ho

/-- What is given is what the invocation has. -/
theorem mem_values (hl : i.SpelledBy l) {v : o.Value} (hv : v ∈ valuesOf o l) : v ∈ i.values o := by
  rcases hl o with h | ⟨hnone, -⟩
  · rwa [← h]
  · rw [hnone] at hv
    cases hv

end Invocation

/-! ## Reading behind a command -/

theorem fault?_eq_none_iff {l : List Setting} : fault? l = none ↔
    (valuesOf .query l = [] ∨ valuesOf .safeQuery l = []) ∧
      (valuesOf .descending l ≠ [] → valuesOf .sort l ≠ []) := by
  simp only [fault?, isGiven_eq]
  split
  · next h =>
    simp_all
  · next h =>
    have hlanguage : valuesOf .query l = [] ∨ valuesOf .safeQuery l = [] := by
      by_cases hq : valuesOf .query l = []
      · exact .inl hq
      · simp_all
    split <;> simp_all

theorem readBehind_eq_ok_iff {c : CommandName} {args : List String} {l : List Setting} :
    readBehind c args = .ok l ↔
      ∃ xs, scan (.behind c) none args = (xs, .finished) ∧ settleAll [] xs = .ok l ∧ fault? l = none := by
  rw [readBehind]
  rcases hscan : scan (.behind c) none args with ⟨xs, stop⟩
  simp only [Except.bind_eq_ok_iff, Prod.mk.injEq]
  constructor
  · rintro ⟨given, hgiven, h⟩
    cases stop <;> simp only [reduceCtorEq] at h
    cases hfault : fault? given with
    | none =>
      rw [hfault] at h
      cases h
      exact ⟨xs, ⟨rfl, rfl⟩, hgiven, hfault⟩
    | some e =>
      rw [hfault] at h
      cases h
  · rintro ⟨xs', ⟨rfl, rfl⟩, hsettle, hfault⟩
    refine ⟨l, hsettle, ?_⟩
    simp [hfault]

namespace Invocation

/-- Written options are read behind the command as they are. -/
theorem readBehind_arguments {i : Invocation} {l : List Setting} (h : i.Admissible) (hl : i.SpelledBy l) :
    readBehind i.command.name (l.map Setting.argument) = .ok l := by
  have hmem : ∀ s ∈ l, s.value ∈ i.values s.option := fun s hs => mem_values hl (mem_valuesOf_iff.2 hs)
  have hknows : ∀ s ∈ l, (Place.behind i.command.name).knows s.option = true := fun s hs =>
    knows_of_values (List.ne_nil_of_mem (hmem s hs))
  have hfits : ∀ s ∈ l, s.Fits := fun s hs => fits_of_mem_values h (hmem s hs)
  have honce : ∀ o : OptionName, o.isRepeatable = false → (valuesOf o ([] ++ l)).length ≤ 1 := by
    intro o ho
    rcases hl o with hsame | ⟨hnone, -⟩
    · rw [List.nil_append, hsame]
      exact length_values_le ho
    · simp [hnone]
  have hfault : fault? l = none := by
    rw [fault?_eq_none_iff, valuesOf_eq hl (by decide), valuesOf_eq hl (by decide), valuesOf_eq hl (by decide),
      valuesOf_eq hl (by decide)]
    exact compatible_of_admissible h
  exact readBehind_eq_ok_iff.2 ⟨_, scan_arguments hknows, settleAll_occurrences hfits honce, hfault⟩

theorem ofArguments_name (c : CommandName) (args : List String) :
    ofArguments (c.name :: args) = (readBehind c args).map (ofGiven [] c) := by
  have hword : Shape.of c.name = .word := by cases c <;> decide +kernel
  have hhelp : c.name ≠ helpWord := by cases c <;> decide
  have hname : CommandName.ofName? c.name = some c := by cases c <;> decide +kernel
  have hscan : scan .front none (c.name :: args) = ([], .word c.name args none) := by
    simp [scan, Place.step?, hword]
  simp only [ofArguments, hscan]
  cases hbehind : readBehind c args with
  | error e => simp [settleAll, atWord, hhelp, hname, hbehind, Except.map]; rfl
  | ok behind => simp [settleAll, atWord, hhelp, hname, hbehind, Except.map]; rfl

end Invocation

/-! ## What is read of written options -/

section
variable {l : List Setting} {o : OptionName}

theorem valueOf?_eq {x : Option o.Value} (h : valuesOf o l = x.toList) : valueOf? o l = x := by
  rw [valueOf?, h]
  cases x <;> rfl

theorem isGiven_eq_of_isEmpty {b : Bool} (h : (valuesOf o l).isEmpty = !b) : isGiven o l = b := by
  rw [isGiven_eq, h, Bool.not_not]

/-- Options of a query that say what the query has are read as the query. -/
theorem QueryOptions.ofGiven_eq {q : QueryOptions}
    (h : ∀ o : OptionName, o.isQuery = true → valuesOf o l = q.values o) : ofGiven l = q := by
  have hterm : isGiven .term l = q.term :=
    isGiven_eq_of_isEmpty ((congrArg List.isEmpty (h .term rfl)).trans (isEmpty_flagged q.term))
  have hfuzzy : isGiven .fuzzy l = q.fuzzy :=
    isGiven_eq_of_isEmpty ((congrArg List.isEmpty (h .fuzzy rfl)).trans (isEmpty_flagged q.fuzzy))
  have hquery : valueOf? .query l = q.query := valueOf?_eq (h .query rfl)
  have hsafeQuery : valueOf? .safeQuery l = q.safeQuery := valueOf?_eq (h .safeQuery rfl)
  rw [ofGiven, h .must rfl, h .mustNot rfl, h .should rfl, h .queryField rfl, hterm, hfuzzy, hquery, hsafeQuery]
  rfl

theorem SearchOptions.ofGiven_eq {s : SearchOptions}
    (hfirst : valuesOf .first l = s.values .first ∨ valuesOf .first l = [] ∧ s.values .first = [(0 : UInt32)])
    (h : ∀ o : OptionName, o.isQuery = false → o.isGlobal = false → o ≠ .first → valuesOf o l = s.values o) :
    ofGiven l = s := by
  have hnumber : (valueOf? .first l).getD (0 : UInt32) = s.first := by
    rcases hfirst with hsame | ⟨hnone, hzero⟩
    · rw [valueOf?, hsame]
      rfl
    · rw [valueOf?, hnone]
      exact (List.cons.inj hzero).1.symm
  have hsize : valueOf? .size l = s.size := valueOf?_eq (h .size rfl rfl nofun)
  have hsort : valueOf? .sort l = s.sort := valueOf?_eq (h .sort rfl rfl nofun)
  have hdescending : isGiven .descending l = s.descending :=
    isGiven_eq_of_isEmpty ((congrArg List.isEmpty (h .descending rfl rfl nofun)).trans (isEmpty_flagged s.descending))
  have hindex : valueOf? .index l = s.index := valueOf?_eq (h .index rfl rfl nofun)
  rw [ofGiven, hnumber, hsize, hsort, hdescending, hindex, h .node rfl rfl nofun]
  rfl

end

namespace Invocation

/-- Options that say what an invocation has make it. -/
theorem ofGiven_eq {i : Invocation} {l : List Setting} (hl : i.SpelledBy l) : ofGiven [] i.command.name l = i := by
  have hfront : ∀ {x y : Option String}, x = y → (x <|> none) = y := by
    rintro x _ rfl
    cases x <;> rfl
  have hconfig := hfront (valueOf?_eq (valuesOf_eq hl (show OptionName.config ≠ .first from nofun)))
  have hlogLevel := hfront (valueOf?_eq (valuesOf_eq hl (show OptionName.logLevel ≠ .first from nofun)))
  have hcommand : Command.ofGiven l i.command.name = i.command := by
    obtain ⟨config, logLevel, command⟩ := i
    rcases command with q | ⟨q, s⟩ | _
    · have hquery : ∀ o : OptionName, o.isQuery = true → valuesOf o l = q.values o := by
        intro o ho
        rw [valuesOf_eq hl (by rintro rfl; cases ho)]
        cases o <;> first | rfl | cases ho
      exact congrArg Command.compile (QueryOptions.ofGiven_eq hquery)
    · have hquery : ∀ o : OptionName, o.isQuery = true → valuesOf o l = q.values o := by
        intro o ho
        rw [valuesOf_eq hl (by rintro rfl; cases ho)]
        cases o <;> first | rfl | cases ho
      have hsearch : ∀ o : OptionName, o.isQuery = false → o.isGlobal = false → o ≠ .first →
          valuesOf o l = s.values o := by
        intro o hq hg ho
        rw [valuesOf_eq hl ho]
        cases o <;> first | rfl | exact absurd hq (by decide) | exact absurd hg (by decide)
      exact congrArg₂ Command.search (QueryOptions.ofGiven_eq hquery) (SearchOptions.ofGiven_eq (hl .first) hsearch)
    · rfl
  have hparts : ∀ j : Invocation, j.config = i.config → j.logLevel = i.logLevel → j.command = i.command → j = i := by
    rintro ⟨_, _, _⟩ rfl rfl rfl
    rfl
  exact hparts _ hconfig hlogLevel hcommand

/-- The arguments of an admissible invocation are read as the invocation. -/
theorem ofArguments_spelled {i : Invocation} {l : List Setting} (h : i.Admissible) (hl : i.SpelledBy l) :
    ofArguments (i.command.name.name :: l.map Setting.argument) = .ok i := by
  rw [ofArguments_name, readBehind_arguments h hl]
  exact congrArg Except.ok (ofGiven_eq hl)

/-! ## What is read at all -/

theorem admissible_ofGiven {front behind : List Setting} {c : CommandName} (hfits : ∀ s ∈ behind, s.Fits)
    (hfault : fault? behind = none) : (ofGiven front c behind).Admissible := by
  obtain ⟨hlanguage, horder⟩ := fault?_eq_none_iff.1 hfault
  have hquery : (QueryOptions.ofGiven behind).Admissible := by
    constructor
    · rcases hlanguage with hnone | hnone
      · exact .inl (congrArg List.head? hnone)
      · exact .inr (congrArg List.head? hnone)
    · intro p hp
      rcases List.mem_append.1 hp with hp | hp
      · rcases List.mem_append.1 hp with hp | hp
        · exact hfits ⟨.must, p⟩ (mem_valuesOf_iff.1 hp)
        · exact hfits ⟨.mustNot, p⟩ (mem_valuesOf_iff.1 hp)
      · exact hfits ⟨.should, p⟩ (mem_valuesOf_iff.1 hp)
  cases c with
  | compile => exact hquery
  | search =>
    refine ⟨hquery, fun hdescending hnone => ?_⟩
    have hgiven : valuesOf .descending behind ≠ [] := by
      intro hempty
      simp [SearchOptions.ofGiven, isGiven_eq, hempty] at hdescending
    exact horder hgiven (List.head?_eq_none_iff.1 hnone)
  | fields => trivial

theorem admissible_of_ofArguments {args : List String} {i : Invocation} (h : ofArguments args = .ok i) :
    i.Admissible := by
  obtain ⟨front, hfront, hstop⟩ := Except.bind_eq_ok_iff.1 h
  rcases hscan : scan .front none args with ⟨xs, stop⟩
  rw [hscan] at hstop
  cases stop with
  | finished => cases hstop
  | fault e => cases hstop
  | pastEscape s => cases hstop
  | word s rest last =>
    simp only [atWord] at hstop
    split at hstop
    · cases hstop
    · split at hstop
      · cases hstop
      · next c hc =>
        obtain ⟨behind, hbehind, hrest⟩ := Except.bind_eq_ok_iff.1 hstop
        obtain ⟨front', hfront', hi⟩ := Except.bind_eq_ok_iff.1 hrest
        obtain ⟨ys, -, hsettle, hfault⟩ := readBehind_eq_ok_iff.1 hbehind
        cases hi
        exact admissible_ofGiven (fits_of_settleAll hsettle nofun) hfault

/-- **Command lines round-trip** (`Cli`). However the options of an admissible invocation are mixed behind the name
of its command, each written as one argument, they are read as the invocation; and there is a way to write them.
Every invocation that is read at all is admissible. -/
theorem round_trip (i : Invocation) :
    (i.Admissible → i.SpelledBy i.options ∧
      ∀ l, i.SpelledBy l → ofArguments (i.command.name.name :: l.map Setting.argument) = .ok i) ∧
      ∀ args, ofArguments args = .ok i → i.Admissible :=
  ⟨fun h => ⟨i.spelledBy_options, fun _ hl => ofArguments_spelled h hl⟩, fun _ h => admissible_of_ofArguments h⟩

/-- A search with an empty text, a text that looks like an option, and a value with an equals sign. -/
def mixedSearch : Invocation :=
  ⟨some "--term", none, .search ⟨[⟨"message", "a=b"⟩, ⟨"level", ""⟩], [], [], false, true, some "", none, []⟩
    ⟨0, some 5, some "-x", true, none, ["n"]⟩⟩

theorem round_trip_mixedSearch :
    mixedSearch.Admissible ∧
      ofArguments ["search", "--must=message=a=b", "--desc", "--size=5", "--query=", "--config=--term", "--must=level=",
        "--node=n", "--fuzzy", "--sort=-x"] = .ok mixedSearch := by
  have hadmissible : mixedSearch.Admissible := by
    refine ⟨⟨.inr rfl, ?_⟩, fun _ => nofun⟩
    have hmessage : FieldValue.Tidy ⟨"message", "a=b"⟩ := by decide +kernel
    have hlevel : FieldValue.Tidy ⟨"level", ""⟩ := by decide +kernel
    simpa using ⟨hmessage, hlevel⟩
  have hspelled : mixedSearch.SpelledBy [⟨.must, (⟨"message", "a=b"⟩ : FieldValue)⟩, ⟨.descending, ()⟩,
      ⟨.size, (5 : UInt32)⟩, ⟨.query, ""⟩, ⟨.config, "--term"⟩, ⟨.must, (⟨"level", ""⟩ : FieldValue)⟩, ⟨.node, "n"⟩,
      ⟨.fuzzy, ()⟩, ⟨.sort, "-x"⟩] := by
    intro o
    cases o <;> first | exact .inl rfl | exact .inr ⟨rfl, rfl⟩
  exact ⟨hadmissible, ((round_trip mixedSearch).1 hadmissible).2 _ hspelled⟩

end Invocation

end LogQuery.CommandLine
