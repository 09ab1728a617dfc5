import LogQuery.Proofs.Settings.Given

/-!
# Which layer counts

The layers of settings are put over one another: the built-in values, the user's own file, the file that is
named, the environment. Each setting takes the value that the highest layer gives it. The parameters of
approximate matching are merged part by part across the layers that give a table of them, and what no layer
gives is the standard.

A table without any parts has nothing to merge: it leaves what a lower layer gave, even where that turned
approximate matching off (`Settings.Given.fuzzyOnto`).

Main statements: a layer goes over what is below it (`Settings.held_applyTo`), and settings are loaded as what the
layers give together (`Settings.load_eq`).
-/

namespace LogQuery

/-! ## The parts of settings -/

/-- The parameters of approximate matching. -/
inductive FuzzyName where
  | fuzziness
  | maxExpansions
  | prefixLength
  | transpositions
  deriving DecidableEq, Repr

def FuzzyName.vocabulary : Vocabulary FuzzyName where
  key
    | .fuzziness => "fuzziness"
    | .maxExpansions => "max_expansions"
    | .prefixLength => "prefix_length"
    | .transpositions => "transpositions"
  kind
    | .fuzziness => .fuzziness
    | .maxExpansions | .prefixLength => .word32
    | .transpositions => .switch
  key_injective := by
    intro m n h
    cases m <;> cases n <;> first | rfl | exact absurd h (by decide)
  lower_key := by
    intro n
    cases n <;> decide +kernel

/-- The settings but those of approximate matching. -/
inductive SettingName where
  | nodes
  | username
  | password
  | indexLead
  | indexName
  | indexDateFormat
  | defaultPageSize
  | requestTimeoutSecs
  | logLevel
  deriving DecidableEq, Repr

def SettingName.vocabulary : Vocabulary SettingName where
  key
    | .nodes => "nodes"
    | .username => "username"
    | .password => "password"
    | .indexLead => "index_prefix"
    | .indexName => "index_name"
    | .indexDateFormat => "index_date_format"
    | .defaultPageSize => "default_page_size"
    | .requestTimeoutSecs => "request_timeout_secs"
    | .logLevel => "log_level"
  kind
    | .nodes => .texts
    | .username | .password => .optionalText
    | .indexLead | .indexName | .indexDateFormat | .logLevel => .text
    | .defaultPageSize => .word32
    | .requestTimeoutSecs => .word64
  key_injective := by
    intro m n h
    cases m <;> cases n <;> first | rfl | exact absurd h (by decide)
  lower_key := by
    intro n
    cases n <;> decide +kernel

/-! ## What a layer gives -/

abbrev FuzzyGiven := FuzzyName.vocabulary.Given

namespace FuzzyGiven

/-- The parameters, where those that are not given are the backend's defaults. -/
def complete (f : FuzzyGiven) : FuzzyConfig :=
  { fuzziness := Option.getD (f .fuzziness) FuzzyConfig.auto.fuzziness
    maxExpansions := Option.getD (f .maxExpansions) FuzzyConfig.auto.maxExpansions
    prefixLength := Option.getD (f .prefixLength) FuzzyConfig.auto.prefixLength
    transpositions := Option.getD (f .transpositions) FuzzyConfig.auto.transpositions }

def isEmpty (f : FuzzyGiven) : Bool :=
  (f .fuzziness).isNone && (f .maxExpansions).isNone && (f .prefixLength).isNone && (f .transpositions).isNone

theorem isEmpty_iff {f : FuzzyGiven} : f.isEmpty = true ↔ ∀ n, f n = none := by
  simp only [isEmpty, Bool.and_eq_true, Option.isNone_iff_eq_none]
  constructor
  · rintro ⟨⟨⟨h1, h2⟩, h3⟩, h4⟩ n
    cases n
    · exact h1
    · exact h2
    · exact h3
    · exact h4
  · exact fun h => ⟨⟨⟨h _, h _⟩, h _⟩, h _⟩

end FuzzyGiven

namespace Settings

/-- What a layer gives to each setting, if anything. Approximate matching may be turned off, or be given some
parameters. -/
structure Given where
  part : SettingName.vocabulary.Given
  fuzzy : Option (Option FuzzyGiven)

namespace Given

def nothing : Given := ⟨.nothing, none⟩

/-- What is given for approximate matching, put over what a lower layer gives. A table is merged into a table,
and one without parts leaves what is there. -/
def fuzzyOnto : Option (Option FuzzyGiven) → Option (Option FuzzyGiven) → Option (Option FuzzyGiven)
  | none, lo => lo
  | some none, _ => some none
  | some (some f), none => some (some f)
  | some (some f), some none => if f.isEmpty then some none else some (some f)
  | some (some f), some (some f₀) => some (some (f.onto f₀))

/-- What a layer gives, put over what lower ones give. -/
def onto (hi lo : Given) : Given := ⟨hi.part.onto lo.part, fuzzyOnto hi.fuzzy lo.fuzzy⟩

/-- The settings, where what is not given is the standard. -/
def complete (g : Given) : Settings :=
  { nodes := Option.getD (g.part .nodes) standard.nodes
    username := Option.getD (g.part .username) standard.username
    password := Option.getD (g.part .password) standard.password
    indexLead := Option.getD (g.part .indexLead) standard.indexLead
    indexName := Option.getD (g.part .indexName) standard.indexName
    indexDateFormat := Option.getD (g.part .indexDateFormat) standard.indexDateFormat
    defaultPageSize := Option.getD (g.part .defaultPageSize) standard.defaultPageSize
    requestTimeoutSecs := Option.getD (g.part .requestTimeoutSecs) standard.requestTimeoutSecs
    logLevel := Option.getD (g.part .logLevel) standard.logLevel
    fuzzy := (g.fuzzy.map fun f => f.map FuzzyGiven.complete).getD standard.fuzzy }

@[simp] theorem fuzzyOnto_none (f : Option (Option FuzzyGiven)) : fuzzyOnto f none = f := by
  rcases f with _ | _ | f <;> rfl

theorem onto_nothing (g : Given) : g.onto nothing = g := by
  rw [onto, nothing, fuzzyOnto_none, Vocabulary.Given.onto_nothing]

/-- A layer that says nothing about approximate matching may be put below two others one by one. -/
theorem onto_assoc {c : Given} (hc : c.fuzzy = none) (a b : Given) : (a.onto b).onto c = a.onto (b.onto c) := by
  simp [onto, hc, Vocabulary.Given.onto_assoc]

end Given

/-- The layer has entries for settings only, each with a value of the kind that the setting is declared as. Of
entries for the same setting the later one counts; approximate matching has one entry at most. -/
inductive Gives : Layer → Given → Prop
  | nil : Gives [] .nothing
  | part {layer : Layer} {g : Given} {n : SettingName} {v : Loose} {x : (SettingName.vocabulary.kind n).Value} :
    Gives layer g → (SettingName.vocabulary.kind n).Is v x →
    Gives (layer ++ [(SettingName.vocabulary.key n, v)]) { g with part := g.part.set n x }
  | noFuzzy {layer : Layer} {g : Given} : Gives layer g → g.fuzzy = none →
    Gives (layer ++ [("fuzzy", .nil)]) { g with fuzzy := some none }
  | fuzzy {layer : Layer} {g : Given} {ms : List (String × Loose)} {f : FuzzyGiven} : Gives layer g →
    g.fuzzy = none → FuzzyName.vocabulary.Gives ms f →
    Gives (layer ++ [("fuzzy", .table ms)]) { g with fuzzy := some (some f) }

/-! ## What the layers together hold -/

/-- What is found for approximate matching is what is given. -/
inductive FuzzyFound : Option Loose → Option (Option FuzzyGiven) → Prop
  | absent : FuzzyFound none none
  | off : FuzzyFound (some .nil) (some none)
  | table {ms : List (String × Loose)} {f : FuzzyGiven} : FuzzyName.vocabulary.Holds ms f →
    FuzzyFound (some (.table ms)) (some (some f))

/-- The table has what is given, and nothing else of the settings. -/
structure Held (ms : Members Loose) (g : Given) : Prop where
  part : SettingName.vocabulary.Holds ms g.part
  fuzzy : FuzzyFound (ms.find? "fuzzy") g.fuzzy

theorem held_nil : Held [] .nothing := ⟨Vocabulary.holds_nil, .absent⟩

end Settings

namespace Layer

theorem placeOf_setting (n : SettingName) :
    placeOf (SettingName.vocabulary.key n) = [.name (SettingName.vocabulary.key n)] := by
  cases n <;> decide +kernel

theorem placeOf_fuzzy : placeOf "fuzzy" = [.name "fuzzy"] := by decide +kernel

theorem lower_fuzzy : Loose.lower "fuzzy" = "fuzzy" := by decide +kernel

theorem applyTo_snoc {key : String} (hplace : placeOf key = [.name key]) (layer : Layer) (value root : Loose) :
    applyTo (layer ++ [(key, value)]) root = assign value key (applyTo layer root) := by
  rw [applyTo_append]
  show assignAt value (placeOf key) (applyTo layer root) = _
  rw [hplace, assignAt]

theorem exists_table_assign (value : Loose) (key : String) (root : Loose) :
    ∃ fs, assign value key root = .table fs := by cases value <;> exact ⟨_, rfl⟩

/-- Putting entries into a table, or some entries into anything, makes a table. -/
theorem exists_table_assignAll {ms : List (String × Loose)} {root : Loose}
    (h : ms ≠ [] ∨ ∃ fs, root = .table fs) : ∃ fs, assignAll ms root = .table fs := by
  induction ms generalizing root with
  | nil => exact h.resolve_left (fun hne => hne rfl)
  | cons m ms ih =>
    obtain ⟨key, value⟩ := m
    exact ih (.inr (exists_table_assign value key root))

end Layer

namespace Settings

open Layer

/-- A table of parameters, put over what is there. -/
theorem fuzzyFound_assign_table {ms : List (String × Loose)} {f : FuzzyGiven} (hf : FuzzyName.vocabulary.Gives ms f)
    {root : Loose} {there : Option (Option FuzzyGiven)} (h : FuzzyFound (root.members.find? "fuzzy") there) :
    FuzzyFound ((assign (.table ms) "fuzzy" root).members.find? "fuzzy") (Given.fuzzyOnto (some (some f)) there) := by
  have hfind := find?_assign_table ms "fuzzy" root
  rw [lower_fuzzy] at hfind
  rw [hfind]
  revert h
  generalize root.members.find? "fuzzy" = v
  intro h
  cases h with
  | absent =>
    obtain ⟨fs, hfs⟩ := exists_table_assignAll (show ms ≠ [] ∨ ∃ fs, Loose.table [] = .table fs from .inr ⟨[], rfl⟩)
    have hheld : FuzzyName.vocabulary.Holds (assignAll ms (.table [])).members (f.onto .nothing) :=
      Vocabulary.holds_assignAll hf Vocabulary.holds_nil
    rw [hfs, Vocabulary.Given.onto_nothing] at hheld
    rw [Option.getD_none, hfs]
    exact .table hheld
  | off =>
    rw [Option.getD_some, Given.fuzzyOnto]
    by_cases hms : ms = []
    · have hempty : f.isEmpty = true := FuzzyGiven.isEmpty_iff.2 (hf.eq_nil_iff.1 hms)
      rw [if_pos hempty, hms]
      exact .off
    · have hsome : ¬ f.isEmpty = true := fun hempty => hms (hf.eq_nil_iff.2 (FuzzyGiven.isEmpty_iff.1 hempty))
      obtain ⟨fs, hfs⟩ := exists_table_assignAll (show ms ≠ [] ∨ ∃ fs, Loose.nil = .table fs from .inl hms)
      have hheld : FuzzyName.vocabulary.Holds (assignAll ms .nil).members (f.onto .nothing) :=
        Vocabulary.holds_assignAll hf Vocabulary.holds_nil
      rw [hfs, Vocabulary.Given.onto_nothing] at hheld
      rw [if_neg hsome, hfs]
      exact .table hheld
  | @table fs₀ f₀ hf₀ =>
    obtain ⟨fs, hfs⟩ := exists_table_assignAll (show ms ≠ [] ∨ ∃ fs, Loose.table fs₀ = .table fs from .inr ⟨fs₀, rfl⟩)
    have hheld : FuzzyName.vocabulary.Holds (assignAll ms (.table fs₀)).members (f.onto f₀) :=
      Vocabulary.holds_assignAll hf hf₀
    rw [hfs] at hheld
    rw [Option.getD_some, hfs]
    exact .table hheld

theorem key_ne_fuzzy (n : SettingName) : SettingName.vocabulary.key n ≠ "fuzzy" := by cases n <;> decide

/-- What is put under the name of approximate matching leaves the other settings alone. -/
theorem holds_assign_fuzzy {root : Loose} {part : SettingName.vocabulary.Given}
    (h : SettingName.vocabulary.Holds root.members part) (value : Loose) :
    SettingName.vocabulary.Holds (assign value "fuzzy" root).members part := by
  intro n
  have hother : SettingName.vocabulary.key n ≠ Loose.lower "fuzzy" := by
    rw [lower_fuzzy]
    exact key_ne_fuzzy n
  rw [find?_assign_of_ne hother]
  exact h n

/-- **A layer** put over others: what it gives goes over what they give. -/
theorem held_applyTo {layer : Layer} {g g₀ : Given} (hg : Gives layer g) {root : Loose} (h : Held root.members g₀) :
    Held (applyTo layer root).members (g.onto g₀) := by
  induction hg with
  | nil => exact ⟨h.part, h.fuzzy⟩
  | @part layer g n v x _ hv ih =>
    rw [applyTo_snoc (placeOf_setting n)]
    constructor
    · rw [Given.onto, Vocabulary.Given.set_onto]
      exact Vocabulary.holds_assign ih.part hv
    · have hother : "fuzzy" ≠ Loose.lower (SettingName.vocabulary.key n) := by
        rw [SettingName.vocabulary.lower_key]
        exact (key_ne_fuzzy n).symm
      rw [find?_assign_of_ne hother]
      exact ih.fuzzy
  | @noFuzzy layer g _ hnone ih =>
    rw [applyTo_snoc placeOf_fuzzy]
    refine ⟨holds_assign_fuzzy ih.part _, ?_⟩
    have hfind := @find?_assign .nil (fun _ => Loose.noConfusion) "fuzzy" (applyTo layer root)
    rw [lower_fuzzy] at hfind
    rw [hfind]
    exact .off
  | @fuzzy layer g ms f _ hnone hf ih =>
    rw [applyTo_snoc placeOf_fuzzy]
    have hthere := ih.fuzzy
    rw [Given.onto, hnone] at hthere
    exact ⟨holds_assign_fuzzy ih.part _, fuzzyFound_assign_table hf hthere⟩

/-! ## What is read of the layers -/

/-- Parameters that are there are read, and the others take the backend's defaults. -/
theorem fuzzyConfig?_of_holds {ms : List (String × Loose)} {f : FuzzyGiven}
    (h : FuzzyName.vocabulary.Holds ms f) : Loose.fuzzyConfig? (.table ms) = some f.complete := by
  have hfuzziness : Loose.part? ms "fuzziness" FuzzyConfig.auto.fuzziness Loose.fuzziness? =
    some f.complete.fuzziness := Vocabulary.part?_of_holds h .fuzziness FuzzyConfig.auto.fuzziness
  have hexpansions : Loose.part? ms "max_expansions" FuzzyConfig.auto.maxExpansions Loose.uint32? =
    some f.complete.maxExpansions := Vocabulary.part?_of_holds h .maxExpansions FuzzyConfig.auto.maxExpansions
  have hprefix : Loose.part? ms "prefix_length" FuzzyConfig.auto.prefixLength Loose.uint32? =
    some f.complete.prefixLength := Vocabulary.part?_of_holds h .prefixLength FuzzyConfig.auto.prefixLength
  have htranspositions : Loose.part? ms "transpositions" FuzzyConfig.auto.transpositions Loose.bool? =
    some f.complete.transpositions := Vocabulary.part?_of_holds h .transpositions FuzzyConfig.auto.transpositions
  rw [Loose.fuzzyConfig?, Loose.parts?]
  simp [hfuzziness, hexpansions, hprefix, htranspositions]

/-- Settings are read of a table as they are given, completed by the standard. -/
theorem readFrom_of_held {ms : Members Loose} {g : Given} (h : Held ms g) : g.complete.ReadFrom ms where
  nodes := Vocabulary.part?_of_holds h.part .nodes standard.nodes
  username := Vocabulary.part?_of_holds h.part .username standard.username
  password := Vocabulary.part?_of_holds h.part .password standard.password
  indexLead := Vocabulary.part?_of_holds h.part .indexLead standard.indexLead
  indexName := Vocabulary.part?_of_holds h.part .indexName standard.indexName
  indexDateFormat := Vocabulary.part?_of_holds h.part .indexDateFormat standard.indexDateFormat
  defaultPageSize := Vocabulary.part?_of_holds h.part .defaultPageSize standard.defaultPageSize
  requestTimeoutSecs := Vocabulary.part?_of_holds h.part .requestTimeoutSecs standard.requestTimeoutSecs
  logLevel := Vocabulary.part?_of_holds h.part .logLevel standard.logLevel
  fuzzy := by
    have hfuzzy := h.fuzzy
    rw [Loose.part?, Given.complete]
    revert hfuzzy
    generalize ms.find? "fuzzy" = v
    generalize g.fuzzy = f
    intro hfuzzy
    cases hfuzzy with
    | absent => rfl
    | off => rfl
    | table hf => simp [Loose.nullable?, fuzzyConfig?_of_holds hf]

/-! ## Loading -/

/-- What the built-in layer gives. -/
def standardGiven : Given where
  part
    | .nodes => some standard.nodes
    | .username | .password => none
    | .indexLead => some standard.indexLead
    | .indexName => some standard.indexName
    | .indexDateFormat => some standard.indexDateFormat
    | .defaultPageSize => some standard.defaultPageSize
    | .requestTimeoutSecs => some standard.requestTimeoutSecs
    | .logLevel => some standard.logLevel
  fuzzy := none

theorem gives_standardLayer : Gives standardLayer standardGiven := by
  have h := @Gives.part _ _ .nodes _ standard.nodes .nil rfl
  have h := @Gives.part _ _ .indexLead _ standard.indexLead h rfl
  have h := @Gives.part _ _ .indexName _ standard.indexName h rfl
  have h := @Gives.part _ _ .indexDateFormat _ standard.indexDateFormat h rfl
  have h := @Gives.part _ _ .defaultPageSize _ standard.defaultPageSize h rfl
  have h := @Gives.part _ _ .requestTimeoutSecs _ standard.requestTimeoutSecs h rfl
  have h := @Gives.part _ _ .logLevel _ standard.logLevel h rfl
  have hpart : ∀ {layer : Layer} {g : Given}, Gives layer g → (∀ n, g.part n = standardGiven.part n) →
      g.fuzzy = none → Gives layer standardGiven := by
    rintro layer ⟨part, fuzzy⟩ hg hpart rfl
    obtain rfl : part = standardGiven.part := funext hpart
    exact hg
  exact hpart h (fun n => by cases n <;> rfl) rfl

theorem complete_onto_standard (g : Given) : (g.onto standardGiven).complete = g.complete := by
  have hgiven : ∀ n x, Option.getD ((g.part n).or (some x)) x = (g.part n).getD x := by
    intro n x
    cases g.part n <;> rfl
  have habsent : ∀ n x, Option.getD ((g.part n).or none) x = (g.part n).getD x := by
    intro n x
    rw [Option.or_none]
  simp only [Given.complete, Settings.mk.injEq]
  exact ⟨hgiven .nodes _, habsent .username _, habsent .password _, hgiven .indexLead _, hgiven .indexName _,
    hgiven .indexDateFormat _, hgiven .defaultPageSize _, hgiven .requestTimeoutSecs _, hgiven .logLevel _,
    by rw [Given.onto, standardGiven, Given.fuzzyOnto_none]⟩

/-- Every layer over those below it, and the standard where none gives anything. -/
theorem load_eq {sources : SettingsSources} {user named : Layer} {gu gn ge : Given}
    (huser : userLayer? sources = some user) (hnamed : namedLayer? sources = some named) (hu : Gives user gu)
    (hn : Gives named gn) (he : Gives (Environment.layer sources.environment) ge) :
    load sources = ((ge.onto (gn.onto gu)).complete.validate).mapError .invalid := by
  have hlayers := layers?_eq_some_iff.2 ⟨user, named, huser, hnamed, rfl⟩
  have hempty : Held (Loose.table []).members .nothing := held_nil
  have hall := held_applyTo he (held_applyTo hn (held_applyTo hu (held_applyTo gives_standardLayer hempty)))
  have hcomplete : (ge.onto (gn.onto (gu.onto (standardGiven.onto .nothing)))).complete =
      (ge.onto (gn.onto gu)).complete := by
    have hstandard : standardGiven.fuzzy = none := rfl
    rw [Given.onto_nothing, ← Given.onto_assoc hstandard gn gu, ← Given.onto_assoc hstandard ge (gn.onto gu),
      complete_onto_standard]
  have hgather : gather? sources = some (ge.onto (gn.onto gu)).complete := by
    rw [gather?, hlayers, Option.bind_some, ← hcomplete]
    exact ofTable?_eq_some_iff.2 (readFrom_of_held hall)
  rw [load, hgather]

end Settings

end LogQuery
