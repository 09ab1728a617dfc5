import Mathlib
import LogQuery.Proofs.Settings.EnvironmentText
import LogQuery.Proofs.Settings.Precedence

/-!
# Layers and direct decoding

Settings may also be decoded from a document at once, without layers. A file that is the only layer comes to the
settings that its object decodes to (`Settings.decode?_of_gives`), so that the built-in layer, the decoder and
the standard settings agree on every default.

Main statements: layers and defaults agree (`Settings.load_layered`); a table without parts does not turn
approximate matching on again (`Settings.load_emptyTable`).
-/

namespace LogQuery

namespace Settings

/-! ## What a single layer holds -/

/-- The tables in the layer have different names. -/
def TablesNodup (layer : Layer) : Prop :=
  ∀ fs, ("fuzzy", .table fs) ∈ layer → (Members.names fs).Nodup

/-- A layer whose entries have different names holds what it gives. -/
theorem held_of_gives {layer : Layer} {g : Given} (hg : Gives layer g) (hd : (Members.names layer).Nodup)
    (ht : TablesNodup layer) : Held layer g := by
  induction hg with
  | nil => exact held_nil
  | @part layer g n v x _ hv ih =>
    obtain ⟨hlayer, hfresh⟩ := Members.nodup_names_snoc hd
    obtain ⟨hpart, hfuzzy⟩ := ih hlayer fun fs hfs => ht fs (List.mem_append_left _ hfs)
    constructor
    · exact Vocabulary.holds_snoc hpart hfresh hv
    · rw [Members.find?_snoc_of_ne (key_ne_fuzzy n).symm]
      exact hfuzzy
  | @noFuzzy layer g _ _ ih =>
    obtain ⟨hlayer, hfresh⟩ := Members.nodup_names_snoc hd
    have hheld := ih hlayer fun fs hfs => ht fs (List.mem_append_left _ hfs)
    constructor
    · intro m
      rw [Members.find?_snoc_of_ne (key_ne_fuzzy m)]
      exact hheld.part m
    · rw [Members.find?_snoc_self hfresh]
      exact .off
  | @fuzzy layer g ms f _ _ hf ih =>
    obtain ⟨hlayer, hfresh⟩ := Members.nodup_names_snoc hd
    have hheld := ih hlayer fun fs hfs => ht fs (List.mem_append_left _ hfs)
    constructor
    · intro m
      rw [Members.find?_snoc_of_ne (key_ne_fuzzy m)]
      exact hheld.part m
    · rw [Members.find?_snoc_self hfresh]
      exact .table (Vocabulary.holds_of_gives hf (ht ms (List.mem_append_right _ (List.mem_singleton_self _))))

/-- An object whose members are in order has entries of different names, at both levels. -/
theorem held_ofMembers {ms : Members Json} {g : Given} (hc : (Json.object ms).Canonical)
    (hg : Gives (Loose.ofMembers ms) g) : Held (Loose.ofMembers ms) g := by
  refine held_of_gives hg ?_ ?_
  · rw [Loose.names_ofMembers]
    exact hc.sorted.nodup_names
  · intro fs hfs
    rw [Loose.ofMembers_eq_map] at hfs
    obtain ⟨⟨name, j⟩, hj, hentry⟩ := List.mem_map.1 hfs
    obtain ⟨fields, rfl, rfl⟩ := Loose.eq_object_of_ofJson (Prod.mk.inj hentry).2
    rw [Loose.names_ofMembers]
    exact ((Json.canonical_object_iff.1 hc).2 _ hj).sorted.nodup_names

/-! ## Decoding a single layer -/

theorem decode?_fuzzy {ms : Members Json} {f : FuzzyGiven} (hs : Members.Sorted ms)
    (h : FuzzyName.vocabulary.Holds (Loose.ofMembers ms) f) :
    FuzzyConfig.decode? (.ofJson (.object ms)) = some f.complete := by
  obtain ⟨parts, hparts, hfind⟩ := Document.exists_parts? hs FuzzyConfig.partNames
  have hfuzziness : parts.optional? "fuzziness" FuzzyConfig.auto.fuzziness Fuzziness.decode? =
    some f.complete.fuzziness :=
    Vocabulary.optional?_of_holds h .fuzziness FuzzyConfig.auto.fuzziness (hfind _ (by decide))
  have hexpansions : parts.optional? "max_expansions" FuzzyConfig.auto.maxExpansions Document.uint32? =
    some f.complete.maxExpansions :=
    Vocabulary.optional?_of_holds h .maxExpansions FuzzyConfig.auto.maxExpansions (hfind _ (by decide))
  have hprefix : parts.optional? "prefix_length" FuzzyConfig.auto.prefixLength Document.uint32? =
    some f.complete.prefixLength :=
    Vocabulary.optional?_of_holds h .prefixLength FuzzyConfig.auto.prefixLength (hfind _ (by decide))
  have htranspositions : parts.optional? "transpositions" FuzzyConfig.auto.transpositions Document.bool? =
    some f.complete.transpositions :=
    Vocabulary.optional?_of_holds h .transpositions FuzzyConfig.auto.transpositions (hfind _ (by decide))
  rw [FuzzyConfig.decode?, hparts]
  simp [hfuzziness, hexpansions, hprefix, htranspositions]

theorem optional?_fuzzy {ms : Members Json} {f : Option (Option FuzzyGiven)} (hc : (Json.object ms).Canonical)
    (h : FuzzyFound (Members.find? (Loose.ofMembers ms) "fuzzy") f) {parts : Members Document}
    (hparts : parts.find? "fuzzy" = (ms.find? "fuzzy").map .ofJson) :
    parts.optional? "fuzzy" none (Document.nullable? FuzzyConfig.decode?) =
      some ((f.map fun f => f.map FuzzyGiven.complete).getD none) := by
  rw [Loose.find?_ofMembers] at h
  rw [Members.optional?, hparts]
  cases hms : ms.find? "fuzzy" with
  | none =>
    rw [hms] at h
    cases h
    rfl
  | some j =>
    rw [hms] at h
    have hj : j.Canonical := hc.of_find? hms
    generalize hv : Loose.ofJson j = v at h
    rw [Option.map_some, hv] at h
    cases h with
    | off =>
      rw [Loose.eq_null_of_ofJson hv]
      rfl
    | table hf =>
      obtain ⟨fields, rfl, rfl⟩ := Loose.eq_object_of_ofJson hv
      have hdecode := decode?_fuzzy hj.sorted hf
      rw [Document.ofJson] at hdecode
      simp [Document.ofJson, Document.nullable?, hdecode]

/-- An object with values of the declared kinds is decoded as what it gives, completed by the standard. -/
theorem decode?_of_gives {ms : Members Json} {g : Given} (hc : (Json.object ms).Canonical)
    (hg : Gives (Loose.ofMembers ms) g) : decode? (.ofJson (.object ms)) = some g.complete := by
  have hheld := held_ofMembers hc hg
  obtain ⟨parts, hparts, hfind⟩ := Document.exists_parts? hc.sorted partNames
  have hpart : ∀ (n : SettingName) (absent : (SettingName.vocabulary.kind n).Value),
      parts.optional? (SettingName.vocabulary.key n) absent (SettingName.vocabulary.kind n).decode? =
        some ((g.part n).getD absent) := fun n absent =>
    Vocabulary.optional?_of_holds hheld.part n absent (hfind _ (by cases n <;> decide))
  have hnodes : parts.optional? "nodes" standard.nodes (Document.list? Document.text?) =
    some g.complete.nodes := hpart .nodes standard.nodes
  have husername : parts.optional? "username" standard.username (Document.nullable? Document.text?) =
    some g.complete.username := hpart .username standard.username
  have hpassword : parts.optional? "password" standard.password (Document.nullable? Document.text?) =
    some g.complete.password := hpart .password standard.password
  have hlead : parts.optional? "index_prefix" standard.indexLead Document.text? =
    some g.complete.indexLead := hpart .indexLead standard.indexLead
  have hname : parts.optional? "index_name" standard.indexName Document.text? =
    some g.complete.indexName := hpart .indexName standard.indexName
  have hformat : parts.optional? "index_date_format" standard.indexDateFormat Document.text? =
    some g.complete.indexDateFormat := hpart .indexDateFormat standard.indexDateFormat
  have hsize : parts.optional? "default_page_size" standard.defaultPageSize Document.uint32? =
    some g.complete.defaultPageSize := hpart .defaultPageSize standard.defaultPageSize
  have htimeout : parts.optional? "request_timeout_secs" standard.requestTimeoutSecs Document.uint64? =
    some g.complete.requestTimeoutSecs := hpart .requestTimeoutSecs standard.requestTimeoutSecs
  have hlevel : parts.optional? "log_level" standard.logLevel Document.text? =
    some g.complete.logLevel := hpart .logLevel standard.logLevel
  have hfuzzy : parts.optional? "fuzzy" standard.fuzzy (Document.nullable? FuzzyConfig.decode?) =
    some g.complete.fuzzy := optional?_fuzzy hc hheld.fuzzy (hfind _ (by decide))
  rw [decode?, hparts]
  simp [hnodes, husername, hpassword, hlead, hname, hformat, hsize, htimeout, hlevel, hfuzzy]

/-! ## Loading -/

/-- What a file gives that may be missing. -/
def FileGives : Option ConfigFile → Given → Prop
  | none, g => g = .nothing
  | some f, g => ∃ layer, f.layer? = some layer ∧ Gives layer g

theorem exists_userLayer? {sources : SettingsSources} {g : Given} (h : FileGives sources.userFile g) :
    ∃ layer, userLayer? sources = some layer ∧ Gives layer g := by
  rw [userLayer?]
  revert h
  generalize sources.userFile = file
  intro h
  cases file with
  | none =>
    obtain rfl : g = .nothing := h
    exact ⟨[], rfl, .nil⟩
  | some f => exact h

theorem exists_namedLayer? {sources : SettingsSources} {file : Option ConfigFile} {g : Given}
    (hfile : sources.namedFile = file.map .found) (h : FileGives file g) :
    ∃ layer, namedLayer? sources = some layer ∧ Gives layer g := by
  rw [namedLayer?, hfile]
  cases file with
  | none =>
    obtain rfl : g = .nothing := h
    exact ⟨[], rfl, .nil⟩
  | some f => exact h

theorem load_missing (user : Option ConfigFile) (environment : List (String × String)) :
    load ⟨user, some .missing, environment⟩ = .error .load := by
  have hlayers : layers? ⟨user, some .missing, environment⟩ = none := by
    rw [Option.eq_none_iff_forall_ne_some]
    intro layers h
    obtain ⟨_, _, -, hnamed, -⟩ := layers?_eq_some_iff.1 h
    cases hnamed
  rw [load, gather?, hlayers]
  rfl

theorem nothing_onto (g : Given) : Given.nothing.onto g = g := rfl

/-- Sources that have settings only are loaded as what the layers give together. -/
theorem load_of_gives {user named : Option ConfigFile} {environment : List (String × String)} {gu gn ge : Given}
    (hu : FileGives user gu) (hn : FileGives named gn) (he : Gives (Environment.layer environment) ge) :
    load ⟨user, named.map .found, environment⟩ = ((ge.onto (gn.onto gu)).complete.validate).mapError .invalid := by
  have huser : FileGives (SettingsSources.mk user (named.map .found) environment).userFile gu := hu
  obtain ⟨userLayer, huser, hug⟩ := exists_userLayer? huser
  obtain ⟨namedLayer, hnamed, hng⟩ := exists_namedLayer?
    (show (SettingsSources.mk user (named.map .found) environment).namedFile = named.map .found from rfl) hn
  exact load_eq huser hnamed hug hng he

/-- **Layers and defaults agree** (`Settings::load`). Sources that have settings only, each with a value of its
kind, are loaded as what the layers give together, each put over those below it and completed by the standard, if
that can be used. The user's own file may be missing, the named one may not. A file that is the only layer, as the
user's own or as the named one, is loaded as its object is decoded. -/
theorem load_layered {user named : Option ConfigFile} {environment : List (String × String)} {gu gn ge : Given}
    (hu : FileGives user gu) (hn : FileGives named gn) (he : Gives (Environment.layer environment) ge) :
    load ⟨user, named.map .found, environment⟩ = ((ge.onto (gn.onto gu)).complete.validate).mapError .invalid ∧
      (∀ user environment, load ⟨user, some .missing, environment⟩ = .error .load) ∧
      ∀ f ms g, f.layer? = some (Loose.ofMembers ms) → (Json.object ms).Canonical → Gives (Loose.ofMembers ms) g →
        ∃ s, decode? (.ofJson (.object ms)) = some s ∧
          load ⟨some f, none, []⟩ = s.validate.mapError .invalid ∧
          load ⟨none, some (.found f), []⟩ = s.validate.mapError .invalid := by
  refine ⟨load_of_gives hu hn he, load_missing, ?_⟩
  intro f ms g hlayer hc hg
  have hfile : FileGives (some f) g := ⟨_, hlayer, hg⟩
  have hnone : FileGives none .nothing := rfl
  have hempty : Gives (Environment.layer []) .nothing := .nil
  have huser := load_of_gives hfile hnone hempty
  have hnamed := load_of_gives hnone hfile hempty
  rw [nothing_onto, nothing_onto] at huser
  rw [nothing_onto, Given.onto_nothing] at hnamed
  exact ⟨g.complete, decode?_of_gives hc hg, huser, hnamed⟩

theorem validate_eq_ok {s : Settings} (h : s.fault? = none) : s.validate.mapError SettingsError.invalid = .ok s :=
  Except.mapError_eq_ok_iff.2 (validate_eq_ok_iff.2 ⟨h, rfl⟩)

theorem layer?_json {text : String} {ms : Members Json} (h : Json.parse? text = some (.object ms)) :
    (ConfigFile.mk .json text).layer? = some (Loose.ofMembers ms) := by simp [ConfigFile.layer?, h]

/-- A file with one parameter and the name of an index. -/
def namingFile : ConfigFile := ⟨.json, "\x7b\"fuzzy\":\x7b\"prefix_length\":1\x7d,\"index_name\":\"app\"\x7d"⟩

def namingMembers : Members Json := [("fuzzy", .object [("prefix_length", .int 1)]), ("index_name", .text "app")]

def namingGiven : Given := ⟨.set .nothing .indexName "app", some (some (.set .nothing .prefixLength (1 : UInt32)))⟩

/-- A file with another parameter. -/
def expandingFile : ConfigFile := ⟨.json, "\x7b\"fuzzy\":\x7b\"max_expansions\":5\x7d\x7d"⟩

def expandingGiven : Given := ⟨.nothing, some (some (.set .nothing .maxExpansions (5 : UInt32)))⟩

/-- A variable that names the index. -/
def indexVariable : List (String × String) := [("LOGSEARCH_INDEX_NAME", "web")]

def indexGiven : Given := ⟨.set .nothing .indexName "web", none⟩

theorem layer?_namingFile : namingFile.layer? = some (Loose.ofMembers namingMembers) := by
  have hparse : Json.parse? namingFile.text = some (.object namingMembers) := by cbv
  exact layer?_json hparse

theorem gives_namingMembers : Gives (Loose.ofMembers namingMembers) namingGiven := by
  have hprefix := @Vocabulary.Gives.snoc _ _ FuzzyName.vocabulary _ _ .prefixLength (.int 1) (1 : UInt32) .nil rfl
  exact @Gives.part _ _ .indexName (.text "app") "app" (.fuzzy .nil rfl hprefix) rfl

theorem fileGives_expandingFile : FileGives (some expandingFile) expandingGiven := by
  have hparse : Json.parse? expandingFile.text =
      some (.object [("fuzzy", .object [("max_expansions", .int 5)])]) := by cbv
  have hmax := @Vocabulary.Gives.snoc _ _ FuzzyName.vocabulary _ _ .maxExpansions (.int 5) (5 : UInt32) .nil rfl
  exact ⟨_, layer?_json hparse, .fuzzy .nil rfl hmax⟩

theorem gives_indexVariable : Gives (Environment.layer indexVariable) indexGiven := by
  have hkey : Loose.lower "LOGSEARCH_INDEX_NAME" = Environment.lead ++ "index_name" := by decide +kernel
  have hswitch : Environment.bool? "web" = none := by decide
  have hinteger : Text.readIntWithin? Int64.minValue.toInt Int64.maxValue.toInt "web".toList = none := by
    decide +kernel
  have hdouble : Decimal.read? "web" = none := by with_unfolding_all rfl
  have hvalue : Environment.value "index_name" "web" = .text "web" := by
    rw [Environment.value, Environment.typed?, hswitch, hinteger, hdouble]
    rfl
  rw [indexVariable, Environment.layer, List.filterMap_cons, Environment.named?_of_lead "web" hkey, hvalue]
  exact @Gives.part _ _ .indexName (.text "web") "web" .nil rfl

/-- Two files that each give a part of the parameters, and a variable over the one that names the index. -/
theorem load_layered_merged :
    FileGives (some namingFile) namingGiven ∧ FileGives (some expandingFile) expandingGiven ∧
      Gives (Environment.layer indexVariable) indexGiven ∧
      (∃ s, load ⟨some namingFile, some (.found expandingFile), indexVariable⟩ = .ok s ∧ s.indexName = "web" ∧
        s.fuzzy = some ⟨.auto, 5, 1, true⟩) ∧
      ∃ s, decode? (.ofJson (.object namingMembers)) = some s ∧
        load ⟨some namingFile, none, []⟩ = s.validate.mapError .invalid := by
  have hu : FileGives (some namingFile) namingGiven := ⟨_, layer?_namingFile, gives_namingMembers⟩
  have hc : (Json.object namingMembers).Canonical := by
    have hfuzzy : (Json.object [("prefix_length", .int 1)]).Canonical :=
      .object (List.pairwise_singleton _ _) (List.forall_mem_singleton.2 (.int 1))
    refine .object (by decide) ?_
    simp only [namingMembers, List.forall_mem_cons]
    exact ⟨hfuzzy, .text _, nofun⟩
  obtain ⟨hload, -, hsingle⟩ := load_layered hu fileGives_expandingFile gives_indexVariable
  obtain ⟨s, hs, hsload, -⟩ := hsingle namingFile namingMembers namingGiven layer?_namingFile hc gives_namingMembers
  have hfault : (indexGiven.onto (expandingGiven.onto namingGiven)).complete.fault? = none := by decide +kernel
  have hname : (indexGiven.onto (expandingGiven.onto namingGiven)).complete.indexName = "web" := by decide +kernel
  have hfuzzy : (indexGiven.onto (expandingGiven.onto namingGiven)).complete.fuzzy = some ⟨.auto, 5, 1, true⟩ := by
    decide +kernel
  exact ⟨hu, fileGives_expandingFile, gives_indexVariable,
    ⟨_, hload.trans (validate_eq_ok hfault), hname, hfuzzy⟩, s, hs, hsload⟩

/-! ## A table without parts -/

/-- A file that turns approximate matching off. -/
def offFile : ConfigFile := ⟨.json, "\x7b\"fuzzy\":null\x7d"⟩

/-- A file with an empty table of parameters. -/
def emptyTableFile : ConfigFile := ⟨.json, "\x7b\"fuzzy\":\x7b\x7d\x7d"⟩

def offGiven : Given := ⟨.nothing, some none⟩

def emptyTableGiven : Given := ⟨.nothing, some (some .nothing)⟩

theorem fileGives_offFile : FileGives (some offFile) offGiven := by
  have hparse : Json.parse? offFile.text = some (.object [("fuzzy", .null)]) := by cbv
  exact ⟨[("fuzzy", .nil)], layer?_json hparse, .noFuzzy .nil rfl⟩

theorem fileGives_emptyTableFile : FileGives (some emptyTableFile) emptyTableGiven := by
  have hparse : Json.parse? emptyTableFile.text = some (.object [("fuzzy", .object [])]) := by cbv
  exact ⟨[("fuzzy", .table [])], layer?_json hparse, .fuzzy .nil rfl .nil⟩

/-- **A table without parts** does not turn approximate matching on where a lower layer turned it off, though the
same file does so alone. -/
theorem load_emptyTable :
    (∃ s, load ⟨some offFile, some (.found emptyTableFile), []⟩ = .ok s ∧ s.fuzzy = none) ∧
      ∃ s, load ⟨none, some (.found emptyTableFile), []⟩ = .ok s ∧ s.fuzzy = some .auto := by
  have hempty : Gives (Environment.layer []) .nothing := .nil
  have hboth := load_of_gives fileGives_offFile fileGives_emptyTableFile hempty
  have halone := load_of_gives (show FileGives none .nothing from rfl) fileGives_emptyTableFile hempty
  have hoff : (Given.nothing.onto (emptyTableGiven.onto offGiven)).complete.fault? = none := by decide +kernel
  have hon : (Given.nothing.onto (emptyTableGiven.onto .nothing)).complete.fault? = none := by decide +kernel
  exact ⟨⟨_, hboth.trans (validate_eq_ok hoff), rfl⟩, ⟨_, halone.trans (validate_eq_ok hon), rfl⟩⟩

end Settings

end LogQuery
