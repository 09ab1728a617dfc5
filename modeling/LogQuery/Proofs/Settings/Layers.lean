import LogQuery.Proofs.Computations
import LogQuery.Settings.Load

/-!
# What the layers come to

Loaded settings are read, part by part, from the values of all layers together (`load_eq_ok_iff`). The value
of a name among these is that of the last entry for it; an entry for a place further inside leaves a table or
a list there, of which nothing simple can be read (`find?_applyTo_last`).
-/

namespace LogQuery

/-! ## Values with others inside -/

/-- The value has places for others. -/
inductive Loose.Nested : Loose → Prop
  | table (ms : List (String × Loose)) : Nested (.table ms)
  | list (vs : List Loose) : Nested (.list vs)

theorem Loose.Nested.text?_eq_none {v : Loose} (h : v.Nested) : v.text? = none := by cases h <;> rfl

namespace Layer

theorem readSteps?_eq_nil {n : Nat} {cs : List Char} (h : readSteps? n cs = some []) : cs = [] := by
  cases cs with
  | nil => rfl
  | cons c cs =>
    cases n with
    | zero => cases h
    | succ n =>
      obtain ⟨⟨step, rest⟩, -, h⟩ := Option.bind_eq_some_iff.1 h
      obtain ⟨steps, -, h⟩ := Option.map_eq_some_iff.1 h
      cases h

/-- A way has further steps unless it is the name of the entry itself. -/
theorem placeOf_cases (key : String) :
    placeOf key = [.name key] ∨ ∃ name step rest, placeOf key = .name name :: step :: rest := by
  simp only [placeOf]
  cases hsteps : readSteps? key.toList.length (key.toList.dropWhile isNameChar) with
  | none => exact .inl rfl
  | some steps =>
    by_cases hempty : (key.toList.takeWhile isNameChar).isEmpty = true
    · exact .inl (if_pos hempty)
    · simp only [if_neg hempty]
      cases steps with
      | nil =>
        have hall := List.takeWhile_append_dropWhile (p := isNameChar) (l := key.toList)
        rw [readSteps?_eq_nil hsteps, List.append_nil] at hall
        exact .inl (by rw [hall, String.ofList_toList])
      | cons step rest => exact .inr ⟨_, step, rest, rfl⟩

/-- What is changed at a place inside a value has places for others. -/
theorem nested_assignAt (value : Loose) (step : PlaceStep) (rest : List PlaceStep) (root : Loose) :
    (assignAt value (step :: rest) root).Nested := by
  cases step with
  | name k =>
    cases rest with
    | nil => cases value <;> exact .table _
    | cons => exact .table _
  | position i =>
    cases rest with
    | nil => exact .list _
    | cons => exact .list _

/-- The entries put single values in their places. -/
def Plain (layer : Layer) : Prop := ∀ e ∈ layer, ∀ ms, e.2 ≠ .table ms

/-- What is found under a name was there before, or has places for others. -/
def KeptOrNested (before after : Option Loose) : Prop := after = before ∨ ∃ v, after = some v ∧ v.Nested

/-- An entry for another name leaves a value alone, unless it leads inside it. -/
theorem find?_assignAt_other {key name : String} {value : Loose} (hvalue : ∀ ms, value ≠ .table ms)
    (hname : Loose.lower key ≠ name) (root : Loose) :
    KeptOrNested (root.members.find? name) ((assignAt value (placeOf key) root).members.find? name) := by
  obtain hplace | ⟨first, step, rest, hplace⟩ := placeOf_cases key
  · have hassign : assign value key root = .table (root.members.insert (Loose.lower key) value) := by
      cases value with
      | table ms => exact absurd rfl (hvalue ms)
      | _ => rfl
    refine .inl ?_
    rw [hplace, assignAt, hassign, Loose.members, Members.find?_insert, if_neg hname.symm]
  · have hassign : assignAt value (.name first :: step :: rest) root = .table (root.members.insert first
        (assignAt value (step :: rest) ((root.members.find? first).getD .nil))) := rfl
    rw [hplace, hassign, Loose.members, Members.find?_insert]
    by_cases hfirst : name = first
    · exact .inr ⟨_, if_pos hfirst, nested_assignAt ..⟩
    · exact .inl (if_neg hfirst)

/-- Entries for other names leave a value alone, unless one leads inside it. -/
theorem find?_applyTo_others {layer : Layer} {name : String} (hplain : Plain layer)
    (hnames : ∀ e ∈ layer, Loose.lower e.1 ≠ name) (root : Loose) :
    KeptOrNested (root.members.find? name) ((applyTo layer root).members.find? name) := by
  induction layer generalizing root with
  | nil => exact .inl rfl
  | cons e layer ih =>
    obtain ⟨he, hplain⟩ := List.forall_mem_cons.1 hplain
    obtain ⟨hname, hnames⟩ := List.forall_mem_cons.1 hnames
    have hstep := find?_assignAt_other he hname root
    -- A later entry may lead inside the value; if none does, the first entry alone decides.
    obtain hrest | hnested := ih hplain hnames (assignAt e.2 (placeOf e.1) root)
    · rw [KeptOrNested, applyTo, List.foldl_cons]
      rw [applyTo] at hrest
      rw [hrest]
      exact hstep
    · exact .inr hnested

theorem applyTo_append (layer layer' : Layer) (root : Loose) :
    applyTo (layer ++ layer') root = applyTo layer' (applyTo layer root) := List.foldl_append

/-- **The last entry for a name counts**, whatever stood there before. -/
theorem find?_applyTo_last {before after : Layer} {name : String} {value : Loose}
    (hvalue : ∀ ms, value ≠ .table ms) (hplace : placeOf name = [.name name]) (hlower : Loose.lower name = name)
    (hplain : Plain after) (hnames : ∀ e ∈ after, Loose.lower e.1 ≠ name) (root : Loose) :
    KeptOrNested (some value) ((applyTo (before ++ (name, value) :: after) root).members.find? name) := by
  have hown : (assignAt value (placeOf name) (applyTo before root)).members.find? name = some value := by
    have h := find?_assign hvalue name (applyTo before root)
    rw [hlower] at h
    rw [hplace]
    exact h
  rw [applyTo_append]
  exact hown ▸ find?_applyTo_others hplain hnames (assignAt value (placeOf name) (applyTo before root))

end Layer

/-! ## Settings of all layers -/

namespace Settings

/-- Each part of the settings is read from the table, or is the standard where the table does not have it. -/
structure ReadFrom (s : Settings) (ms : Members Loose) : Prop where
  nodes : Loose.part? ms "nodes" standard.nodes Loose.texts? = some s.nodes
  username : Loose.part? ms "username" standard.username (Loose.nullable? Loose.text?) = some s.username
  password : Loose.part? ms "password" standard.password (Loose.nullable? Loose.text?) = some s.password
  indexLead : Loose.part? ms "index_prefix" standard.indexLead Loose.text? = some s.indexLead
  indexName : Loose.part? ms "index_name" standard.indexName Loose.text? = some s.indexName
  indexDateFormat :
    Loose.part? ms "index_date_format" standard.indexDateFormat Loose.text? = some s.indexDateFormat
  defaultPageSize :
    Loose.part? ms "default_page_size" standard.defaultPageSize Loose.uint32? = some s.defaultPageSize
  requestTimeoutSecs :
    Loose.part? ms "request_timeout_secs" standard.requestTimeoutSecs Loose.uint64? = some s.requestTimeoutSecs
  logLevel : Loose.part? ms "log_level" standard.logLevel Loose.text? = some s.logLevel
  fuzzy : Loose.part? ms "fuzzy" standard.fuzzy (Loose.nullable? Loose.fuzzyConfig?) = some s.fuzzy

theorem ofTable?_eq_some_iff {ms : Members Loose} {s : Settings} : ofTable? ms = some s ↔ s.ReadFrom ms := by
  simp only [ofTable?, Option.bind_eq_bind, Option.bind_eq_some_iff, Option.some.injEq]
  constructor
  · rintro ⟨nodes, h1, username, h2, password, h3, indexLead, h4, indexName, h5, indexDateFormat, h6,
      defaultPageSize, h7, requestTimeoutSecs, h8, logLevel, h9, fuzzy, h10, rfl⟩
    exact ⟨h1, h2, h3, h4, h5, h6, h7, h8, h9, h10⟩
  · intro h
    exact ⟨_, h.nodes, _, h.username, _, h.password, _, h.indexLead, _, h.indexName, _, h.indexDateFormat, _,
      h.defaultPageSize, _, h.requestTimeoutSecs, _, h.logLevel, _, h.fuzzy, rfl⟩

theorem load_eq_ok_iff {sources : SettingsSources} {s : Settings} : load sources = .ok s ↔
    (∃ layers, layers? sources = some layers ∧ s.ReadFrom (merged layers).members) ∧ s.fault? = none := by
  have hgather : gather? sources = some s ↔
      ∃ layers, layers? sources = some layers ∧ s.ReadFrom (merged layers).members := by
    simp only [gather?, Option.bind_eq_some_iff, ofTable?_eq_some_iff]
  rw [← hgather, load]
  cases gather? sources with
  | none => simp
  | some gathered =>
    simp only [Except.mapError_eq_ok_iff, validate_eq_ok_iff, Option.some.injEq]
    constructor
    · rintro ⟨hvalid, rfl⟩
      exact ⟨rfl, hvalid⟩
    · rintro ⟨rfl, hvalid⟩
      exact ⟨hvalid, rfl⟩

/-- The entries of the user's own file, which may be missing. -/
def userLayer? (sources : SettingsSources) : Option Layer :=
  match sources.userFile with
  | none => some []
  | some f => f.layer?

/-- The entries of the file that is named, if one is; that must be there. -/
def namedLayer? (sources : SettingsSources) : Option Layer :=
  match sources.namedFile with
  | none => some []
  | some .missing => none
  | some (.found f) => f.layer?

theorem layers?_eq_some_iff {sources : SettingsSources} {layers : List Layer} :
    layers? sources = some layers ↔ ∃ user named, userLayer? sources = some user ∧
      namedLayer? sources = some named ∧
      [standardLayer, user, named, Environment.layer sources.environment] = layers := by
  have h : layers? sources = (userLayer? sources).bind fun user => (namedLayer? sources).bind fun named =>
      some [standardLayer, user, named, Environment.layer sources.environment] := by
    unfold layers? userLayer? namedLayer?
    cases sources.userFile with
    | none => cases sources.namedFile with
      | none => rfl
      | some file => cases file <;> rfl
    | some file => cases sources.namedFile with
      | none => rfl
      | some named => cases named <;> rfl
  simp only [h, Option.bind_eq_some_iff, Option.some.injEq, ← exists_and_left]

/-- The environment is the last layer, whatever the files hold. -/
theorem merged_of_layers? {sources : SettingsSources} {layers : List Layer}
    (h : layers? sources = some layers) :
    ∃ below, merged layers = Layer.applyTo (Environment.layer sources.environment) below := by
  obtain ⟨user, named, -, -, rfl⟩ := layers?_eq_some_iff.1 h
  exact ⟨_, rfl⟩

end Settings

end LogQuery
