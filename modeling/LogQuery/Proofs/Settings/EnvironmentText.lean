import LogQuery.Proofs.Settings.Layers

/-!
# Texts from the environment

A setting that is wanted as text takes the text of its variable, whatever the files hold, but not always as
it is. What looks like a switch, an integer or a double is taken for one and written anew, so that it keeps
its characters only if they are the ones that would be written (`text_of_load`, `indexName_of_leadingZeros`).
-/

namespace LogQuery

open LogQuery.Text

namespace Loose

theorem part?_of_find? {α : Type} {ms : Members Loose} {name : String} {absent : α} {read? : Loose → Option α}
    {v : Loose} (h : ms.find? name = some v) : part? ms name absent read? = read? v := by
  rw [part?, h]

theorem nullable?_of_ne_nil {α : Type} {read? : Loose → Option α} {v : Loose} (h : v ≠ .nil) :
    nullable? read? v = (read? v).map some := by
  cases v <;> first | exact absurd rfl h | rfl

end Loose

namespace Environment

/-! ## What a text becomes -/

/-- The integer that a text looks like. -/
def integer? (s : String) : Option Int :=
  readIntWithin? Int64.minValue.toInt Int64.maxValue.toInt s.toList

/-- The text that a setting takes from the text of its variable. -/
inductive Taken (s : String) : String → Prop
  | switch {b : Bool} : bool? s = some b → Taken s (if b then "true" else "false")
  | integer {i : Int} : bool? s = none → integer? s = some i → Taken s (ofInt i)
  | double {x : Float} : bool? s = none → integer? s = none → Decimal.read? s = some x →
    Taken s (Decimal.plainText x)
  | text : bool? s = none → integer? s = none → Decimal.read? s = none → Taken s s

/-- The texts that are taken as they are. -/
inductive Verbatim : String → Prop
  /-- A switch in lower case. -/
  | switch (b : Bool) : Verbatim (if b then "true" else "false")
  /-- An integer of 64 bits without a plus sign and leading zeros. -/
  | integer {i : Int} : Int64.minValue.toInt ≤ i → i ≤ Int64.maxValue.toInt → Verbatim (ofInt i)
  /-- A double in plain digits, and no more of them than are needed. -/
  | double {s : String} {x : Float} : bool? s = none → integer? s = none → Decimal.read? s = some x →
    Decimal.plainText x = s → Verbatim s
  /-- What looks like none of these. -/
  | text {s : String} : bool? s = none → integer? s = none → Decimal.read? s = none → Verbatim s

theorem taken_of_value {key s t : String} (hkey : key ≠ "nodes") (h : (value key s).text? = some t) :
    Taken s t := by
  have hinteger : readIntWithin? Int64.minValue.toInt Int64.maxValue.toInt s.toList = integer? s := rfl
  rw [value, typed?, hinteger] at h
  cases hb : bool? s with
  | some b =>
    have ht : t = if b then "true" else "false" := by
      cases b <;> simpa [hb, Loose.text?, eq_comm] using h
    exact ht ▸ .switch hb
  | none =>
    cases hi : integer? s with
    | some i =>
      have ht : ofInt i = t := by simpa [hb, hi, Loose.text?] using h
      exact ht ▸ .integer hb hi
    | none =>
      cases hd : Decimal.read? s with
      | some x =>
        have ht : Decimal.plainText x = t := by simpa [hb, hi, hd, Loose.text?] using h
        exact ht ▸ .double hb hi hd
      | none =>
        have ht : s = t := by simpa [hb, hi, hd, hkey, Loose.text?] using h
        exact ht ▸ .text hb hi hd

theorem integer?_ofInt {i : Int} (hlo : Int64.minValue.toInt ≤ i) (hhi : i ≤ Int64.maxValue.toInt) :
    integer? (ofInt i) = some i := by
  have hwithin : (Int64.minValue.toInt ≤ i && i ≤ Int64.maxValue.toInt) = true := by
    rw [Bool.and_eq_true, decide_eq_true_eq, decide_eq_true_eq]
    exact ⟨hlo, hhi⟩
  rw [integer?, readIntWithin?, ofInt, String.toList_ofList, readInt?_intChars, Option.filter_some,
    if_pos hwithin]

theorem integer?_within {s : String} {i : Int} (h : integer? s = some i) :
    Int64.minValue.toInt ≤ i ∧ i ≤ Int64.maxValue.toInt := by
  obtain ⟨-, h⟩ := Option.filter_eq_some_iff.1 h
  rwa [Bool.and_eq_true, decide_eq_true_eq, decide_eq_true_eq] at h

theorem isDigit_of_mem_intChars {i : Int} {c : Char} (h : c ∈ intChars i) : c = '-' ∨ c.isDigit = true := by
  unfold intChars at h
  split at h
  · exact (List.mem_cons.1 h).imp id natChars_isDigit
  · exact .inr (natChars_isDigit h)

theorem toLower_ne_of_mem_intChars {i : Int} {c : Char} (h : c ∈ intChars i) : c.toLower ≠ 'e' := by
  obtain rfl | hc := isDigit_of_mem_intChars h
  · decide
  · have hself : c.toLower = c := dif_neg (by simp only [Char.isDigit] at hc; grind)
    rw [hself]
    rintro rfl
    exact absurd hc (by decide)

/-- No integer looks like a switch: the words of both have a letter. -/
theorem bool?_ofInt (i : Int) : bool? (ofInt i) = none := by
  have hletter : 'e' ∉ (Loose.lower (ofInt i)).toList := by
    rw [Loose.lower, ofInt, String.toList_ofList, String.toList_ofList]
    intro h
    obtain ⟨c, hc, he⟩ := List.mem_map.1 h
    exact toLower_ne_of_mem_intChars hc he
  have htrue : Loose.lower (ofInt i) ≠ "true" := fun h => hletter (by rw [h]; decide)
  have hfalse : Loose.lower (ofInt i) ≠ "false" := fun h => hletter (by rw [h]; decide)
  simp only [bool?, if_neg htrue, if_neg hfalse]

theorem bool?_switch (b : Bool) : bool? (if b then "true" else "false") = some b := by cases b <;> decide

/-- A text is taken for one thing only. -/
theorem Taken.unique {s t u : String} (ht : Taken s t) (hu : Taken s u) : t = u := by
  cases ht <;> cases hu <;> simp_all

theorem Verbatim.taken {s : String} (h : Verbatim s) : Taken s s := by
  cases h with
  | switch b => exact .switch (bool?_switch b)
  | integer hlo hhi => exact .integer (bool?_ofInt _) (integer?_ofInt hlo hhi)
  | double hb hi hd hs =>
    have h := Taken.double hb hi hd
    rwa [hs] at h
  | text hb hi hd => exact .text hb hi hd

theorem Taken.eq_iff {s t : String} (h : Taken s t) : t = s ↔ Verbatim s := by
  constructor
  · rintro rfl
    cases h with
    | switch => exact .switch _
    | integer hb hi => exact .integer (integer?_within hi).1 (integer?_within hi).2
    | double hb hi hd => exact .double hb hi hd rfl
    | text hb hi hd => exact .text hb hi hd
  · intro hs
    exact h.unique hs.taken

/-! ## The entries of the environment -/

/-- A variable whose name starts with the lead has an entry by the rest of its name. -/
theorem named?_of_lead {name key : String} (text : String) (h : Loose.lower name = lead ++ key) :
    named? name text = some (key, value key text) := by
  have hlength : lead.length = lead.toList.length := String.length_toList.symm
  have hlead : lead.toList.isPrefixOf (lead.toList ++ key.toList) = true :=
    List.isPrefixOf_iff_prefix.2 (List.prefix_append ..)
  simp only [named?, h, String.toList_append, hlead, if_true, hlength, List.drop_left, String.ofList_toList]

theorem lead_of_named? {name text : String} {e : String × Loose} (h : named? name text = some e) :
    Loose.lower name = lead ++ e.1 ∧ e.2 = value e.1 text := by
  simp only [named?, Option.ite_none_right_eq_some, Option.some.injEq] at h
  obtain ⟨hlead, rfl⟩ := h
  obtain ⟨key, hkey⟩ := List.isPrefixOf_iff_prefix.1 hlead
  refine ⟨String.toList_injective ?_, rfl⟩
  have hlength : lead.length = lead.toList.length := String.length_toList.symm
  rw [String.toList_append, String.toList_ofList, ← hkey, hlength, List.drop_left]

/-- The rest of a name in lower case is in lower case. -/
theorem lower_of_lead {name key : String} (h : Loose.lower name = lead ++ key) : Loose.lower key = key := by
  have hname : name.toList.map Char.toLower = lead.toList ++ key.toList := by
    rw [← String.toList_append, ← h, Loose.lower, String.toList_ofList]
  have htwice : (lead.toList ++ key.toList).map Char.toLower = lead.toList ++ key.toList := by
    rw [← hname, List.map_map]
    exact List.map_congr_left fun c _ => Loose.toLower_toLower c
  rw [List.map_append] at htwice
  rw [Loose.lower, (List.append_inj htwice (List.length_map _)).2, String.ofList_toList]

/-- A value is single, or a list. -/
theorem value_cases (key text : String) :
    (∃ t, (value key text).text? = some t) ∨ ∃ vs, value key text = .list vs := by
  unfold value
  cases htyped : typed? text with
  | some v =>
    unfold typed? at htyped
    split at htyped <;> cases htyped
    · next b _ => cases b <;> exact .inl ⟨_, rfl⟩
    · exact .inl ⟨_, rfl⟩
    · exact .inl ⟨_, rfl⟩
  | none =>
    by_cases hkey : key = "nodes"
    · exact .inr ⟨_, if_pos hkey⟩
    · simp only [if_neg hkey]
      exact .inl ⟨_, rfl⟩

theorem value_ne {v : Loose} (hlist : ∀ vs, v ≠ .list vs) (htext : v.text? = none) (key text : String) :
    value key text ≠ v := by
  rintro rfl
  obtain ⟨t, ht⟩ | ⟨vs, hvs⟩ := value_cases key text
  · rw [htext] at ht
    cases ht
  · exact hlist vs hvs

theorem value_ne_table (key text : String) (ms : List (String × Loose)) : value key text ≠ .table ms :=
  value_ne (fun _ => Loose.noConfusion) rfl key text

theorem mem_layer {named : List (String × String)} {e : String × Loose} (h : e ∈ layer named) :
    ∃ v ∈ named, Loose.lower v.1 = lead ++ e.1 ∧ e.2 = value e.1 v.2 := by
  obtain ⟨v, hv, hnamed⟩ := List.mem_filterMap.1 h
  exact ⟨v, hv, lead_of_named? hnamed⟩

theorem plain_layer (named : List (String × String)) : Layer.Plain (layer named) := by
  intro e he ms
  obtain ⟨v, -, -, hvalue⟩ := mem_layer he
  rw [hvalue]
  exact value_ne_table _ _ ms

/-- The last variable of a name gives the value of its entry, unless another one leads inside it. -/
theorem find?_layer_last (before : List (String × String)) {after : List (String × String)} {name key : String}
    (text : String)
    (hname : Loose.lower name = lead ++ key) (hafter : ∀ v ∈ after, Loose.lower v.1 ≠ lead ++ key)
    (hplace : Layer.placeOf key = [.name key]) (root : Loose) :
    Layer.KeptOrNested (some (value key text))
      ((Layer.applyTo (layer (before ++ (name, text) :: after)) root).members.find? key) := by
  have hlayer : layer (before ++ (name, text) :: after) =
      layer before ++ (key, value key text) :: layer after := by
    simp only [layer, List.filterMap_append, List.filterMap_cons, named?_of_lead text hname]
  rw [hlayer]
  refine Layer.find?_applyTo_last (value_ne_table key text) hplace (lower_of_lead hname) (plain_layer after)
    (fun e he hkey => ?_) root
  obtain ⟨v, hv, hlower, -⟩ := mem_layer he
  rw [lower_of_lead hlower] at hkey
  exact hafter v hv (hkey ▸ hlower)

end Environment

/-! ## Settings that are text -/

/-- The settings that are text. -/
inductive TextSetting where
  | username
  | password
  | indexLead
  | indexName
  | indexDateFormat
  | logLevel
  deriving DecidableEq, Repr

namespace TextSetting

/-- The name of its entry. -/
def key : TextSetting → String
  | username => "username"
  | password => "password"
  | indexLead => "index_prefix"
  | indexName => "index_name"
  | indexDateFormat => "index_date_format"
  | logLevel => "log_level"

def get (k : TextSetting) (s : Settings) : Option String :=
  match k with
  | username => s.username
  | password => s.password
  | indexLead => some s.indexLead
  | indexName => some s.indexName
  | indexDateFormat => some s.indexDateFormat
  | logLevel => some s.logLevel

theorem placeOf_key (k : TextSetting) : Layer.placeOf k.key = [.name k.key] := by cases k <;> decide +kernel

theorem key_ne_nodes (k : TextSetting) : k.key ≠ "nodes" := by cases k <;> decide

/-- A setting is the text of its value. -/
theorem get_of_readFrom {s : Settings} {ms : Members Loose} (h : s.ReadFrom ms) {k : TextSetting} {v : Loose}
    (hv : ms.find? k.key = some v) (hnil : v ≠ .nil) : ∃ t, v.text? = some t ∧ k.get s = some t := by
  have hnullable : ∀ {x : Option String}, Loose.nullable? Loose.text? v = some x →
      ∃ t, v.text? = some t ∧ x = some t := by
    intro x hx
    obtain ⟨t, ht, rfl⟩ := Option.map_eq_some_iff.1 ((Loose.nullable?_of_ne_nil hnil).symm.trans hx)
    exact ⟨t, ht, rfl⟩
  cases k with
  | username => exact hnullable ((Loose.part?_of_find? hv).symm.trans h.username)
  | password => exact hnullable ((Loose.part?_of_find? hv).symm.trans h.password)
  | indexLead => exact ⟨_, (Loose.part?_of_find? hv).symm.trans h.indexLead, rfl⟩
  | indexName => exact ⟨_, (Loose.part?_of_find? hv).symm.trans h.indexName, rfl⟩
  | indexDateFormat => exact ⟨_, (Loose.part?_of_find? hv).symm.trans h.indexDateFormat, rfl⟩
  | logLevel => exact ⟨_, (Loose.part?_of_find? hv).symm.trans h.logLevel, rfl⟩

end TextSetting

namespace Settings

/-- **Texts from the environment** (`Settings::load`). A setting that is text takes the text of its variable,
whatever the files hold: as it is just if that is how it would be written. -/
theorem text_of_load {sources : SettingsSources} {s : Settings} (hload : load sources = .ok s)
    (k : TextSetting) {name text : String} {before after : List (String × String)}
    (henvironment : sources.environment = before ++ (name, text) :: after)
    (hname : Loose.lower name = Environment.lead ++ k.key)
    (hafter : ∀ v ∈ after, Loose.lower v.1 ≠ Environment.lead ++ k.key) :
    ∃ t, k.get s = some t ∧ Environment.Taken text t ∧ (t = text ↔ Environment.Verbatim text) := by
  obtain ⟨⟨layers, hlayers, hread⟩, -⟩ := load_eq_ok_iff.1 hload
  obtain ⟨below, hmerged⟩ := merged_of_layers? hlayers
  have hfind := Environment.find?_layer_last before text hname hafter k.placeOf_key below
  rw [← henvironment, ← hmerged] at hfind
  obtain hvalue | ⟨v, hv, hnested⟩ := hfind
  · have hnil : Environment.value k.key text ≠ .nil :=
      Environment.value_ne (fun _ => Loose.noConfusion) rfl k.key text
    obtain ⟨t, ht, hget⟩ := TextSetting.get_of_readFrom hread hvalue hnil
    have htaken := Environment.taken_of_value k.key_ne_nodes ht
    exact ⟨t, hget, htaken, htaken.eq_iff⟩
  · -- With a table or a list there, the settings would not have been loaded.
    have hnil : v ≠ .nil := by
      rintro rfl
      cases hnested
    obtain ⟨t, ht, -⟩ := TextSetting.get_of_readFrom hread hv hnil
    rw [hnested.text?_eq_none] at ht
    cases ht

/-- A user and a password from the environment, as they are. -/
theorem text_of_load_credentials :
    ∃ s, load ⟨none, none, [("LOGSEARCH_USERNAME", "ana"), ("LOGSEARCH_PASSWORD", "s3cret")]⟩ = .ok s ∧
      s.username = some "ana" ∧ s.password = some "s3cret" := by
  have hload : ∃ s,
      load ⟨none, none, [("LOGSEARCH_USERNAME", "ana"), ("LOGSEARCH_PASSWORD", "s3cret")]⟩ = .ok s :=
    ⟨_, by with_unfolding_all rfl⟩
  obtain ⟨s, hs⟩ := hload
  have huser : Environment.Verbatim "ana" := .text (by decide) (by decide) (by with_unfolding_all rfl)
  have hpassword : Environment.Verbatim "s3cret" := .text (by decide) (by decide) (by with_unfolding_all rfl)
  have hfirst : [("LOGSEARCH_USERNAME", "ana"), ("LOGSEARCH_PASSWORD", "s3cret")] =
      [] ++ ("LOGSEARCH_USERNAME", "ana") :: [("LOGSEARCH_PASSWORD", "s3cret")] := rfl
  have hsecond : [("LOGSEARCH_USERNAME", "ana"), ("LOGSEARCH_PASSWORD", "s3cret")] =
      [("LOGSEARCH_USERNAME", "ana")] ++ ("LOGSEARCH_PASSWORD", "s3cret") :: [] := rfl
  obtain ⟨t, ht, -, htext⟩ := text_of_load hs .username hfirst (by decide) (by decide)
  obtain ⟨u, hu, -, hutext⟩ := text_of_load hs .password hsecond (by decide) (by decide)
  rw [htext.2 huser] at ht
  rw [hutext.2 hpassword] at hu
  exact ⟨s, hs, ht, hu⟩

/-- The name of an index that looks like an integer loses its leading zeros. -/
theorem indexName_of_leadingZeros :
    ∃ s, load ⟨none, none, [("LOGSEARCH_INDEX_NAME", "007")]⟩ = .ok s ∧ s.indexName = "7" :=
  ⟨_, by with_unfolding_all rfl, by with_unfolding_all rfl⟩

end Settings

end LogQuery
