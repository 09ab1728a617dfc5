import LogQuery.CommandLine.Run
import LogQuery.Proofs.Computations
import LogQuery.Proofs.Json.Alike
import LogQuery.Proofs.Search.IndexNames

/-!
# What a search of the command line sends

A search has everything it needs before it sends anything: with a fault in the options it ends with a
failure, in any surroundings, and otherwise it runs one request against the nodes. The request asks for the
query that compiling the same options prints, for the page and the sort of the options, and is sent to the
nodes of the options, or else to those of the settings (`run_search_directs`).
-/

namespace LogQuery

/-- The members of the body of a request. -/
theorem SearchRequest.member?_body (r : SearchRequest) (name : String) :
    r.body.member? name =
      if "query" = name then some r.query.toJson
      else if "sort" = name then r.sort.map fun s => .array [s.toJson]
      else if "from" = name then r.first?.map fun n => .int n.toNat
      else if "size" = name then r.size?.map fun n => .int n.toNat
      else none := by
  have hnames : ["query", "sort", "from", "size"].Nodup := by decide
  refine (Members.find?_ofOptional ?_ name).trans ?_
  · exact hnames
  · simp only [Members.find?_cons, apply_ite Option.join, Option.join_some]
    rfl

namespace CommandLine

namespace SearchOptions

/-! ## Options at fault -/

/-- Something in the options, or the date pattern of the settings, cannot be used. -/
inductive Faulty (o : SearchOptions) (q : QueryOptions) (s : Settings) : Prop
  | nodes {f : SettingsFault} : o.nodes ≠ [] → Settings.validate { s with nodes := o.nodes } = .error f →
    Faulty o q s
  | query {f : Failure} : q.group s = .error f → Faulty o q s
  | dateFormat : (¬ ∃ ps : Pattern, ps.Spells s.indexDateFormat.toList) → Faulty o q s
  | sort {name : String} : o.sort = some name → Field.resolve? name = none → Faulty o q s

variable {o : SearchOptions} {q : QueryOptions} {s t : Settings} {now : Instant} {b c : BooleanQuery}

/-- The nodes that are asked. -/
def nodesOr (o : SearchOptions) (s : Settings) : List String := if o.nodes = [] then s.nodes else o.nodes

theorem settings_eq_ok_iff (hs : s.fault? = none) :
    o.settings s = .ok t ↔ ({ s with nodes := o.nodesOr s } : Settings).fault? = none ∧
      { s with nodes := o.nodesOr s } = t := by
  unfold settings nodesOr
  by_cases h : o.nodes = []
  · simp [h, hs]
  · simp [h, Except.mapError_eq_ok_iff, Settings.validate_eq_ok_iff]

theorem exists_logIndex_iff :
    (∃ x, o.logIndex s now = .ok x) ↔ ∃ ps : Pattern, ps.Spells s.indexDateFormat.toList := by
  simp only [logIndex, Except.mapError_eq_ok_iff, LogIndex.create_eq_ok_iff]
  constructor
  · rintro ⟨x, ps, hps, -⟩
    exact ⟨ps, hps⟩
  · rintro ⟨ps, hps⟩
    exact ⟨_, ps, hps, rfl⟩

/-- The sort is by the field that the options name; there is none if they name no field. -/
inductive SortsBy (o : SearchOptions) : Option SortKey → Prop
  | unsorted : o.sort = none → SortsBy o none
  | sorted {name : String} {f : Field} : o.sort = some name → Field.resolve? name = some f →
    SortsBy o (some ⟨f, o.order⟩)

/-- Sorting leaves the rest of a query as it is. -/
theorem of_sorted (hb : b.sort? = none) (h : o.sorted b = .ok c) :
    c.index = b.index ∧ c.root = b.root ∧ o.SortsBy c.sort? := by
  unfold sorted at h
  split at h
  · next hsort =>
    cases h
    exact ⟨rfl, rfl, hb ▸ .unsorted hsort⟩
  · next name hsort =>
    obtain ⟨f, hf, rfl⟩ := Except.map_eq_ok_iff.1 h
    have hf := Field.resolve_eq_ok_iff.1 (Except.mapError_eq_ok_iff.1 hf)
    exact ⟨rfl, rfl, .sorted hsort hf⟩

theorem exists_sorted_iff :
    (∃ c, o.sorted b = .ok c) ↔ ∀ name, o.sort = some name → ∃ f, Field.resolve? name = some f := by
  unfold sorted
  cases o.sort with
  | none => simp
  | some name =>
    simp [Except.exists_map_eq_ok_iff, Except.mapError_eq_ok_iff, Field.resolve_eq_ok_iff]

/-- The request that the options describe, for a group of the query. -/
structure Directs (o : SearchOptions) (s : Settings) (now : Instant) (query : Json) (nodes : Http.Nodes)
    (r : SearchRequest) : Prop where
  /-- There is someone to ask. -/
  created : Http.Nodes.ofSettings { s with nodes := o.nodesOr s } = .ok nodes
  addresses : nodes.addresses = o.nodesOr s
  credentials : nodes.credentials = Http.Credentials.ofSettings? s
  index : ∃ x, LogIndex.create s.indexLead (o.index.getD s.indexName) s.indexDateFormat now = .ok x ∧
    r.index = x.name
  query : r.body.member? "query" = some query
  first : r.body.member? "from" = some (.int o.first.toNat)
  size : r.body.member? "size" = some (.int (o.size.getD s.defaultPageSize).toNat)
  /-- A sort is asked for just if the options name a field for it. -/
  unsorted : o.sort = none → r.body.member? "sort" = none
  sorted : ∀ name, o.sort = some name → ∃ f, Field.resolve? name = some f ∧
    r.body.member? "sort" = some (.array [.ofMembers [(f.exactPath,
      .ofMembers [("order", .text (if o.descending then "desc" else "asc"))])]])
  others : ∀ name, name ∉ ["query", "sort", "from", "size"] → r.body.member? name = none

/-! ## Preparing a search -/

theorem prepare_eq_ok_iff {p : Prepared} : prepare now s q o = .ok p ↔
    ∃ t, o.settings s = .ok t ∧ ∃ root, q.group t = .ok root ∧
      ∃ nodes, Http.Nodes.ofSettings t = .ok nodes ∧ ∃ x, o.logIndex t now = .ok x ∧
        ∃ query, o.sorted ((SearchClient.mk x).query.withRoot root) = .ok query ∧
          ⟨nodes, t.requestTimeoutSecs, query, o.first, o.size.getD t.defaultPageSize⟩ = p := by
  simp only [prepare, Except.bind_eq_ok_iff, Except.mapError_eq_ok_iff, Except.ok.injEq]

/-- A search is ready just if each of the things it needs is there. Checked settings never lack nodes, so
there is always someone to ask. -/
theorem exists_prepare_iff (hs : s.fault? = none) : (∃ p, prepare now s q o = .ok p) ↔
    ({ s with nodes := o.nodesOr s } : Settings).fault? = none ∧ (∃ root, q.group s = .ok root) ∧
      (∃ ps : Pattern, ps.Spells s.indexDateFormat.toList) ∧
      ∀ name, o.sort = some name → ∃ f, Field.resolve? name = some f := by
  simp only [prepare_eq_ok_iff, settings_eq_ok_iff hs]
  constructor
  · rintro ⟨p, t, ⟨ht, rfl⟩, root, hroot, nodes, -, x, hx, query, hquery, -⟩
    exact ⟨ht, ⟨root, hroot⟩, exists_logIndex_iff.1 ⟨x, hx⟩, exists_sorted_iff.1 ⟨query, hquery⟩⟩
  · rintro ⟨ht, ⟨root, hroot⟩, hpattern, hsort⟩
    obtain ⟨x, hx⟩ := exists_logIndex_iff.2 hpattern
    obtain ⟨query, hquery⟩ := exists_sorted_iff.2 hsort
    obtain ⟨nodes, hnodes⟩ := Http.Nodes.exists_ofSettings (Settings.nodes_ne_nil_of_fault? ht)
    exact ⟨_, _, ⟨ht, rfl⟩, root, hroot, nodes, hnodes, x, hx, query, hquery, rfl⟩

theorem faulty_iff (hs : s.fault? = none) (now : Instant) :
    o.Faulty q s ↔ ¬ ∃ p, prepare now s q o = .ok p := by
  rw [exists_prepare_iff hs]
  constructor
  · rintro hfault ⟨hnodes, ⟨root, hroot⟩, hpattern, hsort⟩
    cases hfault with
    | nodes hne hf =>
      rw [nodesOr, if_neg hne] at hnodes
      simp [Settings.validate, hnodes] at hf
    | query hf =>
      rw [hroot] at hf
      cases hf
    | dateFormat hf => exact hf hpattern
    | sort hname hf =>
      obtain ⟨f, hf'⟩ := hsort _ hname
      simp [hf] at hf'
  · intro h
    by_contra hfault
    -- Everything is there, since the lack of it would be a fault.
    refine h ⟨?_, ?_, ?_, ?_⟩
    · by_cases hne : o.nodes = []
      · rw [nodesOr, if_pos hne]
        exact hs
      · rw [nodesOr, if_neg hne]
        cases hv : Settings.validate { s with nodes := o.nodes } with
        | ok t => exact (Settings.validate_eq_ok_iff.1 hv).1
        | error f => exact absurd (.nodes hne hv) hfault
    · by_contra hquery
      obtain ⟨f, hf⟩ := Except.exists_error_iff.2 hquery
      exact hfault (.query hf)
    · by_contra hpattern
      exact hfault (.dateFormat hpattern)
    · intro name hname
      exact Option.ne_none_iff_exists'.1 fun hf => hfault (.sort hname hf)

theorem toJson_order (o : SearchOptions) :
    o.order.toJson = .text (if o.descending then "desc" else "asc") := by
  unfold order
  split <;> rfl

/-- A query that is sorted as the options say becomes the request that they describe. -/
theorem directs_of_sortsBy {nodes : Http.Nodes} {x : LogIndex}
    (hnodes : Http.Nodes.ofSettings { s with nodes := o.nodesOr s } = .ok nodes)
    (hx : LogIndex.create s.indexLead (o.index.getD s.indexName) s.indexDateFormat now = .ok x)
    (hindex : b.index = x.name) (hsorts : o.SortsBy b.sort?) :
    o.Directs s now b.root.compile.toJson nodes (b.preparePage o.first (o.size.getD s.defaultPageSize)) := by
  have hsort : (b.preparePage o.first (o.size.getD s.defaultPageSize)).body.member? "sort" =
      b.sort?.map fun k => .array [k.toJson] := SearchRequest.member?_body _ "sort"
  generalize b.sort? = k at hsort hsorts
  obtain ⟨haddresses, hcredentials⟩ := Http.Nodes.ofSettings_eq_ok_iff.1 hnodes
  refine ⟨hnodes, haddresses, hcredentials, ⟨x, hx, hindex⟩, SearchRequest.member?_body _ "query",
    SearchRequest.member?_body _ "from", SearchRequest.member?_body _ "size", fun hnone => ?_,
    fun name hname => ?_, fun name hother => ?_⟩
  · cases hsorts with
    | unsorted _ => exact hsort
    | sorted hname _ => simp [hnone] at hname
  · cases hsorts with
    | unsorted hnone => simp [hnone] at hname
    | @sorted name' f hname' hf =>
      obtain rfl : name' = name := Option.some.inj (hname'.symm.trans hname)
      refine ⟨f, hf, ?_⟩
      rw [hsort, ← toJson_order]
      rfl
  · simp only [List.mem_cons, List.not_mem_nil, or_false, not_or] at hother
    rw [SearchRequest.member?_body]
    simp [Ne.symm hother.1, Ne.symm hother.2.1, Ne.symm hother.2.2.1, Ne.symm hother.2.2.2]

/-- What is prepared is the request that the options describe. -/
theorem directs_of_prepare {p : Prepared} (hs : s.fault? = none) (h : prepare now s q o = .ok p) :
    p.timeoutSecs = s.requestTimeoutSecs ∧ ∃ root, q.group s = .ok root ∧
      o.Directs s now root.compile.toJson p.nodes (p.query.preparePage p.first p.size) := by
  obtain ⟨t, ht, root, hroot, nodes, hnodes, x, hx, query, hquery, rfl⟩ := prepare_eq_ok_iff.1 h
  obtain ⟨-, rfl⟩ := (settings_eq_ok_iff hs).1 ht
  obtain ⟨hindex, hqueryRoot, hsorts⟩ := of_sorted rfl hquery
  obtain rfl : query.root = root := hqueryRoot
  exact ⟨rfl, query.root, hroot,
    directs_of_sortsBy hnodes (Except.mapError_eq_ok_iff.1 hx) hindex hsorts⟩

end SearchOptions

/-! ## Running the command -/

theorem Invocation.fault?_of_settings {i : Invocation} {sources : SettingsSources} {s : Settings}
    (h : i.settings sources = .ok s) : s.fault? = none := by
  obtain ⟨loaded, hload, rfl⟩ := Except.map_eq_ok_iff.1 h
  have hvalid : loaded.fault? = none := Settings.fault?_of_load (Except.mapError_eq_ok_iff.1 hload)
  exact hvalid

variable {m : Type → Type} [Monad m] {send : UInt64 → Http.Post → m Http.Reply} {now : Instant}
  {sources : SettingsSources} {i : Invocation} {q : QueryOptions} {o : SearchOptions} {s : Settings}

theorem run_of_prepare (hc : i.command = .search q o) (hs : i.settings sources = .ok s) {p : Prepared}
    (hp : prepare now s q o = .ok p) : run send now sources i = p.run send := by
  have h : (i.settings sources >>= fun s => prepare now s q o) = .ok p :=
    Except.bind_eq_ok_iff.2 ⟨s, hs, hp⟩
  simp only [run, hc, h]

theorem run_compile {root : Group} (hs : i.settings sources = .ok s) (hroot : q.group s = .ok root) :
    run send now sources { i with command := .compile q } = pure (.ok ⟨[root.compile.display], none⟩) :=
  congrArg pure (Except.bind_eq_ok_iff.2 ⟨s, hs, Except.bind_eq_ok_iff.2 ⟨root, hroot, rfl⟩⟩)

/-- **Searching from the command line** (`handle_search`). With a fault in the options the command fails without an
effect. Otherwise it runs one search, by the request that the options describe, for the query that compiling prints. -/
theorem run_search_directs (hc : i.command = .search q o) (hs : i.settings sources = .ok s)
    (send : UInt64 → Http.Post → m Http.Reply) (now : Instant) :
    (o.Faulty q s → ∃ f, run send now sources i = pure (.error f)) ∧
    (¬ o.Faulty q s → ∃ nodes r query, o.Directs s now query nodes r ∧
      run send now sources { i with command := .compile q } = pure (.ok ⟨[query.toPretty], none⟩) ∧
      run send now sources i = do
        let result ← Http.search (send s.requestTimeoutSecs) nodes r
        pure (reportOf result)) := by
  have hvalid := Invocation.fault?_of_settings hs
  rw [SearchOptions.faulty_iff hvalid now]
  constructor
  · intro hnone
    obtain ⟨f, hf⟩ := Except.exists_error_iff.2 hnone
    refine ⟨f, run_of_prepare_error send now sources i q o f hc ?_⟩
    rw [hs]
    exact hf
  · intro hsome
    obtain ⟨p, hp⟩ := not_not.1 hsome
    obtain ⟨htimeout, root, hroot, hdirects⟩ := SearchOptions.directs_of_prepare hvalid hp
    refine ⟨_, _, _, hdirects, run_compile hs hroot, ?_⟩
    rw [run_of_prepare hc hs hp, Prepared.run, htimeout]
    rfl

/-! ## A search -/

def sampleQuery : QueryOptions :=
  { must := [⟨"message", "disk full"⟩]
    mustNot := [⟨"level", "DEBUG"⟩]
    should := []
    term := false
    fuzzy := true
    query := none
    safeQuery := none
    queryFields := [] }

/-- On nodes and in an index of its own. -/
def sampleSearch (sort : String) : SearchOptions :=
  { first := 20
    size := none
    sort := some sort
    descending := true
    index := some "audit"
    nodes := ["http://node-1:9200", "http://node-2:9200"] }

/-- Writes down what is sent, and never answers. -/
def recordPost (_ : UInt64) (p : Http.Post) : StateM (List Http.Post) Http.Reply := fun sent =>
  (.unreachable "connection refused", sent ++ [p])

theorem not_faulty_sampleSearch : ¬ (sampleSearch "level").Faulty sampleQuery .standard := by
  intro h
  cases h with
  | nodes _ hf =>
    have hok : ∃ t, Settings.validate { Settings.standard with nodes := (sampleSearch "level").nodes } =
        .ok t := ⟨_, by with_unfolding_all rfl⟩
    obtain ⟨t, ht⟩ := hok
    simp [ht] at hf
  | query hf =>
    have hok : (sampleQuery.group .standard).toOption.isSome = true := by decide +kernel
    simp [hf, Except.toOption] at hok
  | dateFormat hf =>
    have hok : (Pattern.ofText? Settings.standard.indexDateFormat).isSome = true := by decide +kernel
    obtain ⟨ps, hps⟩ := Option.isSome_iff_exists.1 hok
    exact hf ⟨ps, Pattern.spells_of_ofChars? hps⟩
  | sort hname hf =>
    obtain rfl := Option.some.inj hname
    have hok : (Field.resolve? "level").isSome = true := by decide +kernel
    simp [hf] at hok

theorem run_sampleSearch :
    (∃ f, run recordPost Sample.baseTime ⟨none, none, []⟩
      ⟨none, none, .search sampleQuery (sampleSearch "nowhere")⟩ = pure (.error f)) ∧
    ∃ nodes r query, (sampleSearch "level").Directs .standard Sample.baseTime query nodes r ∧
      run recordPost Sample.baseTime ⟨none, none, []⟩ ⟨none, none, .compile sampleQuery⟩ =
        pure (.ok ⟨[query.toPretty], none⟩) ∧
      run recordPost Sample.baseTime ⟨none, none, []⟩
          ⟨none, none, .search sampleQuery (sampleSearch "level")⟩ =
        (do
          let result ← Http.search (recordPost Settings.standard.requestTimeoutSecs) nodes r
          pure (reportOf result)) := by
  have hload : ∀ c, Invocation.settings ⟨none, none, c⟩ ⟨none, none, []⟩ = .ok Settings.standard :=
    fun c => by with_unfolding_all rfl
  constructor
  · refine (run_search_directs rfl (hload _) recordPost Sample.baseTime).1 (.sort rfl ?_)
    decide +kernel
  · exact (run_search_directs rfl (hload _) recordPost Sample.baseTime).2 not_faulty_sampleSearch

end CommandLine

end LogQuery
