import LogQuery.Proofs.CommandLine.Searching
import LogQuery.Proofs.Http.Authorization

/-!
# Options in place of settings

Options of a search can stand in for two things that the settings give: the nodes, and the name of the index
between the lead and the date. Settings are checked when they are loaded, and once more when options replace
the nodes; after an option has replaced the name of the index they are not. What is sent therefore goes to
addresses of the web, under settings without a fault but for one: their index can have a blank name, if an
option gives it (`run_search_checked`). No name is a fault of the options (`faulty_withIndex_iff`), and so a
search of an index with a blank name does reach the nodes (`sent_of_blankName`).
-/

namespace LogQuery

open LogQuery.Text

namespace Settings

variable {s : Settings}

/-- Settings without a fault: there are nodes, each an address of the web, the index has a name, pages have
hits, and a password has a user. -/
theorem fault?_eq_none_iff : s.fault? = none ↔
    s.nodes ≠ [] ∧ (∀ node ∈ s.nodes, isHttp node = true) ∧ allBlank s.indexName = false ∧
      s.defaultPageSize ≠ 0 ∧ (s.password.isSome = true → s.username.isSome = true) := by
  unfold fault?
  cases hfind : s.nodes.find? fun node => !isHttp node with
  | some node =>
    have hmem := List.mem_of_find?_eq_some hfind
    have hnode : isHttp node = false := by simpa using List.find?_some hfind
    grind
  | none =>
    have hall : ∀ node ∈ s.nodes, isHttp node = true := by simpa using hfind
    have huser : s.username.isNone = !s.username.isSome := (Option.not_isSome s.username).symm
    grind

/-- Another name for the index brings one fault at most. -/
theorem fault?_withIndexName (h : s.fault? = none) (name : String) :
    ({ s with indexName := name } : Settings).fault? =
      if allBlank name then some .blankIndexName else none := by
  obtain ⟨hnodes, hhttp, -, hsize, huser⟩ := fault?_eq_none_iff.1 h
  split
  · next hblank =>
    have hfind : (s.nodes.find? fun node => !isHttp node) = none := by simpa using hhttp
    simp [fault?, hnodes, hfind, hblank]
  · next hname => exact fault?_eq_none_iff.2 ⟨hnodes, hhttp, by simpa using hname, hsize, huser⟩

end Settings

namespace CommandLine

namespace SearchOptions

variable {o : SearchOptions} {q : QueryOptions} {s : Settings} {now : Instant} {nodes : Http.Nodes}
  {r : SearchRequest} {query : Json}

/-- The settings that a search uses, with what the options put in their place. -/
def effective (o : SearchOptions) (s : Settings) : Settings :=
  { s with nodes := o.nodesOr s, indexName := o.index.getD s.indexName }

theorem Faulty.withIndex (h : o.Faulty q s) (name : Option String) :
    ({ o with index := name } : SearchOptions).Faulty q s := by
  cases h with
  | nodes hne hf => exact .nodes hne hf
  | query hf => exact .query hf
  | dateFormat hf => exact .dateFormat hf
  | sort hname hf => exact .sort hname hf

/-- No name of an index is a fault of the options, and none makes up for one. -/
theorem faulty_withIndex_iff (o : SearchOptions) (name : Option String) :
    ({ o with index := name } : SearchOptions).Faulty q s ↔ o.Faulty q s :=
  ⟨fun h => h.withIndex o.index, fun h => h.withIndex name⟩

/-- The settings in use have one fault at most: a blank name of the index, which an option gives. -/
theorem validate_effective (hs : s.fault? = none)
    (hnodes : ({ s with nodes := o.nodesOr s } : Settings).fault? = none) :
    ((∀ name, o.index = some name → allBlank name = false) →
      (o.effective s).validate = .ok (o.effective s)) ∧
    (∀ name, o.index = some name → allBlank name = true →
      (o.effective s).validate = .error .blankIndexName) := by
  have hfault : (o.effective s).fault? =
      if allBlank (o.index.getD s.indexName) then some .blankIndexName else none :=
    Settings.fault?_withIndexName hnodes (o.index.getD s.indexName)
  have hname : allBlank s.indexName = false := (Settings.fault?_eq_none_iff.1 hs).2.2.1
  constructor
  · intro h
    have hgiven : allBlank (o.index.getD s.indexName) = false := by
      cases hindex : o.index with
      | none => exact hname
      | some name => exact h name hindex
    rw [hgiven] at hfault
    exact Settings.validate_eq_ok_iff.2 ⟨hfault, rfl⟩
  · intro name hindex hblank
    rw [hindex, Option.getD_some, hblank] at hfault
    simp [Settings.validate, hfault]

/-- What is posted by a search under settings: to the index of theirs at one of their nodes, with their
credentials behind those of its address, and for a page of theirs where the options set none. -/
structure PostedUnder (o : SearchOptions) (t : Settings) (now : Instant) (p : Http.Post) : Prop where
  url : ∃ node ∈ t.nodes, Settings.isHttp node = true ∧
    ∃ x, LogIndex.create t.indexLead t.indexName t.indexDateFormat now = .ok x ∧
      Http.Url.parse? (Http.searchAddress node x.name) = some p.url
  authorizations : p.authorizations =
    p.url.authorizations ++ ((Http.Credentials.ofSettings? t).map Http.Credentials.header).toList
  size : p.body.member? "size" = some (.int (o.size.getD t.defaultPageSize).toNat)

/-- What the request of the options posts, it posts under the settings in use. -/
theorem postedUnder_effective (h : o.Directs s now query nodes r)
    (hnodes : ({ s with nodes := o.nodesOr s } : Settings).fault? = none) {tried : List Http.Attempt}
    {untried : List String} (haddresses : nodes.addresses = tried.map Http.Attempt.node ++ untried)
    {e : Http.Post × Http.Reply} (he : e ∈ Http.exchanges nodes.credentials r tried) :
    o.PostedUnder (o.effective s) now e.1 := by
  obtain ⟨hbody, hauthorizations, a, ha, hurl⟩ := Http.posted_of_mem_exchanges he
  have hmem : a.node ∈ o.nodesOr s := by
    rw [← h.addresses, haddresses]
    exact List.mem_append_left _ (List.mem_map_of_mem ha)
  obtain ⟨x, hx, hindex⟩ := h.index
  rw [hindex] at hurl
  rw [h.credentials] at hauthorizations
  refine ⟨⟨a.node, hmem, (Settings.fault?_eq_none_iff.1 hnodes).2.1 a.node hmem, x, hx, hurl⟩,
    hauthorizations, ?_⟩
  rw [hbody]
  exact h.size

end SearchOptions

variable {now : Instant} {sources : SettingsSources} {i : Invocation} {q : QueryOptions} {o : SearchOptions}
  {s : Settings}

/-- **What is sent is sent under checked settings, but for the name of an index** (`handle_search`). When a search
sends anything, then to addresses of the web that are nodes of the settings in use; those pass the check just if the
options do not give the index a blank name, and have no other fault then. -/
theorem run_search_checked (hc : i.command = .search q o) (hs : i.settings sources = .ok s)
    (w : UInt64 → FarSide Http.Post Http.Reply) (now : Instant) (past : Dialogue Http.Post Http.Reply) :
    ∃ result posts, (run (fun secs => (w secs).ask) now sources i).run past = (result, past ++ posts) ∧
      ∀ e ∈ posts, o.PostedUnder (o.effective s) now e.1 ∧
        ((∀ name, o.index = some name → allBlank name = false) →
          (o.effective s).validate = .ok (o.effective s)) ∧
        (∀ name, o.index = some name → allBlank name = true →
          (o.effective s).validate = .error .blankIndexName) := by
  have hvalid := Invocation.fault?_of_settings hs
  cases hp : prepare now s q o with
  | error f =>
    -- What is not ready sends nothing.
    have h : (i.settings sources >>= fun s => prepare now s q o) = .error f := by
      rw [hs]
      exact hp
    refine ⟨.error f, [], ?_, by simp⟩
    rw [run_of_prepare_error _ now sources i q o f hc h, List.append_nil]
    rfl
  | ok p =>
    obtain ⟨t, ht, -⟩ := SearchOptions.prepare_eq_ok_iff.1 hp
    have hnodes := ((SearchOptions.settings_eq_ok_iff hvalid).1 ht).1
    obtain ⟨htimeout, root, -, hdirects⟩ := SearchOptions.directs_of_prepare hvalid hp
    obtain ⟨tried, untried, result, haddresses, hsearch⟩ :=
      Http.exists_run_search (w s.requestTimeoutSecs) p.nodes (p.query.preparePage p.first p.size) past
    refine ⟨reportOf result, Http.exchanges p.nodes.credentials (p.query.preparePage p.first p.size) tried, ?_,
      fun e he => ⟨SearchOptions.postedUnder_effective hdirects hnodes haddresses he,
        SearchOptions.validate_effective hvalid hnodes⟩⟩
    rw [run_of_prepare hc hs hp, Prepared.run, htimeout]
    simp only [BooleanQuery.runPage, StateT.run_bind, hsearch]
    rfl

/-- Where nothing is configured, the standard settings are loaded. -/
theorem settings_of_nothing (c : Command) :
    Invocation.settings ⟨none, none, c⟩ ⟨none, none, []⟩ = .ok Settings.standard := by
  with_unfolding_all rfl

/-- The same search in an index whose name is a blank. -/
def blankSearch : SearchOptions := { sampleSearch "level" with index := some " " }

theorem run_sampleSearch_checked :
    ∃ result posts, (run (fun _ => Http.noAnswer.ask) Sample.baseTime ⟨none, none, []⟩
        ⟨none, none, .search sampleQuery (sampleSearch "level")⟩).run [] = (result, posts) ∧ posts ≠ [] ∧
      ((sampleSearch "level").effective .standard).validate =
        .ok ((sampleSearch "level").effective .standard) := by
  obtain ⟨result, posts, hrun, hposts⟩ :=
    run_search_checked rfl (settings_of_nothing _) (fun _ => Http.noAnswer) Sample.baseTime []
  have hsent : ((run (fun _ => Http.noAnswer.ask) Sample.baseTime ⟨none, none, []⟩
      ⟨none, none, .search sampleQuery (sampleSearch "level")⟩).run []).2.isEmpty = false := by
    decide +kernel
  rw [hrun] at hsent
  cases posts with
  | nil => cases hsent
  | cons e posts =>
    refine ⟨result, e :: posts, hrun, List.cons_ne_nil e posts, (hposts e List.mem_cons_self).2.1 ?_⟩
    intro name hname
    obtain rfl : "audit" = name := Option.some.inj hname
    decide +kernel

/-- The settings in use would not pass the check, and still nodes are asked. -/
theorem sent_of_blankName :
    Invocation.settings ⟨none, none, .search sampleQuery blankSearch⟩ ⟨none, none, []⟩ =
        .ok Settings.standard ∧
      (blankSearch.effective .standard).validate = .error .blankIndexName ∧
      ∃ result e posts, (run (fun _ => Http.noAnswer.ask) Sample.baseTime ⟨none, none, []⟩
        ⟨none, none, .search sampleQuery blankSearch⟩).run [] = (result, e :: posts) := by
  refine ⟨settings_of_nothing _, by with_unfolding_all rfl, ?_⟩
  have hsent : ((run (fun _ => Http.noAnswer.ask) Sample.baseTime ⟨none, none, []⟩
      ⟨none, none, .search sampleQuery blankSearch⟩).run []).2.isEmpty = false := by
    decide +kernel
  generalize (run (fun _ => Http.noAnswer.ask) Sample.baseTime ⟨none, none, []⟩
    ⟨none, none, .search sampleQuery blankSearch⟩).run [] = out at hsent ⊢
  obtain ⟨result, posts⟩ := out
  cases posts with
  | nil => cases hsent
  | cons e posts => exact ⟨result, e, posts, rfl⟩

end CommandLine

end LogQuery
