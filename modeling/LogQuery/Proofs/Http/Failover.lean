import LogQuery.Http.Transport
import LogQuery.Proofs.Computations

/-!
# Which nodes are asked

A search is run against nodes that may answer as they like. It amounts to a list of attempts, one for each
of the first entries of the list of nodes and in their order: all but the last came to nothing, and the last
one either settles the search or is that of the last entry. What the nodes receive is what these attempts
post and nothing else: the same body each time, with the configured credentials behind those that the address
of the node has of its own (`search_eq_iff`). So one node can be told of a user that the next one is not
told of (`search_names_user`).

A node whose address cannot be read is tried and settles the search, but receives nothing.
-/

namespace LogQuery.Http

/-! ## What a reply means -/

/-- There was no connection, or no answer in time. -/
def Reply.Unreachable (x : Reply) : Prop := ∃ reason, x = .unreachable reason

/-- The text of an error says, for this reason, that a strict query string of the query is malformed. -/
def Refuses (query : Clause) (status : Nat) (text reason : String) : Prop :=
  status = 400 ∧ query.hasStrict = true ∧
    ∃ answer, Json.parse? text = some answer ∧ ErrorTree.unreadableReason? answer = some reason

theorem faultOf_of_refuses {query : Clause} {status : Nat} {text reason : String}
    (h : Refuses query status text reason) :
    faultOf query.hasStrict status text = .malformedQuery reason := by
  obtain ⟨hs, hq, answer, hj, hr⟩ := h
  simp [faultOf, hs, hq, hj, hr]

theorem faultOf_of_not_refuses {query : Clause} {status : Nat} {text : String}
    (h : ∀ reason, ¬ Refuses query status text reason) :
    faultOf query.hasStrict status text = .backend status text := by
  unfold faultOf
  split
  · next reason hr =>
    split at hr
    · next hs =>
      obtain ⟨answer, hj, hr⟩ := Option.bind_eq_some_iff.1 hr
      exact absurd ⟨hs.1, hs.2, answer, hj, hr⟩ (h reason)
    · cases hr
  · rfl

/-- What the reply of a node that could be reached means for a query. -/
inductive Reply.Means (query : Clause) : Reply → SearchResult → Prop
  /-- A success whose body is a page. -/
  | page {status : Nat} {body : Body} {p : Page} : 200 ≤ status → status < 300 →
    pageOf? (received status body) = some p → Means query (.answered status body) (.ok p)
  | undecodable {status : Nat} {body : Body} : 200 ≤ status → status < 300 →
    pageOf? (received status body) = none →
    Means query (.answered status body) (.error (.undecodable "error decoding response body"))
  | malformed {status : Nat} {body : Body} {reason : String} : status < 200 ∨ 300 ≤ status →
    Refuses query status (errorText (received status body)) reason →
    Means query (.answered status body) (.error (.malformedQuery reason))
  /-- Any other answer that is no success. -/
  | backend {status : Nat} {body : Body} : status < 200 ∨ 300 ≤ status →
    (∀ reason, ¬ Refuses query status (errorText (received status body)) reason) →
    Means query (.answered status body) (.error (.backend status (errorText (received status body))))
  | broken {reason : String} : Means query (.broken reason) (.error (.http reason))

theorem isSuccess_eq_false {status : Nat} (h : status < 200 ∨ 300 ≤ status) : isSuccess status = false := by
  simp only [isSuccess, Bool.and_eq_false_iff, decide_eq_false_iff_not]
  omega

theorem Reply.outcome_of_means {query : Clause} {x : Reply} {result : SearchResult}
    (h : x.Means query result) : x.outcome query = .settled result := by
  cases h with
  | page h₁ h₂ hp => simp [outcome, resultOf, isSuccess, h₁, h₂, hp]
  | undecodable h₁ h₂ hp => simp [outcome, resultOf, isSuccess, h₁, h₂, hp]
  | malformed hs hr => simp [outcome, resultOf, isSuccess_eq_false hs, faultOf_of_refuses hr]
  | backend hs hr => simp [outcome, resultOf, isSuccess_eq_false hs, faultOf_of_not_refuses hr]
  | broken => rfl

/-- A reply that does not come from an unreachable node means something. -/
theorem Reply.unreachable_or_means (query : Clause) (x : Reply) :
    x.Unreachable ∨ ∃ result, x.Means query result := by
  cases x with
  | unreachable reason => exact .inl ⟨reason, rfl⟩
  | broken reason => exact .inr ⟨_, .broken⟩
  | answered status body =>
    refine .inr ?_
    by_cases hs : 200 ≤ status ∧ status < 300
    · cases hp : pageOf? (received status body) with
      | some p => exact ⟨_, .page hs.1 hs.2 hp⟩
      | none => exact ⟨_, .undecodable hs.1 hs.2 hp⟩
    · have hs : status < 200 ∨ 300 ≤ status := by omega
      by_cases hr : ∃ reason, Refuses query status (errorText (received status body)) reason
      · obtain ⟨reason, hr⟩ := hr
        exact ⟨_, .malformed hs hr⟩
      · exact ⟨_, .backend hs fun reason h => hr ⟨reason, h⟩⟩

/-! ## Attempts -/

/-- An entry of the list of nodes that was tried, and what came of it. -/
structure Attempt where
  node : String
  reply : Reply

section
variable (credentials : Option Credentials) (r : SearchRequest)

/-- What the node of an attempt receives and answers; nothing if its address cannot be read. -/
def Attempt.exchange? (a : Attempt) : Option (Post × Reply) :=
  (post? credentials r a.node).map fun p => (p, a.reply)

/-- What the nodes of some attempts receive and answer, in order. -/
def exchanges (as : List Attempt) : Dialogue Post Reply := as.filterMap (Attempt.exchange? credentials r)

/-- What trying a node comes to, after what was said before. -/
def replyFrom (w : FarSide Post Reply) (past : Dialogue Post Reply) (node : String) : Reply :=
  match post? credentials r node with
  | some p => w.answer past p
  | none => .broken "builder error"

/-- The attempts came, one after another, to what the far side makes of them. -/
def Occur (w : FarSide Post Reply) : Dialogue Post Reply → List Attempt → Prop
  | _, [] => True
  | past, a :: as =>
    a.reply = replyFrom credentials r w past a.node ∧ Occur w (past ++ exchanges credentials r [a]) as

/-- What may be posted in some attempts: to the address of one of the nodes, always the same body, and the same
credentials behind those of the address. -/
structure Posted (as : List Attempt) (p : Post) : Prop where
  body : p.body = r.body
  authorizations : p.authorizations = p.url.authorizations ++ (credentials.map Credentials.header).toList
  url : ∃ a ∈ as, Url.parse? (searchAddress a.node r.index) = some p.url

end

/-- The attempts, with these entries of the list still untried, end the search with this result. -/
inductive Concludes (query : Clause) : List Attempt → List String → SearchResult → Prop
  /-- A node that could be reached settles the search, whatever comes after it. -/
  | settled {unreached : List Attempt} {a : Attempt} {untried : List String} {result : SearchResult} :
    (∀ u ∈ unreached, u.reply.Unreachable) → a.reply.Means query result →
    Concludes query (unreached ++ [a]) untried result
  /-- No node could be reached; the last one says why. -/
  | exhausted {unreached : List Attempt} {a : Attempt} {reason : String} :
    (∀ u ∈ unreached, u.reply.Unreachable) → a.reply = .unreachable reason →
    Concludes query (unreached ++ [a]) [] (.error (.http ("no search node reachable: " ++ reason)))

namespace Concludes

variable {query : Clause} {a : Attempt} {tried : List Attempt} {untried : List String} {result : SearchResult}

theorem single (h : a.reply.Means query result) : Concludes query [a] untried result := by
  rw [← List.nil_append [a]]
  exact settled (by simp) h

theorem cons (ha : a.reply.Unreachable) (h : Concludes query tried untried result) :
    Concludes query (a :: tried) untried result := by
  cases h with
  | settled hu hm =>
    rw [← List.cons_append]
    exact settled (List.forall_mem_cons.2 ⟨ha, hu⟩) hm
  | exhausted hu hr =>
    rw [← List.cons_append]
    exact exhausted (List.forall_mem_cons.2 ⟨ha, hu⟩) hr

end Concludes

section
variable {w : FarSide Post Reply} {credentials : Option Credentials} {r : SearchRequest}
  {past : Dialogue Post Reply}

theorem exchanges_append (as bs : List Attempt) :
    exchanges credentials r (as ++ bs) = exchanges credentials r as ++ exchanges credentials r bs :=
  List.filterMap_append

theorem occur_append {as bs : List Attempt} :
    Occur credentials r w past (as ++ bs) ↔
      Occur credentials r w past as ∧ Occur credentials r w (past ++ exchanges credentials r as) bs := by
  induction as generalizing past with
  | nil => simp [Occur, exchanges]
  | cons a as ih =>
    have hx : exchanges credentials r (a :: as) =
        exchanges credentials r [a] ++ exchanges credentials r as := exchanges_append [a] as
    rw [List.cons_append, Occur, Occur, ih, hx, List.append_assoc, and_assoc]

theorem posted_of_mem_exchanges {as : List Attempt} {x : Post × Reply}
    (h : x ∈ exchanges credentials r as) : Posted credentials r as x.1 := by
  obtain ⟨a, ha, hx⟩ := List.mem_filterMap.1 h
  obtain ⟨p, hp, rfl⟩ := Option.map_eq_some_iff.1 hx
  obtain ⟨url, hurl, rfl⟩ := Option.map_eq_some_iff.1 hp
  exact ⟨rfl, rfl, a, ha, hurl⟩

/-! ## Running the search -/

/-- Trying one node: its reply is acted on, and what it received is written down. -/
theorem run_tryNode (node : String) :
    (tryNode w.ask credentials r node).run past =
      ((replyFrom credentials r w past node).outcome r.query,
        past ++ exchanges credentials r [⟨node, replyFrom credentials r w past node⟩]) := by
  unfold tryNode replyFrom exchanges
  cases h : post? credentials r node with
  | none => simp [Attempt.exchange?, h, Reply.outcome]; rfl
  | some p => simp [Attempt.exchange?, h, FarSide.run_ask]; rfl

/-- The loop acts on what trying its first node came to. -/
theorem run_searchNodes_cons {a : Attempt} (ha : a.reply = replyFrom credentials r w past a.node)
    (rest : List String) (last : String) :
    (searchNodes (tryNode w.ask credentials r) (a.node :: rest) last).run past =
      match a.reply.outcome r.query with
      | .settled result => (result, past ++ exchanges credentials r [a])
      | .unreachable reason =>
        (searchNodes (tryNode w.ask credentials r) rest reason).run (past ++ exchanges credentials r [a]) := by
  have hr : (tryNode w.ask credentials r a.node).run past =
      (a.reply.outcome r.query, past ++ exchanges credentials r [a]) := by
    rw [run_tryNode, ← ha]
  rw [searchNodes, StateT.run_bind, hr]
  cases a.reply.outcome r.query with
  | settled result => rfl
  | unreachable reason => rfl

/-- Nodes that cannot be reached are passed over. -/
theorem run_unreached {unreached : List Attempt} (ho : Occur credentials r w past unreached)
    (hu : ∀ u ∈ unreached, u.reply.Unreachable) (rest : List String) (last : String) :
    ∃ last', (searchNodes (tryNode w.ask credentials r) (unreached.map Attempt.node ++ rest) last).run past =
      (searchNodes (tryNode w.ask credentials r) rest last').run
        (past ++ exchanges credentials r unreached) := by
  induction unreached generalizing past last with
  | nil => exact ⟨last, by simp [exchanges]⟩
  | cons u us ih =>
    obtain ⟨reason, hreason⟩ := hu u List.mem_cons_self
    obtain ⟨last', hlast⟩ := ih ho.2 (fun v hv => hu v (List.mem_cons_of_mem _ hv)) reason
    refine ⟨last', ?_⟩
    have hx : exchanges credentials r (u :: us) =
        exchanges credentials r [u] ++ exchanges credentials r us := exchanges_append [u] us
    rw [List.map_cons, List.cons_append, run_searchNodes_cons ho.1, hreason, hx, ← List.append_assoc]
    exact hlast

/-- Attempts that conclude a search are all that it does. -/
theorem run_of_concludes {tried : List Attempt} {untried : List String} {result : SearchResult}
    (ho : Occur credentials r w past tried) (hc : Concludes r.query tried untried result) (last : String) :
    (searchNodes (tryNode w.ask credentials r) (tried.map Attempt.node ++ untried) last).run past =
      (result, past ++ exchanges credentials r tried) := by
  cases hc with
  | @settled unreached a _ _ hu hm =>
    obtain ⟨ho, ha⟩ := occur_append.1 ho
    obtain ⟨last', h⟩ := run_unreached ho hu (a.node :: untried) last
    rw [List.map_append, List.append_assoc, List.map_singleton, List.singleton_append, h,
      run_searchNodes_cons ha.1, Reply.outcome_of_means hm, exchanges_append, List.append_assoc]
  | @exhausted unreached a reason hu hr =>
    obtain ⟨ho, ha⟩ := occur_append.1 ho
    obtain ⟨last', h⟩ := run_unreached ho hu [a.node] last
    rw [List.append_nil, List.map_append, List.map_singleton, h, run_searchNodes_cons ha.1, hr,
      exchanges_append, ← List.append_assoc]
    rfl

/-- Whatever the nodes do, some attempts occur: all of them fail, or the last one is the first that does
not. -/
theorem exists_attempts (query : Clause) (nodes : List String) (past : Dialogue Post Reply) :
    ∃ tried untried, nodes = tried.map Attempt.node ++ untried ∧ Occur credentials r w past tried ∧
      ((untried = [] ∧ ∀ u ∈ tried, u.reply.Unreachable) ∨
        ∃ result, Concludes query tried untried result) := by
  induction nodes generalizing past with
  | nil => exact ⟨[], [], rfl, trivial, .inl ⟨rfl, by simp⟩⟩
  | cons node rest ih =>
    generalize hx : replyFrom credentials r w past node = x
    rcases x.unreachable_or_means query with hu | ⟨result, hm⟩
    · obtain ⟨tried, untried, rfl, ho, hend⟩ := ih (past ++ exchanges credentials r [⟨node, x⟩])
      refine ⟨⟨node, x⟩ :: tried, untried, rfl, ⟨hx.symm, ho⟩, ?_⟩
      rcases hend with ⟨h, hall⟩ | ⟨result, hc⟩
      · exact .inl ⟨h, List.forall_mem_cons.2 ⟨hu, hall⟩⟩
      · exact .inr ⟨result, hc.cons hu⟩
    · exact ⟨[⟨node, x⟩], rest, rfl, ⟨hx.symm, trivial⟩, .inr ⟨result, .single hm⟩⟩

/-- There is always a conclusion, as the list of nodes is not empty. -/
theorem exists_conclusion (w : FarSide Post Reply) (nodes : Nodes) (r : SearchRequest)
    (past : Dialogue Post Reply) :
    ∃ tried untried result, nodes.addresses = tried.map Attempt.node ++ untried ∧
      Occur nodes.credentials r w past tried ∧ Concludes r.query tried untried result := by
  obtain ⟨tried, untried, hn, ho, ⟨rfl, hu⟩ | ⟨result, hc⟩⟩ := exists_attempts r.query nodes.addresses past
  · rcases List.eq_nil_or_concat tried with rfl | ⟨us, a, rfl⟩
    · exact absurd hn nodes.nonempty
    · rw [List.concat_eq_append] at hn ho hu
      obtain ⟨hus, ha⟩ := List.forall_mem_append.1 hu
      obtain ⟨reason, hr⟩ := ha a List.mem_cons_self
      exact ⟨us ++ [a], [], _, hn, ho, .exhausted hus hr⟩
  · exact ⟨tried, untried, result, hn, ho, hc⟩

end

/-- Whatever the nodes do, a search comes to a result by some attempts at the first entries of the list. -/
theorem exists_run_search (w : FarSide Post Reply) (nodes : Nodes) (r : SearchRequest)
    (past : Dialogue Post Reply) :
    ∃ tried untried result, nodes.addresses = tried.map Attempt.node ++ untried ∧
      (search w.ask nodes r).run past = (result, past ++ exchanges nodes.credentials r tried) := by
  obtain ⟨tried, untried, result, haddresses, hoccur, hconcludes⟩ := exists_conclusion w nodes r past
  refine ⟨tried, untried, result, haddresses, ?_⟩
  rw [search, haddresses]
  exact run_of_concludes hoccur hconcludes ""

/-- **A search asks the nodes in their order until one can be reached, and no further** (`HttpTransport::search`).
It comes to `result`, and to `log` after `past`, just if some attempts at the first entries of the list occur,
conclude the search with this result, and are all that is added to what was said. In each exchange the body is the
same, and so are the credentials but for those that the address has of its own. Neither the entries left untried nor
what they would answer has a say. -/
theorem search_eq_iff (w : FarSide Post Reply) (nodes : Nodes) (r : SearchRequest)
    (past log : Dialogue Post Reply) (result : SearchResult) :
    (search w.ask nodes r).run past = (result, log) ↔
      ∃ tried untried, nodes.addresses = tried.map Attempt.node ++ untried ∧
        Occur nodes.credentials r w past tried ∧ Concludes r.query tried untried result ∧
        log = past ++ exchanges nodes.credentials r tried ∧
        ∀ x ∈ exchanges nodes.credentials r tried, Posted nodes.credentials r tried x.1 := by
  constructor
  · intro h
    obtain ⟨tried, untried, result', hn, ho, hc⟩ := exists_conclusion w nodes r past
    have hrun := run_of_concludes ho hc ""
    rw [← hn] at hrun
    obtain ⟨rfl, rfl⟩ := Prod.mk.inj (hrun.symm.trans h)
    exact ⟨tried, untried, hn, ho, hc, rfl, fun x hx => posted_of_mem_exchanges hx⟩
  · rintro ⟨tried, untried, hn, ho, hc, rfl, -⟩
    rw [search, hn]
    exact run_of_concludes ho hc ""

/-- The first request is not answered in time, any other one is by a page without hits. -/
def lateFirst : FarSide Post Reply :=
  ⟨fun past _ => if past.isEmpty then .unreachable "operation timed out" else .answered 200 (.text "\x7b\x7d")⟩

/-- Not all nodes are sent the same credentials: an address can name a user, and none but this node hears of it. -/
theorem search_names_user :
    ∃ nodes result x y,
      Nodes.create ["http://alice:pw@127.0.0.1:9201", "http://127.0.0.1:9200"] none = .ok nodes ∧
        (search lateFirst.ask nodes (.of "ea_log_day" .everything)).run [] = (result, [x, y]) ∧
        x.1.authorizations = ["Basic YWxpY2U6cHc="] ∧ y.1.authorizations = [] := by
  have hpost : ∀ node authorizations,
      (post? none (.of "ea_log_day" .everything) node).map Post.authorizations = some authorizations →
        ∃ p, post? none (.of "ea_log_day" .everything) node = some p ∧ p.authorizations = authorizations :=
    fun node authorizations => Option.map_eq_some_iff.1
  obtain ⟨p, hp, hasUser⟩ := hpost "http://alice:pw@127.0.0.1:9201" ["Basic YWxpY2U6cHc="] (by decide +kernel)
  obtain ⟨q, hq, hasNone⟩ := hpost "http://127.0.0.1:9200" [] (by decide +kernel)
  refine ⟨⟨["http://alice:pw@127.0.0.1:9201", "http://127.0.0.1:9200"], List.cons_ne_nil _ _, none⟩,
    resultOf .everything 200 (.text "\x7b\x7d"), (p, .unreachable "operation timed out"),
    (q, .answered 200 (.text "\x7b\x7d")), rfl, ?_, hasUser, hasNone⟩
  simp only [search, searchNodes, tryNode, hp, hq]
  rfl

end LogQuery.Http
