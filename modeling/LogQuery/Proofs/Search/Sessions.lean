import LogQuery.Proofs.Search.FlatSearch
import LogQuery.Search.Sample

/-!
# Sessions

A client and its copies start queries and flat searches and compute the names of their indices again, and
what was started is changed and run later, all in any order. Clients are numbered in the order in which they
were made, and what they start in the order in which it was started; an act on what is not there does
nothing. The far side is told which search a request belongs to, so that the dialogue shows it.

Every search keeps the index that its client had when it was started. One call keeps it
(`targets_callQuery`, `targets_callFlat`), so one act of a session does (`targets_next`), and so all acts do
(`StartedUnder.targets`). Main statement: whatever was done in between, requests go to that index
(`index_of_sent`).
-/

namespace LogQuery

/-! ## What clients start -/

/-- A search that a client has started. -/
inductive Started where
  | query (q : BooleanQuery)
  | flat (s : SimplifiedSearch)
  /-- A query of which a call was refused. The call has used it up. -/
  | spent

namespace Started

/-- Runs the search, a query for a page if there is one; a flat search has its own. -/
def run {m : Type → Type} [Monad m] (t : Transport m) (page : Option (UInt32 × UInt32)) :
    Started → m (Option SearchResult)
  | query q =>
    match page with
    | some (first, size) => some <$> q.runPage t first size
    | none => some <$> q.run t
  | flat s => some <$> s.run t
  | spent => pure none

def callQuery (c : QueryCall) : Started → Started
  | query q =>
    match c.apply q with
    | .ok q' => query q'
    | .error _ => spent
  | x => x

def callFlat (c : FlatCall) : Started → Started
  | flat s => flat (s.after c)
  | x => x

/-- Only queries can be copied. -/
def copy? : Started → Option Started
  | query q => some (query q)
  | _ => none

/-- The request that running the search sends. -/
def request? (page : Option (UInt32 × UInt32)) : Started → Option SearchRequest
  | query q =>
    match page with
    | some (first, size) => some (q.preparePage first size)
    | none => some q.prepare
  | flat s => s.request?
  | spent => none

/-- The search is for the index with this name, and stays so. -/
def Targets (name : String) : Started → Prop
  | query q => q.index = name
  | flat s => s.client.index.name = name ∧ ∀ q, s.query = some q → q.index = name
  | spent => True

end Started

/-! ## Acts -/

/-- What can be done with a client, its copies, and what they have started. -/
inductive SessionAct where
  | recalculate (client : Nat) (t : Instant)
  | copyClient (client : Nat)
  | startQuery (client : Nat)
  | startFlat (client : Nat)
  | copyQuery (search : Nat)
  | callQuery (search : Nat) (c : QueryCall)
  | callFlat (search : Nat) (c : FlatCall)
  | run (search : Nat) (page : Option (UInt32 × UInt32))

structure Session where
  clients : List SearchClient
  started : List Started

/-- Requests with the numbers of their searches, and the answers to them. -/
abbrev SessionDialogue := Dialogue (Nat × SearchRequest) SearchResult

namespace Session

def ofClient (c : SearchClient) : Session := ⟨[c], []⟩

/-- The session after one act. Running a search leaves it as it is. -/
def next (s : Session) : SessionAct → Session
  | .recalculate i t => { s with clients := s.clients.modify i (SearchClient.recalculate t) }
  | .copyClient i => { s with clients := s.clients ++ s.clients[i]?.toList }
  | .startQuery i => { s with started := s.started ++ (s.clients[i]?.map fun c => .query c.query).toList }
  | .startFlat i => { s with started := s.started ++ (s.clients[i]?.map fun c => .flat (.ofClient c)).toList }
  | .copyQuery j => { s with started := s.started ++ (s.started[j]?.bind Started.copy?).toList }
  | .callQuery j c => { s with started := s.started.modify j (Started.callQuery c) }
  | .callFlat j c => { s with started := s.started.modify j (Started.callFlat c) }
  | .run _ _ => s

def after (s : Session) (acts : List SessionAct) : Session := acts.foldl next s

/-- Runs the search that an act runs, if there is one. -/
def send (w : FarSide (Nat × SearchRequest) SearchResult) (s : Session) :
    SessionAct → StateM SessionDialogue (Option SearchResult)
  | .run j page =>
    match s.started[j]? with
    | some x => x.run (fun r => w.ask (j, r)) page
    | none => pure none
  | _ => pure none

/-- Performs an act, whatever is answered if it runs a search. -/
def perform (w : FarSide (Nat × SearchRequest) SearchResult) (s : Session) (a : SessionAct) :
    StateM SessionDialogue Session := do
  let _ ← s.send w a
  return s.next a

def performAll (w : FarSide (Nat × SearchRequest) SearchResult) (s : Session) (acts : List SessionAct) :
    StateM SessionDialogue Session :=
  acts.foldlM (perform w) s

/-- The request that an act sends, with the number of its search. -/
def sent? (s : Session) : SessionAct → Option (Nat × SearchRequest)
  | .run j page => (s.started[j]?.bind (Started.request? page)).map fun r => (j, r)
  | _ => none

end Session

/-! ## Searches keep their index -/

theorem TreeCall.index_onQuery {q q' : BooleanQuery} {c : TreeCall} (h : c.onQuery q = .ok q') :
    q'.index = q.index := by
  rw [onQuery_eq] at h
  cases hg : c.onGroup q.root with
  | error e => simp [hg, Except.map] at h
  | ok g =>
    simp only [hg, Except.map, Except.ok.injEq] at h
    rw [← h]
    rfl

theorem QueryCall.index_apply {q q' : BooleanQuery} {c : QueryCall} (h : c.apply q = .ok q') :
    q'.index = q.index := by
  cases c with
  | tree c => exact c.index_onQuery h
  | sort c =>
    obtain rfl := Except.ok.inj h
    cases c <;> rfl

theorem SimplifiedSearch.index_started {s : SimplifiedSearch} {name : String}
    (h : (Started.flat s).Targets name) : s.started.index = name := by
  obtain ⟨hclient, hquery⟩ := h
  rw [started]
  cases hq : s.query with
  | none => exact hclient
  | some q => exact hquery q hq

namespace Started

variable {name : String} {x : Started}

theorem targets_callQuery (c : QueryCall) (h : x.Targets name) : (x.callQuery c).Targets name := by
  cases x with
  | query q =>
    rw [callQuery]
    cases hq : c.apply q with
    | ok q' => exact (QueryCall.index_apply hq).trans h
    | error e => trivial
  | flat s => exact h
  | spent => exact h

/-- A reset starts over with the client that the search was started by, as it was then. -/
theorem targets_callFlat (c : FlatCall) (h : x.Targets name) : (x.callFlat c).Targets name := by
  cases x with
  | query q => exact h
  | spent => exact h
  | flat s =>
    rw [callFlat, SimplifiedSearch.after_eq]
    refine ⟨h.1, fun q hq => ?_⟩
    cases hk : c.condition? with
    | some k =>
      simp only [hk, Option.some.injEq] at hq
      rw [← hq]
      exact SimplifiedSearch.index_started h
    | none =>
      simp only [hk] at hq
      split at hq
      · rw [← Option.some.inj hq]
        exact h.1
      · exact h.2 q hq

theorem index_request? {page : Option (UInt32 × UInt32)} {r : SearchRequest} (h : x.Targets name)
    (hr : x.request? page = some r) : r.index = name := by
  cases x with
  | query q =>
    cases page <;> obtain rfl := Option.some.inj hr <;> exact h
  | flat s =>
    obtain ⟨q, hq, rfl⟩ := Option.map_eq_some_iff.1 hr
    have hindex := h.2 q hq
    cases s.page <;> exact hindex
  | spent => cases hr

end Started

namespace Session

/-- **One act** keeps what has been started, each for its index. -/
theorem targets_next {s : Session} {j : Nat} {x : Started} {name : String} (a : SessionAct)
    (hx : s.started[j]? = some x) (h : x.Targets name) :
    ∃ y, (s.next a).started[j]? = some y ∧ y.Targets name := by
  have hold : ∀ more, (s.started ++ more)[j]? = some x := fun more =>
    List.getElem?_append_left (List.getElem?_eq_some_iff.1 hx).1 ▸ hx
  have hmodify : ∀ (i : Nat) (f : Started → Started), (f x).Targets name →
      ∃ y, (s.started.modify i f)[j]? = some y ∧ y.Targets name := by
    intro i f hf
    by_cases hi : i = j
    · exact ⟨f x, by simp [hi, hx], hf⟩
    · exact ⟨x, by simp [hi, hx], h⟩
  cases a with
  | recalculate i t => exact ⟨x, hx, h⟩
  | copyClient i => exact ⟨x, hx, h⟩
  | startQuery i => exact ⟨x, hold _, h⟩
  | startFlat i => exact ⟨x, hold _, h⟩
  | copyQuery i => exact ⟨x, hold _, h⟩
  | callQuery i c => exact hmodify i _ (Started.targets_callQuery c h)
  | callFlat i c => exact hmodify i _ (Started.targets_callFlat c h)
  | run i page => exact ⟨x, hx, h⟩

theorem after_concat (s : Session) (acts : List SessionAct) (a : SessionAct) :
    s.after (acts ++ [a]) = (s.after acts).next a := List.foldl_concat ..

end Session

/-! ## The index at the start -/

open Session

/-- The search with this number was started when the index of its client had this name. A copy of a query
counts as started with it. -/
inductive StartedUnder (client : SearchClient) : List SessionAct → Nat → String → Prop
  | query {before : List SessionAct} {i : Nat} {c : SearchClient}
      (hc : ((ofClient client).after before).clients[i]? = some c) :
      StartedUnder client (before ++ [.startQuery i]) ((ofClient client).after before).started.length c.index.name
  | flat {before : List SessionAct} {i : Nat} {c : SearchClient}
      (hc : ((ofClient client).after before).clients[i]? = some c) :
      StartedUnder client (before ++ [.startFlat i]) ((ofClient client).after before).started.length c.index.name
  | copy {before : List SessionAct} {j : Nat} {q : BooleanQuery} {name : String}
      (hq : ((ofClient client).after before).started[j]? = some (.query q))
      (h : StartedUnder client before j name) :
      StartedUnder client (before ++ [.copyQuery j]) ((ofClient client).after before).started.length name
  | later {before : List SessionAct} {j : Nat} {name : String} (a : SessionAct)
      (h : StartedUnder client before j name) : StartedUnder client (before ++ [a]) j name

namespace StartedUnder

variable {client : SearchClient} {acts : List SessionAct} {j : Nat} {name : String}

/-- **All acts** keep what was started for its index. -/
theorem targets (h : StartedUnder client acts j name) :
    ∃ x, ((ofClient client).after acts).started[j]? = some x ∧ x.Targets name := by
  induction h with
  | @query before i c hc =>
    refine ⟨.query c.query, ?_, rfl⟩
    simp [after_concat, next, hc]
  | @flat before i c hc =>
    refine ⟨.flat (.ofClient c), ?_, rfl, fun q hq => ?_⟩
    · simp [after_concat, next, hc]
    · cases hq
  | @copy before j q name hq _ ih =>
    obtain ⟨x, hx, ht⟩ := ih
    obtain rfl : Started.query q = x := Option.some.inj (hq.symm.trans hx)
    refine ⟨.query q, ?_, ht⟩
    simp [after_concat, next, hq, Started.copy?]
  | later a _ ih =>
    obtain ⟨x, hx, ht⟩ := ih
    rw [after_concat]
    exact targets_next a hx ht

theorem append (h : StartedUnder client acts j name) (more : List SessionAct) :
    StartedUnder client (acts ++ more) j name := by
  induction more using List.reverseRecOn with
  | nil => rwa [List.append_nil]
  | append_singleton more a ih =>
    rw [← List.append_assoc]
    exact ih.later a

theorem lt_length (h : StartedUnder client acts j name) :
    j < ((ofClient client).after acts).started.length := by
  obtain ⟨x, hx, -⟩ := h.targets
  exact (List.getElem?_eq_some_iff.1 hx).1

/-- A search that was there before an act was started before it. -/
theorem of_concat {a : SessionAct} (h : StartedUnder client (acts ++ [a]) j name)
    (hj : j < ((ofClient client).after acts).started.length) : StartedUnder client acts j name := by
  generalize hacts : acts ++ [a] = all at h
  cases h with
  | later a' h =>
    obtain ⟨rfl, -⟩ := List.append_inj' hacts rfl
    exact h
  | query hc =>
    obtain ⟨rfl, -⟩ := List.append_inj' hacts rfl
    exact absurd hj (Nat.lt_irrefl _)
  | flat hc =>
    obtain ⟨rfl, -⟩ := List.append_inj' hacts rfl
    exact absurd hj (Nat.lt_irrefl _)
  | copy hq h =>
    obtain ⟨rfl, -⟩ := List.append_inj' hacts rfl
    exact absurd hj (Nat.lt_irrefl _)

end StartedUnder

/-- Everything that is there was started under some name. -/
theorem exists_startedUnder (client : SearchClient) {acts : List SessionAct} {j : Nat}
    (hj : j < ((ofClient client).after acts).started.length) : ∃ name, StartedUnder client acts j name := by
  induction acts using List.reverseRecOn generalizing j with
  | nil => exact absurd hj (Nat.not_lt_zero j)
  | append_singleton acts a ih =>
    by_cases hold : j < ((ofClient client).after acts).started.length
    · obtain ⟨name, h⟩ := ih hold
      exact ⟨name, h.later a⟩
    · -- The act has started the search with this number.
      have hlast : ∀ o : Option Started,
          j < (((ofClient client).after acts).started ++ o.toList).length →
            (∃ x, o = some x) ∧ ((ofClient client).after acts).started.length = j := by
        intro o ho
        cases o with
        | none => simp [hold] at ho
        | some x =>
          simp only [Option.toList_some, List.length_append, List.length_singleton] at ho
          exact ⟨⟨x, rfl⟩, by omega⟩
      rw [after_concat] at hj
      cases a with
      | startQuery i =>
        obtain ⟨⟨x, hx⟩, rfl⟩ := hlast _ hj
        obtain ⟨c, hc, -⟩ := Option.map_eq_some_iff.1 hx
        exact ⟨c.index.name, .query hc⟩
      | startFlat i =>
        obtain ⟨⟨x, hx⟩, rfl⟩ := hlast _ hj
        obtain ⟨c, hc, -⟩ := Option.map_eq_some_iff.1 hx
        exact ⟨c.index.name, .flat hc⟩
      | copyQuery i =>
        obtain ⟨⟨x, hx⟩, rfl⟩ := hlast _ hj
        obtain ⟨y, hy, hcopy⟩ := Option.bind_eq_some_iff.1 hx
        obtain ⟨name, h⟩ := ih (List.getElem?_eq_some_iff.1 hy).1
        cases y with
        | query q => exact ⟨name, .copy hy h⟩
        | _ => cases hcopy
      | callQuery i c => exact absurd (by simpa [next] using hj) hold
      | callFlat i c => exact absurd (by simpa [next] using hj) hold
      | _ => exact absurd hj hold

/-! ## Runs -/

theorem Started.run_ask (w : FarSide (Nat × SearchRequest) SearchResult) (j : Nat)
    (page : Option (UInt32 × UInt32)) (x : Started) (past : SessionDialogue) :
    ((x.run (fun r => w.ask (j, r)) page).run past).2 =
      past ++ (x.request? page).toList.map fun r => ((j, r), w.answer past (j, r)) := by
  cases x with
  | query q => cases page <;> rfl
  | flat s =>
    rw [run, request?, SimplifiedSearch.run]
    cases s.request? with
    | none => exact (List.append_nil past).symm
    | some r => rfl
  | spent => exact (List.append_nil past).symm

namespace Session

variable (w : FarSide (Nat × SearchRequest) SearchResult)

theorem run_send (s : Session) (a : SessionAct) (past : SessionDialogue) :
    ((s.send w a).run past).2 = past ++ (s.sent? a).toList.map fun e => (e, w.answer past e) := by
  cases a with
  | run j page =>
    rw [send, sent?]
    cases s.started[j]? with
    | none => exact (List.append_nil past).symm
    | some x =>
      have hrun := Started.run_ask w j page x past
      rw [Option.bind_some]
      cases hr : x.request? page with
      | none => rwa [hr] at hrun
      | some r => rwa [hr] at hrun
  | _ => exact (List.append_nil past).symm

/-- **One act** leads to the next session, and sends the request of the search that it runs. -/
theorem run_perform (s : Session) (a : SessionAct) (past : SessionDialogue) :
    (s.perform w a).run past =
      (s.next a, past ++ (s.sent? a).toList.map fun e => (e, w.answer past e)) := by
  rw [← run_send]
  rfl

theorem performAll_concat (s : Session) (acts : List SessionAct) (a : SessionAct) (past : SessionDialogue) :
    (s.performAll w (acts ++ [a])).run past =
      (((s.performAll w acts).run past).1.perform w a).run ((s.performAll w acts).run past).2 := by
  rw [performAll, List.foldlM_append]
  rfl

/-- The answers do not change what the clients and searches are. -/
theorem fst_run_performAll (s : Session) (acts : List SessionAct) (past : SessionDialogue) :
    ((s.performAll w acts).run past).1 = s.after acts := by
  induction acts using List.reverseRecOn with
  | nil => rfl
  | append_singleton acts a ih => rw [performAll_concat, run_perform, ih, after_concat]

/-- All that is sent in a session from its start, with what is answered. -/
def dialogue (client : SearchClient) (acts : List SessionAct) : SessionDialogue :=
  (((ofClient client).performAll w acts).run []).2

theorem dialogue_concat (client : SearchClient) (acts : List SessionAct) (a : SessionAct) :
    dialogue w client (acts ++ [a]) = dialogue w client acts ++
      (((ofClient client).after acts).sent? a).toList.map fun e => (e, w.answer (dialogue w client acts) e) := by
  rw [dialogue, performAll_concat, run_perform, fst_run_performAll]
  rfl

/-- **Every request** belongs to a search that was started, and goes to the index that its client had then. -/
theorem startedUnder_of_sent (client : SearchClient) (acts : List SessionAct) :
    ∀ e ∈ dialogue w client acts,
      (∃ name, StartedUnder client acts e.1.1 name) ∧
        ∀ name, StartedUnder client acts e.1.1 name → e.1.2.index = name := by
  induction acts using List.reverseRecOn with
  | nil => exact fun e he => absurd he List.not_mem_nil
  | append_singleton acts a ih =>
    intro e he
    rw [dialogue_concat] at he
    rcases List.mem_append.1 he with he | he
    · obtain ⟨⟨name, hname⟩, hall⟩ := ih e he
      exact ⟨⟨name, hname.later a⟩, fun name' h => hall name' (h.of_concat hname.lt_length)⟩
    · obtain ⟨⟨j, r⟩, hsent, rfl⟩ := List.mem_map.1 he
      rw [Option.mem_toList] at hsent
      cases a with
      | run j' page =>
        obtain ⟨r', hbind, heq⟩ := Option.map_eq_some_iff.1 hsent
        obtain ⟨rfl, rfl⟩ := Prod.mk.inj heq
        obtain ⟨x, hx, hr⟩ := Option.bind_eq_some_iff.1 hbind
        have hj := (List.getElem?_eq_some_iff.1 hx).1
        obtain ⟨name, hname⟩ := exists_startedUnder client hj
        refine ⟨⟨name, hname.later _⟩, fun name' h => ?_⟩
        obtain ⟨y, hy, ht⟩ := (h.of_concat hj).targets
        obtain rfl : x = y := Option.some.inj (hx.symm.trans hy)
        exact Started.index_request? ht hr
      | _ => cases hsent

/-- **Requests go to the index that the client had when the search was started** (`SearchClient::boolean_query`,
`SearchClient::simplified`). Nothing that is done later changes the index of a search, and a search that is started
after the name of the index was computed again is for the new name. -/
theorem index_of_sent (client : SearchClient) (acts : List SessionAct) :
    (∀ e ∈ dialogue w client acts,
      (∃ name, StartedUnder client acts e.1.1 name) ∧
        ∀ name, StartedUnder client acts e.1.1 name → e.1.2.index = name) ∧
    (∀ j name, StartedUnder client acts j name → ∀ later, ∀ e ∈ dialogue w client (acts ++ later),
      e.1.1 = j → e.1.2.index = name) ∧
    ∀ i x t, ((ofClient client).after acts).clients[i]? = some x →
      let started := ((ofClient client).after acts).started.length
      StartedUnder client (acts ++ [.recalculate i t] ++ [.startQuery i]) started (x.index.recalculate t).name ∧
        StartedUnder client (acts ++ [.recalculate i t] ++ [.startFlat i]) started (x.index.recalculate t).name := by
  refine ⟨startedUnder_of_sent w client acts, fun j name h later e he hj => ?_, fun i x t hx => ?_⟩
  · exact (startedUnder_of_sent w client _ e he).2 name (hj ▸ h.append later)
  · have hnow : ((ofClient client).after (acts ++ [.recalculate i t])).clients[i]? = some (x.recalculate t) := by
      simp [after_concat, next, hx]
    have hstarted : ((ofClient client).after (acts ++ [.recalculate i t])).started.length =
        ((ofClient client).after acts).started.length := by
      rw [after_concat]
      rfl
    exact ⟨hstarted ▸ .query hnow, hstarted ▸ .flat hnow⟩

/-! A night with a query, a flat search that is started over, and a copy of the client. -/

/-- A client whose index is named for the day of the month. -/
def dayClient : SearchClient := ⟨⟨"ea_", "log", [.numeral .day .zeros], "ea_log_15"⟩⟩

def evening : List SessionAct :=
  [.startQuery 0, .startFlat 0, .callFlat 1 (.fullText .message (.text "disk")), .copyClient 0]

/-- A day after the sample's base time. -/
def nextMorning : Instant :=
  { Sample.baseTime with millis := 1705395600000, lower := by decide, upper := by decide }

def night : List SessionAct :=
  evening ++ [.recalculate 0 nextMorning] ++ [.startQuery 0] ++
    [.startQuery 1, .callFlat 1 .reset, .run 0 none, .run 1 none, .run 2 (some (0, 10)), .run 3 none]

theorem index_of_sent_overnight :
    let w : FarSide (Nat × SearchRequest) SearchResult := ⟨fun _ _ => .ok .empty⟩
    (dialogue w dayClient night).map (fun e => (e.1.1, e.1.2.index)) =
        [(0, "ea_log_15"), (1, "ea_log_15"), (2, "ea_log_16"), (3, "ea_log_15")] ∧
      (∀ e ∈ dialogue w dayClient night, e.1.1 = 1 → e.1.2.index = "ea_log_15") ∧
      StartedUnder dayClient night 2 "ea_log_16" := by
  intro w
  have hflat : StartedUnder dayClient [.startQuery 0, .startFlat 0] 1 "ea_log_15" :=
    @StartedUnder.flat dayClient [.startQuery 0] 0 dayClient rfl
  refine ⟨rfl, (index_of_sent w dayClient _).2.1 1 _ hflat (night.drop 2), ?_⟩
  have hnew : StartedUnder dayClient (evening ++ [.recalculate 0 nextMorning] ++ [.startQuery 0]) 2 "ea_log_16" :=
    ((index_of_sent w dayClient evening).2.2 0 dayClient nextMorning rfl).1
  exact hnew.append _

end Session

end LogQuery
