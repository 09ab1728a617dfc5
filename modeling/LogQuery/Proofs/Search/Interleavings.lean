import LogQuery.Proofs.Search.CannedTasks
import Mathlib.Data.List.Induction

/-!
# Canned answers under concurrency

The steps of searches and pushes may interleave in any way. One step adds up what the transport holds and what
the history of the run says (`Reached.step`), so a whole run does (`Reached.run`).

Main statement: whatever the interleaving, no request and no answer is lost, duplicated or put out of order
(`conserved_run`).
-/

namespace LogQuery

open scoped List

namespace CannedRun

open CannedHistory

/-- What the calls have come to: the tasks are the calls and have taken their steps, the log has all requests
that were written down, and what was taken from the queue and what is in it are what it was and what was
pushed. -/
structure Reached (c : Canned) (calls : List CannedCall) (s : CannedRun) : Prop where
  calls_eq : s.tasks.map CannedTask.call = calls
  stepsOf_eq : ∀ i, stepsOf i s.history = (s.tasks[i]?.map CannedTask.steps).getD []
  steps_perm : (s.history.map (·.2)).Perm (s.tasks.flatMap CannedTask.steps)
  requests_eq : s.transport.requests = c.requests ++ (records s.history).map (·.2)
  answers_eq : unqueued s.history ++ s.transport.answers = c.answers ++ pushes s.history
  eq_empty : ∀ i a, (i, .take a false) ∈ s.history → a = .ok .empty

namespace Reached

variable {c : Canned} {calls : List CannedCall} {s : CannedRun}

theorem ofCalls (c : Canned) (calls : List CannedCall) : Reached c calls (.ofCalls c calls) where
  calls_eq := by simp [CannedRun.ofCalls, CannedTask.call, Function.comp_def]
  stepsOf_eq i := by
    cases h : calls[i]? <;> simp [CannedRun.ofCalls, stepsOf, h, CannedTask.steps]
  steps_perm := by
    have hnone : (calls.map CannedTask.waiting).flatMap CannedTask.steps = [] := by
      simp [CannedTask.steps]
    simp [CannedRun.ofCalls, hnone]
  requests_eq := by simp [CannedRun.ofCalls, records]
  answers_eq := by simp [CannedRun.ofCalls, unqueued, pushes]
  eq_empty i a h := by simp [CannedRun.ofCalls] at h

/-- **One step** of any task adds up. -/
theorem step (h : Reached c calls s) (i : Nat) : Reached c calls (s.step i) := by
  rcases s.step_cases i with hstep | ⟨t, x, t', c', ht, hmove, hstep⟩
  · rwa [hstep]
  · obtain ⟨hi, hget⟩ := List.getElem?_eq_some_iff.1 ht
    obtain ⟨hcall, hsteps⟩ := hmove.steps_eq
    rw [hstep]
    constructor
    case calls_eq =>
      rw [CannedTask.map_call_set hi (hget ▸ hcall), h.calls_eq]
    case stepsOf_eq =>
      intro j
      rw [stepsOf_concat, h.stepsOf_eq j]
      by_cases hij : i = j
      · subst hij
        simp [hi, hget, hsteps]
      · simp [hij]
    case steps_perm =>
      simp only [List.map_append, List.map_cons, List.map_nil]
      exact (h.steps_perm.append_right [x]).trans (CannedTask.steps_set_perm hi (hget ▸ hsteps))
    case requests_eq =>
      rw [records_concat, hmove.requests_eq, h.requests_eq]
      cases x.recorded? <;> simp
    case answers_eq =>
      calc unqueued (s.history ++ [(i, x)]) ++ c'.answers
        _ = unqueued s.history ++ (x.unqueued?.toList ++ c'.answers) := by
          rw [unqueued_concat, List.append_assoc]
        _ = unqueued s.history ++ s.transport.answers ++ x.pushed?.toList := by
          rw [hmove.answers_eq, List.append_assoc]
        _ = c.answers ++ pushes (s.history ++ [(i, x)]) := by
          rw [h.answers_eq, pushes_concat, List.append_assoc]
    case eq_empty =>
      intro j a hmem
      simp only [List.mem_append, List.mem_singleton, Prod.mk.injEq] at hmem
      rcases hmem with hmem | ⟨-, rfl⟩
      · exact h.eq_empty j a hmem
      · exact hmove.eq_empty

/-- **Every run** adds up, in every interleaving. -/
theorem run (schedule : List Nat) : Reached c calls ((CannedRun.ofCalls c calls).run schedule) := by
  induction schedule using List.reverseRecOn with
  | nil => exact ofCalls c calls
  | append_singleton schedule i ih =>
    rw [CannedRun.run_concat]
    exact ih.step i

/-! ### Tasks and the history -/

theorem mem_history_iff (h : Reached c calls s) {i : Nat} {x : CannedStep} :
    (i, x) ∈ s.history ↔ ∃ t, s.tasks[i]? = some t ∧ x ∈ t.steps := by
  rw [← mem_stepsOf_iff, h.stepsOf_eq]
  cases s.tasks[i]? <;> simp

/-- A search that takes has no answer from before. -/
theorem not_mem_takes (h : Reached c calls s) {i : Nat} {r : SearchRequest}
    (ht : s.tasks[i]? = some (.recorded r)) (a : SearchResult) : (i, a) ∉ takes s.history := by
  intro hmem
  obtain ⟨queued, hmem⟩ := mem_takes_iff.1 hmem
  obtain ⟨t, ht', hx⟩ := h.mem_history_iff.1 hmem
  obtain rfl := Option.some.inj (ht.symm.trans ht')
  simp [CannedTask.steps] at hx

theorem mem_recorders (h : Reached c calls s) {i : Nat} {r : SearchRequest}
    (ht : s.tasks[i]? = some (.recorded r)) : i ∈ recorders s.history := by
  have hmem : (i, r) ∈ records s.history := by
    rw [mem_records_iff, h.mem_history_iff]
    exact ⟨_, ht, by simp [CannedTask.steps]⟩
  exact List.mem_map.2 ⟨(i, r), hmem, rfl⟩

/-- The searches that have begun and those that have an answer are the same, in the same order, but for one
that may be open. -/
def OneOpen (s : CannedRun) : Prop :=
  recorders s.history = takers s.history ∨
    ∃ i r, recorders s.history = takers s.history ++ [i] ∧ s.tasks[i]? = some (.recorded r)

/-- A search that takes its answer is the open one. -/
theorem recorders_eq_of_recorded (h : Reached c calls s) (hopen : OneOpen s) {i : Nat} {r : SearchRequest}
    (ht : s.tasks[i]? = some (.recorded r)) : recorders s.history = takers s.history ++ [i] := by
  have hbegun : i ∈ recorders s.history := h.mem_recorders ht
  have hunanswered : i ∉ takers s.history := by
    intro hmem
    obtain ⟨⟨j, a⟩, hj, rfl⟩ := List.mem_map.1 hmem
    exact h.not_mem_takes ht a hj
  rcases hopen with hsame | ⟨j, r', hsame, -⟩
  · exact absurd (hsame ▸ hbegun) hunanswered
  · rw [hsame] at hbegun ⊢
    rcases List.mem_append.1 hbegun with hmem | hmem
    · exact absurd hmem hunanswered
    · rw [List.mem_singleton.1 hmem]

theorem oneOpen_step (h : Reached c calls s) (hopen : OneOpen s) (i : Nat)
    (hs : Sequential (s.step i).history) : OneOpen (s.step i) := by
  rcases s.step_cases i with hstep | ⟨t, x, t', c', ht, hmove, hstep⟩
  · rwa [hstep]
  · obtain ⟨hi, -⟩ := List.getElem?_eq_some_iff.1 ht
    rw [hstep] at hs ⊢
    rw [OneOpen, recorders_concat, takers_concat]
    cases hmove with
    | record r =>
      -- All searches before have their answers, so none is open.
      have hnone : recorders s.history = takers s.history := by
        rcases hopen with hsame | ⟨j, r', -, hj⟩
        · exact hsame
        · obtain ⟨⟨k, a⟩, hk, rfl⟩ := List.mem_map.1 (hs.answered j (h.mem_recorders hj))
          exact absurd hk (h.not_mem_takes hj a)
      right
      exact ⟨i, r, by simp [hnone, CannedStep.recorded?, CannedStep.taken?], by simp [hi]⟩
    | push a =>
      rcases hopen with hsame | ⟨j, r, hsame, hj⟩
      · left
        simpa [CannedStep.recorded?, CannedStep.taken?] using hsame
      · have hij : i ≠ j := by
          rintro rfl
          simp [ht] at hj
        right
        exact ⟨j, r, by simpa [CannedStep.recorded?, CannedStep.taken?] using hsame, by simpa [hij] using hj⟩
    | takeQueued r _ =>
      left
      simp [h.recorders_eq_of_recorded hopen ht, CannedStep.recorded?, CannedStep.taken?]
    | takeEmpty r _ =>
      left
      simp [h.recorders_eq_of_recorded hopen ht, CannedStep.recorded?, CannedStep.taken?]

theorem oneOpen_run (c : Canned) (calls : List CannedCall) (schedule : List Nat)
    (hs : Sequential ((CannedRun.ofCalls c calls).run schedule).history) :
    OneOpen ((CannedRun.ofCalls c calls).run schedule) := by
  induction schedule using List.reverseRecOn with
  | nil => exact .inl rfl
  | append_singleton schedule i ih =>
    rw [CannedRun.run_concat] at hs ⊢
    have hbefore : Sequential ((CannedRun.ofCalls c calls).run schedule).history := by
      rcases ((CannedRun.ofCalls c calls).run schedule).step_cases i with hstep | ⟨_, _, _, _, -, -, hstep⟩
      · rwa [hstep] at hs
      · rw [hstep] at hs
        exact hs.of_concat
    exact (run schedule).oneOpen_step (ih hbefore) i hs

/-! ### When all tasks have ended -/

/-- What the steps say of the calls, each call says once. -/
theorem perm_of_ended (h : Reached c calls s) (hended : s.Ended) {α : Type} {ofStep : CannedStep → Option α}
    {ofCall : CannedCall → Option α}
    (hof : ∀ t : CannedTask, t.isEnded = true → t.steps.filterMap ofStep = (ofCall t.call).toList) :
    (s.history.filterMap fun x => ofStep x.2) ~ calls.filterMap ofCall := by
  have htasks : s.tasks.flatMap (fun t => t.steps.filterMap ofStep) = s.tasks.filterMap (fun t => ofCall t.call) := by
    rw [List.filterMap_eq_flatMap_toList]
    exact List.flatMap_congr fun t ht => hof t (hended t ht)
  calc s.history.filterMap (fun x => ofStep x.2)
    _ = (s.history.map (·.2)).filterMap ofStep := by rw [List.filterMap_map]; rfl
    _ ~ (s.tasks.flatMap CannedTask.steps).filterMap ofStep := h.steps_perm.filterMap ofStep
    _ = s.tasks.filterMap (fun t => ofCall t.call) := by rw [List.filterMap_flatMap, htasks]
    _ = calls.filterMap ofCall := by rw [← h.calls_eq, List.filterMap_map]; rfl

theorem requests_perm (h : Reached c calls s) (hended : s.Ended) :
    (records s.history).map (·.2) ~ calls.filterMap CannedCall.request? := by
  have hrequests : (records s.history).map (·.2) = s.history.filterMap fun x => x.2.recorded? := by
    rw [records, List.map_filterMap]
    refine List.filterMap_congr fun x _ => ?_
    cases x.2.recorded? <;> rfl
  rw [hrequests]
  refine h.perm_of_ended hended fun t ht => ?_
  cases t with
  | waiting | recorded => simp [CannedTask.isEnded] at ht
  | answered | pushed => rfl

theorem pushes_perm (h : Reached c calls s) (hended : s.Ended) :
    pushes s.history ~ calls.filterMap CannedCall.pushed? := by
  refine h.perm_of_ended hended fun t ht => ?_
  cases t with
  | waiting | recorded => simp [CannedTask.isEnded] at ht
  | answered | pushed => rfl

/-- A search that has ended has an answer, and has taken its two steps in their order. -/
theorem exists_answered (h : Reached c calls s) (hended : s.Ended) {i : Nat} {r : SearchRequest}
    (hi : calls[i]? = some (.search r)) :
    ∃ a queued, s.tasks[i]? = some (.answered r a queued) ∧
      stepsOf i s.history = [.record r, .take a queued] ∧ (queued = false → a = .ok .empty) := by
  rw [← h.calls_eq, List.getElem?_map, Option.map_eq_some_iff] at hi
  obtain ⟨t, ht, hcall⟩ := hi
  have hend := hended t (List.mem_of_getElem? ht)
  cases t with
  | waiting | recorded => simp [CannedTask.isEnded] at hend
  | pushed => cases hcall
  | answered r' a queued =>
    obtain rfl := CannedCall.search.inj hcall
    have hsteps : stepsOf i s.history = [.record r', .take a queued] := by simp [h.stepsOf_eq, ht, CannedTask.steps]
    refine ⟨a, queued, ht, hsteps, ?_⟩
    rintro rfl
    exact h.eq_empty i a (mem_stepsOf_iff.1 (by simp [hsteps]))

/-- Of searches one after the other, the first to begin is the first to be answered, and so on. -/
theorem recorders_eq_takers (hended : s.Ended) (hopen : OneOpen s) :
    recorders s.history = takers s.history := by
  rcases hopen with hsame | ⟨i, r, -, hi⟩
  · exact hsame
  · have hend := hended _ (List.mem_of_getElem? hi)
    simp [CannedTask.isEnded] at hend

end Reached

/-- **Nothing is lost, duplicated or put out of order** (`MockTransport::search`), however the steps of searches and
pushes interleave. When all have ended, the log has the request of each search once, in the order in which they were
written down; the answers taken from the queue and those still in it are those it had and those that were pushed, in
this order; and each search has written its request down and then taken the answer that it has, which is the empty
page if none was queued. If no two searches overlap, they are answered in the order of their requests. -/
theorem conserved_run (c : Canned) (calls : List CannedCall) (schedule : List Nat)
    (hended : ((CannedRun.ofCalls c calls).run schedule).Ended) :
    let s := (CannedRun.ofCalls c calls).run schedule
    (s.transport.requests = c.requests ++ (records s.history).map (·.2) ∧
      (records s.history).map (·.2) ~ calls.filterMap CannedCall.request?) ∧
    (unqueued s.history ++ s.transport.answers = c.answers ++ pushes s.history ∧
      pushes s.history ~ calls.filterMap CannedCall.pushed?) ∧
    (∀ i r, calls[i]? = some (.search r) → ∃ a queued, s.tasks[i]? = some (.answered r a queued) ∧
      stepsOf i s.history = [.record r, .take a queued] ∧ (queued = false → a = .ok .empty)) ∧
    (Sequential s.history → recorders s.history = takers s.history) := by
  have h : Reached c calls ((CannedRun.ofCalls c calls).run schedule) := Reached.run schedule
  refine ⟨⟨h.requests_eq, h.requests_perm hended⟩, ⟨h.answers_eq, h.pushes_perm hended⟩, ?_, ?_⟩
  · intro i r hi
    exact h.exists_answered hended hi
  · intro hs
    exact Reached.recorders_eq_takers hended (Reached.oneOpen_run c calls schedule hs)

/-! Two searches and a pushed fault. -/

/-- A request for all records of an index. -/
def allOf (index : String) : SearchRequest := .of index .everything

def overlappingCalls : List CannedCall :=
  [.search (allOf "a"), .push (.error .emptyQuery), .search (allOf "b")]

/-- The search that begins first takes last, and finds the queue empty again. -/
theorem conserved_overtaking :
    let s := (ofCalls .empty overlappingCalls).run [0, 2, 1, 2, 0]
    let t := (ofCalls .empty overlappingCalls).run [0, 1, 0, 2, 2]
    (s.Ended ∧ s.transport.requests = [allOf "a", allOf "b"] ∧
      unqueued s.history ++ s.transport.answers = [.error .emptyQuery] ∧ takers s.history = [2, 0]) ∧
    (t.Ended ∧ Sequential t.history ∧ recorders t.history = takers t.history ∧ takers t.history = [0, 2]) := by
  intro s t
  have hs : s.Ended := by decide
  have ht : t.Ended := by decide
  have hsequential : Sequential t.history := by decide
  obtain ⟨⟨hrequests, -⟩, ⟨hanswers, -⟩, -⟩ := conserved_run .empty overlappingCalls [0, 2, 1, 2, 0] hs
  obtain ⟨-, -, -, horder⟩ := conserved_run .empty overlappingCalls [0, 1, 0, 2, 2] ht
  exact ⟨⟨hs, hrequests, hanswers, rfl⟩, ht, hsequential, horder hsequential, rfl⟩

end CannedRun

end LogQuery
