import LogQuery.Search.Sample
import Mathlib.Data.List.Perm.Basic

/-!
# Tasks of a canned transport

Searches of a canned transport and pushes of answers may run at the same time. Each is a task, and between two
steps of a task any steps of others may come: a search first writes its request down and then takes its answer,
a push has one step. A run is given by the numbers of the tasks in the order in which they take their steps; a
task that has ended takes none. The history of a run has all steps with their tasks.

Main statements: what a task can do next (`CannedTask.moves_of_next?`), what becomes of the requests and the
answers then (`Moves.requests_eq`, `Moves.answers_eq`), and that a search whose steps follow each other is a
search of the transport (`CannedRun.run_search_alone`).
-/

namespace LogQuery

open scoped List

/-! ## Tasks and their steps -/

/-- What is asked of a canned transport. -/
inductive CannedCall where
  | search (r : SearchRequest)
  | push (a : SearchResult)

/-- A step that nothing comes between. -/
inductive CannedStep where
  | record (r : SearchRequest)
  /-- An answer that was queued, or the empty page for want of one. -/
  | take (a : SearchResult) (queued : Bool)
  | push (a : SearchResult)

/-- A call, and how far it has come. -/
inductive CannedTask where
  | waiting (c : CannedCall)
  | recorded (r : SearchRequest)
  | answered (r : SearchRequest) (a : SearchResult) (queued : Bool)
  | pushed (a : SearchResult)

namespace CannedCall

def request? : CannedCall → Option SearchRequest
  | search r => some r
  | push _ => none

def pushed? : CannedCall → Option SearchResult
  | search _ => none
  | push a => some a

end CannedCall

namespace CannedStep

def recorded? : CannedStep → Option SearchRequest
  | record r => some r
  | take .. | push _ => none

def taken? : CannedStep → Option SearchResult
  | take a _ => some a
  | record _ | push _ => none

/-- The answer that leaves the queue. -/
def unqueued? : CannedStep → Option SearchResult
  | take a true => some a
  | take _ false | record _ | push _ => none

def pushed? : CannedStep → Option SearchResult
  | push a => some a
  | record _ | take .. => none

end CannedStep

namespace CannedTask

def call : CannedTask → CannedCall
  | waiting c => c
  | recorded r | answered r _ _ => .search r
  | pushed a => .push a

def isEnded : CannedTask → Bool
  | waiting _ | recorded _ => false
  | answered .. | pushed _ => true

/-- The steps that the task has taken. -/
def steps : CannedTask → List CannedStep
  | waiting _ => []
  | recorded r => [.record r]
  | answered r a queued => [.record r, .take a queued]
  | pushed a => [.push a]

/-- The next step, with the task and the transport after it. -/
def next? (c : Canned) : CannedTask → Option (CannedStep × CannedTask × Canned)
  | waiting (.search r) => some (.record r, recorded r, c.record r)
  | waiting (.push a) => some (.push a, pushed a, c.push a)
  | recorded r =>
    let queued := !c.answers.isEmpty
    some (.take c.take.1 queued, answered r c.take.1 queued, c.take.2)
  | answered .. | pushed _ => none

end CannedTask

/-- The steps so far with the numbers of their tasks, the oldest first. -/
abbrev CannedHistory := List (Nat × CannedStep)

namespace CannedHistory

def records (h : CannedHistory) : List (Nat × SearchRequest) :=
  h.filterMap fun x => x.2.recorded?.map fun r => (x.1, r)

def takes (h : CannedHistory) : List (Nat × SearchResult) :=
  h.filterMap fun x => x.2.taken?.map fun a => (x.1, a)

/-- The searches in the order in which they wrote their requests down. -/
def recorders (h : CannedHistory) : List Nat := (records h).map (·.1)

/-- The searches in the order in which they took their answers. -/
def takers (h : CannedHistory) : List Nat := (takes h).map (·.1)

/-- The answers that were taken from the queue. -/
def unqueued (h : CannedHistory) : List SearchResult := h.filterMap fun x => x.2.unqueued?

def pushes (h : CannedHistory) : List SearchResult := h.filterMap fun x => x.2.pushed?

/-- The steps of one task. -/
def stepsOf (i : Nat) (h : CannedHistory) : List CannedStep := (h.filter fun x => x.1 = i).map (·.2)

/-- No search begins while another one has no answer yet. Pushes may come at any time. -/
def Sequential (h : CannedHistory) : Prop :=
  ∀ k < h.length, (h[k]?.bind fun x => x.2.recorded?).isSome →
    ∀ i ∈ recorders (h.take k), i ∈ takers (h.take k)

instance (h : CannedHistory) : Decidable (Sequential h) :=
  inferInstanceAs (Decidable (∀ k < h.length, (h[k]?.bind fun x => x.2.recorded?).isSome →
    ∀ i ∈ recorders (h.take k), i ∈ takers (h.take k)))

end CannedHistory

/-- A canned transport with the tasks that use it. -/
structure CannedRun where
  transport : Canned
  tasks : List CannedTask
  history : CannedHistory

namespace CannedRun

def ofCalls (c : Canned) (calls : List CannedCall) : CannedRun := ⟨c, calls.map .waiting, []⟩

/-- The task with this number takes its next step, if it has one. -/
def step (s : CannedRun) (i : Nat) : CannedRun :=
  match s.tasks[i]?.bind (CannedTask.next? s.transport) with
  | some (x, t, c) => ⟨c, s.tasks.set i t, s.history ++ [(i, x)]⟩
  | none => s

def run (s : CannedRun) (schedule : List Nat) : CannedRun := schedule.foldl step s

def Ended (s : CannedRun) : Prop := ∀ t ∈ s.tasks, t.isEnded = true

instance (s : CannedRun) : Decidable s.Ended :=
  inferInstanceAs (Decidable (∀ t ∈ s.tasks, t.isEnded = true))

end CannedRun

/-! ## What one step does -/

namespace CannedTask

/-- What a task can do next, and what the transport is then. -/
inductive Moves (c : Canned) : CannedTask → CannedStep → CannedTask → Canned → Prop
  | record (r : SearchRequest) : Moves c (waiting (.search r)) (.record r) (recorded r) (c.record r)
  | push (a : SearchResult) : Moves c (waiting (.push a)) (.push a) (pushed a) (c.push a)
  | takeQueued (r : SearchRequest) {a : SearchResult} {rest : List SearchResult} :
    c.answers = a :: rest →
      Moves c (recorded r) (.take a true) (answered r a true) { c with answers := rest }
  | takeEmpty (r : SearchRequest) : c.answers = [] →
    Moves c (recorded r) (.take (.ok .empty) false) (answered r (.ok .empty) false) c

variable {c c' : Canned} {t t' : CannedTask} {x : CannedStep}

theorem moves_of_next? (h : t.next? c = some (x, t', c')) : Moves c t x t' c' := by
  cases t with
  | waiting call =>
    cases call with
    | search r =>
      simp only [next?, Option.some.injEq, Prod.mk.injEq] at h
      obtain ⟨rfl, rfl, rfl⟩ := h
      exact .record r
    | push a =>
      simp only [next?, Option.some.injEq, Prod.mk.injEq] at h
      obtain ⟨rfl, rfl, rfl⟩ := h
      exact .push a
  | recorded r =>
    simp only [next?, Option.some.injEq, Prod.mk.injEq] at h
    obtain ⟨rfl, rfl, rfl⟩ := h
    cases hanswers : c.answers with
    | nil => simpa [Canned.take, hanswers] using Moves.takeEmpty r hanswers
    | cons a rest => simpa [Canned.take, hanswers] using Moves.takeQueued r hanswers
  | answered => simp [next?] at h
  | pushed => simp [next?] at h

/-- A step belongs to the call and is added to the steps of the task. -/
theorem Moves.steps_eq (h : Moves c t x t' c') : t'.call = t.call ∧ t'.steps = t.steps ++ [x] := by
  cases h <;> exact ⟨rfl, rfl⟩

/-- A request is written down behind the others. -/
theorem Moves.requests_eq (h : Moves c t x t' c') : c'.requests = c.requests ++ x.recorded?.toList := by
  cases h <;> simp [Canned.record, Canned.push, CannedStep.recorded?]

/-- An answer leaves the queue in front or comes to it behind. -/
theorem Moves.answers_eq (h : Moves c t x t' c') :
    x.unqueued?.toList ++ c'.answers = c.answers ++ x.pushed?.toList := by
  cases h <;> simp_all [Canned.record, Canned.push, CannedStep.unqueued?, CannedStep.pushed?]

/-- Without a queued answer the page is empty. -/
theorem Moves.eq_empty {a : SearchResult} (h : Moves c t (.take a false) t' c') : a = .ok .empty := by
  cases h
  rfl

variable {ts : List CannedTask} {i : Nat}

theorem map_call_set (hi : i < ts.length) (hcall : t'.call = ts[i].call) :
    (ts.set i t').map call = ts.map call := by
  refine List.ext_getElem? fun j => ?_
  by_cases hij : i = j
  · subst hij
    simp [hi, hcall]
  · simp [hij]

/-- A step that one task takes is one more among the steps of all. -/
theorem steps_set_perm (hi : i < ts.length) (hsteps : t'.steps = ts[i].steps ++ [x]) :
    ts.flatMap steps ++ [x] ~ (ts.set i t').flatMap steps := by
  have hbefore : ts ~ ts[i] :: ts.eraseIdx i := (List.getElem_cons_eraseIdx_perm hi).symm
  have hafter : ts.set i t' ~ t' :: ts.eraseIdx i := List.set_perm_cons_eraseIdx hi t'
  calc ts.flatMap steps ++ [x]
    _ ~ ts[i].steps ++ (ts.eraseIdx i).flatMap steps ++ [x] := (hbefore.flatMap_right steps).append_right [x]
    _ = ts[i].steps ++ ((ts.eraseIdx i).flatMap steps ++ [x]) := List.append_assoc ..
    _ ~ ts[i].steps ++ ([x] ++ (ts.eraseIdx i).flatMap steps) := List.perm_append_comm.append_left _
    _ = t'.steps ++ (ts.eraseIdx i).flatMap steps := by rw [hsteps, List.append_assoc]
    _ ~ (ts.set i t').flatMap steps := (hafter.flatMap_right steps).symm

end CannedTask

namespace CannedRun

theorem step_of_next? {s : CannedRun} {i : Nat} {t t' : CannedTask} {x : CannedStep} {c : Canned}
    (ht : s.tasks[i]? = some t) (hnext : t.next? s.transport = some (x, t', c)) :
    s.step i = ⟨c, s.tasks.set i t', s.history ++ [(i, x)]⟩ := by
  simp [step, ht, hnext]

/-- A step of a run is the next one of a task, or there is none. -/
theorem step_cases (s : CannedRun) (i : Nat) :
    s.step i = s ∨ ∃ t x t' c, s.tasks[i]? = some t ∧ CannedTask.Moves s.transport t x t' c ∧
      s.step i = ⟨c, s.tasks.set i t', s.history ++ [(i, x)]⟩ := by
  cases hnext : s.tasks[i]?.bind (CannedTask.next? s.transport) with
  | none =>
    left
    simp [step, hnext]
  | some next =>
    obtain ⟨x, t', c⟩ := next
    obtain ⟨t, ht, hmove⟩ := Option.bind_eq_some_iff.1 hnext
    right
    exact ⟨t, x, t', c, ht, CannedTask.moves_of_next? hmove, step_of_next? ht hmove⟩

theorem run_concat (s : CannedRun) (schedule : List Nat) (i : Nat) :
    s.run (schedule ++ [i]) = (s.run schedule).step i := by
  simp [run, List.foldl_append]

/-- A search whose two steps follow each other is one of the transport. -/
theorem run_search_alone {s : CannedRun} {i : Nat} {r : SearchRequest}
    (h : s.tasks[i]? = some (.waiting (.search r))) :
    (s.run [i, i]).transport = ((Canned.search r).run s.transport).2 ∧
      ∃ queued, (s.run [i, i]).tasks[i]? =
        some (.answered r ((Canned.search r).run s.transport).1 queued) := by
  obtain ⟨hi, -⟩ := List.getElem?_eq_some_iff.1 h
  let recorded : CannedRun :=
    ⟨s.transport.record r, s.tasks.set i (.recorded r), s.history ++ [(i, .record r)]⟩
  have hfirst : s.step i = recorded := step_of_next? h rfl
  have htask : recorded.tasks[i]? = some (.recorded r) := by simp [recorded, hi]
  have hsecond : recorded.step i = _ := step_of_next? htask rfl
  have hrun : s.run [i, i] = recorded.step i := by rw [← hfirst]; rfl
  rw [hrun, hsecond]
  refine ⟨rfl, !(s.transport.record r).answers.isEmpty, ?_⟩
  have hlength : i < recorded.tasks.length := by simpa [recorded] using hi
  rw [List.getElem?_set_self hlength]
  rfl

end CannedRun

/-! ## What holds of every run -/

namespace CannedHistory

variable (h : CannedHistory) (i : Nat) (x : CannedStep)

theorem records_concat :
    records (h ++ [(i, x)]) = records h ++ (x.recorded?.map fun r => (i, r)).toList := by
  cases hx : x.recorded? <;> simp [records, hx]

theorem takes_concat : takes (h ++ [(i, x)]) = takes h ++ (x.taken?.map fun a => (i, a)).toList := by
  cases hx : x.taken? <;> simp [takes, hx]

theorem recorders_concat :
    recorders (h ++ [(i, x)]) = recorders h ++ (x.recorded?.map fun _ => i).toList := by
  rw [recorders, records_concat]
  cases x.recorded? <;> simp [recorders]

theorem takers_concat : takers (h ++ [(i, x)]) = takers h ++ (x.taken?.map fun _ => i).toList := by
  rw [takers, takes_concat]
  cases x.taken? <;> simp [takers]

theorem unqueued_concat : unqueued (h ++ [(i, x)]) = unqueued h ++ x.unqueued?.toList := by
  cases hx : x.unqueued? <;> simp [unqueued, hx]

theorem pushes_concat : pushes (h ++ [(i, x)]) = pushes h ++ x.pushed?.toList := by
  cases hx : x.pushed? <;> simp [pushes, hx]

/-- The steps of a task grow by those that it takes. -/
theorem stepsOf_concat (j : Nat) :
    stepsOf j (h ++ [(i, x)]) = if i = j then stepsOf j h ++ [x] else stepsOf j h := by
  by_cases hij : i = j
  · simp [stepsOf, hij]
  · simp [stepsOf, hij]

variable {h i x}

theorem mem_stepsOf_iff : x ∈ stepsOf i h ↔ (i, x) ∈ h := by
  simp [stepsOf]

theorem mem_records_iff {r : SearchRequest} :
    (i, r) ∈ records h ↔ (i, .record r) ∈ h := by
  simp only [records, List.mem_filterMap, Option.map_eq_some_iff, Prod.mk.injEq]
  constructor
  · rintro ⟨⟨j, x⟩, hx, r', hr, rfl, rfl⟩
    cases x with
    | record r => obtain rfl := Option.some.inj hr; exact hx
    | take => cases hr
    | push => cases hr
  · intro hx
    exact ⟨(i, .record r), hx, r, rfl, rfl, rfl⟩

theorem mem_takes_iff {a : SearchResult} :
    (i, a) ∈ takes h ↔ ∃ queued, (i, .take a queued) ∈ h := by
  simp only [takes, List.mem_filterMap, Option.map_eq_some_iff, Prod.mk.injEq]
  constructor
  · rintro ⟨⟨j, x⟩, hx, a', ha, rfl, rfl⟩
    cases x with
    | take a queued => obtain rfl := Option.some.inj ha; exact ⟨queued, hx⟩
    | record => cases ha
    | push => cases ha
  · rintro ⟨queued, hx⟩
    exact ⟨(i, .take a queued), hx, a, rfl, rfl, rfl⟩

/-- What is sequential was so from the start. -/
theorem Sequential.of_concat (hs : Sequential (h ++ [(i, x)])) : Sequential h := by
  intro k hk hrecord
  have hlater := hs k (by simp; omega)
  rw [List.getElem?_append_left hk, List.take_append_of_le_length (by omega)] at hlater
  exact hlater hrecord

/-- A search that begins finds the others answered. -/
theorem Sequential.answered {r : SearchRequest} (hs : Sequential (h ++ [(i, .record r)])) :
    ∀ j ∈ recorders h, j ∈ takers h := by
  have hlast := hs h.length (by simp)
  rw [List.take_left] at hlast
  exact hlast (by simp [CannedStep.recorded?])

end CannedHistory

end LogQuery
