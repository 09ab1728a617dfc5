import LogQuery.Proofs.Computations
import LogQuery.Proofs.Query.Assembly
import LogQuery.Proofs.Search.QueryCalls
import LogQuery.Search.Simplified
import Mathlib.Data.List.DropRight

/-!
# Runs of a flat search

A flat search is changed by calls that add a condition, ask for a page, or take all conditions away; a
condition on blank text is refused and changes nothing. After any calls the search is what its conditions
since the last reset and its last page say (`afterCalls_eq`), and so is the request that running it sends
(`sends_conjunction`).

Running a search that has had neither a condition nor a reset sends nothing. One that has had a condition
sends one request, also after its conditions were taken away, and then it asks for everything
(`sends_of_condition`).
-/

namespace LogQuery

open LogQuery.Text

/-! ## Calls -/

/-- The calls that change a flat search. -/
inductive FlatCall where
  | fullText (f : Field) (v : Scalar)
  | queryText (f : Field) (text : String) (safe : Bool)
  | matching (f : Field) (v : Scalar) (exact : Bool)
  | paginated (first size : UInt32)
  | reset

namespace FlatCall

def apply (s : SimplifiedSearch) : FlatCall → Except SearchError SimplifiedSearch
  | fullText f v => .ok (s.fullText f v)
  | queryText f text safe => s.queryText f text safe
  | matching f v exact => .ok (s.matching f v exact)
  | paginated first size => .ok (s.paginated first size)
  | reset => .ok s.reset

/-- The condition that the call adds; none for blank text. -/
def condition? : FlatCall → Option Condition
  | fullText f v => some (.fullText f v .standard)
  | queryText f text true => (QueryText.ofText? text).map fun q => .lenient (.field f) q .standard
  | queryText f text false => (QueryText.ofText? text).map fun q => .strict (.field f) q .standard
  | matching f v true => some (.term f v)
  | matching f v false => some (.fullText f v .standard)
  | paginated .. | reset => none

def page? : FlatCall → Option (UInt32 × UInt32)
  | paginated first size => some (first, size)
  | _ => none

def isReset : FlatCall → Bool
  | reset => true
  | _ => false

/-- The calls behind the last reset; all of them if there is none. -/
def sinceReset (cs : List FlatCall) : List FlatCall := cs.rtakeWhile fun c => !c.isReset

/-- The conditions that have been added since the last reset. -/
def conditions (cs : List FlatCall) : List Condition := (sinceReset cs).filterMap condition?

/-- The page that was asked for last. -/
def lastPage? (cs : List FlatCall) : Option (UInt32 × UInt32) := (cs.filterMap page?).getLast?

/-- Whether there has been a condition or a reset. -/
def begun (cs : List FlatCall) : Bool := cs.any fun c => c.isReset || c.condition?.isSome

end FlatCall

namespace SimplifiedSearch

/-- The search after one call; one that reports a fault leaves it as it was. -/
def after (s : SimplifiedSearch) (c : FlatCall) : SimplifiedSearch :=
  match c.apply s with
  | .ok s' => s'
  | .error _ => s

def afterCalls (s : SimplifiedSearch) (cs : List FlatCall) : SimplifiedSearch := cs.foldl after s

theorem afterCalls_concat (s : SimplifiedSearch) (cs : List FlatCall) (c : FlatCall) :
    s.afterCalls (cs ++ [c]) = (s.afterCalls cs).after c := List.foldl_concat ..

end SimplifiedSearch

/-! ## What the calls come to -/

/-- Conditions that are all required, as a group. -/
def Group.conjunction (ks : List Condition) : Group := .ofNodes .and (ks.map fun k => .leaf (.of k))

theorem Group.conjunction_concat (ks : List Condition) (k : Condition) :
    conjunction (ks ++ [k]) = (conjunction ks).addLeaf (.of k) := by
  simp [conjunction, ofNodes, addLeaf, add, push]

/-- Conditions that are all required compile to a bool clause that requires the clause of each. -/
theorem Group.compile_conjunction {ks : List Condition} (h : ks ≠ []) :
    (conjunction ks).compile = .bool (ks.map fun k => (Leaf.of k).compile) [] [] := by
  rw [compile, toNode, Node.compile_group, Branch.assemble_required]
  · simp [conjunction, ofNodes, Node.branch, Function.comp_def, Node.compile]
  · simpa [conjunction, ofNodes] using h
  · intro b hb
    obtain ⟨k, -, rfl⟩ : ∃ k ∈ ks, Node.branch (.and, .leaf (.of k)) = b := by
      simpa [conjunction, ofNodes] using hb
    exact ⟨rfl, rfl⟩

namespace FlatCall

variable (cs : List FlatCall) (c : FlatCall)

theorem conditions_concat :
    conditions (cs ++ [c]) = if c.isReset then [] else conditions cs ++ c.condition?.toList := by
  rw [conditions, sinceReset, List.rtakeWhile_concat]
  cases c.isReset with
  | true => rfl
  | false =>
    have hk : [c].filterMap condition? = c.condition?.toList := by cases h : c.condition? <;> simp [h]
    simp [conditions, sinceReset, hk]

theorem lastPage?_concat : lastPage? (cs ++ [c]) = c.page?.or (lastPage? cs) := lastSet?_concat page? cs c

theorem begun_concat : begun (cs ++ [c]) = (begun cs || (c.isReset || c.condition?.isSome)) := by
  simp [begun]

theorem condition?_queryText_eq_none_iff (f : Field) (text : String) (safe : Bool) :
    (queryText f text safe).condition? = none ↔ allBlank text = true := by
  cases safe <;> simp [condition?, QueryText.ofText?]

theorem isReset_eq_false_iff : c.isReset = false ↔ c ≠ .reset := by cases c <;> simp [isReset]

theorem begun_eq_false_iff {cs : List FlatCall} :
    begun cs = false ↔ ∀ c ∈ cs, c ≠ .reset ∧ c.condition? = none := by
  simp [begun, isReset_eq_false_iff]

/-- Where there has been no condition, there is none. -/
theorem conditions_eq_nil {cs : List FlatCall} (h : begun cs = false) : conditions cs = [] := by
  refine List.filterMap_eq_nil_iff.2 fun c hc => ?_
  have hm : c ∈ cs := List.IsSuffix.mem hc (List.rtakeWhile_suffix ..)
  exact (begun_eq_false_iff.1 h c hm).2

end FlatCall

namespace SimplifiedSearch

open FlatCall

theorem queryLeaf_eq (f : Field) (text : String) (safe : Bool) :
    queryLeaf f text safe =
      match (FlatCall.queryText f text safe).condition? with
      | some k => .ok (.of k)
      | none => .error .missingText := by
  cases safe <;> cases h : QueryText.ofText? text <;>
    simp [queryLeaf, Leaf.lenient, Leaf.lenientOf, Leaf.strict, Leaf.strictOf, Leaf.requireText,
      condition?, Except.map, h]

/-- **One call** adds its condition, or else starts over if it is a reset; and it sets its page. -/
theorem after_eq (s : SimplifiedSearch) (c : FlatCall) :
    s.after c =
      { s with
        query :=
          match c.condition? with
          | some k => some (s.started.add (.leaf (.of k)))
          | none => if c.isReset then some s.client.query else s.query
        page := c.page?.or s.page } := by
  cases c with
  | fullText f v => rfl
  | queryText f text safe =>
    rw [after, apply, SimplifiedSearch.queryText, queryLeaf_eq]
    cases (FlatCall.queryText f text safe).condition? <;> rfl
  | matching f v exact => cases exact <;> rfl
  | paginated first size => rfl
  | reset => rfl

/-- **Any calls** on a new search leave the conditions since the last reset and the last page; there is no
query until there has been a condition or a reset. -/
theorem afterCalls_eq (client : SearchClient) (cs : List FlatCall) :
    (ofClient client).afterCalls cs =
      ⟨client, if begun cs then some (client.query.withRoot (.conjunction (conditions cs))) else none,
        lastPage? cs⟩ := by
  induction cs using List.reverseRecOn with
  | nil => rfl
  | append_singleton cs c ih =>
    have hs : ((ofClient client).afterCalls cs).started =
        client.query.withRoot (.conjunction (conditions cs)) := by
      rw [ih, started]
      cases h : begun cs with
      | true => rfl
      | false => rw [conditions_eq_nil h]; rfl
    rw [afterCalls_concat, after_eq, hs, ih, conditions_concat, lastPage?_concat, begun_concat]
    cases hk : c.condition? with
    | some k =>
      have hr : c.isReset = false := c.isReset_eq_false_iff.2 fun h => by simp [h, condition?] at hk
      simp [hr, Group.conjunction_concat, BooleanQuery.withRoot, BooleanQuery.add, BooleanQuery.push,
        BooleanQuery.mapRoot, Group.addLeaf, Group.add]
    | none =>
      cases c.isReset with
      | true =>
        simp only [if_true, Bool.true_or, Bool.or_true]
        rfl
      | false => simp

/-! ## Running the search -/

/-- Running the search sends one request, this one, and brings what is answered to it. -/
def Sends (s : SimplifiedSearch) (r : SearchRequest) : Prop :=
  ∀ (w : FarSide SearchRequest SearchResult) (past : Dialogue SearchRequest SearchResult),
    (s.run w.ask).run past = (w.answer past r, past ++ [(r, w.answer past r)])

/-- Running the search sends no request, and reports that there is no condition. -/
def SendsNothing (s : SimplifiedSearch) : Prop :=
  ∀ (w : FarSide SearchRequest SearchResult) (past : Dialogue SearchRequest SearchResult),
    (s.run w.ask).run past = (.error .emptyQuery, past)

theorem sendsNothing_of_request? {s : SimplifiedSearch} (h : s.request? = none) : s.SendsNothing := by
  intro w past
  rw [run, h]
  rfl

theorem sends_iff {s : SimplifiedSearch} {r : SearchRequest} : s.Sends r ↔ s.request? = some r := by
  constructor
  · intro h
    have hrun := congrArg Prod.snd (h ⟨fun _ _ => .ok .empty⟩ [])
    cases hq : s.request? with
    | none =>
      rw [sendsNothing_of_request? hq] at hrun
      simp at hrun
    | some q =>
      rw [run, hq] at hrun
      simp only [FarSide.run_ask, List.nil_append, List.cons.injEq, Prod.mk.injEq, and_true] at hrun
      rw [hrun]
  · intro h w past
    rw [run, h]
    exact w.run_ask r past

end SimplifiedSearch

namespace FlatCall

/-- The request for all conditions since the last reset, and for the last page. -/
def request (client : SearchClient) (cs : List FlatCall) : SearchRequest :=
  { SearchRequest.of client.index.name (Group.conjunction (conditions cs)).compile with
    first? := (lastPage? cs).map Prod.fst
    size? := (lastPage? cs).map Prod.snd }

/-- The request asks for what the calls ask for. -/
structure Wants (cs : List FlatCall) (r : SearchRequest) : Prop where
  query : r.query = (Group.conjunction (conditions cs)).compile
  everything : conditions cs = [] → r.query = .everything
  required : conditions cs ≠ [] →
    r.query = .bool ((conditions cs).map fun k => (Leaf.of k).compile) [] []
  unsorted : r.sort = none
  first : r.first? = (lastPage? cs).map Prod.fst
  size : r.size? = (lastPage? cs).map Prod.snd

theorem wants_request (client : SearchClient) (cs : List FlatCall) : Wants cs (request client cs) where
  query := rfl
  everything h := by
    rw [request, h]
    rfl
  required := Group.compile_conjunction
  unsorted := rfl
  first := rfl
  size := rfl

end FlatCall

namespace SimplifiedSearch

open FlatCall

theorem request?_afterCalls (client : SearchClient) (cs : List FlatCall) :
    ((ofClient client).afterCalls cs).request? =
      if begun cs then some (FlatCall.request client cs) else none := by
  rw [request?, afterCalls_eq]
  cases begun cs with
  | false => rfl
  | true => cases h : lastPage? cs <;> simp [FlatCall.request, h] <;> rfl

/-- **What a flat search sends** (`SimplifiedSearch::execute`) is said by its conditions since the last reset and
its last page, and the text that it shows is that of the query it sends. A condition on blank text is refused, and
the search goes on as if it had not been tried. -/
theorem sends_conjunction (client : SearchClient) (cs : List FlatCall) :
    (∀ r, ((ofClient client).afterCalls cs).Sends r →
      Wants cs r ∧ ((ofClient client).afterCalls cs).display = r.query.display) ∧
    ∀ f text safe, allBlank text = true → ∀ s : SimplifiedSearch,
      s.queryText f text safe = .error (.query .missingText) ∧
      ∀ later, s.afterCalls (.queryText f text safe :: later) = s.afterCalls later := by
  constructor
  · intro r h
    obtain ⟨hb, rfl⟩ : begun cs = true ∧ FlatCall.request client cs = r := by
      simpa [sends_iff, request?_afterCalls] using h
    refine ⟨wants_request client cs, ?_⟩
    rw [afterCalls_eq, hb]
    rfl
  · intro f text safe hblank s
    have hk := (condition?_queryText_eq_none_iff f text safe).2 hblank
    refine ⟨?_, fun later => ?_⟩
    · rw [SimplifiedSearch.queryText, queryLeaf_eq, hk]
    · rw [afterCalls, List.foldl_cons, after_eq, hk]
      rfl

end SimplifiedSearch

/-! A search for disk faults that is started over, with one query string that is refused. -/

namespace DiskSearch

def client : SearchClient := ⟨⟨"ea_", "log", [], "ea_log_20240115"⟩⟩

def disk : FlatCall := .fullText .message (.text "disk")

def blank : FlatCall := .queryText .message " " false

def errors : FlatCall := .matching .level (.text "ERROR") true

def calls : List FlatCall :=
  [disk, .paginated 0 10, .reset, .queryText .message "disk | memory" true, blank, .paginated 5 20, errors]

end DiskSearch

namespace SimplifiedSearch

open FlatCall

theorem sends_two_conditions :
    let s := (ofClient DiskSearch.client).afterCalls DiskSearch.calls
    let r := FlatCall.request DiskSearch.client DiskSearch.calls
    (s.Sends r ∧ Wants DiskSearch.calls r ∧ s.display = r.query.display) ∧
      s.queryText .message " " false = .error (.query .missingText) := by
  intro s r
  have hs : s.Sends r := sends_iff.2 (request?_afterCalls ..)
  have h := sends_conjunction DiskSearch.client DiskSearch.calls
  exact ⟨⟨hs, h.1 r hs⟩, (h.2 .message " " false (by decide) s).1⟩

/-- **A search that has had a condition sends one request** (`SimplifiedSearch::execute`), which asks for everything
when all conditions were taken away. A search that has had neither a condition nor a reset sends nothing. A query
string that is refused, which is one of blank text, is no condition. -/
theorem sends_of_condition (client : SearchClient) (cs : List FlatCall) :
    ((∀ c ∈ cs, c.condition? = none) → .reset ∉ cs → ((ofClient client).afterCalls cs).SendsNothing) ∧
    ((∃ c ∈ cs, c.condition? ≠ none) →
      ∃ r, ((ofClient client).afterCalls cs).Sends r ∧ (conditions cs = [] → r.query = .everything)) ∧
    ∀ (s : SimplifiedSearch) (f : Field) (text : String) (safe : Bool),
      ((∃ e, s.queryText f text safe = .error e) ↔ (FlatCall.queryText f text safe).condition? = none) ∧
      ((FlatCall.queryText f text safe).condition? = none ↔ allBlank text = true) := by
  refine ⟨fun hk hr => ?_, fun ⟨c, hc, hk⟩ => ?_, fun s f text safe => ⟨?_, ?_⟩⟩
  · have hb : begun cs = false :=
      begun_eq_false_iff.2 fun c hc => ⟨ne_of_mem_of_not_mem hc hr, hk c hc⟩
    exact sendsNothing_of_request? (by simp [request?_afterCalls, hb])
  · have hb : begun cs = true := by
      rw [← Bool.not_eq_false, begun_eq_false_iff]
      exact fun h => hk (h c hc).2
    exact ⟨FlatCall.request client cs, sends_iff.2 (by simp [request?_afterCalls, hb]),
      (wants_request client cs).everything⟩
  · rw [SimplifiedSearch.queryText, queryLeaf_eq]
    cases (FlatCall.queryText f text safe).condition? <;> simp
  · exact condition?_queryText_eq_none_iff f text safe

theorem sends_after_condition :
    ((ofClient DiskSearch.client).afterCalls [DiskSearch.blank, .paginated 5 20]).SendsNothing ∧
      ∃ r, ((ofClient DiskSearch.client).afterCalls [DiskSearch.disk, .reset]).Sends r ∧
        r.query = .everything := by
  have hk : ∀ c ∈ [DiskSearch.blank, .paginated 5 20], c.condition? = none :=
    List.forall_mem_cons.2 ⟨by decide, List.forall_mem_singleton.2 rfl⟩
  have hr : FlatCall.reset ∉ [DiskSearch.blank, .paginated 5 20] := by simp [DiskSearch.blank]
  obtain ⟨r, hs, hq⟩ := (sends_of_condition DiskSearch.client [DiskSearch.disk, .reset]).2.1
    ⟨DiskSearch.disk, .head _, by simp [DiskSearch.disk, condition?]⟩
  exact ⟨(sends_of_condition DiskSearch.client _).1 hk hr, r, hs, hq rfl⟩

/-- Taking the conditions away does not bring a new search back. -/
theorem run_after_reset :
    conditions [DiskSearch.disk, .reset] = [] ∧
      (((ofClient DiskSearch.client).afterCalls [DiskSearch.disk, .reset]).run
          (FarSide.mk fun _ _ => .ok .empty).ask).run [] =
        (.ok .empty, [(.of "ea_log_20240115" .everything, .ok .empty)]) :=
  ⟨rfl, rfl⟩

end SimplifiedSearch

end LogQuery
