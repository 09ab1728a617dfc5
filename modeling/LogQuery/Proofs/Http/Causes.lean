import LogQuery.Http.ErrorTree
import Mathlib.Logic.Relation

/-!
# What an error of the backend is caused by

The tree of causes as a relation, without the order in which it is looked through: one step leads to a
cause, a root cause, or the reason of a failed shard. The search, with its list of nodes still to be looked
at, gives the reason of a node that one of its first nodes leads to (`reports_of_search`), and it gives one
whenever there is such a node (`isSome_search`).
-/

namespace LogQuery.ErrorTree

open Relation

/-- One step down the tree of causes. -/
inductive Cause (v : Json) : Json → Prop
  | causedBy {w : Json} : v.member? "caused_by" = some w → Cause v w
  | rootCause {ws : List Json} {w : Json} :
    v.member? "root_cause" = some (.array ws) → w ∈ ws → Cause v w
  | failedShard {ss : List Json} {s w : Json} :
    v.member? "failed_shards" = some (.array ss) → s ∈ ss → s.member? "reason" = some w → Cause v w

/-- The node reports, with this reason, a query string that the backend could not read. -/
def Reports (v : Json) (reason : String) : Prop :=
  v.member? "reason" = some (.text reason) ∧
    (v.member? "type" = some (.text "query_shard_exception") ∧
        (∃ rest, reason = "Failed to parse query [" ++ rest) ∨
      v.member? "type" = some (.text "parse_exception") ∧ ∃ rest, reason = "Cannot parse '" ++ rest)

/-- The error of an answer leads to a node that reports, with this reason, an unreadable query string. -/
def Tells (answer : Json) (reason : String) : Prop :=
  ∃ e v, answer.member? "error" = some e ∧ ReflTransGen Cause e v ∧ Reports v reason

/-! ## One node -/

theorem mem_itemsAt_iff {name : String} {v w : Json} :
    w ∈ itemsAt name v ↔ ∃ ws, v.member? name = some (.array ws) ∧ w ∈ ws := by
  unfold itemsAt
  cases v.member? name with
  | none => simp
  | some u => cases u <;> simp [Json.items]

theorem mem_children_iff {v w : Json} : w ∈ children v ↔ Cause v w := by
  simp only [children, List.mem_append, Option.mem_toList, List.mem_filterMap, mem_itemsAt_iff]
  constructor
  · rintro ((h | ⟨ws, h, hw⟩) | ⟨s, ⟨ss, h, hs⟩, hw⟩)
    · exact .causedBy h
    · exact .rootCause h hw
    · exact .failedShard h hs hw
  · rintro (h | ⟨h, hw⟩ | ⟨h, hs, hw⟩)
    · exact .inl (.inl h)
    · exact .inl (.inr ⟨_, h, hw⟩)
    · exact .inr ⟨_, ⟨_, h, hs⟩, hw⟩

theorem textAt_eq_iff {name s : String} {v : Json} (hs : s ≠ "") :
    textAt name v = s ↔ v.member? name = some (.text s) := by
  unfold textAt
  cases v.member? name with
  | none => simpa using hs.symm
  | some u => cases u <;> simp [Json.text?, hs.symm]

theorem startsWith_iff {s lead : String} : s.startsWith lead = true ↔ ∃ rest, s = lead ++ rest := by
  rw [String.startsWith_string_iff]
  constructor
  · rintro ⟨cs, h⟩
    exact ⟨String.ofList cs, String.toList_inj.1 (by simp [h])⟩
  · rintro ⟨rest, rfl⟩
    simp

theorem isUnreadable_iff {kind reason : String} :
    isUnreadable kind reason = true ↔
      kind = "query_shard_exception" ∧ (∃ rest, reason = "Failed to parse query [" ++ rest) ∨
        kind = "parse_exception" ∧ ∃ rest, reason = "Cannot parse '" ++ rest := by
  simp only [isUnreadable, Bool.or_eq_true, Bool.and_eq_true, decide_eq_true_eq, startsWith_iff]

theorem isUnreadable_empty (kind : String) : isUnreadable kind "" = false := by
  have h₁ : "".startsWith "Failed to parse query [" = false := by decide +kernel
  have h₂ : "".startsWith "Cannot parse '" = false := by decide +kernel
  simp [isUnreadable, h₁, h₂]

/-- A missing type or reason counts as empty, which no type or reason of a report is. -/
theorem reason?_eq_some_iff {v : Json} {reason : String} : reason? v = some reason ↔ Reports v reason := by
  have hread : reason? v = some reason ↔
      textAt "reason" v = reason ∧ isUnreadable (textAt "type" v) reason = true := by
    unfold reason?
    by_cases h : isUnreadable (textAt "type" v) (textAt "reason" v) = true
    · simp only [h, if_true, Option.some.injEq]
      exact ⟨fun e => ⟨e, e ▸ h⟩, And.left⟩
    · simp only [h]
      exact ⟨fun e => absurd e (by simp), fun ⟨e, h'⟩ => absurd (e ▸ h') h⟩
  rw [hread]
  by_cases hr : reason = ""
  · subst hr
    simp [isUnreadable_empty, Reports]
  · rw [textAt_eq_iff hr, isUnreadable_iff, textAt_eq_iff (by decide), textAt_eq_iff (by decide)]
    rfl

/-! ## The search -/

/-- What the search gives is the reason of a node that one of its first nodes leads to. -/
theorem reports_of_search {vs : List Json} {reason : String} (h : search vs = some reason) :
    ∃ v ∈ vs, ∃ w, ReflTransGen Cause v w ∧ Reports w reason := by
  fun_induction search vs with
  | case1 => cases h
  | case2 v rest r hr =>
    obtain rfl := Option.some.inj h
    exact ⟨v, List.mem_cons_self, v, .refl, reason?_eq_some_iff.1 hr⟩
  | case3 v rest hr ih =>
    obtain ⟨u, hu, w, huw, hw⟩ := ih h
    rcases List.mem_append.1 hu with hu | hu
    · have hvu := mem_children_iff.1 (List.mem_reverse.1 hu)
      exact ⟨v, List.mem_cons_self, w, .head hvu huw, hw⟩
    · exact ⟨u, List.mem_cons_of_mem _ hu, w, huw, hw⟩

/-- The search passes over no node: where one of its first nodes leads to a report, it gives one. -/
theorem isSome_search {vs : List Json} {v w : Json} {reason : String} (hv : v ∈ vs)
    (hvw : ReflTransGen Cause v w) (hw : Reports w reason) : (search vs).isSome = true := by
  fun_induction search vs generalizing v with
  | case1 => exact absurd hv List.not_mem_nil
  | case2 => rfl
  | case3 u rest hu ih =>
    rcases List.mem_cons.1 hv with rfl | hv
    · -- `v` itself reports nothing, so the way to `w` starts with a step to one of its causes
      rcases hvw.cases_head with rfl | ⟨x, hvx, hxw⟩
      · rw [reason?_eq_some_iff.2 hw] at hu
        cases hu
      · exact ih (List.mem_append_left _ (List.mem_reverse.2 (mem_children_iff.2 hvx))) hxw
    · exact ih (List.mem_append_right _ hv) hvw

/-! ## Answers -/

theorem tells_of_unreadableReason? {answer : Json} {reason : String}
    (h : unreadableReason? answer = some reason) : Tells answer reason := by
  obtain ⟨e, he, hs⟩ := Option.bind_eq_some_iff.1 h
  obtain ⟨v, hv, w, hvw, hw⟩ := reports_of_search hs
  exact ⟨e, w, he, List.mem_singleton.1 hv ▸ hvw, hw⟩

theorem isSome_unreadableReason? {answer : Json} {reason : String} (h : Tells answer reason) :
    (unreadableReason? answer).isSome = true := by
  obtain ⟨e, w, he, hew, hw⟩ := h
  rw [unreadableReason?, he]
  exact isSome_search List.mem_cons_self hew hw

end LogQuery.ErrorTree
