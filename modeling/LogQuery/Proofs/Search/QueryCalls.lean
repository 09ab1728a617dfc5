import LogQuery.Search.Query
import Mathlib.Data.List.Induction

/-!
# Calls on a query

Callers change a query by calls on its tree and by calls on its sorting options, in any order. Groups have
the calls on trees too, so a group that is built by them alone says what the tree of the query is to be;
a call that is refused ends either of them with the same fault. The sorting options are what was set last.

Main statements: however the two kinds of calls are mixed, the query is what each kind alone makes of it
(`afterCalls_eq`), and with it the request (`prepare_afterCalls`).
-/

namespace LogQuery

open LogQuery.Text

/-! ## Calls -/

/-- The calls that change the tree of a query, or a group. -/
inductive TreeCall where
  /-- Another group in place of the tree. -/
  | root (g : Group)
  | add (n : Node)
  | or (n : Node)
  | push (o : Operator) (n : Node)
  | group (g : Group)
  | fullText (f : Field) (v : Scalar)
  | term (f : Field) (v : Scalar)
  | range (f : Field) (b : Bounds)
  | strict (t : Target) (s : String)
  | lenient (t : Target) (s : String)

/-- The calls that change the sorting options of a query. -/
inductive SortCall where
  | useSorting
  | noSorting
  | order (o : SortOrder)
  | field (f : Field)

/-- The calls that change a query. -/
inductive QueryCall where
  | tree (c : TreeCall)
  | sort (c : SortCall)

namespace TreeCall

def onGroup (g : Group) : TreeCall → Except QueryError Group
  | root h => .ok h
  | add n => .ok (g.add n)
  | or n => .ok (g.or n)
  | push o n => .ok (g.push o n)
  | group h => .ok (g.add h.toNode)
  | fullText f v => .ok (g.fullText f v)
  | term f v => .ok (g.term f v)
  | range f b => .ok (g.range f b)
  | strict t s => g.strict t s
  | lenient t s => g.lenient t s

def onQuery (q : BooleanQuery) : TreeCall → Except QueryError BooleanQuery
  | root h => .ok (q.withRoot h)
  | add n => .ok (q.add n)
  | or n => .ok (q.or n)
  | push o n => .ok (q.push o n)
  | group h => .ok (q.add h.toNode)
  | fullText f v => .ok (q.fullText f v)
  | term f v => .ok (q.term f v)
  | range f b => .ok (q.range f b)
  | strict t s => q.strict t s
  | lenient t s => q.lenient t s

/-- Whether the call is one that is never refused, or a query string on text that is not blank. -/
def accepted : TreeCall → Bool
  | strict _ s | lenient _ s => !allBlank s
  | _ => true

end TreeCall

namespace SortCall

def apply (q : BooleanQuery) : SortCall → BooleanQuery
  | useSorting => q.useSorting
  | noSorting => q.noSorting
  | order o => q.withSortOrder o
  | field f => q.sortOn f

/-- Whether the call turns sorting on or off. -/
def switch? : SortCall → Option Bool
  | useSorting => some true
  | noSorting => some false
  | _ => none

def order? : SortCall → Option SortOrder
  | order o => some o
  | _ => none

def field? : SortCall → Option Field
  | field f => some f
  | _ => none

end SortCall

namespace QueryCall

def apply (q : BooleanQuery) : QueryCall → Except QueryError BooleanQuery
  | tree c => c.onQuery q
  | sort c => .ok (c.apply q)

def tree? : QueryCall → Option TreeCall
  | tree c => some c
  | sort _ => none

def sort? : QueryCall → Option SortCall
  | tree _ => none
  | sort c => some c

/-- The calls on the tree, in their order. -/
def trees (cs : List QueryCall) : List TreeCall := cs.filterMap tree?

/-- The calls on the sorting options, in their order. -/
def sorts (cs : List QueryCall) : List SortCall := cs.filterMap sort?

end QueryCall

/-- The query after the calls, or the fault of the first one that is refused. -/
def BooleanQuery.afterCalls (q : BooleanQuery) (cs : List QueryCall) : Except QueryError BooleanQuery :=
  cs.foldlM QueryCall.apply q

/-- The group after the calls, or the fault of the first one that is refused. -/
def Group.afterCalls (g : Group) (cs : List TreeCall) : Except QueryError Group :=
  cs.foldlM TreeCall.onGroup g

/-- What was set last of something that some calls set. -/
def lastSet? {γ α : Type} (sets? : γ → Option α) (cs : List γ) : Option α := (cs.filterMap sets?).getLast?

/-- The sort that the calls ask for: on the last field, if there is one and sorting was turned on last, in
the last order that was set, or else the ascending one. -/
def SortCall.wanted? (cs : List SortCall) : Option SortKey :=
  if lastSet? switch? cs = some true then
    (lastSet? field? cs).map fun f => ⟨f, (lastSet? order? cs).getD .ascending⟩
  else none

/-! ## The tree -/

namespace TreeCall

/-- **One call on the tree** changes the query as it changes a group. -/
theorem onQuery_eq (q : BooleanQuery) (c : TreeCall) : c.onQuery q = (c.onGroup q.root).map q.withRoot := by
  cases c <;> rfl

theorem exists_onGroup_iff (g : Group) (c : TreeCall) : (∃ h, c.onGroup g = .ok h) ↔ c.accepted = true := by
  have htext : ∀ s, (∃ q, Leaf.requireText (some s) = .ok q) ↔ (!allBlank s) = true := by
    intro s
    rw [Leaf.exists_requireText_iff, Bool.not_eq_true']
  cases c with
  | strict t s =>
    rw [accepted, ← htext]
    cases h : Leaf.requireText (some s) <;>
      simp [onGroup, Group.strict, Leaf.strict, Leaf.strictOf, Except.map, h]
  | lenient t s =>
    rw [accepted, ← htext]
    cases h : Leaf.requireText (some s) <;>
      simp [onGroup, Group.lenient, Leaf.lenient, Leaf.lenientOf, Except.map, h]
  | _ => simp [onGroup, accepted]

end TreeCall

/-- Calls that are each accepted build a group. -/
theorem Group.exists_afterCalls {cs : List TreeCall} (h : ∀ c ∈ cs, c.accepted = true) (g : Group) :
    ∃ g', g.afterCalls cs = .ok g' := by
  induction cs generalizing g with
  | nil => exact ⟨g, rfl⟩
  | cons c cs ih =>
    obtain ⟨hc, hcs⟩ := List.forall_mem_cons.1 h
    obtain ⟨g₁, h₁⟩ := (TreeCall.exists_onGroup_iff g c).2 hc
    obtain ⟨g', h'⟩ := ih hcs g₁
    refine ⟨g', ?_⟩
    rw [afterCalls, List.foldlM_cons, h₁]
    exact h'

/-! ## The sorting options -/

theorem lastSet?_concat {γ α : Type} (sets? : γ → Option α) (cs : List γ) (c : γ) :
    lastSet? sets? (cs ++ [c]) = (sets? c).or (lastSet? sets? cs) := by
  rw [lastSet?, List.filterMap_append]
  cases h : sets? c <;> simp [lastSet?, h]

namespace SortCall

theorem apply_withRoot (q : BooleanQuery) (g : Group) (c : SortCall) :
    c.apply (q.withRoot g) = (c.apply q).withRoot g := by
  cases c <;> rfl

theorem foldl_apply_withRoot (q : BooleanQuery) (g : Group) (cs : List SortCall) :
    cs.foldl apply (q.withRoot g) = (cs.foldl apply q).withRoot g := by
  induction cs generalizing q with
  | nil => rfl
  | cons c cs ih => rw [List.foldl_cons, List.foldl_cons, apply_withRoot, ih]

theorem root_apply (q : BooleanQuery) (c : SortCall) : (c.apply q).root = q.root := by cases c <;> rfl

/-- **The sorting options** are what was set last of each. -/
theorem foldl_apply (q : BooleanQuery) (cs : List SortCall) :
    cs.foldl apply q =
      { q with
        sorting := (lastSet? switch? cs).getD q.sorting
        sortField := (lastSet? field? cs).or q.sortField
        sortOrder := (lastSet? order? cs).getD q.sortOrder } := by
  induction cs using List.reverseRecOn with
  | nil => rfl
  | append_singleton cs c ih =>
    rw [List.foldl_append, ih, lastSet?_concat, lastSet?_concat, lastSet?_concat]
    cases c <;> rfl

theorem index_foldl_apply (q : BooleanQuery) (cs : List SortCall) : (cs.foldl apply q).index = q.index := by
  rw [foldl_apply]

/-- A new query sorts as its calls ask for. -/
theorem sort?_foldl_apply (index : String) (cs : List SortCall) :
    (cs.foldl apply (.ofIndex index)).sort? = wanted? cs := by
  rw [foldl_apply, wanted?, BooleanQuery.sort?]
  cases lastSet? switch? cs with
  | none => rfl
  | some on => cases on <;> simp [BooleanQuery.ofIndex]

end SortCall

/-! ## Both -/

namespace BooleanQuery

open QueryCall

/-- **Calls on the tree and on the sorting options do not meet**: in whatever order they come, the query has
the tree that the former build and the options that the latter set. -/
theorem afterCalls_eq (q : BooleanQuery) (cs : List QueryCall) :
    q.afterCalls cs = (q.root.afterCalls (trees cs)).map ((sorts cs).foldl SortCall.apply q).withRoot := by
  induction cs generalizing q with
  | nil => rfl
  | cons c cs ih =>
    cases c with
    | tree c =>
      have hquery : q.afterCalls (.tree c :: cs) = c.onQuery q >>= (·.afterCalls cs) := rfl
      have hgroup : q.root.afterCalls (trees (.tree c :: cs)) =
          c.onGroup q.root >>= (·.afterCalls (trees cs)) := rfl
      have hsorts : sorts (.tree c :: cs) = sorts cs := rfl
      rw [hquery, hgroup, hsorts, TreeCall.onQuery_eq]
      cases c.onGroup q.root with
      | error e => rfl
      | ok g =>
        change (q.withRoot g).afterCalls cs = (g.afterCalls (trees cs)).map _
        rw [ih, SortCall.foldl_apply_withRoot]
        rfl
    | sort c =>
      have hquery : q.afterCalls (.sort c :: cs) = (c.apply q).afterCalls cs := rfl
      rw [hquery, ih, SortCall.root_apply]
      rfl

end BooleanQuery

namespace SearchClient

open QueryCall

/-- **The request of a query** (`BooleanQuery::prepare_request`) is for the index that the client had when the query
was started; it has the tree that the calls on trees build and the sort that the calls on sorting ask for; and a
page of it differs in the page only. However the two kinds of calls are mixed, the query is the same. -/
theorem prepare_afterCalls (client : SearchClient) {cs : List QueryCall}
    (h : ∀ c ∈ trees cs, c.accepted = true) :
    ∃ q g, client.query.afterCalls cs = .ok q ∧ Group.empty.afterCalls (trees cs) = .ok g ∧
      q.prepare = ⟨client.index.name, g.compile, SortCall.wanted? (sorts cs), none, none⟩ ∧
      (∀ first size, q.preparePage first size =
        { q.prepare with first? := some first, size? := some size }) ∧
      ∀ ds, trees ds = trees cs → sorts ds = sorts cs →
        client.query.afterCalls ds = .ok q := by
  obtain ⟨g, hg⟩ := Group.exists_afterCalls h .empty
  have hq : ∀ ds, trees ds = trees cs → client.query.afterCalls ds =
      .ok (((sorts ds).foldl SortCall.apply client.query).withRoot g) := by
    intro ds hds
    have hroot : client.query.root.afterCalls (trees ds) = .ok g := hds ▸ hg
    rw [BooleanQuery.afterCalls_eq, hroot]
    rfl
  refine ⟨_, g, hq cs rfl, hg, ?_, fun _ _ => rfl, fun ds ht hs => ?_⟩
  · have hsort : ((sorts cs).foldl SortCall.apply client.query).sort? = SortCall.wanted? (sorts cs) :=
      SortCall.sort?_foldl_apply ..
    calc (((sorts cs).foldl SortCall.apply client.query).withRoot g).prepare
        = ⟨((sorts cs).foldl SortCall.apply client.query).index, g.compile,
            ((sorts cs).foldl SortCall.apply client.query).sort?, none, none⟩ := rfl
      _ = ⟨client.index.name, g.compile, SortCall.wanted? (sorts cs), none, none⟩ := by
        rw [hsort, SortCall.index_foldl_apply]
        rfl
  · rw [hq ds ht, hs]

/-! Calls in two orders, with a sort that is turned off and on again. -/

/-- A client in the index of a day. -/
def ofDay : SearchClient := ⟨⟨"ea_", "log", [], "ea_log_20240115"⟩⟩

def mixedCalls : List QueryCall :=
  [.sort .useSorting, .tree (.fullText .message (.text "disk")), .sort (.field .message), .sort .noSorting,
    .tree (.strict .allFields "gc OR heap"), .sort (.order .descending),
    .tree (.or (.leaf (.term .level (.text "WARN")))), .sort (.field .level), .sort .useSorting]

def sortedCalls : List QueryCall :=
  (trees mixedCalls).map .tree ++ (sorts mixedCalls).map .sort

theorem prepare_mixedCalls :
    (∀ c ∈ trees mixedCalls, c.accepted = true) ∧
      ∃ q, ofDay.query.afterCalls mixedCalls = .ok q ∧ ofDay.query.afterCalls sortedCalls = .ok q ∧
        q.prepare.sort = some ⟨.level, .descending⟩ ∧ q.prepare.index = "ea_log_20240115" := by
  have h : ∀ c ∈ trees mixedCalls, c.accepted = true := by decide
  obtain ⟨q, g, hq, -, hr, -, hmixed⟩ := prepare_afterCalls ofDay h
  refine ⟨h, q, hq, hmixed sortedCalls rfl rfl, ?_, ?_⟩
  · rw [hr]
    rfl
  · rw [hr]
    rfl

end SearchClient

end LogQuery
