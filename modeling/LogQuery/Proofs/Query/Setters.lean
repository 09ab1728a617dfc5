import LogQuery.Proofs.Query.WellFormed
import LogQuery.Proofs.Search.QueryCalls
import Mathlib.Data.List.DropRight

/-!
# Calls on a leaf

What a leaf compiles to after any calls of its setters is read off the list of the calls: its weight and the
way its terms join are what was set last, and its approximate matching is what was set last as a whole
with the edit distance that was accepted last since then. Calls that are refused count for nothing.

Main statements: the clause of a leaf after calls (`Leaf.compile_run`), its polarity (`Leaf.polarity_run`),
and calls that set different attributes of a leaf can be made in any order (`Leaf.after_comm`).
-/

namespace LogQuery

/-! ## Weights -/

theorem unpack_zero : (0 : Float).toModel.unpack = .zero .positive := rfl

/-- Among finite numbers, those that are not below zero are at least zero. -/
theorem allowedWeight_iff (x : Float) : AllowedWeight x ↔ x.isFinite = true ∧ 0 ≤ x := by
  have hlt : x < 0 ↔ x.toModel.unpack.lt (0 : Float).toModel.unpack = true := by
    change decide (x.toModel < (0 : Float).toModel) = true ↔ _
    rw [decide_eq_true_iff]
    rfl
  have hle : 0 ≤ x ↔ (0 : Float).toModel.unpack.le x.toModel.unpack = true := by
    change decide ((0 : Float).toModel ≤ x.toModel) = true ↔ _
    rw [decide_eq_true_iff]
    rfl
  refine and_congr_right fun hx => ?_
  change x.toModel.unpack.isFinite = true at hx
  rw [hlt, hle, unpack_zero]
  revert hx
  cases x.toModel.unpack with
  | infinity s => exact Bool.noConfusion
  | notANumber => exact Bool.noConfusion
  | zero s => cases s <;> decide
  | finite s m e hm =>
    cases s with
    | positive => exact fun _ => iff_of_true Bool.noConfusion rfl
    | negative => exact fun _ => iff_of_false (not_not_intro rfl) Bool.noConfusion

theorem Boost.map_weight_ofFloat? (x : Float) :
    (ofFloat? x).map weight = if x.isFinite = true ∧ 0 ≤ x then some x else none := by
  rw [ofFloat?]
  split
  · next h => exact (if_pos ((allowedWeight_iff x).1 h)).symm
  · next h => exact (if_neg (mt (allowedWeight_iff x).2 h)).symm

theorem Boost.ofFloat?_eq_none {x : Float} (hx : ¬ (x.isFinite = true ∧ 0 ≤ x)) : ofFloat? x = none := by
  rw [← Option.map_eq_none_iff, map_weight_ofFloat?, if_neg hx]

/-! ## What calls set -/

/-- What calls set of a leaf. The edit distance is a part of approximate matching. -/
inductive LeafAttribute where
  | polarity
  | boost
  | fuzzy
  | operator
  deriving DecidableEq, Repr

namespace LeafCall

def sets : LeafCall → LeafAttribute
  | polarity _ => .polarity
  | boost _ => .boost
  | fuzzy _ => .fuzzy
  | editDistance _ => .fuzzy
  | operator _ => .operator

def polarity? : LeafCall → Option Polarity
  | polarity p => some p
  | _ => none

/-- The weight that a call sets; one that is not finite or below zero is refused. -/
def weight? : LeafCall → Option Float
  | boost x => if x.isFinite = true ∧ 0 ≤ x then some x else none
  | _ => none

def operator? : LeafCall → Option Operator
  | operator o => some o
  | _ => none

/-- What a call makes of approximate matching, where it sets or clears all of it. -/
def fuzzy? : LeafCall → Option (Option FuzzyConfig)
  | fuzzy f => some f
  | _ => none

/-- The edit distance that a call sets; one that is too far is refused. -/
def distance? : LeafCall → Option EditDistance
  | editDistance n => EditDistance.ofNat? n
  | _ => none

/-- The calls that are not refused. -/
def Accepted : LeafCall → Prop
  | boost x => x.isFinite = true ∧ 0 ≤ x
  | editDistance n => n ≤ maxEditDistance
  | polarity _ | fuzzy _ | operator _ => True

/-- The calls since approximate matching was last set or cleared as a whole. -/
def sinceFuzzy (cs : List LeafCall) : List LeafCall := cs.rtakeWhile fun c => c.fuzzy?.isNone

end LeafCall

open LeafCall

/-- Approximate matching with an edit distance on top of it, if there is one. Where nothing approximate is
asked for, the distance is put on the backend's own parameters. -/
def FuzzyConfig.atDistance (f : Option FuzzyConfig) : Option EditDistance → Option FuzzyConfig
  | some d => some ((f.getD .auto).withDistance d)
  | none => f

/-- Approximate matching after calls: as it was set last as a whole, or else as it was, and on top of it the
edit distance that was accepted last since then. -/
def FuzzyConfig.afterCalls (cs : List LeafCall) (f : Option FuzzyConfig) : Option FuzzyConfig :=
  atDistance ((lastSet? fuzzy? cs).getD f) (lastSet? distance? (sinceFuzzy cs))

def Analysis.afterCalls (cs : List LeafCall) (a : Analysis) : Analysis where
  fuzzy := FuzzyConfig.afterCalls cs a.fuzzy
  operator := (lastSet? operator? cs).or a.operator

/-- Changes the parameters of a clause on analyzed text; others have none. -/
def Clause.mapAnalysis (f : Analysis → Analysis) : Clause → Clause
  | fullText c =>
    fullText { c with
      operator := (f ⟨c.fuzzy, c.operator⟩).operator
      fuzzy := (f ⟨c.fuzzy, c.operator⟩).fuzzy }
  | strict c =>
    strict { c with
      operator := (f ⟨c.fuzzy, c.operator⟩).operator
      fuzzy := (f ⟨c.fuzzy, c.operator⟩).fuzzy }
  | lenient c =>
    lenient { c with
      operator := (f ⟨c.fuzzy, c.operator⟩).operator
      fuzzy := (f ⟨c.fuzzy, c.operator⟩).fuzzy }
  | c => c

/-- The clause of a leaf after calls: the one before with the parameters after the calls, and with the
weight that was accepted last, if any was. -/
def Clause.afterCalls (cs : List LeafCall) (c : Clause) : Clause :=
  match lastSet? weight? cs with
  | some x => (c.mapAnalysis (Analysis.afterCalls cs)).withBoost x
  | none => c.mapAnalysis (Analysis.afterCalls cs)

/-! ## One call -/

namespace LeafCall

/-- What a call makes of approximate matching. -/
def onFuzzy (c : LeafCall) (f : Option FuzzyConfig) : Option FuzzyConfig :=
  FuzzyConfig.atDistance (c.fuzzy?.getD f) c.distance?

def onAnalysis (c : LeafCall) (a : Analysis) : Analysis := ⟨c.onFuzzy a.fuzzy, c.operator?.or a.operator⟩

def boost? : LeafCall → Option Boost
  | boost x => Boost.ofFloat? x
  | _ => none

theorem weight_boost?_getD (c : LeafCall) (b : Boost) :
    (c.boost?.getD b).weight = c.weight?.getD b.weight := by
  cases c with
  | boost x =>
    rw [weight?, ← Boost.map_weight_ofFloat?, boost?]
    cases Boost.ofFloat? x <;> rfl
  | _ => rfl

theorem onAnalysis_comm {c d : LeafCall} (h : c.sets ≠ d.sets) (a : Analysis) :
    d.onAnalysis (c.onAnalysis a) = c.onAnalysis (d.onAnalysis a) := by
  cases c <;> cases d <;> first | rfl | exact absurd rfl h

end LeafCall

namespace Condition

theorem mapAnalysis_mapAnalysis (f g : Analysis → Analysis) (c : Condition) :
    (c.mapAnalysis f).mapAnalysis g = c.mapAnalysis fun a => g (f a) := by
  cases c <;> rfl

theorem mapAnalysis_id (c : Condition) : (c.mapAnalysis fun a => a) = c := by cases c <;> rfl

theorem mapAnalysis_onAnalysis_of_none {d : LeafCall} (hd : d.distance? = none) (hf : d.fuzzy? = none)
    (ho : d.operator? = none) (c : Condition) : c.mapAnalysis d.onAnalysis = c := by
  have hstay : d.onAnalysis = fun a => a := by
    funext a
    rw [LeafCall.onAnalysis, onFuzzy, hd, hf, ho]
    rfl
  rw [hstay, mapAnalysis_id]

/-- The parameters of a condition are those of its clause. -/
theorem compile_mapAnalysis (f : Analysis → Analysis) (c : Condition) :
    (c.mapAnalysis f).compile = c.compile.mapAnalysis f := by
  cases c with
  | strict t q a =>
    simp only [mapAnalysis, compile, strictClause]
    split <;> rfl
  | _ => rfl

end Condition

namespace Clause

theorem mapAnalysis_withBoost (f : Analysis → Analysis) (x : Float) (c : Clause) :
    (c.withBoost x).mapAnalysis f = (c.mapAnalysis f).withBoost x := by
  cases c <;> rfl

theorem withBoost_withBoost (x y : Float) (c : Clause) : (c.withBoost x).withBoost y = c.withBoost y := by
  cases c <;> rfl

end Clause

namespace Leaf

variable (l : Leaf) (c : LeafCall)

theorem withBoost_eq_error {x : Float} (hx : ¬ (x.isFinite = true ∧ 0 ≤ x)) :
    l.withBoost x = .error (.invalidBoost x) := by
  rw [withBoost, Boost.ofFloat?_eq_none hx]

theorem withEditDistance_eq_error {n : Nat} (hn : maxEditDistance < n) :
    l.withEditDistance n = .error (.editDistanceTooFar n) := by
  rw [withEditDistance, EditDistance.ofNat?, dif_neg (Nat.not_le.2 hn)]

theorem exists_apply_iff : (∃ l', c.apply l = .ok l') ↔ c.Accepted := by
  constructor
  · rintro ⟨l', h⟩
    by_contra hc
    cases c with
    | boost x =>
      rw [apply, withBoost_eq_error l hc] at h
      cases h
    | editDistance n =>
      rw [apply, withEditDistance_eq_error l (Nat.lt_of_not_le hc)] at h
      cases h
    | _ => exact hc trivial
  · intro hc
    cases c with
    | boost x =>
      have hx : x.isFinite = true ∧ ¬ x < 0 := (allowedWeight_iff x).2 hc
      exact ⟨_, by rw [apply, withBoost, Boost.ofFloat?, dif_pos hx]⟩
    | editDistance n =>
      have hn : n ≤ maxEditDistance := hc
      exact ⟨_, by rw [apply, withEditDistance, EditDistance.ofNat?, dif_pos hn]⟩
    | _ => exact ⟨_, rfl⟩

/-- **One call.** What it is not about stays, and so does everything when the call is refused. -/
theorem after_eq :
    l.after c =
      ⟨l.condition.mapAnalysis c.onAnalysis, c.polarity?.getD l.polarity, c.boost?.getD l.boost⟩ := by
  cases c with
  | polarity p =>
    rw [Condition.mapAnalysis_onAnalysis_of_none rfl rfl rfl]
    rfl
  | boost x =>
    rw [Condition.mapAnalysis_onAnalysis_of_none rfl rfl rfl]
    cases h : Boost.ofFloat? x <;> simp [after, apply, withBoost, polarity?, boost?, h]
  | editDistance n =>
    cases h : EditDistance.ofNat? n with
    | none =>
      have hd : (LeafCall.editDistance n).distance? = none := h
      rw [Condition.mapAnalysis_onAnalysis_of_none hd rfl rfl]
      simp [after, apply, withEditDistance, polarity?, boost?, h]
    | some d =>
      have hd : (LeafCall.editDistance n).distance? = some d := h
      have hon : (LeafCall.editDistance n).onAnalysis =
          fun a => { a with fuzzy := some ((a.fuzzy.getD .auto).withDistance d) } := by
        funext a
        rw [onAnalysis, onFuzzy, hd]
        rfl
      rw [hon]
      simp [after, apply, withEditDistance, mapAnalysis, polarity?, boost?, h]
  | _ => rfl

/-- **Calls on different attributes** can be made in any order. -/
theorem after_comm {c d : LeafCall} (h : c.sets ≠ d.sets) :
    (l.after c).after d = (l.after d).after c := by
  simp only [after_eq, Condition.mapAnalysis_mapAnalysis, onAnalysis_comm h]
  cases c <;> cases d <;> first | rfl | exact absurd rfl h

end Leaf

/-! ## All calls -/

section Concat

variable (cs : List LeafCall) (c : LeafCall)

/-- A new edit distance replaces one that was put on top before. -/
theorem FuzzyConfig.atDistance_or (f : Option FuzzyConfig) (d e : Option EditDistance) :
    atDistance f (d.or e) = atDistance (atDistance f e) d := by
  cases d <;> cases e <;> rfl

theorem FuzzyConfig.afterCalls_concat (f : Option FuzzyConfig) :
    afterCalls (cs ++ [c]) f = c.onFuzzy (afterCalls cs f) := by
  unfold afterCalls sinceFuzzy
  rw [lastSet?_concat, List.rtakeWhile_concat, onFuzzy]
  cases h : c.fuzzy? with
  | none =>
    simp only [Option.isNone_none, if_true, lastSet?_concat, Option.none_or, Option.getD_none,
      atDistance_or]
  | some g =>
    -- Such a call sets no distance of its own, and those before it no longer count.
    have hd : c.distance? = none := by
      cases c with
      | editDistance n => cases h
      | _ => rfl
    simp [hd, lastSet?]

theorem Analysis.afterCalls_concat (a : Analysis) :
    a.afterCalls (cs ++ [c]) = c.onAnalysis (a.afterCalls cs) := by
  simp only [afterCalls, onAnalysis, FuzzyConfig.afterCalls_concat, lastSet?_concat, Option.or_assoc]

end Concat

namespace Leaf

variable (l : Leaf) (cs : List LeafCall)

theorem run_concat (c : LeafCall) : l.run (cs ++ [c]) = (l.run cs).after c := List.foldl_concat ..

theorem condition_run : (l.run cs).condition = l.condition.mapAnalysis (Analysis.afterCalls cs) := by
  induction cs using List.reverseRecOn with
  | nil => exact l.condition.mapAnalysis_id.symm
  | append_singleton cs c ih =>
    simp only [run_concat, after_eq, ih, Condition.mapAnalysis_mapAnalysis,
      ← Analysis.afterCalls_concat]

theorem polarity_run : (l.run cs).polarity = (lastSet? polarity? cs).getD l.polarity := by
  induction cs using List.reverseRecOn with
  | nil => rfl
  | append_singleton cs c ih => simp only [run_concat, after_eq, ih, lastSet?_concat, Option.getD_or]

theorem weight_run : (l.run cs).boost.weight = (lastSet? weight? cs).getD l.boost.weight := by
  induction cs using List.reverseRecOn with
  | nil => rfl
  | append_singleton cs c ih =>
    simp only [run_concat, after_eq, weight_boost?_getD, ih, lastSet?_concat, Option.getD_or]

/-- **The clause of a leaf after calls.** -/
theorem compile_run : (l.run cs).compile = l.compile.afterCalls cs := by
  have hparts : (l.run cs).compile =
      (l.condition.compile.mapAnalysis (Analysis.afterCalls cs)).withBoost
        ((lastSet? weight? cs).getD l.boost.weight) := by
    rw [compile, condition_run, weight_run, Condition.compile_mapAnalysis]
  rw [hparts, Clause.afterCalls, compile, Clause.mapAnalysis_withBoost]
  cases lastSet? weight? cs with
  | none => rfl
  | some x => exact (Clause.withBoost_withBoost ..).symm

end Leaf

end LogQuery
