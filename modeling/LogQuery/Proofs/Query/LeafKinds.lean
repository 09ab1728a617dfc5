import LogQuery.Proofs.Query.Setters

/-!
# Leaves of one kind

Callers mostly hold a leaf whose kind is known from its type, set what they want on it, and only then make
it a leaf of any kind, which has setters of its own for polarity and weight. A weight can also be set in
place: then the leaf is there afterwards whether or not the weight was accepted.

Setters on both sides of `wrap` do the same (`LeafOf.wrap_after`), so that what is known of calls on leaves
of any kind holds for each kind by itself (`LeafOf.setter_laws`).
-/

namespace LogQuery

open LeafCall

/-! ## Kinds -/

/-- The kinds of leaves. -/
inductive LeafKind where
  | fullText
  | term
  | range
  | strict
  | lenient
  deriving DecidableEq, Repr

/-- What a leaf of a kind asks of a document. -/
inductive Asked : LeafKind → Type where
  | fullText (field : Field) (value : Scalar) (analysis : Analysis) : Asked .fullText
  | term (field : Field) (value : Scalar) : Asked .term
  | range (field : Field) (bounds : Bounds) : Asked .range
  | strict (target : Target) (text : QueryText) (analysis : Analysis) : Asked .strict
  | lenient (target : Target) (text : QueryText) (analysis : Analysis) : Asked .lenient

/-- A leaf of a kind. -/
structure LeafOf (k : LeafKind) where
  asked : Asked k
  polarity : Polarity
  boost : Boost

variable {k : LeafKind}

namespace Asked

def condition : Asked k → Condition
  | fullText f v a => .fullText f v a
  | term f v => .term f v
  | range f b => .range f b
  | strict t q a => .strict t q a
  | lenient t q a => .lenient t q a

/-- Changes the parameters on analyzed text; leaves of the other kinds have none. -/
def mapAnalysis (f : Analysis → Analysis) : Asked k → Asked k
  | fullText fd v a => fullText fd v (f a)
  | term fd v => term fd v
  | range fd b => range fd b
  | strict t q a => strict t q (f a)
  | lenient t q a => lenient t q (f a)

end Asked

namespace LeafOf

/-- The leaf as one of any kind. -/
def wrap (l : LeafOf k) : Leaf := ⟨l.asked.condition, l.polarity, l.boost⟩

def compile (l : LeafOf k) : Clause := l.asked.condition.compile.withBoost l.boost.weight

/-! ## Setters -/

def withPolarity (p : Polarity) (l : LeafOf k) : LeafOf k := { l with polarity := p }

def negated (l : LeafOf k) : LeafOf k := l.withPolarity .unwanted

/-- Sets the weight in place: what is reported, and the leaf afterwards. -/
def setBoost (l : LeafOf k) (x : Float) : Except QueryError Unit × LeafOf k :=
  match Boost.ofFloat? x with
  | some b => (.ok (), { l with boost := b })
  | none => (.error (.invalidBoost x), l)

def withBoost (l : LeafOf k) (x : Float) : Except QueryError (LeafOf k) :=
  (l.setBoost x).1.map fun _ => (l.setBoost x).2

def mapAnalysis (f : Analysis → Analysis) (l : LeafOf k) : LeafOf k :=
  { l with asked := l.asked.mapAnalysis f }

def withFuzzy (f : Option FuzzyConfig) (l : LeafOf k) : LeafOf k :=
  l.mapAnalysis fun a => { a with fuzzy := f }

def withOperator (o : Operator) (l : LeafOf k) : LeafOf k :=
  l.mapAnalysis fun a => { a with operator := some o }

def withEditDistance (l : LeafOf k) (n : Nat) : Except QueryError (LeafOf k) :=
  match EditDistance.ofNat? n with
  | some d => .ok (l.mapAnalysis fun a =>
      { a with fuzzy := some ((a.fuzzy.getD .auto).withDistance d) })
  | none => .error (.editDistanceTooFar n)

/-- The calls of all kinds. One that changes parameters on analyzed text is none of a kind without them, and
changes nothing there. -/
def apply (l : LeafOf k) : LeafCall → Except QueryError (LeafOf k)
  | .polarity p => .ok (l.withPolarity p)
  | .boost x => l.withBoost x
  | .fuzzy f => .ok (l.withFuzzy f)
  | .editDistance n => l.withEditDistance n
  | .operator o => .ok (l.withOperator o)

/-- The leaf after one call. -/
def after (l : LeafOf k) (c : LeafCall) : LeafOf k :=
  match l.apply c with
  | .ok l' => l'
  | .error _ => l

def run (l : LeafOf k) (cs : List LeafCall) : LeafOf k := cs.foldl after l

end LeafOf

/-- Sets the weight in place: what is reported, and the leaf afterwards. -/
def Leaf.setBoost (l : Leaf) (x : Float) : Except QueryError Unit × Leaf :=
  match Boost.ofFloat? x with
  | some b => (.ok (), { l with boost := b })
  | none => (.error (.invalidBoost x), l)

/-! ## Wrapping -/

/-- A weight set in place is the one that a new leaf would have. -/
theorem Leaf.withBoost_eq_setBoost (l : Leaf) (x : Float) :
    l.withBoost x = (l.setBoost x).1.map fun _ => (l.setBoost x).2 := by
  unfold withBoost setBoost
  cases Boost.ofFloat? x <;> rfl

theorem Asked.condition_mapAnalysis (f : Analysis → Analysis) (a : Asked k) :
    (a.mapAnalysis f).condition = a.condition.mapAnalysis f := by
  cases a <;> rfl

theorem Asked.condition_injective : Function.Injective (condition (k := k)) := by
  intro a b h
  cases a <;> cases b <;> cases h <;> rfl

namespace LeafOf

variable (l : LeafOf k)

theorem wrap_injective : Function.Injective (wrap (k := k)) := by
  rintro ⟨a, p, b⟩ ⟨a', p', b'⟩ h
  obtain ⟨ha, hp, hb⟩ := Leaf.mk.inj h
  simp only at ha hp hb
  rw [Asked.condition_injective ha, hp, hb]

theorem wrap_mapAnalysis (f : Analysis → Analysis) :
    (l.mapAnalysis f).wrap = l.wrap.mapAnalysis f := by
  rw [wrap, mapAnalysis, Asked.condition_mapAnalysis]
  rfl

theorem wrap_setBoost (x : Float) : Prod.map id wrap (l.setBoost x) = l.wrap.setBoost x := by
  unfold setBoost Leaf.setBoost
  cases Boost.ofFloat? x <;> rfl

theorem wrap_withBoost (x : Float) : (l.withBoost x).map wrap = l.wrap.withBoost x := by
  rw [Leaf.withBoost_eq_setBoost, ← wrap_setBoost, withBoost]
  obtain ⟨r, l'⟩ := l.setBoost x
  cases r <;> rfl

theorem wrap_withEditDistance (n : Nat) :
    (l.withEditDistance n).map wrap = l.wrap.withEditDistance n := by
  unfold withEditDistance Leaf.withEditDistance
  cases EditDistance.ofNat? n with
  | none => rfl
  | some d => exact congrArg Except.ok (l.wrap_mapAnalysis _)

theorem wrap_apply (c : LeafCall) : (l.apply c).map wrap = c.apply l.wrap := by
  cases c with
  | polarity p => rfl
  | boost x => exact l.wrap_withBoost x
  | fuzzy f => exact congrArg Except.ok (l.wrap_mapAnalysis _)
  | editDistance n => exact l.wrap_withEditDistance n
  | operator o => exact congrArg Except.ok (l.wrap_mapAnalysis _)

/-- **A call on a leaf of one kind** is the call on the leaf of any kind. -/
theorem wrap_after (c : LeafCall) : (l.after c).wrap = l.wrap.after c := by
  rw [after, Leaf.after, ← wrap_apply]
  cases l.apply c <;> rfl

theorem wrap_run (cs : List LeafCall) : (l.run cs).wrap = l.wrap.run cs := by
  induction cs generalizing l with
  | nil => rfl
  | cons c cs ih => exact (ih (l.after c)).trans (congrArg (fun l => Leaf.run l cs) (l.wrap_after c))

theorem after_comm {c d : LeafCall} (h : c.sets ≠ d.sets) :
    (l.after c).after d = (l.after d).after c := by
  apply wrap_injective
  simp only [wrap_after, Leaf.after_comm _ h]

/-! ## Refusals -/

theorem setBoost_eq_error {x : Float} (hx : ¬ (x.isFinite = true ∧ 0 ≤ x)) :
    l.setBoost x = (.error (.invalidBoost x), l) := by
  rw [setBoost, Boost.ofFloat?_eq_none hx]

theorem withBoost_eq_error {x : Float} (hx : ¬ (x.isFinite = true ∧ 0 ≤ x)) :
    l.withBoost x = .error (.invalidBoost x) := by
  rw [withBoost, l.setBoost_eq_error hx]
  rfl

theorem withEditDistance_eq_error {n : Nat} (hn : maxEditDistance < n) :
    l.withEditDistance n = .error (.editDistanceTooFar n) := by
  rw [withEditDistance, EditDistance.ofNat?, dif_neg (Nat.not_le.2 hn)]

theorem exists_apply_iff (c : LeafCall) : (∃ l', l.apply c = .ok l') ↔ c.Accepted := by
  rw [← l.wrap.exists_apply_iff, ← wrap_apply]
  cases l.apply c <;> simp [Except.map]

/-- **Setters, for leaves of each kind and for leaves of any kind** (`LeafQuery`). After calls of which the refused
ones are passed over, the clause of a leaf has the weight and the operator set last, and approximate matching as set
last with the edit distance accepted since then; everything else of it is as before the calls. The polarity is the
one set last, and the clause does not depend on it. A weight or an edit distance that is refused is what the fault
says, and a leaf that is held in place stays as it is. Calls that set different attributes can be made in any order,
and polarity and weight be set before or after wrapping. -/
theorem setter_laws :
    (∀ cs, (l.run cs).compile = l.compile.afterCalls cs ∧
      (l.run cs).polarity = (lastSet? polarity? cs).getD l.polarity) ∧
    (∀ cs, (l.wrap.run cs).compile = l.wrap.compile.afterCalls cs ∧
      (l.wrap.run cs).polarity = (lastSet? polarity? cs).getD l.wrap.polarity) ∧
    (∀ p, (l.withPolarity p).compile = l.compile ∧ (l.wrap.withPolarity p).compile = l.wrap.compile) ∧
    (∀ c : LeafCall, ((∃ l', l.apply c = .ok l') ↔ c.Accepted) ∧
      ((∃ l', c.apply l.wrap = .ok l') ↔ c.Accepted)) ∧
    (∀ x, ¬ (x.isFinite = true ∧ 0 ≤ x) →
      (l.setBoost x = (.error (.invalidBoost x), l) ∧ l.withBoost x = .error (.invalidBoost x)) ∧
      l.wrap.setBoost x = (.error (.invalidBoost x), l.wrap) ∧
        l.wrap.withBoost x = .error (.invalidBoost x)) ∧
    (∀ n, maxEditDistance < n → l.withEditDistance n = .error (.editDistanceTooFar n) ∧
      l.wrap.withEditDistance n = .error (.editDistanceTooFar n)) ∧
    (∀ c d : LeafCall, c.sets ≠ d.sets → (l.after c).after d = (l.after d).after c ∧
      (l.wrap.after c).after d = (l.wrap.after d).after c) ∧
    (∀ p, (l.withPolarity p).wrap = l.wrap.withPolarity p) ∧
    l.negated.wrap = l.wrap.negated ∧
    ∀ x, Prod.map id wrap (l.setBoost x) = l.wrap.setBoost x ∧
      (l.withBoost x).map wrap = l.wrap.withBoost x := by
  have hwrapped : ∀ cs, (l.wrap.run cs).compile = l.wrap.compile.afterCalls cs ∧
      (l.wrap.run cs).polarity = (lastSet? polarity? cs).getD l.wrap.polarity :=
    fun cs => ⟨l.wrap.compile_run cs, l.wrap.polarity_run cs⟩
  refine ⟨fun cs => ?kind, hwrapped, fun p => ⟨rfl, rfl⟩,
    fun c => ⟨l.exists_apply_iff c, l.wrap.exists_apply_iff c⟩,
    fun x hx => ⟨⟨l.setBoost_eq_error hx, l.withBoost_eq_error hx⟩, ?place,
      l.wrap.withBoost_eq_error hx⟩,
    fun n hn => ⟨l.withEditDistance_eq_error hn, l.wrap.withEditDistance_eq_error hn⟩,
    fun c d h => ⟨l.after_comm h, l.wrap.after_comm h⟩, fun p => rfl, rfl,
    fun x => ⟨l.wrap_setBoost x, l.wrap_withBoost x⟩⟩
  case kind =>
    have h := hwrapped cs
    rw [← wrap_run] at h
    exact h
  case place =>
    rw [← wrap_setBoost, l.setBoost_eq_error hx]
    rfl

/-- Full text with an approximate match. -/
def diskFull : LeafOf .fullText :=
  ⟨.fullText .message (.text "disk full") ⟨some ⟨.auto, 10, 1, false⟩, none⟩, .wanted,
    Leaf.standardBoost⟩

/-- Calls of which the third distance and the second weight are refused. -/
def tuning : List LeafCall :=
  [.boost 2.5, .editDistance 1, .fuzzy none, .editDistance 0, .editDistance 3, .boost (-1), .operator .and,
    .editDistance 2, .polarity .unwanted]

theorem setter_laws_tuning :
    ((diskFull.run tuning).compile =
        .fullText ⟨"message", .text "disk full", some .and,
          some ⟨.fixed ⟨2, by decide⟩, 50, 0, true⟩, 2.5⟩ ∧
      (diskFull.run tuning).polarity = .unwanted) ∧
    (diskFull.setBoost (-1)).1 = .error (.invalidBoost (-1)) ∧
    diskFull.withEditDistance 3 = .error (.editDistanceTooFar 3) ∧
    (diskFull.after (.editDistance 2)).after (.operator .and) =
      (diskFull.after (.operator .and)).after (.editDistance 2) := by
  obtain ⟨hrun, -, -, -, hweight, hdistance, hcomm, -⟩ := setter_laws diskFull
  have hneg : ¬ ((-1 : Float).isFinite = true ∧ 0 ≤ (-1 : Float)) := by decide +kernel
  exact ⟨hrun tuning, congrArg Prod.fst (hweight (-1) hneg).1.1, (hdistance 3 (by decide)).1,
    (hcomm (.editDistance 2) (.operator .and) (by decide)).1⟩

end LeafOf

end LogQuery
