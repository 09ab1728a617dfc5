import Mathlib.Data.List.Basic
import Mathlib.Data.List.TakeWhile
import LogQuery.Json.Printer
import LogQuery.Json.Reader

/-!
# Numbers in a text

A number ends where a text stops to be one: what is read of a number on its own is read of it in front of anything
that does not go on with it (`readNumber?_append`). Integers of 64 bits are read as they were written
(`spells_int`). A double is read with one rounding more than it was written with, so that only those are known to
come back which do so on their own (`spells_float`).
-/

namespace LogQuery.Json

open LogQuery.Text

/-! ## A number in front of other text -/

/-- No number goes on with this text. -/
def Delimited (rest : List Char) : Prop :=
  ∀ c ∈ rest.head?, c.isDigit = false ∧ c ≠ '.' ∧ isExponentMark c = false

theorem takeWhile_append_of_stops {p : Char → Bool} {rest : List Char} (h : ∀ c ∈ rest.head?, p c = false)
    (cs : List Char) :
    (cs ++ rest).takeWhile p = cs.takeWhile p ∧ (cs ++ rest).dropWhile p = cs.dropWhile p ++ rest := by
  induction cs with
  | nil =>
    cases rest with
    | nil => exact ⟨rfl, rfl⟩
    | cons c rest =>
      have hc : p c = false := h c rfl
      simp [hc]
  | cons c cs ih =>
    by_cases hc : p c = true
    · simp [hc, ih]
    · simp [hc]

variable {cs rest : List Char}

theorem Delimited.digits (h : Delimited rest) (cs : List Char) :
    (cs ++ rest).takeWhile Char.isDigit = cs.takeWhile Char.isDigit ∧
      (cs ++ rest).dropWhile Char.isDigit = cs.dropWhile Char.isDigit ++ rest :=
  takeWhile_append_of_stops (fun c hc => (h c hc).1) cs

theorem readExponentSign_append (hcs : cs ≠ []) (rest : List Char) :
    readExponentSign (cs ++ rest) = ((readExponentSign cs).1, (readExponentSign cs).2 ++ rest) := by
  obtain ⟨c, cs, rfl⟩ := List.exists_cons_of_ne_nil hcs
  by_cases hminus : c = '-'
  · subst hminus
    rfl
  · by_cases hplus : c = '+'
    · subst hplus
      rfl
    · rw [List.cons_append, readExponentSign, readExponentSign]
      all_goals simp_all

theorem readExponent?_append (h : Delimited rest) {e : Option (Bool × List Char)}
    (hread : readExponent? cs = some (e, [])) : readExponent? (cs ++ rest) = some (e, rest) := by
  cases cs with
  | nil =>
    cases hread
    cases rest with
    | nil => rfl
    | cons c rest =>
      have hmark : isExponentMark c = false := (h c rfl).2.2
      simp [readExponent?, hmark]
  | cons c cs =>
    rw [readExponent?] at hread
    rw [List.cons_append, readExponent?]
    by_cases hmark : isExponentMark c = true
    · have hcs : cs ≠ [] := by
        rintro rfl
        simp [readExponentSign] at hread
      obtain ⟨htake, hdrop⟩ := h.digits (readExponentSign cs).2
      rw [if_pos hmark] at hread ⊢
      dsimp only at hread ⊢
      rw [readExponentSign_append hcs, htake, hdrop]
      split at hread
      · cases hread
      · next hdigits =>
        obtain ⟨rfl, hrest⟩ := Prod.mk.inj (Option.some.inj hread)
        rw [if_neg hdigits, hrest, List.nil_append]
    · rw [if_neg hmark] at hread
      cases hread

theorem readFraction?_append (h : Delimited rest) {f cs' : List Char} (hread : readFraction? cs = some (f, cs')) :
    readFraction? (cs ++ rest) = some (f, cs' ++ rest) := by
  cases cs with
  | nil =>
    cases hread
    cases rest with
    | nil => rfl
    | cons c rest =>
      have hpoint : c ≠ '.' := (h c rfl).2.1
      rw [List.nil_append, readFraction?]
      simp_all
  | cons c cs =>
    by_cases hpoint : c = '.'
    · subst hpoint
      obtain ⟨htake, hdrop⟩ := h.digits cs
      rw [readFraction?] at hread
      rw [List.cons_append, readFraction?, htake, hdrop]
      split at hread
      · cases hread
      · next hdigits =>
        obtain ⟨rfl, rfl⟩ := Prod.mk.inj (Option.some.inj hread)
        rw [if_neg hdigits]
    · rw [readFraction?] at hread
      · cases hread
        rw [List.cons_append, readFraction?]
        simp_all
      · simp_all

/-- Whether a minus sign comes first, and the characters after it. -/
def afterMinus (cs : List Char) : Bool × List Char :=
  if cs.head? = some '-' then (true, cs.tail) else (false, cs)

theorem readNumber?_eq (cs : List Char) :
    readNumber? cs =
      if wholeAllowed ((afterMinus cs).2.takeWhile Char.isDigit) then
        (readFraction? ((afterMinus cs).2.dropWhile Char.isDigit)).bind fun f =>
          (readExponent? f.2).bind fun e =>
            some (⟨(afterMinus cs).1, (afterMinus cs).2.takeWhile Char.isDigit, f.1, e.1⟩, e.2)
      else none := by
  by_cases hminus : cs.head? = some '-'
  · obtain ⟨ds, rfl⟩ : ∃ ds, cs = '-' :: ds := ⟨cs.tail, (List.cons_head?_tail hminus).symm⟩
    rw [readNumber?]
    rfl
  · have hafter : afterMinus cs = (false, cs) := if_neg hminus
    rw [hafter, readNumber?]
    · rfl
    · rintro ds rfl
      exact hminus rfl

theorem afterMinus_append (hcs : cs ≠ []) (rest : List Char) :
    afterMinus (cs ++ rest) = ((afterMinus cs).1, (afterMinus cs).2 ++ rest) := by
  rw [afterMinus, afterMinus, List.head?_append_of_ne_nil _ hcs, List.tail_append_of_ne_nil hcs]
  split <;> rfl

/-- A number that takes up a text takes up as much of a longer one. -/
theorem readNumber?_append (h : Delimited rest) {n : NumberText} (hread : readNumber? cs = some (n, [])) :
    readNumber? (cs ++ rest) = some (n, rest) := by
  have hcs : cs ≠ [] := by
    rintro rfl
    cases hread
  obtain ⟨htake, hdrop⟩ := h.digits (afterMinus cs).2
  rw [readNumber?_eq] at hread
  obtain ⟨hallowed, hread⟩ := Option.ite_none_right_eq_some.1 hread
  obtain ⟨⟨f, cs₁⟩, hfraction, hread⟩ := Option.bind_eq_some_iff.1 hread
  obtain ⟨⟨e, cs₂⟩, hexponent, hread⟩ := Option.bind_eq_some_iff.1 hread
  cases hread
  rw [readNumber?_eq, afterMinus_append hcs, htake, hdrop, if_pos hallowed, readFraction?_append h hfraction,
    Option.bind_some, readExponent?_append h hexponent, Option.bind_some]

/-! ## Characters of numbers -/

/-- The characters that numbers are written with. -/
def isNumberChar (c : Char) : Bool := c.isDigit || ['-', '+', '.', 'e'].contains c

theorem ne_of_isNumberChar {c d : Char} (hc : isNumberChar c = true) (hd : isNumberChar d = false) : c ≠ d := by
  rintro rfl
  exact Bool.eq_false_iff.1 hd hc

theorem isSpace_of_isNumberChar {c : Char} (hc : isNumberChar c = true) : isSpace c = false := by
  simp only [isSpace, Bool.or_eq_false_iff, decide_eq_false_iff_not]
  exact ⟨⟨⟨ne_of_isNumberChar hc (by decide), ne_of_isNumberChar hc (by decide)⟩,
    ne_of_isNumberChar hc (by decide)⟩, ne_of_isNumberChar hc (by decide)⟩

/-- What starts like a number is read as one. -/
theorem readScalar?_number {c : Char} (hc : isNumberChar c = true) (cs : List Char) :
    readScalar? (c :: cs) = (readNumber? (c :: cs)).map fun r => (r.1.toDocument, r.2) := by
  rw [readScalar?]
  · rw [if_neg (ne_of_isNumberChar hc (by decide))]
  · exact fun rest h => absurd h (ne_of_isNumberChar hc (by decide))
  · exact fun rest h => absurd h (ne_of_isNumberChar hc (by decide))
  · exact fun rest h => absurd h (ne_of_isNumberChar hc (by decide))

/-- The text starts like a number and is read to its end, as the document. -/
structure Spells (cs : List Char) (d : Document) : Prop where
  head : ∀ c ∈ cs.head?, isNumberChar c = true
  reads : ∃ n, readNumber? cs = some (n, []) ∧ n.toDocument = d

/-! ## Integers -/

theorem head?_natChars {n : Nat} (hn : n ≠ 0) : (natChars n).head? ≠ some '0' := by
  induction n using Nat.strongRecOn with
  | ind n ih =>
    rw [natChars, Nat.toDigits_eq_if (by decide)]
    split
    · next hlt =>
      intro h
      rw [List.head?_cons, Option.some_inj] at h
      exact hn (Nat.digitChar_eq_zero.1 h)
    · next hle =>
      rw [List.head?_append_of_ne_nil _ Nat.toDigits_ne_nil]
      exact ih (n / 10) (by omega) (by omega)

theorem wholeAllowed_natChars (n : Nat) : wholeAllowed (natChars n) = true := by
  by_cases hn : n = 0
  · subst hn
    decide
  · have hhead := head?_natChars hn
    cases hds : natChars n with
    | nil => exact absurd hds Nat.toDigits_ne_nil
    | cons d ds =>
      rw [hds, List.head?_cons] at hhead
      have hd : d ≠ '0' := fun h => hhead (congrArg some h)
      rw [wholeAllowed]
      · rintro ⟨⟩
      · exact fun h => hd (List.cons.inj h).1
      · exact fun rest h => hd (List.cons.inj h).1

theorem digits_natChars (n : Nat) :
    (natChars n).takeWhile Char.isDigit = natChars n ∧ (natChars n).dropWhile Char.isDigit = [] :=
  ⟨List.takeWhile_eq_self_iff.2 fun _ => natChars_isDigit, List.dropWhile_eq_nil_iff.2 fun _ => natChars_isDigit⟩

theorem readNumber?_natChars (n : Nat) : readNumber? (natChars n) = some (⟨false, natChars n, [], none⟩, []) := by
  have hafter : afterMinus (natChars n) = (false, natChars n) := by
    refine if_neg fun h => ?_
    exact absurd (natChars_isDigit (List.mem_of_mem_head? h)) (by decide)
  rw [readNumber?_eq, hafter, (digits_natChars n).1, (digits_natChars n).2, if_pos (wholeAllowed_natChars n)]
  rfl

theorem readNumber?_minus_natChars (n : Nat) :
    readNumber? ('-' :: natChars n) = some (⟨true, natChars n, [], none⟩, []) := by
  have hafter : afterMinus ('-' :: natChars n) = (true, natChars n) := rfl
  rw [readNumber?_eq, hafter, (digits_natChars n).1, (digits_natChars n).2, if_pos (wholeAllowed_natChars n)]
  rfl

theorem int?_natChars (negative : Bool) (n : Nat) :
    NumberText.int? ⟨negative, natChars n, [], none⟩ =
      if negative then (if 0 < n ∧ Int64.minValue.toInt ≤ -n then some (-(n : Int)) else none)
      else if n < UInt64.size then some (n : Int) else none := by
  have hdigits : ofDigitChars (natChars n) = n := ofDigitChars_natChars n
  refine (if_pos rfl).trans ?_
  dsimp only
  rw [hdigits]

/-- An integer with or without sign that 64 bits hold is read as it was written. -/
theorem spells_int {i : Int} (hlower : Int64.minValue.toInt ≤ i) (hupper : i < UInt64.size) :
    Spells (intChars i) (.int i) := by
  have hint : ∀ n : NumberText, n.int? = some i → n.toDocument = .int i := fun n h => by
    rw [NumberText.toDocument, h]
  rw [intChars]
  by_cases hi : i < 0
  · rw [if_pos hi]
    refine ⟨fun c hc => ?_, _, readNumber?_minus_natChars _, hint _ ?_⟩
    · cases hc
      decide
    · have hneg : -(i.natAbs : Int) = i := by omega
      rw [int?_natChars, if_pos rfl, hneg, if_pos ⟨by omega, hlower⟩]
  · rw [if_neg hi]
    refine ⟨fun c hc => ?_, _, readNumber?_natChars _, hint _ ?_⟩
    · rw [isNumberChar, natChars_isDigit (List.mem_of_mem_head? hc), Bool.true_or]
    · have hpos : (i.natAbs : Int) = i := by omega
      rw [int?_natChars, if_neg Bool.false_ne_true, if_pos (by omega), hpos]

/-! ## Doubles -/

/-- All of the characters stand in numbers. -/
def NumberChars (cs : List Char) : Prop := ∀ c ∈ cs, isNumberChar c = true

theorem numberChars_nil : NumberChars [] := List.forall_mem_nil _

theorem numberChars_natChars (n : Nat) : NumberChars (natChars n) := fun c hc => by
  rw [isNumberChar, natChars_isDigit hc, Bool.true_or]

theorem NumberChars.append {cs ds : List Char} (hcs : NumberChars cs) (hds : NumberChars ds) :
    NumberChars (cs ++ ds) := fun c hc => (List.mem_append.1 hc).elim (hcs c) (hds c)

theorem NumberChars.cons {c : Char} {cs : List Char} (hc : isNumberChar c = true) (hcs : NumberChars cs) :
    NumberChars (c :: cs) := List.forall_mem_cons.2 ⟨hc, hcs⟩

theorem numberChars_zeros (n : Nat) : NumberChars (List.replicate n '0') := fun c hc => by
  rw [List.eq_of_mem_replicate hc]
  decide

theorem numberChars_positionalChars (layout : Decimal.Layout) {ds : List Char} (hds : NumberChars ds) (places : Int) :
    NumberChars (Decimal.positionalChars layout ds places) := by
  rw [Decimal.positionalChars]
  dsimp only
  split
  · exact .cons (by decide) (.cons (by decide) ((numberChars_zeros _).append hds))
  · split
    · have htake : NumberChars (ds.take (places.toNat + 1)) := fun c hc => hds c (List.mem_of_mem_take hc)
      have hdrop : NumberChars (ds.drop (places.toNat + 1)) := fun c hc => hds c (List.mem_of_mem_drop hc)
      exact htake.append (.cons (by decide) hdrop)
    · refine (hds.append (numberChars_zeros _)).append ?_
      split
      · exact .cons (by decide) (.cons (by decide) numberChars_nil)
      · exact numberChars_nil

theorem numberChars_exponentChars {ds : List Char} (hds : NumberChars ds) (power : Int) :
    NumberChars (Decimal.exponentChars ds power) := by
  have hmark : NumberChars (if power < 0 then ['e', '-'] else ['e', '+']) := by
    split <;> exact .cons (by decide) (.cons (by decide) numberChars_nil)
  have hpower := numberChars_natChars power.natAbs
  rcases ds with _ | ⟨first, _ | ⟨second, rest⟩⟩
  · exact (hds.append hmark).append hpower
  · exact (hds.append hmark).append hpower
  · obtain ⟨hfirst, hrest⟩ := List.forall_mem_cons.1 hds
    exact ((NumberChars.cons hfirst (.cons (by decide) hrest)).append hmark).append hpower

/-- A finite double is written with the characters of numbers. -/
theorem numberChars_finiteChars (layout : Decimal.Layout) (x : Float) : NumberChars (layout.finiteChars x) := by
  have hzero : NumberChars (if layout.showPoint then ['0', '.', '0'] else ['0']) := by
    split
    · exact .cons (by decide) (.cons (by decide) (.cons (by decide) numberChars_nil))
    · exact .cons (by decide) numberChars_nil
  have hscaled : ∀ r, NumberChars (layout.scaledChars r) := fun r => by
    rw [Decimal.Layout.scaledChars]
    split
    · exact numberChars_positionalChars layout (numberChars_natChars _) _
    · exact numberChars_exponentChars (numberChars_natChars _) _
  have hsigned : ∀ cs, NumberChars cs → NumberChars (if Decimal.isNegative x then '-' :: cs else cs) := fun cs hcs => by
    split
    · exact .cons (by decide) hcs
    · exact hcs
  rw [Decimal.Layout.finiteChars]
  cases Decimal.Binary.ofBits? x.toBits with
  | none => exact hsigned _ hzero
  | some b => exact hsigned _ (hscaled b.shortest)

/-! ## What comes back -/

theorem readExponentSign_suffix (cs : List Char) : (readExponentSign cs).2 <:+ cs := by
  unfold readExponentSign
  split
  · exact List.suffix_cons _ _
  · exact List.suffix_cons _ _
  · exact List.suffix_refl _

theorem readExponent?_suffix {cs rest : List Char} {e : Option (Bool × List Char)}
    (h : readExponent? cs = some (e, rest)) : rest <:+ cs := by
  cases cs with
  | nil => cases h; exact List.suffix_refl _
  | cons c cs =>
    rw [readExponent?] at h
    split at h
    · obtain ⟨-, h⟩ := Option.ite_none_left_eq_some.1 h
      cases h
      exact ((List.dropWhile_suffix _).trans (readExponentSign_suffix cs)).trans (List.suffix_cons c cs)
    · cases h
      exact List.suffix_refl _

theorem readFraction?_suffix {cs rest f : List Char} (h : readFraction? cs = some (f, rest)) : rest <:+ cs := by
  unfold readFraction? at h
  split at h
  · obtain ⟨-, h⟩ := Option.ite_none_left_eq_some.1 h
    cases h
    exact (List.dropWhile_suffix _).trans (List.suffix_cons _ _)
  · cases h
    exact List.suffix_refl _

/-- What is left of a text behind a number is its end. -/
theorem readNumber?_suffix {cs rest : List Char} {n : NumberText} (h : readNumber? cs = some (n, rest)) :
    rest <:+ cs := by
  have hafter : (afterMinus cs).2 <:+ cs := by
    rw [afterMinus]
    split
    · exact List.tail_suffix cs
    · exact List.suffix_refl cs
  rw [readNumber?_eq] at h
  obtain ⟨-, h⟩ := Option.ite_none_right_eq_some.1 h
  obtain ⟨⟨f, cs₁⟩, hfraction, h⟩ := Option.bind_eq_some_iff.1 h
  obtain ⟨⟨e, cs₂⟩, hexponent, h⟩ := Option.bind_eq_some_iff.1 h
  cases h
  exact (((readExponent?_suffix hexponent).trans (readFraction?_suffix hfraction)).trans
    (List.dropWhile_suffix _)).trans hafter

theorem eq_float_of_value? {d : Document} {x : Float} (h : d.value? = some (.float x)) : d = .float x := by
  cases d with
  | float y => cases h; rfl
  | array ds =>
    obtain ⟨vs, -, hvs⟩ := Option.map_eq_some_iff.1 h
    cases hvs
  | object ms =>
    obtain ⟨vs, -, hvs⟩ := Option.map_eq_some_iff.1 h
    cases hvs
  | _ => cases h

theorem readValue?_number {cs : List Char} (hne : cs ≠ []) (hcs : NumberChars cs) (steps depth : Nat) :
    readValue? (steps + 1) depth cs = (readNumber? cs).map fun r => (r.1.toDocument, r.2) := by
  obtain ⟨c, cs, rfl⟩ := List.exists_cons_of_ne_nil hne
  have hc : isNumberChar c = true := hcs c List.mem_cons_self
  have hskip : skipSpaces (c :: cs) = c :: cs :=
    List.dropWhile_cons_of_neg (by rw [isSpace_of_isNumberChar hc]; exact Bool.false_ne_true)
  rw [readValue?, hskip]
  dsimp only
  rw [if_neg (ne_of_isNumberChar hc (by decide)), if_neg (ne_of_isNumberChar hc (by decide)),
    readScalar?_number hc]

/-- A number that makes up a text is read to its end. -/
theorem spells_of_document? {cs : List Char} (hcs : NumberChars cs) {d : Document}
    (h : document? (String.ofList cs) = some d) : Spells cs d := by
  refine ⟨fun c hc => hcs c (List.mem_of_mem_head? hc), ?_⟩
  have hne : cs ≠ [] := by
    rintro rfl
    cases h
  rw [document?, String.toList_ofList, readValue?_number hne hcs] at h
  cases hread : readNumber? cs with
  | none =>
    rw [hread] at h
    cases h
  | some r =>
    obtain ⟨n, rest⟩ := r
    rw [hread, Option.map_some] at h
    obtain ⟨hrest, h⟩ := Option.ite_none_right_eq_some.1 h
    have hchars : ∀ c ∈ rest, isSpace c = false := fun c hc =>
      isSpace_of_isNumberChar (hcs c ((readNumber?_suffix hread).subset hc))
    cases rest with
    | nil => exact ⟨n, rfl, Option.some.inj h⟩
    | cons c rest =>
      have hc : isSpace c = false := hchars c List.mem_cons_self
      rw [skipSpaces, List.dropWhile_cons_of_neg (by rw [hc]; exact Bool.false_ne_true)] at hrest
      cases hrest

/-- A double that comes back from its own text comes back from that text wherever it stands. -/
theorem spells_float {x : Float} (h : parse? (toCompact (.float x)) = some (.float x)) :
    Spells (floatChars x) (.float x) := by
  have hfinite : x.isFinite = true := by
    by_contra hx
    have htext : toCompact (.float x) = "null" := by
      rw [toCompact, render, printChars, floatChars, if_neg hx]
    have hnull : parse? "null" = some .null := by rfl
    rw [htext, hnull] at h
    cases h
  have hchars : NumberChars (floatChars x) := by
    rw [floatChars, if_pos hfinite]
    exact numberChars_finiteChars numberLayout x
  rw [parse?, toCompact, render, printChars] at h
  obtain ⟨d, hd, hvalue⟩ := Option.bind_eq_some_iff.1 h
  obtain rfl := eq_float_of_value? hvalue
  exact spells_of_document? hchars hd

end LogQuery.Json
