import Mathlib.Data.Nat.Digits.Defs
import Mathlib.Data.List.Forall2
import Mathlib.Data.List.Induction
import LogQuery.Text.Integer

/-!
# Digits and letters

What a text of digits denotes is the value of its digits in positional notation, and reading it is deciding this
relation (`digitString_iff`, `readNat?_eq_some_iff`). Two characters have the same lower case if they are the two
cases of one letter; so a word may be written in any case just if it is compared in lower case (`map_toLower_eq_iff`).
-/

namespace LogQuery

namespace Text

/-! ## Numerals -/

/-- One or more digits, the most significant one first, with the number they denote. -/
def DigitString (cs : List Char) (n : ℕ) : Prop :=
  ∃ ds : List ℕ, ds ≠ [] ∧ (∀ d ∈ ds, d < 10) ∧ cs = ds.map Nat.digitChar ∧ n = Nat.ofDigits 10 ds.reverse

/-- A digit string, with or without a plus sign before it. -/
inductive CountText : List Char → ℕ → Prop
  | plain {cs : List Char} {n : ℕ} : DigitString cs n → CountText cs n
  | signed {cs : List Char} {n : ℕ} : DigitString cs n → CountText ('+' :: cs) n

theorem isDigit_iff_toNat {c : Char} : c.isDigit = true ↔ 48 ≤ c.toNat ∧ c.toNat ≤ 57 := by
  simp only [Char.isDigit, Bool.and_eq_true, decide_eq_true_eq, ge_iff_le, UInt32.le_iff_toNat_le]
  rfl

theorem digitChar_digitValue {c : Char} (hc : c.isDigit = true) :
    digitValue c < 10 ∧ Nat.digitChar (digitValue c) = c := by
  have hrange : 48 ≤ c.toNat ∧ c.toNat ≤ 57 := isDigit_iff_toNat.1 hc
  have hvalue : digitValue c = c.toNat - 48 := rfl
  have hlt : digitValue c < 10 := by omega
  refine ⟨hlt, Char.toNat_inj.1 ?_⟩
  rw [Nat.toNat_digitChar_of_lt_ten hlt]
  omega

theorem digitValue_digitChar {d : ℕ} (hd : d < 10) : digitValue (Nat.digitChar d) = d :=
  Nat.toNat_digitChar_sub_48_of_lt_ten hd

/-- Reading from the left is the value of the digits in positional notation. -/
theorem ofDigitValues_eq_ofDigits (ds : List ℕ) : ofDigitValues 10 ds = Nat.ofDigits 10 ds.reverse := by
  induction ds using List.reverseRecOn with
  | nil => rfl
  | append_singleton ds d ih =>
    rw [ofDigitValues] at ih
    rw [ofDigitValues, List.foldl_append, ih, List.reverse_append, List.reverse_singleton, List.singleton_append,
      Nat.ofDigits_cons]
    simp only [List.foldl_cons, List.foldl_nil]
    omega

theorem digitString_iff {cs : List Char} {n : ℕ} :
    DigitString cs n ↔ digitsOnly cs = true ∧ ofDigitChars cs = n := by
  rw [digitsOnly, Bool.and_eq_true, Bool.not_eq_true', List.isEmpty_eq_false_iff, List.all_eq_true]
  constructor
  · rintro ⟨ds, hne, hlt, rfl, rfl⟩
    have hvalues : (ds.map Nat.digitChar).map digitValue = ds := by
      rw [List.map_map]
      exact (List.map_congr_left fun d hd => digitValue_digitChar (hlt d hd)).trans (List.map_id ds)
    refine ⟨⟨fun hnil => hne (List.map_eq_nil_iff.1 hnil), fun c hc => ?_⟩, ?_⟩
    · obtain ⟨d, hd, rfl⟩ := List.mem_map.1 hc
      rw [Nat.isDigit_digitChar, decide_eq_true (hlt d hd)]
    · rw [ofDigitChars, hvalues, ofDigitValues_eq_ofDigits]
  · rintro ⟨⟨hne, hall⟩, rfl⟩
    refine ⟨cs.map digitValue, fun hnil => hne (List.map_eq_nil_iff.1 hnil), fun d hd => ?_, ?_,
      ofDigitValues_eq_ofDigits _⟩
    · obtain ⟨c, hc, rfl⟩ := List.mem_map.1 hd
      exact (digitChar_digitValue (hall c hc)).1
    · rw [List.map_map]
      exact ((List.map_congr_left fun c hc => (digitChar_digitValue (hall c hc)).2).trans (List.map_id cs)).symm

/-- A sign is no digit. -/
theorem not_digitString_plus {cs : List Char} {n : ℕ} : ¬ DigitString ('+' :: cs) n := by
  rw [digitString_iff, digitsOnly, List.all_cons]
  simp

theorem readNat?_eq_some_iff {cs : List Char} {n : ℕ} : readNat? cs = some n ↔ CountText cs n := by
  have hdigits : ∀ ds, (if digitsOnly ds then some (ofDigitChars ds) else none) = some n ↔ DigitString ds n := by
    intro ds
    rw [digitString_iff]
    by_cases hds : digitsOnly ds = true <;> simp [hds]
  unfold readNat?
  split
  · next ds =>
    rw [hdigits]
    constructor
    · exact .signed
    · rintro (h | h)
      · exact absurd h not_digitString_plus
      · exact h
  · next hsign =>
    rw [hdigits]
    constructor
    · exact .plain
    · rintro (h | h)
      · exact h
      · exact absurd rfl (hsign _)

/-! ## Letters of either case -/

theorem isLower_iff_toNat {c : Char} : c.isLower = true ↔ 97 ≤ c.toNat ∧ c.toNat ≤ 122 := by
  have hdef : c.isLower = (decide (c.val ≥ 'a'.val) && decide (c.val ≤ 'z'.val)) := rfl
  rw [hdef, Bool.and_eq_true, decide_eq_true_eq, decide_eq_true_eq, ge_iff_le, UInt32.le_iff_toNat_le,
    UInt32.le_iff_toNat_le]
  rfl

theorem toNat_toLower (c : Char) :
    c.toLower.toNat = if 65 ≤ c.toNat ∧ c.toNat ≤ 90 then c.toNat + 32 else c.toNat := by
  have hrange : c.val ≥ 'A'.val ∧ c.val ≤ 'Z'.val ↔ 65 ≤ c.toNat ∧ c.toNat ≤ 90 := by
    simp only [ge_iff_le, UInt32.le_iff_toNat_le]
    rfl
  by_cases hc : c.val ≥ 'A'.val ∧ c.val ≤ 'Z'.val
  · have hn : 65 ≤ c.toNat ∧ c.toNat ≤ 90 := hrange.1 hc
    have hdistance : ('a'.val - 'A'.val).toNat = 32 := by decide
    have hsum : (c.val + ('a'.val - 'A'.val)).toNat = c.toNat + 32 := by
      rw [UInt32.toNat_add, hdistance, ← Char.toNat]
      exact Nat.mod_eq_of_lt (by omega)
    rw [if_pos hn]
    exact (congrArg Char.toNat (dif_pos hc)).trans hsum
  · rw [if_neg fun hn => hc (hrange.2 hn)]
    exact congrArg Char.toNat (dif_neg hc)

theorem toNat_toUpper (c : Char) :
    c.toUpper.toNat = if 97 ≤ c.toNat ∧ c.toNat ≤ 122 then c.toNat - 32 else c.toNat := by
  have hrange : 'a'.val ≤ c.val ∧ c.val ≤ 'z'.val ↔ 97 ≤ c.toNat ∧ c.toNat ≤ 122 := by
    simp only [UInt32.le_iff_toNat_le]
    rfl
  by_cases hc : 'a'.val ≤ c.val ∧ c.val ≤ 'z'.val
  · have hn : 97 ≤ c.toNat ∧ c.toNat ≤ 122 := hrange.1 hc
    have hdistance : ('A'.val - 'a'.val).toNat = 2 ^ 32 - 32 := by decide
    have hsum : (c.val + ('A'.val - 'a'.val)).toNat = c.toNat - 32 := by
      rw [UInt32.toNat_add, hdistance, ← Char.toNat]
      omega
    rw [if_pos hn]
    exact (congrArg Char.toNat (dif_pos hc)).trans hsum
  · rw [if_neg fun hn => hc (hrange.2 hn)]
    exact congrArg Char.toNat (dif_neg hc)

/-- Only the two cases of a letter have it as their lower case. -/
theorem toLower_eq_iff {c l : Char} (hl : 97 ≤ l.toNat ∧ l.toNat ≤ 122) : c.toLower = l ↔ c = l ∨ c = l.toUpper := by
  have hlower := toNat_toLower c
  have hupper := toNat_toUpper l
  rw [if_pos hl] at hupper
  rw [← Char.toNat_inj, ← Char.toNat_inj, ← Char.toNat_inj, hlower, hupper]
  split <;> omega

/-- The letters of the word, each in one of its two cases. -/
def InAnyCase (cs word : List Char) : Prop := List.Forall₂ (fun c l => c = l ∨ c = l.toUpper) cs word

theorem map_toLower_eq_iff {cs word : List Char} (hw : word.all Char.isLower = true) :
    cs.map Char.toLower = word ↔ InAnyCase cs word := by
  induction word generalizing cs with
  | nil => rw [InAnyCase, List.forall₂_nil_right_iff, List.map_eq_nil_iff]
  | cons l ls ih =>
    obtain ⟨hl, hls⟩ := Bool.and_eq_true_iff.1 (List.all_cons ▸ hw)
    cases cs with
    | nil => exact iff_of_false (by simp) fun h => by cases h
    | cons c cs =>
      rw [InAnyCase, List.map_cons, List.cons_eq_cons, List.forall₂_cons, toLower_eq_iff (isLower_iff_toNat.1 hl),
        ih hls, InAnyCase]

end Text

end LogQuery
