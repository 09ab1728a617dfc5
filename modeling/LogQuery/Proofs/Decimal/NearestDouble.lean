import Mathlib.Algebra.Order.Field.Rat
import Mathlib.Data.Rat.Cast.Order
import Mathlib.Algebra.Order.AbsoluteValue.Basic
import Mathlib.Tactic.Linarith
import Mathlib.Tactic.Ring
import Mathlib.Tactic.Positivity
import Mathlib.Tactic.FieldSimp
import Mathlib.Tactic.NormNum
import LogQuery.Query.Scalar

/-!
# The nearest double

A natural number of more than 53 bits loses the lowest of them when it becomes a double. What is lost decides how
the mantissa is rounded: the bit after the mantissa and whether anything is left behind it tell on which side of
the half the number lies (`Represents`), and shifting one more bit out keeps that (`Represents.shiftRightOne`).

Main statement: the double that a large natural number becomes is the nearest one, and of two that are equally
near the one with an even mantissa (`isNearest_ofNat`).
-/

namespace LogQuery.Double

open Float.Model Float.Model.UnpackedFloat

/-! ## Rounding a mantissa -/

/-- The mantissa and the bit after it, as a number. -/
def halves (em : ExtendedMantissa) : ℚ := em.mantissa + em.roundBit.toNat / 2

/-- What the mantissa and its two bits tell of a number: it is where they say, or less than a half above. -/
def Represents (em : ExtendedMantissa) (x : ℚ) : Prop :=
  if em.stickyBit then halves em < x ∧ x < halves em + 1 / 2 else x = halves em

theorem represents_exact (m : ℕ) : Represents (ExtendedMantissa.ofMantissaAndAccuracy m .exact) m := by
  show (m : ℚ) = m + (Bool.toNat false : ℕ) / 2
  simp

theorem halves_shiftRightOne (em : ExtendedMantissa) : halves em.shiftRightOne = (em.mantissa : ℚ) / 2 := by
  have hbit : (em.mantissa % 2 != 0).toNat = em.mantissa % 2 := by
    obtain h | h := Nat.mod_two_eq_zero_or_one em.mantissa <;> simp [h]
  have hdiv : (em.mantissa : ℚ) = 2 * (em.mantissa / 2 : ℕ) + (em.mantissa % 2 : ℕ) := by
    exact_mod_cast (Nat.div_add_mod em.mantissa 2).symm
  show ((em.mantissa / 2 : ℕ) : ℚ) + ((em.mantissa % 2 != 0).toNat : ℚ) / 2 = em.mantissa / 2
  rw [hbit]
  linarith

theorem Represents.shiftRightOne {em : ExtendedMantissa} {x : ℚ} (h : Represents em x) :
    Represents em.shiftRightOne (x / 2) := by
  have hsticky : em.shiftRightOne.stickyBit = (em.roundBit || em.stickyBit) := rfl
  rw [Represents, halves_shiftRightOne, hsticky]
  rw [Represents, halves] at h
  generalize em.roundBit = r at h ⊢
  generalize em.stickyBit = s at h ⊢
  cases r <;> cases s <;> simp at h ⊢
  · exact h
  · constructor <;> linarith
  · constructor <;> linarith
  · constructor <;> linarith

theorem Represents.shiftRight {em : ExtendedMantissa} {x : ℚ} (h : Represents em x) (k : ℕ) :
    Represents (em >>> k) (x / 2 ^ k) := by
  induction k with
  | zero =>
    have hstart : em >>> 0 = em := rfl
    rwa [hstart, pow_zero, div_one]
  | succ k ih =>
    have hstep : em >>> (k + 1) = (em >>> k).shiftRightOne := rfl
    rw [hstep, pow_succ, ← div_div]
    exact ih.shiftRightOne

/-- The integer nearest to the number, the even one of two. -/
def Rounds (r : ℕ) (x : ℚ) : Prop := |(r : ℚ) - x| < 1 / 2 ∨ |(r : ℚ) - x| = 1 / 2 ∧ r % 2 = 0

theorem Represents.rounds {em : ExtendedMantissa} {x : ℚ} (h : Represents em x) : Rounds em.roundedMantissa x := by
  rw [Represents, halves] at h
  obtain ⟨m, r, s⟩ := em
  cases r <;> cases s <;> simp at h
  · have hround : ExtendedMantissa.roundedMantissa ⟨m, false, false⟩ = m := rfl
    rw [hround, h]
    left
    norm_num
  · have hround : ExtendedMantissa.roundedMantissa ⟨m, false, true⟩ = m := rfl
    rw [hround, Rounds, abs_lt]
    left
    constructor <;> linarith
  · have hround : ExtendedMantissa.roundedMantissa ⟨m, true, false⟩ = m + m % 2 := rfl
    rw [hround, h]
    right
    obtain hm | hm := Nat.mod_two_eq_zero_or_one m
    · rw [hm, add_zero, sub_add_cancel_left, abs_neg]
      have hhalf : (0 : ℚ) < 2⁻¹ := by norm_num
      exact ⟨(abs_of_pos hhalf).trans (by norm_num), by omega⟩
    · rw [hm, Nat.cast_add, Nat.cast_one, add_sub_add_left_eq_sub]
      have hhalf : (0 : ℚ) < 1 - 2⁻¹ := by norm_num
      exact ⟨(abs_of_pos hhalf).trans (by norm_num), by omega⟩
  · have hround : ExtendedMantissa.roundedMantissa ⟨m, true, true⟩ = m + 1 := rfl
    rw [hround, Rounds, abs_lt]
    left
    push_cast
    constructor <;> linarith

theorem Rounds.le_half {r : ℕ} {x : ℚ} (h : Rounds r x) : |(r : ℚ) - x| ≤ 1 / 2 := by
  obtain h | ⟨h, -⟩ := h
  · exact h.le
  · exact h.le

/-- Rounding stays between two integers that the number is between. -/
theorem Rounds.bounds {r a b : ℕ} {x : ℚ} (h : Rounds r x) (ha : (a : ℚ) ≤ x) (hb : x < b) : a ≤ r ∧ r ≤ b := by
  obtain ⟨hlower, hupper⟩ := abs_le.1 h.le_half
  have hra : (a : ℚ) < (r + 1 : ℕ) := by push_cast; linarith
  have hrb : (r : ℚ) < (b + 1 : ℕ) := by push_cast; linarith
  exact ⟨Nat.lt_succ_iff.1 (Nat.cast_lt.1 hra), Nat.lt_succ_iff.1 (Nat.cast_lt.1 hrb)⟩

/-! ## Rounding a natural number -/

theorem targetExponent_eq {t : ℤ} (ht : -1021 ≤ t) : Format.binary64.targetExponent t = t - 53 := by
  have hmin : Format.binary64.minExponent = -1074 := by decide
  have hbits : (Format.binary64.mantissaBits : ℤ) = 53 := by decide
  rw [Format.targetExponent, hmin, hbits]
  omega

/-- A mantissa of `53 + j` bits loses `j` of them. -/
theorem shiftToTargetExponent_eq {m j : ℕ} {e : ℤ} (hlower : 2 ^ (52 + j) ≤ m) (hupper : m < 2 ^ (53 + j))
    (he : -1074 ≤ e) :
    shiftToTargetExponent Format.binary64 m e .exact =
      (ExtendedMantissa.ofMantissaAndAccuracy m .exact >>> j, e + j) := by
  have hpos : 0 < 2 ^ (52 + j) := Nat.two_pow_pos _
  have hlog : m.log2 = 52 + j := (Nat.log2_eq_iff (by omega)).2 ⟨hlower, by rwa [Nat.add_right_comm]⟩
  have htarget : Format.binary64.targetExponent (totalExponent m e) = e + j := by
    rw [totalExponent, hlog, targetExponent_eq (by omega)]
    omega
  have hshift : (e + j - e).toNat = j := by omega
  rw [shiftToTargetExponent, htarget, shiftToExponent, hshift]

/-- A rounded mantissa may have one bit too many; it is then a power of two, of which half is as good. -/
theorem renormalized {r : ℕ} (hlower : 2 ^ 52 ≤ r) (hupper : r ≤ 2 ^ 53) {e : ℤ} (he : -1074 ≤ e) :
    ∃ m e', (shiftToTargetExponent Format.binary64 r e .exact).1.mantissa = m ∧
      (shiftToTargetExponent Format.binary64 r e .exact).2 = e' ∧ 2 ^ 52 ≤ m ∧ m < 2 ^ 53 ∧ e ≤ e' ∧ e' ≤ e + 1 ∧
      (m : ℚ) * 2 ^ e' = r * 2 ^ e ∧ (r % 2 = 0 → m % 2 = 0) := by
  obtain hlt | rfl := hupper.lt_or_eq
  · rw [shiftToTargetExponent_eq (j := 0) hlower hlt he]
    refine ⟨r, e, rfl, by simp, hlower, hlt, le_refl e, by omega, rfl, id⟩
  · rw [shiftToTargetExponent_eq (j := 1) (by norm_num) (by norm_num) he]
    refine ⟨2 ^ 52, e + 1, by rfl, rfl, le_refl _, by norm_num, by omega, le_refl _, ?_, fun _ => by norm_num⟩
    rw [zpow_add₀ two_ne_zero]
    norm_num
    ring

theorem shiftLeft_bounds {n k : ℕ} (hlower : 2 ^ (52 + k) ≤ n) (hupper : n < 2 ^ (53 + k)) :
    2 ^ (52 + (53 + k)) ≤ n * 2 ^ 53 ∧ n * 2 ^ 53 < 2 ^ (53 + (53 + k)) := by
  have hpos : 0 < 2 ^ 53 := Nat.two_pow_pos 53
  have hlow : 2 ^ (52 + (53 + k)) = 2 ^ (52 + k) * 2 ^ 53 := by ring
  have hupp : 2 ^ (53 + (53 + k)) = 2 ^ (53 + k) * 2 ^ 53 := by ring
  rw [hlow, hupp]
  exact ⟨Nat.mul_le_mul_right _ hlower, Nat.mul_lt_mul_of_pos_right hupper hpos⟩

/-- A natural number of `53 + k` bits keeps 53 of them. -/
theorem exists_rounded {n k : ℕ} (hlower : 2 ^ (52 + k) ≤ n) (hupper : n < 2 ^ (53 + k)) :
    ∃ r m e hm, Rounds r (n / 2 ^ k) ∧
      roundWithAccuracy Format.binary64 .positive (n * 2 ^ 53) (-53) .exact = .finite .positive m e hm ∧
      2 ^ 52 ≤ m ∧ m < 2 ^ 53 ∧ (k : ℤ) ≤ e ∧ e ≤ k + 1 ∧ (m : ℚ) * 2 ^ e = r * 2 ^ (k : ℤ) ∧
      (r % 2 = 0 → m % 2 = 0) := by
  obtain ⟨hlow, hupp⟩ := shiftLeft_bounds hlower hupper
  have hfirst := shiftToTargetExponent_eq hlow hupp (by norm_num : (-1074 : ℤ) ≤ -53)
  have hexp : (-53 : ℤ) + (53 + k : ℕ) = k := by omega
  rw [hexp] at hfirst
  have hrounds : Rounds (ExtendedMantissa.ofMantissaAndAccuracy (n * 2 ^ 53) .exact >>> (53 + k)).roundedMantissa
      (n / 2 ^ k) := by
    have hx : (n : ℚ) / 2 ^ k = (n * 2 ^ 53 : ℕ) / 2 ^ (53 + k) := by
      rw [Nat.cast_mul, Nat.cast_pow, Nat.cast_ofNat, pow_add, mul_comm, mul_div_mul_left]
      positivity
    rw [hx]
    exact ((represents_exact _).shiftRight _).rounds
  generalize (ExtendedMantissa.ofMantissaAndAccuracy (n * 2 ^ 53) .exact >>> (53 + k)) = em at hfirst hrounds
  have hpow : (0 : ℚ) < 2 ^ k := by positivity
  have hlowx : ((2 ^ 52 : ℕ) : ℚ) ≤ n / 2 ^ k := by
    rw [le_div_iff₀ hpow]
    exact_mod_cast (pow_add 2 52 k).symm.trans_le hlower
  have huppx : (n : ℚ) / 2 ^ k < (2 ^ 53 : ℕ) := by
    rw [div_lt_iff₀ hpow]
    exact_mod_cast hupper.trans_eq (pow_add 2 53 k)
  obtain ⟨hrlow, hrupp⟩ := hrounds.bounds hlowx huppx
  obtain ⟨m, e, hm, he, hmlow, hmupp, helow, heupp, hvalue, heven⟩ :=
    renormalized hrlow hrupp (by omega : (-1074 : ℤ) ≤ k)
  have hpos : 0 < m := by omega
  refine ⟨em.roundedMantissa, m, e, hpos, hrounds, ?_, hmlow, hmupp, helow, heupp, hvalue, heven⟩
  rw [roundWithAccuracy, hfirst]
  subst hm he
  exact dif_neg hpos.ne'

/-! ## Packing -/

theorem unpackSign_packComponents (S : Format) (s : Sign) (e : BitVec S.exponentBits)
    (m : BitVec S.mantissaBitsWithoutImplicit) : Sign.ofBitVec (unpackSign (packComponents S s e m)) = s := by
  have hbit : unpackSign (packComponents S s e m) = s.toBitVec := by
    ext i hi
    obtain rfl : i = 0 := by omega
    show (BitVec.extractLsb (S.mantissaBitsWithoutImplicit + S.exponentBits)
      (S.mantissaBitsWithoutImplicit + S.exponentBits) (s.toBitVec ++ e ++ m)).getLsbD 0 = _
    simp [BitVec.getLsbD_append, BitVec.getElem_append]
  rw [hbit]
  cases s <;> rfl

theorem toNat_leadingBit (m : BitVec 52) : (1#1 ++ m).toNat = 2 ^ 52 + m.toNat := by
  rw [BitVec.toNat_append, ← Nat.shiftLeft_add_eq_or_of_lt m.isLt]
  rfl

theorem finite_congr {s s' : Sign} {m m' : ℕ} {e e' : ℤ} {hm : 0 < m} {hm' : 0 < m'} (hs : s = s') (hmm : m = m')
    (he : e = e') : UnpackedFloat.finite s m e hm = .finite s' m' e' hm' := by
  subst hs hmm he
  rfl

/-- The leading bit of a mantissa is not stored. -/
theorem pack_finite (s : Sign) {m b : ℕ} {e : ℤ} (hm : 0 < m) (hlower : 2 ^ 52 ≤ m) (hupper : m < 2 ^ 53)
    (hb : e + 1075 = b) (hb' : b + 1 < 2 ^ 11) :
    UnpackedFloat.pack Format.binary64 (.finite s m e hm) =
      packComponents Format.binary64 s (BitVec.ofNat 11 b) (BitVec.ofNat 52 m) := by
  have hlog : m.log2 = 52 := (Nat.log2_eq_iff hm.ne').2 ⟨hlower, hupper⟩
  have hbias : Format.exponentBias Format.binary64 = 1023 := by decide
  have hbiased : (e + (Format.exponentBias Format.binary64 : ℤ) + (52 : ℕ)).toNat = b := by
    rw [hbias]
    omega
  refine (if_neg (Nat.not_le.2 (hbiased ▸ hb'))).trans ((if_pos (congrArg (· + 1) hlog)).trans ?_)
  exact congrArg (fun n => packComponents Format.binary64 s (BitVec.ofNat 11 n) (BitVec.ofNat 52 m)) hbiased

theorem ofNat_ne {b n : ℕ} (hb : b < 2 ^ 11) (hn : n < 2 ^ 11) (h : b ≠ n) : BitVec.ofNat 11 b ≠ BitVec.ofNat 11 n := by
  intro heq
  have hnat := congrArg BitVec.toNat heq
  rw [BitVec.toNat_ofNat, BitVec.toNat_ofNat, Nat.mod_eq_of_lt hb, Nat.mod_eq_of_lt hn] at hnat
  exact h hnat

theorem unpack_normal {b : BitVec Format.binary64.numBits} (hones : unpackExponent b ≠ -1#_)
    (hzero : unpackExponent b ≠ 0#_) :
    ∃ hm, UnpackedFloat.unpack Format.binary64 b =
      .finite (Sign.ofBitVec (unpackSign b)) (1#1 ++ unpackMantissa b).toNat
        ((unpackExponent b).toNat - ((Format.exponentBias Format.binary64 : ℤ) + (52 : ℕ))) hm :=
  ⟨_, (if_neg hones).trans (if_neg hzero)⟩

theorem unpack_components (s : Sign) {m b : ℕ} {e : ℤ} (hm : 0 < m) (hlower : 2 ^ 52 ≤ m) (hupper : m < 2 ^ 53)
    (hb : e + 1075 = b) (hb' : b + 1 < 2 ^ 11) (hpos : 0 < b) :
    UnpackedFloat.unpack Format.binary64
      (packComponents Format.binary64 s (BitVec.ofNat 11 b) (BitVec.ofNat 52 m)) = .finite s m e hm := by
  have hexp : unpackExponent (packComponents Format.binary64 s (BitVec.ofNat 11 b) (BitVec.ofNat 52 m)) =
      BitVec.ofNat 11 b := unpackExponent_packComponents ..
  have hmant : unpackMantissa (packComponents Format.binary64 s (BitVec.ofNat 11 b) (BitVec.ofNat 52 m)) =
      BitVec.ofNat 52 m := unpackMantissa_packComponents ..
  have hones : BitVec.ofNat 11 b ≠ -1#11 := ofNat_ne (n := 2 ^ 11 - 1) (by omega) (by omega) (by omega)
  have hzero : BitVec.ofNat 11 b ≠ 0#11 := ofNat_ne (by omega) (by omega) hpos.ne'
  obtain ⟨hm', hunpack⟩ := unpack_normal (hexp.trans_ne hones) (hexp.trans_ne hzero)
  rw [hunpack]
  refine finite_congr (unpackSign_packComponents ..) ?_ ?_
  · rw [hmant, toNat_leadingBit, BitVec.toNat_ofNat]
    omega
  · have hbias : Format.exponentBias Format.binary64 = 1023 := by decide
    have hnat : (BitVec.ofNat 11 b).toNat = b := by
      rw [BitVec.toNat_ofNat]
      exact Nat.mod_eq_of_lt (by omega)
    rw [hexp, hbias, hnat]
    omega

theorem unpack_pack_finite (s : Sign) {m : ℕ} {e : ℤ} (hm : 0 < m) (hlower : 2 ^ 52 ≤ m) (hupper : m < 2 ^ 53)
    (he : -1074 ≤ e) (he' : e ≤ 971) :
    (Float.Model.pack (.finite s m e hm)).unpack = .finite s m e hm := by
  obtain ⟨b, hb⟩ : ∃ b : ℕ, e + 1075 = b := Int.eq_ofNat_of_zero_le (by omega)
  show UnpackedFloat.unpack Format.binary64
    (UInt64.ofBitVec (UnpackedFloat.pack Format.binary64 (.finite s m e hm))).toBitVec = _
  rw [pack_finite s hm hlower hupper hb (by omega)]
  exact unpack_components s hm hlower hupper hb (by omega) (by omega)

theorem unpack_cases (b : BitVec Format.binary64.numBits) :
    (∃ s, UnpackedFloat.unpack Format.binary64 b = .infinity s) ∨
      UnpackedFloat.unpack Format.binary64 b = .notANumber ∨
      (∃ s, UnpackedFloat.unpack Format.binary64 b = .zero s) ∨
      ∃ s m e hm, m < 2 ^ 53 ∧ UnpackedFloat.unpack Format.binary64 b = .finite s m e hm := by
  by_cases hones : unpackExponent b = -1#_
  · by_cases hmant : unpackMantissa b = 0#_
    · exact .inl ⟨_, (if_pos hones).trans (if_pos hmant)⟩
    · exact .inr (.inl ((if_pos hones).trans (if_neg hmant)))
  · by_cases hexp : unpackExponent b = 0#_
    · by_cases hmant : unpackMantissa b = 0#_
      · exact .inr (.inr (.inl ⟨_, (if_neg hones).trans ((if_pos hexp).trans (dif_pos hmant))⟩))
      · have hlt : (unpackMantissa b).toNat < 2 ^ 53 := Nat.lt_trans (BitVec.isLt _) (by norm_num)
        exact .inr (.inr (.inr ⟨_, _, _, _, hlt, (if_neg hones).trans ((if_pos hexp).trans (dif_neg hmant))⟩))
    · obtain ⟨hm, hunpack⟩ := unpack_normal hones hexp
      exact .inr (.inr (.inr ⟨_, _, _, hm, BitVec.isLt _, hunpack⟩))

/-- No mantissa has more than 53 bits. -/
theorem mantissa_lt {x : Float.Model} {s : Sign} {m : ℕ} {e : ℤ} {hm : 0 < m} (h : x.unpack = .finite s m e hm) :
    m < 2 ^ 53 := by
  obtain ⟨s', hcase⟩ | hcase | ⟨s', hcase⟩ | ⟨s', m', e', hm', hlt, hcase⟩ := unpack_cases x.toBits.toBitVec
  · cases hcase.symm.trans h
  · cases hcase.symm.trans h
  · cases hcase.symm.trans h
  · obtain ⟨-, rfl, -⟩ := UnpackedFloat.finite.inj (hcase.symm.trans h)
    exact hlt

/-! ## The nearest double -/

/-- The number that a finite double is. -/
def value? (x : Float) : Option ℚ :=
  match x.toModel.unpack with
  | .zero _ => some 0
  | .finite s m e _ => some (s.apply m * 2 ^ e)
  | _ => none

/-- The digits of the double end in an even one, in base two. -/
def EvenMantissa (x : Float) : Prop := ∃ s m e hm, x.toModel.unpack = .finite s m e hm ∧ m % 2 = 0

/-- No double is nearer to the number, and another one that is as near has an odd mantissa. -/
def IsNearest (x : Float) (q : ℚ) : Prop :=
  ∃ v, value? x = some v ∧ ∀ y w, value? y = some w →
    |v - q| ≤ |w - q| ∧ (|v - q| = |w - q| → w = v ∨ EvenMantissa x)

theorem toModel_ofNat {n : ℕ} (hn : 2 ^ 53 ≤ n) :
    (Float.ofNat n).toModel = Float.Model.pack (Float.Model.UnpackedFloat.ofScientific Format.binary64 n 0) := by
  have hslow : ¬ (n < 2 ^ 53 ∧ 0 ≤ 22) := by omega
  have hofNat : Float.ofNat n = Float.ofModel (Float.Model.ofScientific n 0) := dif_neg hslow
  rw [hofNat]
  rfl

theorem ofScientific_zero {n : ℕ} (hn : 0 < n) :
    Float.Model.UnpackedFloat.ofScientific Format.binary64 n 0 =
      roundWithAccuracy Format.binary64 .positive (n * 2 ^ 53) (-53) .exact := by
  have h0 : ¬ n = 0 := by omega
  have hbits : (Format.binary64.mantissaBits : ℤ) = 53 := by decide
  rw [Float.Model.UnpackedFloat.ofScientific, dif_neg h0, if_neg (by norm_num), if_neg, if_pos (Int.le_refl 0)]
  · rw [← Nat.shiftLeft_eq, ← Nat.mul_one (n <<< 53)]
    rfl
  · have hwide : (0 : ℤ) ≤ 2 ^ Format.binary64.exponentBits := by positivity
    omega

/-- No integer is nearer than the rounded one. -/
theorem Rounds.nearest {r : ℕ} {x : ℚ} (h : Rounds r x) (z : ℕ) :
    |(r : ℚ) - x| ≤ |(z : ℚ) - x| ∧ (|(r : ℚ) - x| = |(z : ℚ) - x| → z = r ∨ r % 2 = 0) := by
  by_cases hz : z = r
  · exact hz ▸ ⟨le_refl _, fun _ => .inl rfl⟩
  · have hone : (1 : ℚ) ≤ |(z : ℚ) - r| := by
      have hint : (1 : ℤ) ≤ |(z : ℤ) - r| := Int.one_le_abs (by omega)
      exact_mod_cast hint
    have htriangle : |(z : ℚ) - r| ≤ |(z : ℚ) - x| + |(r : ℚ) - x| := by
      have := abs_sub_le (z : ℚ) x r
      rwa [abs_sub_comm x] at this
    obtain hlt | ⟨heq, heven⟩ := h
    · exact ⟨by linarith, fun htie => by linarith⟩
    · exact ⟨by linarith, fun _ => .inr heven⟩

/-- With 53 bits, a number gets to `2 ^ (52 + k)` only in steps of `2 ^ k` or wider ones. -/
theorem exponent_ge {m k : ℕ} {e : ℤ} (hbits : m < 2 ^ 53) (hw : (2 : ℚ) ^ (52 + k) ≤ m * 2 ^ e) : (k : ℤ) ≤ e := by
  by_contra hlt
  have hstep : (0 : ℚ) < 2 ^ e := zpow_pos two_pos e
  have hle : (2 : ℚ) ^ e ≤ 2 ^ ((k : ℤ) - 1) := zpow_le_zpow_right₀ one_le_two (by omega)
  have hprod : (2 : ℚ) ^ 53 * 2 ^ ((k : ℤ) - 1) = 2 ^ (52 + k) := by
    rw [← zpow_natCast, ← zpow_natCast, ← zpow_add₀ two_ne_zero]
    congr 1
    push_cast
    ring
  have hcast : (m : ℚ) < 2 ^ 53 := by exact_mod_cast hbits
  have hsmall : (m : ℚ) * 2 ^ e < 2 ^ 53 * 2 ^ ((k : ℤ) - 1) := mul_lt_mul hcast hle hstep (by positivity)
  exact absurd (hsmall.trans_eq hprod) (not_lt.2 hw)

/-- A double from `2 ^ (52 + k)` on is a whole number of steps of `2 ^ k`. -/
theorem exists_multiple {y : Float} {w : ℚ} (hy : value? y = some w) {k : ℕ} (hw : 2 ^ (52 + k) ≤ w) :
    ∃ z : ℕ, w = z * 2 ^ k := by
  have hpos : (0 : ℚ) < w := lt_of_lt_of_le (by positivity) hw
  cases hunpack : y.toModel.unpack with
  | infinity s => rw [value?, hunpack] at hy; cases hy
  | notANumber => rw [value?, hunpack] at hy; cases hy
  | zero s =>
    rw [value?, hunpack] at hy
    exact absurd (Option.some.inj hy) hpos.ne
  | finite s m e hm =>
    rw [value?, hunpack] at hy
    obtain rfl : (s.apply m : ℚ) * 2 ^ e = w := Option.some.inj hy
    cases s with
    | negative =>
      have hstep : (0 : ℚ) < 2 ^ e := zpow_pos two_pos e
      have hneg : ((Sign.negative.apply m : ℤ) : ℚ) * 2 ^ e ≤ 0 := by
        have : ((Sign.negative.apply m : ℤ) : ℚ) = -m := by simp [Sign.apply]
        rw [this]
        nlinarith [Nat.cast_nonneg (α := ℚ) m]
      exact absurd hneg (not_le.2 hpos)
    | positive =>
      have hsign : ((Sign.positive.apply m : ℤ) : ℚ) = m := by simp [Sign.apply]
      rw [hsign] at hw ⊢
      have he : (k : ℤ) ≤ e := exponent_ge (mantissa_lt hunpack) hw
      obtain ⟨d, hd⟩ := Int.eq_ofNat_of_zero_le (sub_nonneg.2 he)
      refine ⟨m * 2 ^ d, ?_⟩
      obtain rfl : e = k + d := by omega
      rw [zpow_add₀ two_ne_zero, zpow_natCast, zpow_natCast]
      push_cast
      ring

/-- A natural number of more than 53 bits, and of no more than a double can hold, becomes the nearest double. -/
theorem isNearest_ofNat {n : ℕ} (hlower : 2 ^ 53 ≤ n) (hupper : n.log2 < 1023) :
    IsNearest (Float.ofNat n) n := by
  have hne : n ≠ 0 := by omega
  have hlog : 53 ≤ n.log2 := (Nat.le_log2 hne).2 hlower
  obtain ⟨k, hk⟩ : ∃ k, n.log2 = 52 + k := ⟨n.log2 - 52, by omega⟩
  obtain ⟨hnlow, hnupp⟩ := (Nat.log2_eq_iff hne).1 hk
  rw [Nat.add_right_comm] at hnupp
  obtain ⟨r, m, e, hm, hrounds, hround, hmlow, hmupp, helow, heupp, hvalue, heven⟩ := exists_rounded hnlow hnupp
  have hunpack : (Float.ofNat n).toModel.unpack = .finite .positive m e hm := by
    rw [toModel_ofNat hlower, ofScientific_zero (by omega), hround]
    exact unpack_pack_finite .positive hm hmlow hmupp (by omega) (by omega)
  have hpow : (0 : ℚ) < 2 ^ k := by positivity
  have hscale : ∀ z : ℕ, |(z : ℚ) * 2 ^ k - n| = |(z : ℚ) - n / 2 ^ k| * 2 ^ k := by
    intro z
    rw [← abs_of_pos hpow, ← abs_mul, sub_mul, abs_of_pos hpow, div_mul_cancel₀ _ hpow.ne']
  refine ⟨r * 2 ^ k, ?_, fun y w hy => ?_⟩
  · rw [value?, hunpack, ← zpow_natCast (2 : ℚ) k, ← hvalue]
    simp [Sign.apply]
  · by_cases hw : 2 ^ (52 + k) ≤ w
    · obtain ⟨z, rfl⟩ := exists_multiple hy hw
      obtain ⟨hle, htie⟩ := hrounds.nearest z
      rw [hscale, hscale]
      refine ⟨mul_le_mul_of_nonneg_right hle hpow.le, fun heq => ?_⟩
      obtain rfl | hr := htie (mul_right_cancel₀ hpow.ne' heq)
      · exact .inl rfl
      · exact .inr ⟨_, m, e, hm, hunpack, heven hr⟩
    · -- Below the first power of two under the number, that power is nearer and a multiple as well.
      have hpower : |((2 ^ 52 : ℕ) : ℚ) * 2 ^ k - n| = n - 2 ^ (52 + k) := by
        have hcast : ((2 ^ 52 : ℕ) : ℚ) * 2 ^ k = 2 ^ (52 + k) := by rw [pow_add]; norm_num
        have hle : (2 : ℚ) ^ (52 + k) ≤ n := by exact_mod_cast hnlow
        rw [hcast, abs_sub_comm, abs_of_nonneg (sub_nonneg.2 hle)]
      have hle : |(r : ℚ) * 2 ^ k - n| ≤ n - 2 ^ (52 + k) := by
        rw [← hpower, hscale, hscale]
        exact mul_le_mul_of_nonneg_right (hrounds.nearest (2 ^ 52)).1 hpow.le
      have hfar : (n : ℚ) - w ≤ |w - n| := by
        rw [abs_sub_comm]
        exact le_abs_self _
      exact ⟨by linarith, fun heq => by linarith⟩

end LogQuery.Double
