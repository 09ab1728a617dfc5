import LogQuery.Proofs.Text.DigitsAndLetters

/-!
# Numbers in places

A number is written in a fixed number of places by filling it up with zeros on the left, and is read from them
again (`readPlaces?_padLeft`). Texts with as many places are in the order of their numbers
(`lt_iff_of_readPlaces?`).
-/

namespace LogQuery.Text

/-- The number in so many places, all of them digits. -/
def readPlaces? (width : ℕ) (cs : List Char) : Option ℕ :=
  if cs.length = width ∧ cs.all Char.isDigit = true then some (ofDigitChars cs) else none

variable {cs ds : List Char} {v w m n : ℕ}

theorem readPlaces?_eq_some_iff :
    readPlaces? w cs = some n ↔ cs.length = w ∧ cs.all Char.isDigit = true ∧ ofDigitChars cs = n := by
  unfold readPlaces?
  split
  · next h => simp [h]
  · next h => exact iff_of_false (by simp) fun ⟨hlength, hdigits, _⟩ => h ⟨hlength, hdigits⟩

/-! ## Digits side by side -/

theorem ofDigitChars_nil : ofDigitChars [] = 0 := rfl

theorem ofDigitChars_concat (cs : List Char) (c : Char) :
    ofDigitChars (cs ++ [c]) = ofDigitChars cs * 10 + digitValue c := by
  simp [ofDigitChars, ofDigitValues]

theorem ofDigitChars_append (cs ds : List Char) :
    ofDigitChars (cs ++ ds) = ofDigitChars cs * 10 ^ ds.length + ofDigitChars ds := by
  induction ds using List.reverseRecOn with
  | nil => simp [ofDigitChars_nil]
  | append_singleton ds d ih =>
    rw [← List.append_assoc, ofDigitChars_concat, ofDigitChars_concat, ih, List.length_append,
      List.length_singleton, Nat.pow_succ]
    ring

theorem ofDigitChars_cons (c : Char) (cs : List Char) :
    ofDigitChars (c :: cs) = digitValue c * 10 ^ cs.length + ofDigitChars cs := by
  have h := ofDigitChars_append [c] cs
  rwa [← List.nil_append [c], ofDigitChars_concat, ofDigitChars_nil, Nat.zero_mul, Nat.zero_add] at h

theorem ofDigitChars_lt (h : cs.all Char.isDigit = true) : ofDigitChars cs < 10 ^ cs.length := by
  induction cs with
  | nil => exact Nat.one_pos
  | cons c cs ih =>
    rw [List.all_cons, Bool.and_eq_true] at h
    have hc := (digitChar_digitValue h.1).1
    have hcs := ih h.2
    rw [ofDigitChars_cons, List.length_cons, Nat.pow_succ]
    have hplaces : digitValue c * 10 ^ cs.length ≤ 9 * 10 ^ cs.length := Nat.mul_le_mul_right _ (by omega)
    omega

theorem readPlaces?_append (h : readPlaces? v cs = some m) (h' : readPlaces? w ds = some n) :
    readPlaces? (v + w) (cs ++ ds) = some (m * 10 ^ w + n) := by
  obtain ⟨rfl, hcs, rfl⟩ := readPlaces?_eq_some_iff.1 h
  obtain ⟨rfl, hds, rfl⟩ := readPlaces?_eq_some_iff.1 h'
  refine readPlaces?_eq_some_iff.2 ⟨List.length_append, ?_, ofDigitChars_append cs ds⟩
  rw [List.all_append, hcs, hds, Bool.and_self]

/-- The first places hold what the number is without the others. -/
theorem readPlaces?_take (h : readPlaces? w cs = some n) (hv : v ≤ w) :
    readPlaces? v (cs.take v) = some (n / 10 ^ (w - v)) := by
  obtain ⟨rfl, hcs, rfl⟩ := readPlaces?_eq_some_iff.1 h
  rw [← List.take_append_drop v cs, List.all_append, Bool.and_eq_true] at hcs
  refine readPlaces?_eq_some_iff.2 ⟨List.length_take_of_le hv, hcs.1, ?_⟩
  have hdrop := ofDigitChars_lt hcs.2
  have hsum := ofDigitChars_append (cs.take v) (cs.drop v)
  rw [List.take_append_drop] at hsum
  rw [List.length_drop] at hdrop hsum
  rw [hsum, Nat.mul_comm, Nat.mul_add_div (Nat.pow_pos (by decide)), Nat.div_eq_of_lt hdrop, Nat.add_zero]

/-! ## Filling up with zeros -/

theorem all_isDigit_padLeft (h : cs.all Char.isDigit = true) : (padLeft '0' w cs).all Char.isDigit = true := by
  rw [padLeft, List.all_append, h, Bool.and_true, List.all_replicate]
  simp

theorem ofDigitChars_padLeft (w : ℕ) (cs : List Char) : ofDigitChars (padLeft '0' w cs) = ofDigitChars cs := by
  have hzeros : ∀ k, ofDigitChars (List.replicate k '0') = 0 := by
    intro k
    induction k with
    | zero => rfl
    | succ k ih =>
      rw [List.replicate_succ, ofDigitChars_cons, ih]
      simp [digitValue]
  rw [padLeft, ofDigitChars_append, hzeros, Nat.zero_mul, Nat.zero_add]

theorem all_isDigit_natChars (n : ℕ) : (natChars n).all Char.isDigit = true :=
  List.all_eq_true.2 fun _ => natChars_isDigit

/-- A number takes no more places than it needs. -/
theorem length_natChars_le (hw : 0 < w) (hn : n < 10 ^ w) : (natChars n).length ≤ w :=
  (Nat.length_toDigits_le_iff (by decide) hw).2 hn

/-- **A number that has room in some places** is read from them. -/
theorem readPlaces?_padLeft (hw : 0 < w) (hn : n < 10 ^ w) :
    readPlaces? w (padLeft '0' w (natChars n)) = some n := by
  have hlength := length_natChars_le hw hn
  refine readPlaces?_eq_some_iff.2 ⟨?_, all_isDigit_padLeft (all_isDigit_natChars n), ?_⟩
  · rw [padLeft, List.length_append, List.length_replicate]
    omega
  · rw [ofDigitChars_padLeft, ofDigitChars_natChars]

/-! ## The order of numbers -/

theorem lt_iff_digitValue_lt {c d : Char} (hc : c.isDigit = true) (hd : d.isDigit = true) :
    c < d ↔ digitValue c < digitValue d := by
  have hrange := isDigit_iff_toNat.1 hc
  have hrange' := isDigit_iff_toNat.1 hd
  have hvalue : digitValue c = c.toNat - 48 := rfl
  have hvalue' : digitValue d = d.toNat - 48 := rfl
  have htoNat : c < d ↔ c.toNat < d.toNat := UInt32.lt_iff_toNat_lt
  rw [htoNat]
  omega

/-- Of two numbers the first digit decides, and the others only if it is the same. -/
theorem digits_lt_iff {a b p x y : ℕ} (hx : x < p) (hy : y < p) :
    a * p + x < b * p + y ↔ a < b ∨ a = b ∧ x < y := by
  rcases Nat.lt_trichotomy a b with h | rfl | h
  · have hstep : (a + 1) * p ≤ b * p := Nat.mul_le_mul_right p h
    rw [Nat.succ_mul] at hstep
    exact iff_of_true (by omega) (.inl h)
  · simp
  · have hstep : (b + 1) * p ≤ a * p := Nat.mul_le_mul_right p h
    rw [Nat.succ_mul] at hstep
    exact iff_of_false (by omega) (by omega)

/-- **Numbers in as many places** are in order just if their texts are. -/
theorem lt_iff_of_readPlaces? (h : readPlaces? w cs = some m) (h' : readPlaces? w ds = some n) :
    cs < ds ↔ m < n := by
  obtain ⟨rfl, hcs, rfl⟩ := readPlaces?_eq_some_iff.1 h
  obtain ⟨hlength, hds, rfl⟩ := readPlaces?_eq_some_iff.1 h'
  clear h h'
  induction cs generalizing ds with
  | nil =>
    obtain rfl := List.length_eq_zero_iff.1 hlength
    simp
  | cons c cs ih =>
    obtain ⟨d, ds, rfl⟩ := List.exists_cons_of_length_eq_add_one hlength
    rw [List.all_cons, Bool.and_eq_true] at hcs hds
    have hlength : ds.length = cs.length := Nat.succ.inj hlength
    have hfirst : c = d ↔ digitValue c = digitValue d := by
      refine ⟨congrArg digitValue, fun hvalue => ?_⟩
      rw [← (digitChar_digitValue hcs.1).2, hvalue, (digitChar_digitValue hds.1).2]
    have hlt := ofDigitChars_lt hcs.2
    have hlt' := ofDigitChars_lt hds.2
    rw [hlength] at hlt'
    rw [List.cons_lt_cons_iff, ofDigitChars_cons, ofDigitChars_cons, hlength, digits_lt_iff hlt hlt',
      lt_iff_digitValue_lt hcs.1 hds.1, hfirst, ih hcs.2 hlength hds.2]

/-- What stands before both of two texts has no say in their order. -/
theorem append_lt_append_iff (before cs ds : List Char) : before ++ cs < before ++ ds ↔ cs < ds := by
  induction before with
  | nil => rfl
  | cons c before ih =>
    rw [List.cons_append, List.cons_append, List.cons_lt_cons_iff, ih]
    simp

end LogQuery.Text
