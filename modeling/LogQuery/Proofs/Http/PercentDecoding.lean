import Mathlib.Data.List.Basic
import LogQuery.Http.Url

/-!
# Percent signs with two digits

A percent sign with two hexadecimal digits behind it stands for a byte; any other percent sign stands for itself.
So a text is made up of such escapes and of single characters (`escapeInduction`).

Main statements: encoding changes nothing of what is decoded (`percentDecoded_encode`), and decoding keeps the length
of just those texts that have no escape (`length_percentDecoded_eq_iff`).
-/

namespace LogQuery.Http

open LogQuery.Text

/-! ## Bytes -/

/-- The bytes of a text. -/
def utf8 (cs : List Char) : List UInt8 := cs.flatMap bytesOf

@[simp]
theorem utf8_nil : utf8 [] = [] := rfl

@[simp]
theorem utf8_cons (c : Char) (cs : List Char) : utf8 (c :: cs) = bytesOf c ++ utf8 cs := rfl

@[simp]
theorem utf8_append (cs ds : List Char) : utf8 (cs ++ ds) = utf8 cs ++ utf8 ds := List.flatMap_append

theorem length_bytesOf_pos (c : Char) : 0 < (bytesOf c).length := by
  rw [length_bytesOf]
  exact c.utf8Size_pos

/-! ## Escapes -/

/-- Two hexadecimal digits come first. -/
def StartsHex : List Char → Prop
  | a :: b :: _ => isHexDigit a = true ∧ isHexDigit b = true
  | _ => False

theorem percentDecoded_escape {a b : Char} (ha : isHexDigit a = true) (hb : isHexDigit b = true) (cs : List Char) :
    percentDecoded ('%' :: a :: b :: cs) =
      UInt8.ofNat (hexDigitValue a * 16 + hexDigitValue b) :: percentDecoded cs := by
  rw [percentDecoded, ha, hb]
  rfl

theorem percentDecoded_cons {c : Char} {cs : List Char} (h : c = '%' → ¬ StartsHex cs) :
    percentDecoded (c :: cs) = bytesOf c ++ percentDecoded cs := by
  by_cases hc : c = '%'
  · subst hc
    rcases cs with _ | ⟨a, _ | ⟨b, cs⟩⟩
    · rfl
    · rfl
    · have hhex : ¬ (isHexDigit a && isHexDigit b) = true := by
        rw [Bool.and_eq_true]
        exact h rfl
      rw [percentDecoded, if_neg hhex]
  · rw [percentDecoded]
    rintro a b ds rfl
    exact absurd rfl hc

/-- A text is taken apart into escapes and single characters. -/
theorem escapeInduction {P : List Char → Prop} (nil : P [])
    (escape : ∀ a b cs, isHexDigit a = true → isHexDigit b = true → P cs → P ('%' :: a :: b :: cs))
    (single : ∀ c cs, (c = '%' → ¬ StartsHex cs) → P cs → P (c :: cs)) : ∀ cs, P cs
  | [] => nil
  | c :: cs => by
    by_cases h : c = '%' ∧ StartsHex cs
    · obtain ⟨rfl, hcs⟩ := h
      rcases cs with _ | ⟨a, _ | ⟨b, cs⟩⟩
      · exact hcs.elim
      · exact hcs.elim
      · exact escape a b cs hcs.1 hcs.2 (escapeInduction nil escape single cs)
    · exact single c cs (not_and.1 h) (escapeInduction nil escape single cs)
termination_by cs => cs.length

/-- No percent sign of the text has two hexadecimal digits behind it. -/
def Escapeless (cs : List Char) : Prop := ∀ before after, cs = before ++ '%' :: after → ¬ StartsHex after

theorem escapeless_nil : Escapeless [] := fun before after h => by simp at h

theorem escapeless_cons_iff {c : Char} {cs : List Char} :
    Escapeless (c :: cs) ↔ (c = '%' → ¬ StartsHex cs) ∧ Escapeless cs := by
  constructor
  · intro h
    refine ⟨?_, fun before after hcs => h (c :: before) after (by rw [hcs, List.cons_append])⟩
    rintro rfl
    exact h [] cs rfl
  · rintro ⟨hc, hcs⟩ before after h
    cases before with
    | nil =>
      obtain ⟨rfl, rfl⟩ := List.cons.inj h
      exact hc rfl
    | cons d before =>
      exact hcs before after (List.cons.inj h).2

theorem escapeless_of_not_mem {cs : List Char} (h : '%' ∉ cs) : Escapeless cs := by
  rintro before after rfl
  exact absurd (List.mem_append_right _ List.mem_cons_self) h

theorem percentDecoded_of_escapeless {cs : List Char} (h : Escapeless cs) : percentDecoded cs = utf8 cs := by
  induction cs with
  | nil => rfl
  | cons c cs ih =>
    obtain ⟨hc, hcs⟩ := escapeless_cons_iff.1 h
    rw [percentDecoded_cons hc, ih hcs, utf8_cons]

theorem length_percentDecoded_le (cs : List Char) : (percentDecoded cs).length ≤ (utf8 cs).length := by
  induction cs using escapeInduction with
  | nil => exact Nat.le_refl 0
  | escape a b cs ha hb ih =>
    have hpercent := length_bytesOf_pos '%'
    rw [percentDecoded_escape ha hb]
    simp only [utf8_cons, List.length_cons, List.length_append]
    omega
  | single c cs hc ih =>
    rw [percentDecoded_cons hc, utf8_cons, List.length_append, List.length_append]
    omega

/-- What is decoded is as long only if there is nothing to decode. -/
theorem escapeless_or_length_lt (cs : List Char) :
    Escapeless cs ∨ (percentDecoded cs).length < (utf8 cs).length := by
  induction cs using escapeInduction with
  | nil => exact .inl escapeless_nil
  | escape a b cs ha hb ih =>
    have hle := length_percentDecoded_le cs
    have hpercent := length_bytesOf_pos '%'
    have hdigit := length_bytesOf_pos a
    right
    rw [percentDecoded_escape ha hb]
    simp only [utf8_cons, List.length_cons, List.length_append]
    omega
  | single c cs hc ih =>
    refine ih.imp (fun h => escapeless_cons_iff.2 ⟨hc, h⟩) fun h => ?_
    rw [percentDecoded_cons hc, utf8_cons, List.length_append, List.length_append]
    omega

theorem length_percentDecoded_eq_iff {cs : List Char} :
    (percentDecoded cs).length = (utf8 cs).length ↔ Escapeless cs := by
  constructor
  · intro h
    exact (escapeless_or_length_lt cs).resolve_right (Nat.not_lt.2 (Nat.le_of_eq h.symm))
  · intro h
    rw [percentDecoded_of_escapeless h]

/-- No escape goes on across a slash. -/
theorem percentDecoded_append_slash (cs ds : List Char) :
    percentDecoded (cs ++ '/' :: ds) = percentDecoded cs ++ bytesOf '/' ++ percentDecoded ds := by
  have hslash : isHexDigit '/' = false := by decide
  induction cs using escapeInduction with
  | nil => exact percentDecoded_cons fun h => absurd h (by decide)
  | escape a b cs ha hb ih =>
    simp only [List.cons_append]
    rw [percentDecoded_escape ha hb, percentDecoded_escape ha hb, ih]
    rfl
  | single c cs hc ih =>
    have hnot : ¬ StartsHex cs → ¬ StartsHex (cs ++ '/' :: ds) := by
      rcases cs with _ | ⟨a, _ | ⟨b, cs⟩⟩
      · cases ds <;> simp [StartsHex, hslash]
      · simp [StartsHex, hslash]
      · exact id
    rw [List.cons_append, percentDecoded_cons fun h => hnot (hc h), percentDecoded_cons hc, ih]
    simp only [List.append_assoc]

/-! ## Encoding -/

theorem percentDecoded_byte (b : UInt8) (cs : List Char) :
    percentDecoded (percentByte b ++ cs) = b :: percentDecoded cs := by
  have hdigits : ∀ n < 16, isHexDigit (Nat.digitChar n).toUpper = true ∧
      hexDigitValue (Nat.digitChar n).toUpper = n := by decide
  have hlt : b.toNat < 256 := b.toNat_lt_size
  obtain ⟨hhigh, hhighValue⟩ := hdigits (b.toNat / 16) (by omega)
  obtain ⟨hlow, hlowValue⟩ := hdigits (b.toNat % 16) (by omega)
  have hvalue : b.toNat / 16 * 16 + b.toNat % 16 = b.toNat := by omega
  simp only [percentByte, List.cons_append, List.nil_append]
  rw [percentDecoded_escape hhigh hlow, hhighValue, hlowValue, hvalue, UInt8.ofNat_toNat]

theorem percentDecoded_bytes (bs : List UInt8) (cs : List Char) :
    percentDecoded (bs.flatMap percentByte ++ cs) = bs ++ percentDecoded cs := by
  induction bs with
  | nil => rfl
  | cons b bs ih => rw [List.flatMap_cons, List.append_assoc, percentDecoded_byte, ih, List.cons_append]

variable {inSet : Char → Bool}

theorem encode_cons (c : Char) (cs : List Char) :
    encode inSet (c :: cs) = (if inSet c then (bytesOf c).flatMap percentByte else [c]) ++ encode inSet cs := rfl

theorem encode_cons_of_in {c : Char} (hc : inSet c = true) (cs : List Char) :
    encode inSet (c :: cs) = (bytesOf c).flatMap percentByte ++ encode inSet cs := by rw [encode_cons, if_pos hc]

theorem encode_cons_of_out {c : Char} (hc : inSet c = false) (cs : List Char) :
    encode inSet (c :: cs) = c :: encode inSet cs := by
  rw [encode_cons, if_neg (Bool.eq_false_iff.1 hc)]
  rfl

/-- The first of two digits is never put where there was none: what is replaced starts with a percent sign. -/
theorem not_startsHex_encode {cs : List Char} (hcs : ¬ StartsHex cs) : ¬ StartsHex (encode inSet cs) := by
  have hpercent : isHexDigit '%' = false := by decide
  have hreplaced : ∀ c ds, inSet c = true → ∃ rest, encode inSet (c :: ds) = '%' :: rest := by
    intro c ds hc
    obtain ⟨b, bs, hb⟩ := List.exists_cons_of_length_pos (length_bytesOf_pos c)
    rw [encode_cons_of_in hc, hb, List.flatMap_cons]
    exact ⟨_, rfl⟩
  have hno : ∀ rest, ¬ StartsHex ('%' :: rest) := by
    intro rest
    cases rest <;> simp [StartsHex, hpercent]
  cases cs with
  | nil => exact hcs
  | cons c cs =>
    cases hc : inSet c with
    | true =>
      obtain ⟨rest, hrest⟩ := hreplaced c cs hc
      rw [hrest]
      exact hno rest
    | false =>
      rw [encode_cons_of_out hc]
      cases cs with
      | nil => exact hcs
      | cons d cs =>
        cases hd : inSet d with
        | true =>
          obtain ⟨rest, hrest⟩ := hreplaced d cs hd
          rw [hrest]
          simp [StartsHex, hpercent]
        | false =>
          rw [encode_cons_of_out hd]
          exact hcs

/-- **Encoding** changes nothing of what is decoded, if it leaves percent signs and digits alone. -/
theorem percentDecoded_encode (hpercent : inSet '%' = false) (hhex : ∀ c, isHexDigit c = true → inSet c = false)
    (cs : List Char) : percentDecoded (encode inSet cs) = percentDecoded cs := by
  induction cs using escapeInduction with
  | nil => rfl
  | escape a b cs ha hb ih =>
    rw [encode_cons_of_out hpercent, encode_cons_of_out (hhex a ha), encode_cons_of_out (hhex b hb),
      percentDecoded_escape ha hb, percentDecoded_escape ha hb, ih]
  | single c cs hc ih =>
    rw [percentDecoded_cons hc, ← ih]
    cases hin : inSet c with
    | true => rw [encode_cons_of_in hin, percentDecoded_bytes]
    | false => rw [encode_cons_of_out hin, percentDecoded_cons fun h => not_startsHex_encode (hc h)]

end LogQuery.Http
