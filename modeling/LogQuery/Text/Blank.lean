/-!
# Blank characters

A character is blank when Unicode gives it the `White_Space` property. Field names and conditions are
trimmed of blank characters on both sides, and query text made of blank characters alone counts as
missing.

Main statement: `trim` only takes characters off the two ends (`trim_append`).
-/

namespace LogQuery.Text

/-- The code points with the `White_Space` property: twenty-five of them, in ten ranges. -/
def blankRanges : List (Nat × Nat) :=
  [(0x09, 0x0D), (0x20, 0x20), (0x85, 0x85), (0xA0, 0xA0), (0x1680, 0x1680), (0x2000, 0x200A),
    (0x2028, 0x2029), (0x202F, 0x202F), (0x205F, 0x205F), (0x3000, 0x3000)]

def isBlank (c : Char) : Bool :=
  blankRanges.any fun r => r.1 ≤ c.toNat && c.toNat ≤ r.2

/-- Every character is blank; the empty text is. -/
def allBlank (s : String) : Bool := s.toList.all isBlank

/-- Characters without the blank ones at either end. -/
def trimChars (cs : List Char) : List Char :=
  ((cs.dropWhile isBlank).reverse.dropWhile isBlank).reverse

def trim (s : String) : String := String.ofList (trimChars s.toList)

/-- Texts equal up to the case of ASCII letters. -/
def sameIgnoringCase (a b : String) : Bool := a.toList.map Char.toLower == b.toList.map Char.toLower

/-- `n` copies of a space, to fill a column. -/
def spaces (n : Nat) : String := String.ofList (List.replicate n ' ')

/-- The text followed by spaces up to `width` characters. -/
def padRight (width : Nat) (s : String) : String := s ++ spaces (width - s.length)

/-! ## What trimming takes away -/

/-- The trimmed text with what was taken off, all of it blank, is the text again. -/
theorem trim_append (cs : List Char) :
    ∃ before after, (∀ c ∈ before, isBlank c = true) ∧ (∀ c ∈ after, isBlank c = true) ∧
      cs = before ++ trimChars cs ++ after := by
  refine ⟨cs.takeWhile isBlank, ((cs.dropWhile isBlank).reverse.takeWhile isBlank).reverse,
    fun c h => List.all_eq_true.1 List.all_takeWhile c h, fun c h => ?_, ?_⟩
  · exact List.all_eq_true.1 List.all_takeWhile c (List.mem_reverse.1 h)
  · have h := congrArg List.reverse
      (List.takeWhile_append_dropWhile (p := isBlank) (l := (cs.dropWhile isBlank).reverse))
    rw [List.reverse_append, List.reverse_reverse] at h
    rw [trimChars, List.append_assoc, h, List.takeWhile_append_dropWhile]

end LogQuery.Text
