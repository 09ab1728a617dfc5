/-!
# Cutting text in two

A text is cut at the first place where a given character stands. The character itself belongs to neither
part, and the second part may hold it again.

Main statement: the two parts with the character between them are the text, and the first part is free of
it (`cut?_eq_some_iff`).
-/

namespace LogQuery.Text

/-- What stands before and after the first `c`, if there is one. -/
def cut? (c : Char) : List Char → Option (List Char × List Char)
  | [] => none
  | d :: ds => if d = c then some ([], ds) else (cut? c ds).map fun p => (d :: p.1, p.2)

theorem cut?_append {c : Char} {before : List Char} (after : List Char) (h : c ∉ before) :
    cut? c (before ++ c :: after) = some (before, after) := by
  induction before with
  | nil => simp [cut?]
  | cons d ds ih =>
    have hd : d ≠ c := fun e => h (by simp [e])
    have hds : c ∉ ds := fun m => h (by simp [m])
    simp [cut?, hd, ih hds]

theorem cut?_eq_some_iff {c : Char} {cs before after : List Char} :
    cut? c cs = some (before, after) ↔ cs = before ++ c :: after ∧ c ∉ before := by
  refine ⟨fun h => ?_, fun ⟨e, h⟩ => e ▸ cut?_append after h⟩
  induction cs generalizing before with
  | nil => cases h
  | cons d ds ih =>
    by_cases hd : d = c
    · simp only [cut?, hd, if_pos, Option.some.injEq, Prod.mk.injEq] at h
      obtain ⟨rfl, rfl⟩ := h
      simp [hd]
    · simp only [cut?, hd, if_false, Option.map_eq_some_iff] at h
      obtain ⟨⟨a, b⟩, hp, e⟩ := h
      cases e
      obtain ⟨rfl, hn⟩ := ih hp
      refine ⟨rfl, fun m => ?_⟩
      rcases List.mem_cons.1 m with e | m
      · exact hd e.symm
      · exact hn m

theorem cut?_eq_none_iff {c : Char} {cs : List Char} : cut? c cs = none ↔ c ∉ cs := by
  induction cs with
  | nil => simp [cut?]
  | cons d ds ih =>
    by_cases hd : d = c
    · simp [cut?, hd]
    · simp [cut?, hd, ih, Ne.symm hd]

end LogQuery.Text
