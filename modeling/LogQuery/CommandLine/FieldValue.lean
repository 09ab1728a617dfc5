import LogQuery.Text.Blank
import LogQuery.Text.Cut

/-!
# Conditions on the command line

A condition is written `FIELD=VALUE`. The first equals sign ends the field, so the value may hold more of
them. Blanks around the field do not count, those of the value do.

Main statement: a condition is read exactly when there is an equals sign with more than blanks before
it (`read_eq_ok_iff`).
-/

namespace LogQuery.CommandLine

open LogQuery.Text

/-- What a condition says, before the field is looked up (`Condition`). -/
structure FieldValue where
  field : String
  value : String
  deriving DecidableEq, Repr

/-- Why a text is no condition. -/
inductive FieldValueError where
  | noEquals (text : String)
  | noField (text : String)
  deriving DecidableEq, Repr

def FieldValueError.message : FieldValueError → String
  | noEquals text => "expected FIELD=VALUE, got '" ++ text ++ "'"
  | noField text => "missing field name in '" ++ text ++ "'"

namespace FieldValue

/-- Cuts a text at its first equals sign, with something other than blanks before it (`parse_condition`). -/
def read (text : String) : Except FieldValueError FieldValue :=
  match cut? '=' text.toList with
  | none => .error (.noEquals text)
  | some (field, value) =>
    if field.all isBlank then .error (.noField text)
    else .ok ⟨String.ofList (trimChars field), String.ofList value⟩

theorem read_eq_ok_iff {text : String} {p : FieldValue} :
    read text = .ok p ↔ ∃ before after, text.toList = before ++ '=' :: after ∧ '=' ∉ before ∧
      before.all isBlank = false ∧ p = ⟨String.ofList (trimChars before), String.ofList after⟩ := by
  unfold read
  constructor
  · intro h
    split at h
    · cases h
    · next before after hc =>
      split at h
      · cases h
      · next hb =>
        obtain ⟨e, hn⟩ := cut?_eq_some_iff.1 hc
        exact ⟨before, after, e, hn, by simpa using hb, by cases h; rfl⟩
  · rintro ⟨before, after, e, hn, hb, rfl⟩
    rw [cut?_eq_some_iff.2 ⟨e, hn⟩]
    simp [hb]

end FieldValue

end LogQuery.CommandLine
