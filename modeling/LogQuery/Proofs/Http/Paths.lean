import Mathlib.Data.List.Basic
import LogQuery.Proofs.Http.PercentDecoding
import LogQuery.Proofs.Text.DigitsAndLetters

/-!
# Names in paths

A client takes the path of an address apart at slashes and backslashes and goes through the segments: most are put on
to the path, some are steps in it (`passBy`). What the path that comes out is decoded to is compared with what was
put into the address: dropping a character, decoding an escape and making a step each take bytes away, and nothing
puts bytes on. So a name comes out as it went in just if none of this happens, and no backslash has become a slash
(`pathBytes_name_iff`).
-/

namespace LogQuery.Http

open LogQuery.Text

/-! ## Paths -/

/-- The text of a path. -/
def pathOf (segments : List (List Char)) : List Char := segments.flatMap fun s => '/' :: s

theorem pathOf_cons (s : List Char) (ss : List (List Char)) : pathOf (s :: ss) = '/' :: (s ++ pathOf ss) := rfl

theorem percentDecoded_slash (cs : List Char) : percentDecoded ('/' :: cs) = bytesOf '/' ++ percentDecoded cs :=
  percentDecoded_append_slash [] cs

/-- Paths are decoded segment by segment. -/
theorem percentDecoded_pathOf (ss : List (List Char)) :
    percentDecoded (pathOf ss) = ss.flatMap fun s => bytesOf '/' ++ percentDecoded s := by
  induction ss with
  | nil => rfl
  | cons s ss ih =>
    have hrest : percentDecoded (s ++ pathOf ss) = percentDecoded s ++ percentDecoded (pathOf ss) := by
      cases ss with
      | nil => simp [pathOf, percentDecoded]
      | cons t ts =>
        rw [pathOf_cons, percentDecoded_append_slash, percentDecoded_slash, List.append_assoc]
    rw [pathOf_cons, percentDecoded_slash, hrest, ih, List.flatMap_cons, List.append_assoc]

theorem percentDecoded_pathOf_append (ss ts : List (List Char)) :
    percentDecoded (pathOf (ss ++ ts)) = percentDecoded (pathOf ss) ++ percentDecoded (pathOf ts) := by
  simp only [percentDecoded_pathOf, List.flatMap_append]

/-- A backslash counts as a slash. -/
def toSlash (c : Char) : Char := if isSlash c then '/' else c

theorem pathOf_splitOnP (cs : List Char) : pathOf (cs.splitOnP isSlash) = '/' :: cs.map toSlash := by
  induction cs with
  | nil => rfl
  | cons c cs ih =>
    rw [List.splitOnP_cons_eq_if_modifyHead, List.map_cons, toSlash]
    by_cases hc : isSlash c = true
    · rw [if_pos hc, if_pos hc, pathOf_cons, ih, List.nil_append]
    · obtain ⟨s, ss, hss⟩ := List.exists_cons_of_ne_nil (List.splitOnP_ne_nil isSlash cs)
      rw [hss, pathOf_cons] at ih
      rw [if_neg hc, if_neg hc, hss, List.modifyHead_cons, pathOf_cons, List.cons_append, (List.cons.inj ih).2]

theorem length_bytesOf_toSlash (c : Char) : (bytesOf (toSlash c)).length = (bytesOf c).length := by
  rw [toSlash]
  split
  · next hc =>
    simp only [isSlash, Bool.or_eq_true, decide_eq_true_eq] at hc
    obtain rfl | rfl := hc <;> decide
  · rfl

theorem length_utf8_map_toSlash (cs : List Char) : (utf8 (cs.map toSlash)).length = (utf8 cs).length := by
  induction cs with
  | nil => rfl
  | cons c cs ih =>
    simp only [List.map_cons, utf8_cons, List.length_append, length_bytesOf_toSlash, ih]

/-- Bytes tell slashes and backslashes apart. -/
theorem not_mem_of_utf8_map_toSlash {cs : List Char} (h : utf8 (cs.map toSlash) = utf8 cs) : '\\' ∉ cs := by
  induction cs with
  | nil => exact List.not_mem_nil
  | cons c cs ih =>
    obtain ⟨hc, hcs⟩ := List.append_inj h (length_bytesOf_toSlash c)
    have hne : c ≠ '\\' := by
      rintro rfl
      exact absurd hc (by decide)
    exact List.not_mem_cons_of_ne_of_not_mem hne.symm (ih hcs)

theorem map_toSlash_of_not_mem {cs : List Char} (h : '\\' ∉ cs) : cs.map toSlash = cs := by
  have hfixed : ∀ c ∈ cs, toSlash c = id c := by
    intro c hc
    rw [toSlash]
    split
    · next hslash =>
      simp only [isSlash, Bool.or_eq_true, decide_eq_true_eq] at hslash
      obtain rfl | rfl := hslash
      · rfl
      · exact absurd hc h
    · rfl
  rw [List.map_congr_left hfixed, List.map_id]

/-! ## Steps in a path -/

/-- The segments that have been passed, with one more. -/
def passBy (passed : List (List Char)) (s : List Char) : List (List Char) :=
  if isUp s then passed.dropLast else if isHere s then passed else passed ++ [encode notInPath s]

theorem resolve_cons_of_ne_nil {ss : List (List Char)} (hss : ss ≠ []) (passed : List (List Char)) (s : List Char) :
    resolve passed (s :: ss) = resolve (passBy passed s) ss := by
  have hempty : ss.isEmpty = false := List.isEmpty_eq_false_iff.2 hss
  rw [resolve, passBy, hempty]
  split
  · rw [if_neg Bool.false_ne_true, List.append_nil]
  · split
    · rw [if_neg Bool.false_ne_true, List.append_nil]
    · rfl

/-- Only the last segment leaves an empty one behind. -/
theorem resolve_append {ts : List (List Char)} (hts : ts ≠ []) (ss passed : List (List Char)) :
    resolve passed (ss ++ ts) = resolve (ss.foldl passBy passed) ts := by
  induction ss generalizing passed with
  | nil => rfl
  | cons s ss ih =>
    have hrest : ss ++ ts ≠ [] := List.append_ne_nil_of_right_ne_nil ss hts
    rw [List.cons_append, resolve_cons_of_ne_nil hrest, ih, List.foldl_cons]

/-- A segment that stands for a step. -/
def isStep (s : List Char) : Bool := isHere s || isUp s

theorem passBy_of_not_step {s : List Char} (hs : isStep s = false) (passed : List (List Char)) :
    passBy passed s = passed ++ [encode notInPath s] := by
  obtain ⟨hhere, hup⟩ := Bool.or_eq_false_iff.1 hs
  rw [passBy, hup, hhere]
  rfl

theorem resolve_last {s : List Char} (hs : isStep s = false) (passed : List (List Char)) :
    resolve passed [s] = passed ++ [encode notInPath s] := by
  obtain ⟨hhere, hup⟩ := Bool.or_eq_false_iff.1 hs
  rw [resolve, hup, hhere]
  rfl

/-- The bytes that a path is decoded to. -/
def pathBytes (ss : List (List Char)) : List UInt8 := percentDecoded (pathOf ss)

theorem pathBytes_append (ss ts : List (List Char)) : pathBytes (ss ++ ts) = pathBytes ss ++ pathBytes ts :=
  percentDecoded_pathOf_append ss ts

theorem pathBytes_cons (s : List Char) (ss : List (List Char)) :
    pathBytes (s :: ss) = bytesOf '/' ++ percentDecoded s ++ pathBytes ss := by
  simp only [pathBytes, percentDecoded_pathOf, List.flatMap_cons]

theorem notInPath_of_isHexDigit {c : Char} (hc : isHexDigit c = true) : notInPath c = false := by
  have hascii : c.toNat < 128 := by
    simp only [isHexDigit, Bool.or_eq_true, Bool.and_eq_true, decide_eq_true_eq, isDigit_iff_toNat] at hc
    obtain h | ⟨-, h⟩ := hc
    · omega
    · have hlower : c.toLower.toNat ≤ 102 := h
      rw [toNat_toLower] at hlower
      split at hlower <;> omega
  have hall : ∀ n < 128, isHexDigit (Char.ofNat n) = true → notInPath (Char.ofNat n) = false := by decide +kernel
  have h := hall c.toNat hascii
  rw [Char.ofNat_toNat] at h
  exact h hc

theorem pathBytes_encode (s : List Char) : pathBytes [encode notInPath s] = pathBytes [s] := by
  rw [pathBytes_cons, pathBytes_cons, percentDecoded_encode (by decide) fun _ => notInPath_of_isHexDigit]

/-- A step leaves a shorter path than a segment of its length would. -/
theorem length_pathBytes_passBy {s : List Char} (hs : isStep s = true) (passed : List (List Char)) :
    (pathBytes (passBy passed s)).length < (pathBytes passed).length + (pathBytes [s]).length := by
  have hslash := length_bytesOf_pos '/'
  have hone : 0 < (pathBytes [s]).length := by
    rw [pathBytes_cons, List.length_append, List.length_append]
    omega
  have hdrop : (pathBytes passed.dropLast).length ≤ (pathBytes passed).length := by
    rcases List.eq_nil_or_concat passed with rfl | ⟨ss, t, rfl⟩
    · exact Nat.le_refl _
    · rw [List.concat_eq_append, List.dropLast_concat, pathBytes_append, List.length_append]
      exact Nat.le_add_right _ _
  rw [passBy]
  split
  · omega
  · next hup =>
    have hhere : isHere s = true := (Bool.or_eq_true _ _ ▸ hs).resolve_right hup
    rw [if_pos hhere]
    omega

theorem pathBytes_passBy {s : List Char} (hs : isStep s = false) (passed : List (List Char)) :
    pathBytes (passBy passed s) = pathBytes passed ++ pathBytes [s] := by
  rw [passBy_of_not_step hs, pathBytes_append, pathBytes_encode]

/-- Segments that are no steps are all put on. -/
theorem pathBytes_foldl {ss : List (List Char)} (h : ∀ s ∈ ss, isStep s = false) (passed : List (List Char)) :
    pathBytes (ss.foldl passBy passed) = pathBytes passed ++ pathBytes ss := by
  induction ss generalizing passed with
  | nil => exact (List.append_nil _).symm
  | cons s ss ih =>
    obtain ⟨hs, hss⟩ := List.forall_mem_cons.1 h
    rw [List.foldl_cons, ih hss, pathBytes_passBy hs, List.append_assoc, ← pathBytes_append, List.singleton_append]

/-- With a step among the segments, the path gets shorter than they are. -/
theorem no_step_or_shorter (ss passed : List (List Char)) :
    (∀ s ∈ ss, isStep s = false) ∨
      (pathBytes (ss.foldl passBy passed)).length < (pathBytes passed).length + (pathBytes ss).length := by
  induction ss generalizing passed with
  | nil => exact .inl (List.forall_mem_nil _)
  | cons s ss ih =>
    have hlength : (pathBytes (s :: ss)).length = (pathBytes [s]).length + (pathBytes ss).length := by
      rw [← List.length_append, ← pathBytes_append, List.singleton_append]
    rw [List.foldl_cons, hlength]
    cases hs : isStep s with
    | false =>
      have hstep := congrArg List.length (pathBytes_passBy hs passed)
      rw [List.length_append] at hstep
      exact (ih (passBy passed s)).imp (fun hss => List.forall_mem_cons.2 ⟨hs, hss⟩) fun h => by omega
    | true =>
      have hshort := length_pathBytes_passBy hs passed
      right
      obtain hss | h := ih (passBy passed s)
      · rw [pathBytes_foldl hss, List.length_append]
        omega
      · omega

/-! ## What a client makes of a name -/

/-- Characters that a client drops wherever they stand. -/
def isDropped (c : Char) : Bool := c = '\t' || c = '\n' || c = '\r'

def kept (cs : List Char) : List Char := cs.filter fun c => !isDropped c

theorem kept_append (cs ds : List Char) : kept (cs ++ ds) = kept cs ++ kept ds := List.filter_append _ _

theorem kept_of_none {cs : List Char} (h : ∀ c ∈ cs, isDropped c = false) : kept cs = cs :=
  List.filter_eq_self.2 fun c hc => by rw [h c hc, Bool.not_false]

theorem kept_cons {c : Char} (hc : isDropped c = false) (cs : List Char) : kept (c :: cs) = c :: kept cs :=
  List.filter_cons_of_pos (by rw [hc]; rfl)

/-- What ends a path is kept. -/
theorem mem_kept_of_ends {c : Char} (hc : isQueryOrHash c = true) {cs : List Char} (h : c ∈ cs) : c ∈ kept cs := by
  refine List.mem_filter.2 ⟨h, ?_⟩
  simp only [isQueryOrHash, Bool.or_eq_true, decide_eq_true_eq] at hc
  obtain rfl | rfl := hc <;> rfl

theorem length_utf8_kept_le (cs : List Char) : (utf8 (kept cs)).length ≤ (utf8 cs).length := by
  induction cs with
  | nil => exact Nat.le_refl 0
  | cons c cs ih =>
    rw [kept, List.filter_cons]
    split
    · rw [utf8_cons, utf8_cons, List.length_append, List.length_append]
      exact Nat.add_le_add_left ih _
    · rw [utf8_cons, List.length_append]
      exact Nat.le_trans ih (Nat.le_add_left _ _)

/-- Each character that is dropped takes its bytes along. -/
theorem isDropped_of_length_eq {cs : List Char} (h : (utf8 (kept cs)).length = (utf8 cs).length) :
    ∀ c ∈ cs, isDropped c = false := by
  induction cs with
  | nil => exact List.forall_mem_nil _
  | cons c cs ih =>
    have hle := length_utf8_kept_le cs
    have hpos := length_bytesOf_pos c
    cases hc : isDropped c with
    | true =>
      have hkept : kept (c :: cs) = kept cs := List.filter_cons_of_neg (by rw [hc]; exact Bool.false_ne_true)
      rw [hkept, utf8_cons, List.length_append] at h
      omega
    | false =>
      rw [kept_cons hc, utf8_cons, utf8_cons, List.length_append, List.length_append] at h
      exact List.forall_mem_cons.2 ⟨hc, ih (by omega)⟩

/-- The name stands in the path of an address as it is: no character of it is dropped, ends the path or counts as
another, nothing in it is decoded, and it makes no step. -/
structure PlainName (cs : List Char) : Prop where
  chars : ∀ c ∈ cs, c ∉ ['\t', '\n', '\r', '?', '#', '\\']
  escapeless : Escapeless cs
  stays : ∀ s ∈ cs.splitOnP isSlash, isStep s = false

/-- Of the names that do not end the path, the plain ones are those that come out as they went in. -/
theorem pathBytes_name_iff {cs : List Char} (hends : ∀ c ∈ cs, isQueryOrHash c = false) (passed : List (List Char)) :
    pathBytes (((kept cs).splitOnP isSlash).foldl passBy passed) = pathBytes passed ++ (bytesOf '/' ++ utf8 cs) ↔
      PlainName cs := by
  have hsplit : ∀ ds : List Char, pathBytes (ds.splitOnP isSlash) = bytesOf '/' ++ percentDecoded (ds.map toSlash) := by
    intro ds
    rw [pathBytes, pathOf_splitOnP, percentDecoded_slash]
  constructor
  · intro h
    have hlength := congrArg List.length h
    have hdecoded := length_percentDecoded_le ((kept cs).map toSlash)
    have hslashes := length_utf8_map_toSlash (kept cs)
    have hkept := length_utf8_kept_le cs
    simp only [List.length_append] at hlength
    obtain hstays | hshorter := no_step_or_shorter ((kept cs).splitOnP isSlash) passed
    · have hpath := pathBytes_foldl hstays passed
      rw [hpath, hsplit, List.append_cancel_left_eq, List.append_cancel_left_eq] at h
      rw [hpath, hsplit, List.length_append, List.length_append] at hlength
      have hnone := isDropped_of_length_eq (by omega : (utf8 (kept cs)).length = (utf8 cs).length)
      have hescapeless : Escapeless ((kept cs).map toSlash) := length_percentDecoded_eq_iff.1 (by omega)
      rw [kept_of_none hnone] at hescapeless h hstays
      have hback : '\\' ∉ cs := not_mem_of_utf8_map_toSlash (by rw [← percentDecoded_of_escapeless hescapeless, h])
      rw [map_toSlash_of_not_mem hback] at hescapeless
      refine ⟨fun c hc => ?_, hescapeless, hstays⟩
      have hdrop := hnone c hc
      have hend := hends c hc
      simp only [isDropped, isQueryOrHash, Bool.or_eq_false_iff, decide_eq_false_iff_not] at hdrop hend
      simp only [List.mem_cons, List.not_mem_nil, or_false, not_or]
      exact ⟨hdrop.1.1, hdrop.1.2, hdrop.2, hend.1, hend.2, fun hc' => hback (hc' ▸ hc)⟩
    · rw [hsplit, List.length_append] at hshorter
      omega
  · intro h
    have hnone : ∀ c ∈ cs, isDropped c = false := by
      intro c hc
      have hplain := h.chars c hc
      simp only [List.mem_cons, List.not_mem_nil, or_false, not_or] at hplain
      simp [isDropped, hplain]
    have hback : '\\' ∉ cs := fun hc => absurd (h.chars _ hc) (by decide)
    rw [kept_of_none hnone, pathBytes_foldl h.stays, hsplit, map_toSlash_of_not_mem hback,
      percentDecoded_of_escapeless h.escapeless]

end LogQuery.Http
