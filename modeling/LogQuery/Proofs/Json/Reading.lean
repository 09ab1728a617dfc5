import LogQuery.Proofs.Json.Canonical
import LogQuery.Proofs.Json.Numbers

/-!
# Reading what a printer wrote

The text of a value is read as the value, whatever blanks the printer puts between the parts. A text that stands
in a container is read up to its own end and no further (`Rereads`): a quoted text ends at its quote, a container
at its bracket, and a number where the comma, the bracket or the blank behind it stops it. So the items of a
container are read one after the other, each with the rest of the text behind it.

Main statement: a value in order, not too deep, whose integers fit 64 bits and whose doubles come back on their
own is read from its text as itself (`Writable.parse?_render`).
-/

namespace LogQuery.Json

open LogQuery.Text

/-! ## A quoted text -/

/-- The control characters that have a letter of their own. -/
def letteredControls : List Char := ['\x08', '\x0c', '\n', '\r', '\t']

/-- What a character of a quoted text is read as. -/
def pieceOf (c : Char) : Piece :=
  if c.toNat < 0x20 ∧ c ∉ letteredControls then .unit c.toNat else .char c

theorem hexValue?_hexDigit {n : Nat} (hn : n < 16) : hexValue? (hexDigit n) = some n := by
  have hall : ∀ n < 16, hexValue? (hexDigit n) = some n := by decide
  exact hall n hn

theorem readPieces?_lettered {letter c : Char} (hu : letter ≠ 'u') (h : escapeValue? letter = some c)
    (cs : List Char) :
    readPieces? ('\\' :: letter :: cs) = (readPieces? cs).map fun r => (.char c :: r.1, r.2) := by
  rw [readPieces?]
  · rw [h]
    cases readPieces? cs <;> rfl
  · intro a b c d rest hletter
    exact absurd hletter hu

theorem readPieces?_escapedChar (c : Char) (cs : List Char) :
    readPieces? (escapedChar c ++ cs) = (readPieces? cs).map fun r => (pieceOf c :: r.1, r.2) := by
  unfold escapedChar
  split_ifs with hquote hbackslash hb hf hn hr ht hcontrol
  on_goal 9 =>
    have hpiece : pieceOf c = .char c := if_neg fun h => hcontrol h.1
    rw [hpiece, List.singleton_append, readPieces?]
    · rw [if_neg hquote, if_neg]
      simp [hbackslash, hcontrol]
    · rintro a b d e rest rfl
      exact absurd rfl hbackslash
    · rintro d rest rfl
      exact absurd rfl hbackslash
  on_goal 8 =>
    have hpiece : pieceOf c = .unit c.toNat := by
      refine if_pos ⟨hcontrol, ?_⟩
      simp [letteredControls, hb, hf, hn, hr, ht]
    have hunit : unitValue? '0' '0' (hexDigit (c.toNat / 16)) (hexDigit (c.toNat % 16)) = some c.toNat := by
      have hzero : hexValue? '0' = some 0 := by decide
      rw [unitValue?, hzero, hexValue?_hexDigit (by omega), hexValue?_hexDigit (Nat.mod_lt _ (by decide))]
      simp
      omega
    rw [hpiece]
    show readPieces? ('\\' :: 'u' :: '0' :: '0' :: hexDigit (c.toNat / 16) :: hexDigit (c.toNat % 16) :: cs) = _
    rw [readPieces?, hunit]
    cases readPieces? cs <;> rfl
  all_goals
    subst c
    exact readPieces?_lettered (by decide) rfl cs

theorem readPieces?_quotedChars (cs rest : List Char) :
    readPieces? (cs.flatMap escapedChar ++ '\x22' :: rest) = some (cs.map pieceOf, rest) := by
  induction cs with
  | nil =>
    rw [List.flatMap_nil, List.nil_append, readPieces?]
    · rfl
    · rintro a b c d e ⟨⟩
    · rintro a b ⟨⟩
  | cons c cs ih =>
    rw [List.flatMap_cons, List.append_assoc, readPieces?_escapedChar, ih]
    rfl

theorem joinPieces?_pieceOf (c : Char) (ps : List Piece) :
    joinPieces? (pieceOf c :: ps) = (joinPieces? ps).map (c :: ·) := by
  rw [pieceOf]
  split
  · next h =>
    have hleading : isLeadingUnit c.toNat = false := by
      have hlt : ¬ 0xD800 ≤ c.toNat := by omega
      simp [isLeadingUnit, hlt]
    have htrailing : isTrailingUnit c.toNat = false := by
      have hlt : ¬ 0xDC00 ≤ c.toNat := by omega
      simp [isTrailingUnit, hlt]
    obtain ⟨⟩ | ⟨p, ps⟩ := ps
    · simp [joinPieces?, hleading, htrailing, Char.ofNat_toNat]
    · cases p <;> simp [joinPieces?, hleading, htrailing, Char.ofNat_toNat, Function.comp_def]
  · rfl

/-- The pieces of a quoted text are its characters. -/
theorem joinText?_pieces (s : String) : joinText? (s.toList.map pieceOf) = some s := by
  have hjoin : ∀ cs : List Char, joinPieces? (cs.map pieceOf) = some cs := by
    intro cs
    induction cs with
    | nil => rfl
    | cons c cs ih => rw [List.map_cons, joinPieces?_pieceOf, ih, Option.map_some]
  rw [joinText?, hjoin, Option.map_some, String.ofList_toList]

/-! ## What a value holds -/

mutual

/-- How many containers stand in one another at most. -/
def nesting : Json → Nat
  | .array vs => itemNesting vs + 1
  | .object ms => memberNesting ms + 1
  | _ => 0

def itemNesting : List Json → Nat
  | [] => 0
  | v :: vs => max (nesting v) (itemNesting vs)

def memberNesting : List (String × Json) → Nat
  | [] => 0
  | (_, v) :: ms => max (nesting v) (memberNesting ms)

end

mutual

/-- The numbers in a value, in their order. -/
def numbers : Json → List Json
  | .int i => [.int i]
  | .float x => [.float x]
  | .array vs => itemNumbers vs
  | .object ms => memberNumbers ms
  | _ => []

def itemNumbers : List Json → List Json
  | [] => []
  | v :: vs => numbers v ++ itemNumbers vs

def memberNumbers : List (String × Json) → List Json
  | [] => []
  | (_, v) :: ms => numbers v ++ memberNumbers ms

end

theorem memberNesting_le_iff {ms : List (String × Json)} {k : Nat} :
    memberNesting ms ≤ k ↔ ∀ m ∈ ms, m.2.nesting ≤ k := by
  induction ms with
  | nil => simp [memberNesting]
  | cons m ms ih => rw [memberNesting, Nat.max_le, ih, List.forall_mem_cons]

theorem mem_itemNumbers {n : Json} {vs : List Json} : n ∈ itemNumbers vs ↔ ∃ v ∈ vs, n ∈ v.numbers := by
  induction vs with
  | nil => simp [itemNumbers]
  | cons v vs ih => simp [itemNumbers, ih]

theorem mem_memberNumbers {n : Json} {ms : List (String × Json)} :
    n ∈ memberNumbers ms ↔ ∃ m ∈ ms, n ∈ m.2.numbers := by
  induction ms with
  | nil => simp [memberNumbers]
  | cons m ms ih => simp [memberNumbers, ih]

/-! ## Blanks between the parts -/

/-- A printer that puts nothing but blanks between the parts. -/
structure Spacing.Blank (sp : Spacing) : Prop where
  line : ∀ depth, ∀ c ∈ sp.line depth, isSpace c = true
  afterColon : ∀ c ∈ sp.afterColon, isSpace c = true

theorem blank_compact : compact.Blank := ⟨fun _ => List.forall_mem_nil _, List.forall_mem_nil _⟩

theorem blank_pretty : pretty.Blank := by
  constructor
  · intro depth c hc
    obtain rfl | hc := List.mem_cons.1 hc
    · rfl
    · rw [List.eq_of_mem_replicate hc]
      rfl
  · intro c hc
    rw [List.mem_singleton.1 hc]
    rfl

theorem skipSpaces_append {ws : List Char} (hws : ∀ c ∈ ws, isSpace c = true) (cs : List Char) :
    skipSpaces (ws ++ cs) = skipSpaces cs := by
  rw [skipSpaces, skipSpaces, List.dropWhile_append, if_pos]
  rw [List.isEmpty_iff, List.dropWhile_eq_nil_iff]
  exact hws

theorem skipSpaces_cons {c : Char} (hc : isSpace c = false) (cs : List Char) : skipSpaces (c :: cs) = c :: cs := by
  rw [skipSpaces, List.dropWhile_cons, if_neg (Bool.eq_false_iff.1 hc)]

theorem skipSpaces_line {ws : List Char} (hws : ∀ c ∈ ws, isSpace c = true) {c : Char} (hc : isSpace c = false)
    (cs : List Char) : skipSpaces (ws ++ c :: cs) = c :: cs := by
  rw [skipSpaces_append hws, skipSpaces_cons hc]

/-! ## Values -/

/-- The text of the value starts like one and is read as the value, whatever comes behind it. -/
structure Rereads (sp : Spacing) (v : Json) : Prop where
  head : ∀ depth, ∃ c cs, printChars sp depth v = c :: cs ∧ isSpace c = false ∧ c ≠ ']'
  reads : ∀ {depth steps : Nat} {ws rest : List Char}, (∀ c ∈ ws, isSpace c = true) →
    depth + v.nesting ≤ depthLimit → 2 * (printChars sp depth v).length ≤ steps → Delimited rest →
      readValue? steps depth (ws ++ (printChars sp depth v ++ rest)) = some (.ofJson v, rest)

/-- A scalar is read at the first character that is no blank. -/
theorem readValue?_scalar {ws cs : List Char} {c : Char} (hws : ∀ c ∈ ws, isSpace c = true)
    (hc : isSpace c = false) (hbracket : c ≠ '[') (hbrace : c ≠ '\x7b') (steps depth : Nat) :
    readValue? (steps + 1) depth (ws ++ c :: cs) = readScalar? (c :: cs) := by
  rw [readValue?, skipSpaces_line hws hc]
  dsimp only
  rw [if_neg hbracket, if_neg hbrace]

variable {sp : Spacing}

/-- A value without parts, by what its text starts with and what is read there. -/
theorem Rereads.ofScalar {v : Json} {c : Char} {cs : List Char} (hprint : ∀ depth, printChars sp depth v = c :: cs)
    (hc : isSpace c = false) (hbracket : c ≠ '[') (hbrace : c ≠ '\x7b') (hclose : c ≠ ']')
    (hread : ∀ {rest}, Delimited rest → readScalar? (c :: cs ++ rest) = some (.ofJson v, rest)) :
    Rereads sp v where
  head depth := ⟨c, cs, hprint depth, hc, hclose⟩
  reads {depth steps ws rest} hws _ hsteps hrest := by
    rw [hprint, List.length_cons] at hsteps
    obtain ⟨steps, rfl⟩ : ∃ s, steps = s + 1 := ⟨steps - 1, by omega⟩
    rw [hprint, List.cons_append, readValue?_scalar hws hc hbracket hbrace]
    exact hread hrest

theorem rereads_null : Rereads sp .null :=
  .ofScalar (fun _ => rfl) rfl (by decide) (by decide) (by decide) fun _ => rfl

theorem rereads_bool (b : Bool) : Rereads sp (.bool b) := by
  cases b
  · exact .ofScalar (fun _ => rfl) rfl (by decide) (by decide) (by decide) fun _ => rfl
  · exact .ofScalar (fun _ => rfl) rfl (by decide) (by decide) (by decide) fun _ => rfl

theorem rereads_text (s : String) : Rereads sp (.text s) := by
  refine .ofScalar (fun _ => rfl) rfl (by decide) (by decide) (by decide) fun {rest} _ => ?_
  have hquoted : readScalar? ('\x22' :: (s.toList.flatMap escapedChar ++ ['\x22']) ++ rest) =
      (readPieces? (s.toList.flatMap escapedChar ++ '\x22' :: rest)).map fun r =>
        ((joinText? r.1).elim .meaningless .text, r.2) := by
    rw [List.cons_append, List.append_assoc, List.singleton_append]
    rfl
  refine hquoted.trans ?_
  rw [readPieces?_quotedChars, Option.map_some, joinText?_pieces]
  rfl

theorem Spells.rereads {v : Json} {cs : List Char} (h : Spells cs (.ofJson v))
    (hprint : ∀ depth, printChars sp depth v = cs) : Rereads sp v := by
  obtain ⟨n, hread, hdocument⟩ := h.reads
  cases cs with
  | nil => cases hread
  | cons c cs =>
    have hc := h.head c rfl
    refine .ofScalar hprint (isSpace_of_isNumberChar hc) (ne_of_isNumberChar hc (by decide))
      (ne_of_isNumberChar hc (by decide)) (ne_of_isNumberChar hc (by decide)) fun {rest} hrest => ?_
    rw [List.cons_append, readScalar?_number hc, ← List.cons_append, readNumber?_append hrest hread,
      Option.map_some, hdocument]

/-! ## Containers -/

theorem atDepth_of_le {depth : Nat} (h : depth ≤ depthLimit) (d : Document) : Document.atDepth depth d = d :=
  if_pos h

theorem delimited_cons {c : Char} (hdigit : c.isDigit = false) (hpoint : c ≠ '.') (hmark : isExponentMark c = false)
    (cs : List Char) : Delimited (c :: cs) := by
  intro d hd
  cases hd
  exact ⟨hdigit, hpoint, hmark⟩

theorem delimited_space {c : Char} (hc : isSpace c = true) (cs : List Char) : Delimited (c :: cs) := by
  simp only [isSpace, Bool.or_eq_true, decide_eq_true_eq] at hc
  obtain ((rfl | rfl) | rfl) | rfl := hc <;> exact delimited_cons (by decide) (by decide) (by decide) cs

/-- No number goes on with a line break or what comes behind it. -/
theorem delimited_line {ws cs : List Char} (hws : ∀ c ∈ ws, isSpace c = true) (hcs : Delimited cs) :
    Delimited (ws ++ cs) := by
  cases ws with
  | nil => exact hcs
  | cons c ws => exact delimited_space (hws c List.mem_cons_self) (ws ++ cs)

/-- The items of an array that has some, without the blanks around them. -/
def itemsText (sp : Spacing) (depth : Nat) : List Json → List Char
  | [] => []
  | v :: vs => printChars sp depth v ++ itemChars sp depth vs

theorem printChars_array (sp : Spacing) {vs : List Json} (hne : vs ≠ []) (depth : Nat) :
    printChars sp depth (.array vs) =
      '[' :: (sp.line (depth + 1) ++ (itemsText sp (depth + 1) vs ++ (sp.line depth ++ [']']))) := by
  obtain ⟨v, vs, rfl⟩ := List.exists_cons_of_ne_nil hne
  simp only [printChars, itemsText, List.cons_append, List.append_assoc]

theorem itemChars_eq (sp : Spacing) {vs : List Json} (hne : vs ≠ []) (depth : Nat) :
    itemChars sp depth vs = ',' :: (sp.line depth ++ itemsText sp depth vs) := by
  obtain ⟨v, vs, rfl⟩ := List.exists_cons_of_ne_nil hne
  rw [itemChars, itemsText, List.cons_append, List.cons_append, List.append_assoc]

theorem Rereads.length_pos {v : Json} (h : Rereads sp v) (depth : Nat) : 0 < (printChars sp depth v).length := by
  obtain ⟨c, cs, hprint, -, -⟩ := h.head depth
  rw [hprint, List.length_cons]
  exact Nat.succ_pos _

/-- What comes behind an item: a comma with the next one, or the end of the array. -/
theorem delimited_itemChars (hsp : sp.Blank) (depth : Nat) (vs : List Json) (d : Nat) (rest : List Char) :
    Delimited (itemChars sp depth vs ++ (sp.line d ++ ']' :: rest)) := by
  cases vs with
  | nil =>
    have hclose : Delimited (']' :: rest) := delimited_cons (by decide) (by decide) (by decide) rest
    rw [itemChars, List.nil_append]
    exact delimited_line (hsp.line d) hclose
  | cons v vs => exact delimited_cons (by decide) (by decide) (by decide) _

theorem readItems?_itemsText (hsp : sp.Blank) {depth : Nat} {vs : List Json} (hne : vs ≠ [])
    (hvs : ∀ v ∈ vs, Rereads sp v) (hdepth : depth + itemNesting vs ≤ depthLimit) {steps : Nat} {ws : List Char}
    (hws : ∀ c ∈ ws, isSpace c = true) (hsteps : 2 * (itemsText sp depth vs).length + 1 ≤ steps) (d : Nat)
    (rest : List Char) :
    readItems? steps depth (ws ++ (itemsText sp depth vs ++ (sp.line d ++ ']' :: rest))) =
      some (Document.ofItems vs, rest) := by
  induction vs generalizing steps ws with
  | nil => exact absurd rfl hne
  | cons v vs ih =>
    obtain ⟨hv, hvs⟩ := List.forall_mem_cons.1 hvs
    obtain ⟨steps, rfl⟩ : ∃ s, steps = s + 1 := ⟨steps - 1, by omega⟩
    have hpos := hv.length_pos depth
    rw [itemNesting] at hdepth
    rw [itemsText, List.length_append] at hsteps
    have hfirst := hv.reads hws (by omega) (by omega : 2 * (printChars sp depth v).length ≤ steps)
      (delimited_itemChars hsp depth vs d rest)
    rw [itemsText, List.append_assoc, readItems?, hfirst, Option.bind_eq_bind, Option.bind_some]
    dsimp only
    cases vs with
    | nil =>
      have hclose : isSpace ']' = false := by decide
      rw [itemChars, List.nil_append, skipSpaces_line (hsp.line d) hclose]
      rfl
    | cons w vs =>
      have hchars := itemChars_eq sp (List.cons_ne_nil w vs) depth
      rw [hchars, List.length_cons, List.length_append] at hsteps
      have hcomma : isSpace ',' = false := by decide
      have hnext := ih (List.cons_ne_nil w vs) hvs (by omega) (hsp.line depth)
        (by omega : 2 * (itemsText sp depth (w :: vs)).length + 1 ≤ steps)
      rw [hchars, List.cons_append, skipSpaces_cons hcomma, List.append_assoc]
      show (readItems? steps depth _).map (fun r => (Document.ofJson v :: r.1, r.2)) = _
      rw [hnext]
      rfl

theorem readValue?_emptyArray {ws : List Char} (hws : ∀ c ∈ ws, isSpace c = true) (steps depth : Nat)
    (rest : List Char) :
    readValue? (steps + 1) depth (ws ++ '[' :: ']' :: rest) =
      some (Document.atDepth (depth + 1) (.array []), rest) := by
  have hopen : isSpace '[' = false := by decide
  have hclose : isSpace ']' = false := by decide
  rw [readValue?, skipSpaces_line hws hopen]
  dsimp only
  rw [if_pos rfl, skipSpaces_cons hclose]
  rfl

theorem readValue?_items {ws cs ds : List Char} {c : Char} (hws : ∀ c ∈ ws, isSpace c = true)
    (hcs : skipSpaces cs = c :: ds) (hc : c ≠ ']') (steps depth : Nat) :
    readValue? (steps + 1) depth (ws ++ '[' :: cs) =
      (readItems? steps (depth + 1) cs).map fun r => (Document.atDepth (depth + 1) (.array r.1), r.2) := by
  have hopen : isSpace '[' = false := by decide
  rw [readValue?, skipSpaces_line hws hopen]
  dsimp only
  rw [if_pos rfl, hcs]
  split
  · next h => exact absurd (List.cons.inj h).1 hc
  · rfl

theorem rereads_array (hsp : sp.Blank) {vs : List Json} (hvs : ∀ v ∈ vs, Rereads sp v) : Rereads sp (.array vs) := by
  cases vs with
  | nil =>
    refine ⟨fun depth => ⟨'[', [']'], rfl, by decide, by decide⟩, fun {depth steps ws rest} hws hdepth hsteps _ => ?_⟩
    rw [nesting, itemNesting] at hdepth
    rw [printChars, List.length_cons] at hsteps
    obtain ⟨steps, rfl⟩ : ∃ s, steps = s + 1 := ⟨steps - 1, by omega⟩
    rw [printChars, List.cons_append, List.cons_append, List.nil_append, readValue?_emptyArray hws,
      atDepth_of_le (by omega)]
    rfl
  | cons v vs =>
    have hchars := printChars_array sp (List.cons_ne_nil v vs)
    refine ⟨fun depth => ⟨'[', _, hchars depth, by decide, by decide⟩,
      fun {depth steps ws rest} hws hdepth hsteps _ => ?_⟩
    rw [nesting] at hdepth
    rw [hchars] at hsteps
    simp only [List.length_cons, List.length_append, List.length_nil] at hsteps
    obtain ⟨steps, rfl⟩ : ∃ s, steps = s + 1 := ⟨steps - 1, by omega⟩
    obtain ⟨c, cs, hprint, hspace, hclose⟩ := (hvs v List.mem_cons_self).head (depth + 1)
    have hitems := readItems?_itemsText hsp (List.cons_ne_nil v vs) hvs
      (by omega : depth + 1 + itemNesting (v :: vs) ≤ depthLimit) (hsp.line (depth + 1))
      (by omega : 2 * (itemsText sp (depth + 1) (v :: vs)).length + 1 ≤ steps) depth rest
    have hskip : skipSpaces
        (sp.line (depth + 1) ++ (itemsText sp (depth + 1) (v :: vs) ++ (sp.line depth ++ ']' :: rest))) =
        c :: (cs ++ itemChars sp (depth + 1) vs ++ (sp.line depth ++ ']' :: rest)) := by
      rw [itemsText, hprint, List.cons_append, List.cons_append, skipSpaces_line (hsp.line _) hspace]
    rw [hchars]
    simp only [List.cons_append, List.append_assoc, List.nil_append]
    rw [readValue?_items hws hskip hclose, hitems, Option.map_some, atDepth_of_le (by omega)]
    rfl

/-- The members of an object that has some, without the blanks around them. -/
def membersText (sp : Spacing) (depth : Nat) : List (String × Json) → List Char
  | [] => []
  | (k, v) :: ms => quotedChars k ++ ':' :: (sp.afterColon ++ (printChars sp depth v ++ memberChars sp depth ms))

theorem printChars_object (sp : Spacing) {ms : List (String × Json)} (hne : ms ≠ []) (depth : Nat) :
    printChars sp depth (.object ms) =
      '\x7b' :: (sp.line (depth + 1) ++ (membersText sp (depth + 1) ms ++ (sp.line depth ++ ['\x7d']))) := by
  obtain ⟨m, ms, rfl⟩ := List.exists_cons_of_ne_nil hne
  simp only [printChars, membersText, List.cons_append, List.append_assoc]

theorem memberChars_eq (sp : Spacing) {ms : List (String × Json)} (hne : ms ≠ []) (depth : Nat) :
    memberChars sp depth ms = ',' :: (sp.line depth ++ membersText sp depth ms) := by
  obtain ⟨m, ms, rfl⟩ := List.exists_cons_of_ne_nil hne
  simp only [memberChars, membersText, List.cons_append, List.append_assoc]

theorem readName?_quotedChars {ws : List Char} (hws : ∀ c ∈ ws, isSpace c = true) (k : String) (rest : List Char) :
    readName? (ws ++ (quotedChars k ++ ':' :: rest)) = some (some k, rest) := by
  have hquote : isSpace '\x22' = false := by decide
  have hcolon : isSpace ':' = false := by decide
  rw [readName?, quotedChars, List.cons_append, List.cons_append, List.append_assoc, skipSpaces_line hws hquote]
  dsimp only
  rw [if_pos rfl, List.singleton_append, readPieces?_quotedChars, Option.bind_eq_bind, Option.bind_some]
  dsimp only
  rw [skipSpaces_cons hcolon, joinText?_pieces]
  rfl

/-- What comes behind a member: a comma with the next one, or the end of the object. -/
theorem delimited_memberChars (hsp : sp.Blank) (depth : Nat) (ms : List (String × Json)) (d : Nat)
    (rest : List Char) : Delimited (memberChars sp depth ms ++ (sp.line d ++ '\x7d' :: rest)) := by
  cases ms with
  | nil =>
    have hclose : Delimited ('\x7d' :: rest) := delimited_cons (by decide) (by decide) (by decide) rest
    rw [memberChars, List.nil_append]
    exact delimited_line (hsp.line d) hclose
  | cons m ms => exact delimited_cons (by decide) (by decide) (by decide) _

theorem readMembers?_membersText (hsp : sp.Blank) {depth : Nat} {ms : List (String × Json)} (hne : ms ≠ [])
    (hms : ∀ m ∈ ms, Rereads sp m.2) (hdepth : depth + memberNesting ms ≤ depthLimit) {steps : Nat} {ws : List Char}
    (hws : ∀ c ∈ ws, isSpace c = true) (hsteps : 2 * (membersText sp depth ms).length + 1 ≤ steps) (d : Nat)
    (rest : List Char) :
    readMembers? steps depth (ws ++ (membersText sp depth ms ++ (sp.line d ++ '\x7d' :: rest))) =
      some (ms.map fun m => (some m.1, Document.ofJson m.2), rest) := by
  induction ms generalizing steps ws with
  | nil => exact absurd rfl hne
  | cons m ms ih =>
    obtain ⟨k, v⟩ := m
    obtain ⟨hv, hms⟩ := List.forall_mem_cons.1 hms
    change Rereads sp v at hv
    obtain ⟨steps, rfl⟩ : ∃ s, steps = s + 1 := ⟨steps - 1, by omega⟩
    rw [memberNesting] at hdepth
    simp only [membersText, List.length_append, List.length_cons] at hsteps
    have hfirst := hv.reads hsp.afterColon (by omega) (by omega : 2 * (printChars sp depth v).length ≤ steps)
      (delimited_memberChars hsp depth ms d rest)
    simp only [membersText, List.append_assoc, List.cons_append]
    rw [readMembers?, readName?_quotedChars hws, Option.bind_eq_bind, Option.bind_some]
    dsimp only
    rw [hfirst, Option.bind_eq_bind, Option.bind_some]
    dsimp only
    cases ms with
    | nil =>
      have hclose : isSpace '\x7d' = false := by decide
      rw [memberChars, List.nil_append, skipSpaces_line (hsp.line d) hclose]
      rfl
    | cons m ms =>
      have hchars := memberChars_eq sp (List.cons_ne_nil m ms) depth
      rw [hchars, List.length_cons, List.length_append] at hsteps
      have hcomma : isSpace ',' = false := by decide
      have hnext := ih (List.cons_ne_nil m ms) hms (by omega) (hsp.line depth)
        (by omega : 2 * (membersText sp depth (m :: ms)).length + 1 ≤ steps)
      rw [hchars, List.cons_append, skipSpaces_cons hcomma, List.append_assoc]
      show (readMembers? steps depth _).map (fun r => ((some k, Document.ofJson v) :: r.1, r.2)) = _
      rw [hnext]
      rfl

/-- Members that all have their names make an object. -/
theorem ofNamed_members (ms : List (String × Json)) :
    Document.ofNamed (ms.map fun m => (some m.1, Document.ofJson m.2)) = .object (Document.ofMembers ms) := by
  have hnames : ((ms.map fun m => (some m.1, Document.ofJson m.2)).mapM fun m => m.1.map fun k => (k, m.2)) =
      some (Document.ofMembers ms) := by
    induction ms with
    | nil => rfl
    | cons m ms ih => simp [Document.ofMembers, ih]
  rw [Document.ofNamed, hnames]

theorem readValue?_emptyObject {ws : List Char} (hws : ∀ c ∈ ws, isSpace c = true) (steps depth : Nat)
    (rest : List Char) :
    readValue? (steps + 1) depth (ws ++ '\x7b' :: '\x7d' :: rest) =
      some (Document.atDepth (depth + 1) (.object []), rest) := by
  have hopen : isSpace '\x7b' = false := by decide
  have hclose : isSpace '\x7d' = false := by decide
  have hbracket : '\x7b' ≠ '[' := by decide
  rw [readValue?, skipSpaces_line hws hopen]
  dsimp only
  rw [if_neg hbracket, if_pos rfl, skipSpaces_cons hclose]
  rfl

theorem readValue?_members {ws cs ds : List Char} {c : Char} (hws : ∀ c ∈ ws, isSpace c = true)
    (hcs : skipSpaces cs = c :: ds) (hc : c ≠ '\x7d') (steps depth : Nat) :
    readValue? (steps + 1) depth (ws ++ '\x7b' :: cs) =
      (readMembers? steps (depth + 1) cs).map fun r =>
        (Document.atDepth (depth + 1) (Document.ofNamed r.1), r.2) := by
  have hopen : isSpace '\x7b' = false := by decide
  have hbracket : '\x7b' ≠ '[' := by decide
  rw [readValue?, skipSpaces_line hws hopen]
  dsimp only
  rw [if_neg hbracket, if_pos rfl, hcs]
  dsimp only
  rw [if_neg hc]

theorem rereads_object (hsp : sp.Blank) {ms : List (String × Json)} (hms : ∀ m ∈ ms, Rereads sp m.2) :
    Rereads sp (.object ms) := by
  cases ms with
  | nil =>
    refine ⟨fun depth => ⟨'\x7b', ['\x7d'], rfl, by decide, by decide⟩,
      fun {depth steps ws rest} hws hdepth hsteps _ => ?_⟩
    rw [nesting, memberNesting] at hdepth
    rw [printChars, List.length_cons] at hsteps
    obtain ⟨steps, rfl⟩ : ∃ s, steps = s + 1 := ⟨steps - 1, by omega⟩
    rw [printChars, List.cons_append, List.cons_append, List.nil_append, readValue?_emptyObject hws,
      atDepth_of_le (by omega)]
    rfl
  | cons m ms =>
    have hchars := printChars_object sp (List.cons_ne_nil m ms)
    refine ⟨fun depth => ⟨'\x7b', _, hchars depth, by decide, by decide⟩,
      fun {depth steps ws rest} hws hdepth hsteps _ => ?_⟩
    rw [nesting] at hdepth
    rw [hchars] at hsteps
    simp only [List.length_cons, List.length_append, List.length_nil] at hsteps
    obtain ⟨steps, rfl⟩ : ∃ s, steps = s + 1 := ⟨steps - 1, by omega⟩
    have hmembers := readMembers?_membersText hsp (List.cons_ne_nil m ms) hms
      (by omega : depth + 1 + memberNesting (m :: ms) ≤ depthLimit) (hsp.line (depth + 1))
      (by omega : 2 * (membersText sp (depth + 1) (m :: ms)).length + 1 ≤ steps) depth rest
    have hquote : isSpace '\x22' = false := by decide
    obtain ⟨ds, hskip⟩ : ∃ ds, skipSpaces (sp.line (depth + 1) ++
        (membersText sp (depth + 1) (m :: ms) ++ (sp.line depth ++ '\x7d' :: rest))) = '\x22' :: ds := by
      rw [membersText, quotedChars, List.cons_append, List.cons_append, List.cons_append,
        skipSpaces_line (hsp.line _) hquote]
      exact ⟨_, rfl⟩
    rw [hchars]
    simp only [List.cons_append, List.append_assoc, List.nil_append]
    rw [readValue?_members hws hskip (by decide), hmembers, Option.map_some, ofNamed_members,
      atDepth_of_le (by omega)]
    rfl

/-! ## Whole texts -/

/-- A value in order whose numbers are spelled is read wherever it stands. -/
theorem Canonical.rereads (hsp : sp.Blank) {v : Json} (hv : v.Canonical)
    (hn : ∀ n ∈ v.numbers, Rereads sp n) : Rereads sp v := by
  induction hv with
  | null => exact rereads_null
  | bool b => exact rereads_bool b
  | int i => exact hn _ (List.mem_singleton_self _)
  | float x => exact hn _ (List.mem_singleton_self _)
  | text s => exact rereads_text s
  | array _ ih =>
    exact rereads_array hsp fun v hv => ih v hv fun n hnum => hn n (mem_itemNumbers.2 ⟨v, hv, hnum⟩)
  | object _ _ ih =>
    exact rereads_object hsp fun m hm => ih m hm fun n hnum => hn n (mem_memberNumbers.2 ⟨m, hm, hnum⟩)

theorem Rereads.document?_render {v : Json} (h : Rereads sp v) (hdepth : v.nesting ≤ depthLimit) :
    document? (render sp v) = some (.ofJson v) := by
  have hread : readValue? (2 * (printChars sp 0 v).length + 2) 0 ([] ++ (printChars sp 0 v ++ [])) =
      some (.ofJson v, []) := h.reads (List.forall_mem_nil _) (by omega) (by omega) (by rintro c ⟨⟩)
  rw [List.nil_append, List.append_nil] at hread
  rw [document?, render, String.length_ofList, String.toList_ofList, hread]
  rfl

/-- A value in order whose integers fit a word with or without sign. -/
structure Writable (v : Json) : Prop where
  canonical : v.Canonical
  words : ∀ i, .int i ∈ v.numbers → Int64.minValue.toInt ≤ i ∧ i < UInt64.size

/-- Each double in the value is read from its own text as itself. -/
def ExactDoubles (v : Json) : Prop := ∀ x, .float x ∈ v.numbers → parse? (toCompact (.float x)) = some (.float x)

theorem isNumber_of_mem_numbers {n v : Json} (hv : v.Canonical) (hn : n ∈ v.numbers) :
    (∃ i, n = .int i) ∨ ∃ x, n = .float x := by
  induction hv with
  | int i => exact .inl ⟨i, List.mem_singleton.1 hn⟩
  | float x => exact .inr ⟨x, List.mem_singleton.1 hn⟩
  | array _ ih =>
    obtain ⟨v, hv, hn⟩ := mem_itemNumbers.1 hn
    exact ih v hv hn
  | object _ _ ih =>
    obtain ⟨m, hm, hn⟩ := mem_memberNumbers.1 hn
    exact ih m hm hn
  | _ => cases hn

/-- **What a printer wrote** is read as it was. -/
theorem Writable.parse?_render (hsp : sp.Blank) {v : Json} (hv : v.Writable) (hdepth : v.nesting ≤ depthLimit)
    (hexact : v.ExactDoubles) : parse? (render sp v) = some v := by
  have hnumbers : ∀ n ∈ v.numbers, Rereads sp n := by
    intro n hn
    obtain ⟨i, rfl⟩ | ⟨x, rfl⟩ := isNumber_of_mem_numbers hv.canonical hn
    · obtain ⟨hlower, hupper⟩ := hv.words i hn
      exact (spells_int hlower hupper).rereads fun _ => rfl
    · exact (spells_float (hexact x hn)).rereads fun _ => rfl
  rw [parse?, (hv.canonical.rereads hsp hnumbers).document?_render hdepth, Option.bind_some,
    Document.value?_ofJson hv.canonical]

/-! ## The text of a member -/

mutual

/-- Without blanks, a text does not tell how deep its value stands. -/
theorem printChars_compact (d e : Nat) : ∀ v, printChars compact d v = printChars compact e v
  | .null | .bool true | .bool false | .int _ | .float _ | .text _ => rfl
  | .array [] | .object [] => rfl
  | .array (v :: vs) => by
    rw [printChars_array _ (List.cons_ne_nil v vs), printChars_array _ (List.cons_ne_nil v vs), itemsText, itemsText,
      printChars_compact (d + 1) (e + 1) v, itemChars_compact (d + 1) (e + 1) vs]
    rfl
  | .object ((k, v) :: ms) => by
    rw [printChars_object _ (List.cons_ne_nil _ ms), printChars_object _ (List.cons_ne_nil _ ms), membersText,
      membersText, printChars_compact (d + 1) (e + 1) v, memberChars_compact (d + 1) (e + 1) ms]
    rfl

theorem itemChars_compact (d e : Nat) : ∀ vs, itemChars compact d vs = itemChars compact e vs
  | [] => rfl
  | v :: vs => by
    rw [itemChars, itemChars, printChars_compact d e v, itemChars_compact d e vs]
    rfl

theorem memberChars_compact (d e : Nat) : ∀ ms, memberChars compact d ms = memberChars compact e ms
  | [] => rfl
  | (k, v) :: ms => by
    rw [memberChars, memberChars, printChars_compact d e v, memberChars_compact d e ms]
    rfl

end

theorem exists_membersText (sp : Spacing) {ms : List (String × Json)} {k : String} {v : Json} (h : (k, v) ∈ ms)
    (depth : Nat) :
    ∃ before after, membersText sp depth ms =
      before ++ (quotedChars k ++ ':' :: (sp.afterColon ++ printChars sp depth v)) ++ after := by
  induction ms with
  | nil => cases h
  | cons m ms ih =>
    obtain rfl | hms := List.mem_cons.1 h
    · refine ⟨[], memberChars sp depth ms, ?_⟩
      simp only [membersText, List.nil_append, List.append_assoc, List.cons_append]
    · obtain ⟨before, after, hrest⟩ := ih hms
      obtain ⟨j, w⟩ := m
      refine ⟨quotedChars j ++ ':' :: (sp.afterColon ++ (printChars sp depth w ++ ',' :: (sp.line depth ++ before))),
        after, ?_⟩
      rw [membersText, memberChars_eq sp (List.ne_nil_of_mem hms), hrest]
      simp only [List.append_assoc, List.cons_append]

/-- The text of an object holds those of its members, each behind its name. -/
theorem exists_toCompact_object {ms : List (String × Json)} {k : String} {v : Json} (h : (k, v) ∈ ms) :
    ∃ before after,
      toCompact (.object ms) = before ++ (String.ofList (quotedChars k) ++ ":" ++ toCompact v) ++ after := by
  obtain ⟨before, after, hmembers⟩ := exists_membersText compact h 1
  refine ⟨String.ofList ('\x7b' :: before), String.ofList (after ++ ['\x7d']), ?_⟩
  have hcolon : ":" = String.ofList [':'] := rfl
  have hchars : printChars compact 0 (.object ms) =
      '\x7b' :: before ++ (quotedChars k ++ [':'] ++ printChars compact 0 v) ++ (after ++ ['\x7d']) := by
    rw [printChars_object _ (List.ne_nil_of_mem h), hmembers, printChars_compact 1 0 v]
    simp only [compact, List.nil_append, List.append_assoc, List.cons_append]
  rw [toCompact, toCompact, render, render, hchars, hcolon]
  simp only [String.ofList_append]

end LogQuery.Json
