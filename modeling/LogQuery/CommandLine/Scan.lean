import LogQuery.CommandLine.Grammar

/-!
# Scanning arguments

Arguments are options, values of options, or words. A value is attached to its option (`--name=value`,
`-ovalue`, `-o=value`) or is the next argument, unless that looks like an option itself. An option that
waits for its value, or has got it from the next argument, counts when the next option is met, or at the
end: an argument that no place knows comes before what is wrong with the option in front of it. Behind `--`
there are only words.

Main statement: options with attached values are scanned one by one (`scan_attached`).
-/

namespace LogQuery.CommandLine

open LogQuery.Text

/-- What an argument looks like. -/
inductive Shape where
  /-- The mark behind which there are only words. -/
  | escape
  | long (name : String) (value : Option String)
  | short (letter : Char) (rest : List Char)
  | word
  deriving DecidableEq, Repr

/-- The long name of an argument and the value attached to it. -/
def Shape.ofLong (cs : List Char) : Shape :=
  match cut? '=' cs with
  | some (name, value) => .long (String.ofList name) (some (String.ofList value))
  | none => .long (String.ofList cs) none

def Shape.of (argument : String) : Shape :=
  match argument.toList with
  | ['-', '-'] => .escape
  | '-' :: '-' :: cs => ofLong cs
  | '-' :: c :: cs => .short c cs
  | _ => .word

/-- An option as it was given. -/
structure Occurrence where
  option : OptionName
  value : Option String
  deriving DecidableEq, Repr

/-- How a scan ended. -/
inductive Stop where
  | finished
  | fault (e : UsageError)
  /-- At a word that is no value; `last` is an option that does not count yet. -/
  | word (s : String) (rest : List String) (last : Option Occurrence)
  /-- At a word behind `--`. -/
  | pastEscape (s : String)

/-- An option that was met, by its name or letter: one of the options with values, or one of those that
ask for something else. -/
inductive Met where
  | option (o : OptionName)
  | request (e : UsageError)

namespace Place

/-- What a long name stands for at the place. -/
def metLong? (p : Place) (name : String) : Option Met :=
  if name = "help" then some (.request .help)
  else if name = "version" ∧ p.showsVersion then some (.request .version)
  else ((OptionName.ofLong? name).filter p.knows).map .option

/-- What a letter stands for at the place. -/
def metLetter? (p : Place) (c : Char) : Option Met :=
  if c = 'h' then some (.request .help)
  else if c = 'V' ∧ p.showsVersion then some (.request .version)
  else ((OptionName.ofLetter? c).filter p.knows).map .option

end Place

/-- The value attached to a letter; an equals sign in front does not belong to it. -/
def attachedToLetter : List Char → Option String
  | [] => none
  | '=' :: cs => some (String.ofList cs)
  | cs => some (String.ofList cs)

/-- What is made of an option at its argument. -/
inductive Step where
  /-- The option is complete. -/
  | complete (o : Occurrence)
  /-- The option waits for its value. -/
  | waiting (o : OptionName)
  /-- The option asks for something else; those in front of it count first. -/
  | request (e : UsageError)
  | fault (e : UsageError)

/-- What is made of an option that was met with a value attached to it, or none. -/
def Met.step (name : String) (attached : Option String) : Met → Step
  | .request e =>
    match attached with
    | none => .request e
    | some _ => .fault (.unexpectedValue name)
  | .option o =>
    match o.kind, attached with
    | .flag, none => .complete ⟨o, none⟩
    | .flag, some _ => .fault (.unexpectedValue name)
    | _, some v => .complete ⟨o, some v⟩
    | _, none => .waiting o

/-- What is made of a letter. One that asks for something else does so whatever follows it. -/
def Met.letterStep (name : String) (rest : List Char) : Met → Step
  | .request e => .request e
  | .option o => (Met.option o).step name (attachedToLetter rest)

/-- What is made of an argument; nothing if it is a word or the mark. -/
def Place.step? (p : Place) (argument : String) : Option Step :=
  match Shape.of argument with
  | .long name value =>
    some (((p.metLong? name).map (Met.step name value)).getD (.fault (.unknownArgument argument)))
  | .short c rest =>
    some (((p.metLetter? c).map (Met.letterStep (String.singleton c) rest)).getD
      (.fault (.unknownArgument argument)))
  | .escape | .word => none

/-- Puts occurrences in front of those of a scan. -/
def before (os : List Occurrence) (s : List Occurrence × Stop) : List Occurrence × Stop :=
  (os ++ s.1, s.2)

/-- Scans arguments at a place, where `last` is an option that does not count yet. The occurrences that
count come first, then why the scan ended. -/
def scan (p : Place) : Option Occurrence → List String → List Occurrence × Stop
  | last, [] => (last.toList, .finished)
  | last, argument :: rest =>
    match p.step? argument with
    | some (.complete o) => before (last.toList ++ [o]) (scan p none rest)
    | some (.waiting o) => before last.toList (scan p (some ⟨o, none⟩) rest)
    | some (.request e) => (last.toList, .fault e)
    | some (.fault e) => ([], .fault e)
    | none =>
      match Shape.of argument, rest with
      | .escape, [] => (last.toList, .finished)
      | .escape, word :: _ => ([], .pastEscape word)
      | _, _ =>
        match last with
        | some ⟨o, none⟩ => scan p (some ⟨o, some argument⟩) rest
        | last => ([], .word argument rest last)

theorem scan_attached {p : Place} {argument : String} {o : Occurrence} (rest : List String)
    (h : p.step? argument = some (.complete o)) :
    scan p none (argument :: rest) = (o :: (scan p none rest).1, (scan p none rest).2) := by
  simp [scan, h, before]

end LogQuery.CommandLine
