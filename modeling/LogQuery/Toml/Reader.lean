import LogQuery.Toml.Draft
import LogQuery.Toml.Number

/-!
# Reading TOML text

A text is a sequence of lines that give a value to a key or open a table. A line may end in a comment;
only texts in three quotes and lists go on over the ends of lines. Every reader takes a part off the
start of the characters and gives the rest.

Lists and inline tables stand in one another at most 79 deep, and a key has at most 79 names.
-/

namespace LogQuery.Toml

open LogQuery.Text

def isBlank (c : Char) : Bool := c = ' ' || c = '\t'

def skipBlanks (cs : List Char) : List Char := cs.dropWhile isBlank

/-- A character that may stand in a comment or a text as it is. -/
def isPlain (c : Char) : Bool := c = '\t' || (0x20 ≤ c.toNat && c.toNat ≠ 0x7F)

/-- The end of a line. -/
def newline? : List Char → Option (List Char)
  | '\n' :: cs => some cs
  | '\r' :: '\n' :: cs => some cs
  | _ => none

def skipComment (cs : List Char) : List Char :=
  match cs with
  | '#' :: cs => cs.dropWhile isPlain
  | cs => cs

/-- Blanks and a comment up to the end of the line or of the text. -/
def endOfLine? (cs : List Char) : Option (List Char) :=
  match skipComment (skipBlanks cs) with
  | [] => some []
  | cs => newline? cs

/-- Blanks, comments and ends of lines; the first argument bounds their number. -/
def skipLines? : Nat → List Char → Option (List Char)
  | 0, cs => some cs
  | n + 1, cs =>
    match skipBlanks cs with
    | [] => some []
    | '#' :: cs =>
      match cs.dropWhile isPlain with
      | [] => some []
      | cs => (newline? cs).bind (skipLines? n)
    | cs =>
      match newline? cs with
      | some rest => skipLines? n rest
      | none => some cs

/-! ## Texts -/

/-- The character with this number, if there is one. -/
def codePoint? (ds : List Char) : Option Char :=
  if ds.all isHexDigit then
    let n := ofDigitValues 16 (ds.map hexDigitValue)
    if n < 0xD800 || (0xE000 ≤ n && n < 0x110000) then some (Char.ofNat n) else none
  else none

/-- What stands after a backslash, and the characters after it. -/
def escape? : List Char → Option (Char × List Char)
  | [] => none
  | c :: cs =>
    if c = 'u' then (if cs.length < 4 then none else (codePoint? (cs.take 4)).map fun e => (e, cs.drop 4))
    else if c = 'U' then
      (if cs.length < 8 then none else (codePoint? (cs.take 8)).map fun e => (e, cs.drop 8))
    else if c = 'b' then some ('\x08', cs)
    else if c = 't' then some ('\t', cs)
    else if c = 'n' then some ('\n', cs)
    else if c = 'f' then some ('\x0c', cs)
    else if c = 'r' then some ('\r', cs)
    else if c = '\x22' || c = '\\' then some (c, cs)
    else none

/-- Adds a character in front of what is read after it. -/
def push (c : Char) (r : Option (List Char × List Char)) : Option (List Char × List Char) :=
  r.map fun r => (c :: r.1, r.2)

/-- A text on one line up to the quote, backslashes having a meaning. -/
def basicText? : Nat → List Char → Option (List Char × List Char)
  | 0, _ => none
  | _, [] => none
  | n + 1, c :: cs =>
    if c = '\x22' then some ([], cs)
    else if c = '\\' then do
      let (e, rest) ← escape? cs
      push e (basicText? n rest)
    else if isPlain c then push c (basicText? n cs)
    else none

/-- A text on one line up to the quote, taken as it is. -/
def literalText? : List Char → Option (List Char × List Char)
  | [] => none
  | c :: cs =>
    if c = '\x27' then some ([], cs) else if isPlain c then push c (literalText? cs) else none

/-- Three quotes end a text; up to two more before them belong to it. -/
def closing? (quote : Char) (cs : List Char) : Option (List Char × List Char) :=
  let n := (cs.takeWhile (· = quote)).length
  if 3 ≤ n && n ≤ 5 then some (List.replicate (n - 3) quote, cs.drop n) else none

/-- Blanks and ends of lines. -/
def skipEmpty : List Char → List Char
  | '\r' :: '\n' :: cs => skipEmpty cs
  | c :: cs => if isBlank c || c = '\n' then skipEmpty cs else c :: cs
  | [] => []

/-- Blanks and ends of lines after a backslash at the end of a line. -/
def skipFold (cs : List Char) : Option (List Char) := (newline? (skipBlanks cs)).map skipEmpty

/-- A text up to three quotes, on any number of lines. A backslash has a meaning if `escapes`. -/
def longText? (quote : Char) (escapes : Bool) : Nat → List Char → Option (List Char × List Char)
  | 0, _ => none
  | _, [] => none
  | n + 1, c :: cs =>
    if c = quote then
      let run := (c :: cs).takeWhile (· = quote)
      if run.length < 3 then push c (longText? quote escapes n cs) else closing? quote (c :: cs)
    else if c = '\\' && escapes then
      match skipFold cs with
      | some rest => longText? quote escapes n rest
      | none => do
        let (e, rest) ← escape? cs
        push e (longText? quote escapes n rest)
    else if isPlain c then push c (longText? quote escapes n cs)
    else
      match newline? (c :: cs) with
      | some rest => push '\n' (longText? quote escapes n rest)
      | none => none

/-- An end of line right after the opening quotes is no part of the text. -/
def skipFirstNewline (cs : List Char) : List Char := (newline? cs).getD cs

/-- A text in quotes of either kind, and the characters after it. -/
def text? : List Char → Option (List Char × List Char)
  | [] => none
  | c :: cs =>
    let isLong := match cs with
      | a :: b :: _ => a = c && b = c
      | _ => false
    let body := skipFirstNewline (cs.drop 2)
    if c = '\x22' then
      if isLong then longText? c true (cs.length + 1) body else basicText? (cs.length + 1) cs
    else if c = '\x27' then
      if isLong then longText? c false (cs.length + 1) body else literalText? cs
    else none

/-! ## Keys -/

def isKeyChar (c : Char) : Bool := c.isAlphanum || c = '_' || c = '-'

/-- One name of a key, and the characters after it. -/
def name? (cs : List Char) : Option (String × List Char) :=
  match cs with
  | [] => none
  | c :: rest =>
    if c = '\x22' then (basicText? (cs.length + 1) rest).map fun r => (String.ofList r.1, r.2)
    else if c = '\x27' then (literalText? rest).map fun r => (String.ofList r.1, r.2)
    else
      let k := cs.takeWhile isKeyChar
      if k.isEmpty then none else some (String.ofList k, cs.dropWhile isKeyChar)

/-- The names of a key with points between them, and the characters after it. -/
def key? : Nat → List Char → Option (List String × List Char)
  | 0, _ => none
  | n + 1, cs => do
    let (k, rest) ← name? (skipBlanks cs)
    match skipBlanks rest with
    | '.' :: rest => (key? n rest).map fun r => (k :: r.1, r.2)
    | rest => some ([k], rest)

/-- What may not be reached by nested values and the names of a key. -/
def nestingLimit : Nat := 80

/-- A key as the path to its last name, and the characters after it. -/
def path? (cs : List Char) : Option (List String × String × List Char) := do
  let (ks, rest) ← key? (nestingLimit - 1) cs
  let last ← ks.getLast?
  some (ks.dropLast, last, rest)

/-! ## Values -/

/-- A word at the start of the text. A date may go on after a blank with a time of day. -/
def scalar? (cs : List Char) : Option (Loose × List Char) :=
  let w := cs.takeWhile isWordChar
  let rest := cs.dropWhile isWordChar
  match date? w, rest with
  | some (_, []), ' ' :: more =>
    let t := more.takeWhile isWordChar
    if t.isEmpty then (word? w).map fun v => (v, rest)
    else (word? (w ++ ' ' :: t)).map fun v => (v, more.dropWhile isWordChar)
  | _, _ => (word? w).map fun v => (v, rest)

mutual

/-- A value inside `depth` others, and the characters after it. The first argument bounds the steps. -/
def value? (steps : Nat) (depth : Nat) (cs : List Char) : Option (Loose × List Char) :=
  match steps with
  | 0 => none
  | steps + 1 =>
    match cs with
    | [] => none
    | c :: rest =>
      if c = '[' then
        if depth + 1 < nestingLimit then do
          let (vs, rest) ← listItems? steps (depth + 1) rest
          some (.list vs, rest)
        else none
      else if c = '\x7b' then
        if depth + 1 < nestingLimit then do
          match skipBlanks rest with
          | [] => none
          | d :: more =>
            if d = '\x7d' then some (.table [], more)
            else do
              let (t, rest) ← inlineMembers? steps (depth + 1) .empty rest
              some (t.toLoose, rest)
        else none
      else if c = '\x22' || c = '\x27' then
        (text? cs).map fun r => (.text (String.ofList r.1), r.2)
      else scalar? cs

/-- The items of a list up to its closing bracket. -/
def listItems? (steps : Nat) (depth : Nat) (cs : List Char) : Option (List Loose × List Char) :=
  match steps with
  | 0 => none
  | steps + 1 => do
    let cs ← skipLines? (cs.length + 1) cs
    match cs with
    | ']' :: rest => some ([], rest)
    | cs => do
      let (v, rest) ← value? steps depth cs
      let rest ← skipLines? (rest.length + 1) rest
      match rest with
      | ',' :: rest => (listItems? steps depth rest).map fun r => (v :: r.1, r.2)
      | ']' :: rest => some ([v], rest)
      | _ => none

/-- The members of an inline table up to its closing brace, put into what has been read of it. -/
def inlineMembers? (steps : Nat) (depth : Nat) (t : Draft) (cs : List Char) :
    Option (Draft × List Char) :=
  match steps with
  | 0 => none
  | steps + 1 => do
    let (path, k, rest) ← path? cs
    let rest ← expect? '=' rest
    let (v, rest) ← value? steps depth (skipBlanks rest)
    let t ← t.assign? path k v
    match skipBlanks rest with
    | [] => none
    | c :: rest =>
      if c = ',' then inlineMembers? steps depth t rest
      else if c = '\x7d' then some (t, rest)
      else none

end

/-! ## Statements -/

/-- A header: whether it adds one of several tables, and its path. -/
structure Header where
  isElement : Bool
  path : List String
  name : String

/-- A line that gives a value to a key. -/
structure Assignment where
  path : List String
  name : String
  value : Loose

/-- A table with the lines under its header. -/
structure Section where
  header : Header
  lines : List Assignment

/-- The name between the brackets of a header, and the rest of the text after its line. -/
def header? (cs : List Char) : Option (Header × List Char) :=
  match cs with
  | '[' :: '[' :: cs => do
    let (path, k, rest) ← path? cs
    let rest ← (expect? ']' rest).bind (expect? ']')
    let rest ← endOfLine? rest
    some (⟨true, path, k⟩, rest)
  | '[' :: cs => do
    let (path, k, rest) ← path? cs
    let rest ← expect? ']' rest
    let rest ← endOfLine? rest
    some (⟨false, path, k⟩, rest)
  | _ => none

def assignment? (cs : List Char) : Option (Assignment × List Char) := do
  let (path, k, rest) ← path? cs
  let rest ← expect? '=' rest
  let (v, rest) ← value? (2 * cs.length + 2) 0 (skipBlanks rest)
  let rest ← endOfLine? rest
  some (⟨path, k, v⟩, rest)

/-- The lines before the next header, and the characters from there on. -/
def assignments? : Nat → List Char → Option (List Assignment × List Char)
  | 0, _ => none
  | n + 1, cs => do
    let cs ← skipLines? (cs.length + 1) cs
    match cs with
    | [] => some ([], [])
    | '[' :: cs => some ([], '[' :: cs)
    | cs => do
      let (a, rest) ← assignment? cs
      (assignments? n rest).map fun r => (a :: r.1, r.2)

/-- The tables up to the end of the text. -/
def sections? : Nat → List Char → Option (List Section)
  | 0, _ => none
  | _, [] => some []
  | n + 1, cs => do
    let (h, rest) ← header? cs
    let (as, rest) ← assignments? (rest.length + 1) rest
    (sections? n rest).map (⟨h, as⟩ :: ·)

def fill? (as : List Assignment) (d : Draft) : Option Draft :=
  as.foldlM (fun d a => d.assign? a.path a.name a.value) d

def addSection? (d : Draft) (s : Section) : Option Draft :=
  let place := if s.header.isElement then Draft.element? else Draft.section?
  d.descend? false (place (fill? s.lines) s.header.name) s.header.path

/-- The members of the table that a text describes. -/
def members? (s : String) : Option (Members Loose) := do
  let cs := match s.toList with
    | '\ufeff' :: cs => cs
    | cs => cs
  let (as, rest) ← assignments? (cs.length + 1) cs
  let d ← fill? as .empty
  let ss ← sections? (rest.length + 1) rest
  let d ← ss.foldlM addSection? d
  some d.toLoose.members

end LogQuery.Toml
