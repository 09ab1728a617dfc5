import LogQuery.Http.Transport
import LogQuery.Text.Cut

/-!
# Messages on a connection

What a client writes to a node to post a search, and what it reads from the bytes that come back until the
node closes the connection. The head of an answer ends at its first empty line. Its body is as long as the
head says, comes in chunks, or is all that follows; an answer that ends too early is cut.

Main statement: whatever its status, an answer whose body is a text is read as that text
(`bodyText?_flatMap_bytesOf`).
-/

namespace LogQuery.Http

open LogQuery.Text

/-! ## Requests -/

/-- The four numbers of an address. -/
def dotted (n : Nat) : String :=
  ".".intercalate ([n / 0x1000000 % 256, n / 0x10000 % 256, n / 0x100 % 256, n % 256].map ofNat)

/-- A host as it is looked up. -/
def Host.toText : Host → String
  | name s => s
  | v4 n => dotted n
  | v6 groups => ":".intercalate (groups.map fun g => String.ofList (Nat.toDigits 16 g))

/-- A host as it stands in an address. -/
def Host.bracketed : Host → String
  | v6 groups => "[" ++ (v6 groups).toText ++ "]"
  | h => h.toText

/-- Host and port; the port of the scheme goes without saying. -/
def Url.authority (u : Url) : String :=
  if u.port = u.scheme.defaultPort then u.host.bracketed
  else u.host.bracketed ++ ":" ++ ofNat u.port

namespace Post

/-- The lines of the head of a request with a body of so many bytes. -/
def headLines (p : Post) (size : Nat) : List String :=
  ["POST " ++ p.url.target ++ " HTTP/1.1", "Host: " ++ p.url.authority, "Accept: */*",
    "Connection: close", "Content-Type: application/json", "Content-Length: " ++ ofNat size] ++
    p.authorizations.map fun a => "Authorization: " ++ a

/-- What is written to the node. -/
def message (p : Post) : String :=
  let body := p.body.toCompact
  String.join ((p.headLines body.utf8ByteSize).map fun l => l ++ "\r\n") ++ "\r\n" ++ body

end Post

/-! ## Answers -/

/-- The bytes in front of the first empty line, and those behind it. -/
def splitHead? : List UInt8 → Option (List UInt8 × List UInt8)
  | 13 :: 10 :: 13 :: 10 :: rest => some ([], rest)
  | [] => none
  | b :: bs => (splitHead? bs).map fun p => (b :: p.1, p.2)

structure Head where
  status : Nat
  /-- Names in lower case, with their values. -/
  fields : List (String × String)

namespace Head

/-- A line with a name, a colon and a value. -/
def field? (line : List Char) : Option (String × String) :=
  (cut? ':' line).map fun p =>
    (String.ofList (p.1.map Char.toLower), String.ofList (trimChars p.2))

/-- The status stands behind the version. -/
def status? (line : String) : Option Nat :=
  match line.splitOn " " with
  | _ :: code :: _ => readNat? code.toList
  | _ => none

def ofText? (s : String) : Option Head :=
  match s.splitOn "\r\n" with
  | [] => none
  | first :: rest => (status? first).map fun n => ⟨n, rest.filterMap fun l => field? l.toList⟩

def find? (h : Head) (name : String) : Option String :=
  (h.fields.find? fun f => f.1 = name).map Prod.snd

end Head

/-- Where a body ends. -/
inductive Framing where
  | sized (n : Nat)
  | chunked
  | untilClose

def Head.framing (h : Head) : Framing :=
  if ((h.find? "transfer-encoding").getD "").endsWith "chunked" then .chunked
  else
    match (h.find? "content-length").bind fun s => readNat? s.toList with
    | some n => .sized n
    | none => .untilClose

/-- The number at the start of a chunk, and what follows its line. -/
def chunkSize? (bs : List UInt8) : Option (Nat × List UInt8) :=
  let line := (bs.takeWhile (· ≠ 13)).map fun b => Char.ofNat b.toNat
  let digits := line.takeWhile isHexDigit
  match digits, bs.dropWhile (· ≠ 13) with
  | [], _ => none
  | _ :: _, 13 :: 10 :: rest => some (ofDigitValues 16 (digits.map hexDigitValue), rest)
  | _ :: _, _ => none

/-- The bytes of at most `fuel` chunks, up to the one of size zero; nothing if they end before it. -/
def dechunk : Nat → List UInt8 → Option (List UInt8)
  | 0, _ => none
  | fuel + 1, bs =>
    match chunkSize? bs with
    | none => none
    | some (0, _) => some []
    | some (n, rest) =>
      if rest.length < n + 2 then none
      else (dechunk fuel (rest.drop (n + 2))).map fun more => rest.take n ++ more

/-- The bytes of a body; nothing if the connection ended too early. -/
def Framing.body? : Framing → List UInt8 → Option (List UInt8)
  | sized n, bs => if bs.length < n then none else some (bs.take n)
  | chunked, bs => dechunk (bs.length + 1) bs
  | untilClose, bs => some bs

/-! ## Texts -/

/-- The second byte fits behind the first, in a character of three or four bytes. -/
def opens (a b : UInt8) : Bool :=
  if a = 0xE0 then 0xA0 ≤ b && b ≤ 0xBF
  else if a = 0xED then 0x80 ≤ b && b ≤ 0x9F
  else if a = 0xF0 then 0x90 ≤ b && b ≤ 0xBF
  else if a = 0xF4 then 0x80 ≤ b && b ≤ 0x8F
  else 0xE1 ≤ a && a ≤ 0xF3 && 0x80 ≤ b && b ≤ 0xBF

/-- How many bytes in front are one broken character. -/
def brokenLength : List UInt8 → Nat
  | a :: b :: rest =>
    if opens a b then
      if 0xF0 ≤ a && rest.head?.any (fun c => 0x80 ≤ c && c ≤ 0xBF) then 3 else 2
    else 1
  | _ => 1

/-- The character whose bytes come first, if they are those of one. -/
def firstChar? (bs : List UInt8) : Option Char := (bs.take 4).toByteArray.utf8DecodeChar? 0

/-- The characters of some bytes, of which the first few are skipped. A replacement character stands for each
broken one. -/
def charsFrom : Nat → List UInt8 → List Char
  | _, [] => []
  | skip + 1, _ :: bs => charsFrom skip bs
  | 0, b :: bs =>
    match firstChar? (b :: bs) with
    | some c => c :: charsFrom (c.utf8Size - 1) bs
    | none => '\ufffd' :: charsFrom (brokenLength (b :: bs) - 1) bs

theorem charsFrom_length_append (skipped bs : List UInt8) :
    charsFrom skipped.length (skipped ++ bs) = charsFrom 0 bs := by
  induction skipped with
  | nil => rfl
  | cons b skipped ih => exact ih

theorem firstChar?_bytesOf_append (c : Char) (bs : List UInt8) : firstChar? (bytesOf c ++ bs) = some c := by
  have hlen : (bytesOf c).length ≤ 4 := by
    rw [length_bytesOf]
    exact c.utf8Size_le_four
  rw [firstChar?, List.take_append, List.take_of_length_le hlen, List.toByteArray_append]
  exact ByteArray.utf8DecodeChar?_utf8EncodeChar_append

/-- Nothing is replaced in the bytes of a text. -/
theorem charsFrom_flatMap_bytesOf (cs : List Char) : charsFrom 0 (cs.flatMap bytesOf) = cs := by
  induction cs with
  | nil => rfl
  | cons c cs ih =>
    have hlen := length_bytesOf c
    have hfirst := firstChar?_bytesOf_append c (cs.flatMap bytesOf)
    rw [List.flatMap_cons]
    cases hb : bytesOf c with
    | nil =>
      have hpos := c.utf8Size_pos
      rw [← hlen, hb] at hpos
      exact absurd hpos (Nat.lt_irrefl 0)
    | cons b bs =>
      rw [hb] at hlen hfirst
      have hskip : c.utf8Size - 1 = bs.length := by rw [← hlen]; rfl
      rw [List.cons_append] at hfirst ⊢
      simp only [charsFrom, hfirst, hskip, charsFrom_length_append, ih]

theorem textOfBytes?_flatMap_bytesOf (s : String) : textOfBytes? (s.toList.flatMap bytesOf) = some s := by
  have hbytes : (⟨(s.toList.flatMap bytesOf).toArray⟩ : ByteArray) = s.toByteArray := by
    rw [← String.utf8Encode_toList]
    exact ByteArray.ext List.data_toByteArray.symm
  rw [textOfBytes?, hbytes, String.fromUTF8?, dif_pos s.isValidUTF8]
  rfl

/-- The text of a body. A success must be text throughout; in any other answer a replacement character stands for
what is none. All are read as UTF-8, whatever character set the head names. -/
def bodyText? (status : Nat) (bs : List UInt8) : Option String :=
  if isSuccess status then textOfBytes? bs else some (String.ofList (charsFrom 0 bs))

/-- A body that is a text is read as that text. -/
theorem bodyText?_flatMap_bytesOf (status : Nat) (s : String) :
    bodyText? status (s.toList.flatMap bytesOf) = some s := by
  rw [bodyText?]
  split
  · exact textOfBytes?_flatMap_bytesOf s
  · rw [charsFrom_flatMap_bytesOf, String.ofList_toList]

/-- What the bytes of a connection are as an answer. A body that has no text counts as cut. -/
def Reply.ofBytes (bs : List UInt8) : Reply :=
  match splitHead? bs with
  | none => .broken "connection closed before message completed"
  | some (head, rest) =>
    match Head.ofText? (String.ofList (head.map fun b => Char.ofNat b.toNat)) with
    | none => .broken "invalid HTTP response"
    | some h => .answered h.status (((h.framing.body? rest).bind (bodyText? h.status)).elim .cut .text)

end LogQuery.Http
