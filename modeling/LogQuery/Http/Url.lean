import LogQuery.Http.Credentials

/-!
# Addresses of requests

How an HTTP client reads the text of an address. The text must name one of the two web schemes and a host.
Any number of slashes may follow the scheme, and a backslash counts as a slash. Blanks around the text and
line breaks inside are dropped. A user may stand in front of the host. The path is taken apart into
segments, where `.` and `..` are resolved, and characters that cannot stand in a request line are written as
percent signs with two digits. What follows a hash sign is not sent.
-/

namespace LogQuery.Http

open LogQuery.Text

inductive Scheme where
  | http
  | https
  deriving DecidableEq, Repr

/-- An address, its path and query ready to be sent. -/
structure Url where
  scheme : Scheme
  /-- Who the address says is asking. -/
  user : Option Credentials
  host : Host
  port : Nat
  /-- The segments of the path; at least one. -/
  segments : List (List Char)
  query : Option (List Char)
  deriving DecidableEq, Repr

/-! ## Percent-encoding -/

def percentByte (b : UInt8) : List Char :=
  ['%', (Nat.digitChar (b.toNat / 16)).toUpper, (Nat.digitChar (b.toNat % 16)).toUpper]

/-- Replaces the characters of a set by their bytes. -/
def encode (inSet : Char → Bool) (cs : List Char) : List Char :=
  cs.flatMap fun c => if inSet c then (bytesOf c).flatMap percentByte else [c]

def isUnprintable (c : Char) : Bool := c.toNat < 0x20 || 0x7E < c.toNat

/-- Characters that cannot stand in a path. -/
def notInPath (c : Char) : Bool :=
  isUnprintable c || [' ', '\x22', '#', '<', '>', '?', '\x60', '\x7b', '\x7d'].contains c

/-- Characters that cannot stand in a query. -/
def notInQuery (c : Char) : Bool := isUnprintable c || [' ', '\x22', '#', '<', '>', '\x27'].contains c

/-! ## Paths -/

def isSlash (c : Char) : Bool := c = '/' || c = '\\'

/-- The segment with the written forms of a point replaced by it. -/
def withPoints : List Char → List Char
  | '%' :: '2' :: c :: cs => if c.toLower = 'e' then '.' :: withPoints cs else '%' :: '2' :: c :: cs
  | '.' :: cs => '.' :: withPoints cs
  | cs => cs

def isHere (s : List Char) : Bool := withPoints s = ['.']

def isUp (s : List Char) : Bool := withPoints s = ['.', '.']

/-- Goes through the segments of a path, on from those that have been passed. -/
def resolve (passed : List (List Char)) : List (List Char) → List (List Char)
  | [] => passed
  | s :: rest =>
    if isUp s then resolve (passed.dropLast ++ (if rest.isEmpty then [[]] else [])) rest
    else if isHere s then resolve (passed ++ (if rest.isEmpty then [[]] else [])) rest
    else resolve (passed ++ [encode notInPath s]) rest

/-- The segments of a path that starts with a slash, or is empty. -/
def segmentsOf (cs : List Char) : List (List Char) := resolve [] ((cs.drop 1).splitOnP isSlash)

/-! ## The parts of an address -/

/-- Blanks and control characters at the ends are dropped, and line breaks and tabs anywhere. -/
def stripped (s : String) : List Char :=
  let isOuter (c : Char) : Bool := c.toNat ≤ 0x20
  let cs := ((s.toList.dropWhile isOuter).reverse.dropWhile isOuter).reverse
  cs.filter fun c => !(c = '\t' || c = '\n' || c = '\r')

/-- The scheme, and what follows its colon. -/
def scheme? (cs : List Char) : Option (Scheme × List Char) :=
  let name := String.ofList ((cs.takeWhile (· ≠ ':')).map Char.toLower)
  match cs.dropWhile (· ≠ ':') with
  | [] => none
  | _ :: rest =>
    if name = "http" then some (.http, rest) else if name = "https" then some (.https, rest) else none

def Scheme.defaultPort : Scheme → Nat
  | http => 80
  | https => 443

/-- A port of 16 bits; without digits it is that of the scheme. -/
def port? (scheme : Scheme) (ds : List Char) : Option Nat :=
  if ds.isEmpty then some scheme.defaultPort
  else if ds.all Char.isDigit && ofDigitChars ds < UInt16.size then some (ofDigitChars ds)
  else none

/-- What follows the last sign of a kind, or all if there is none. -/
def afterLast (c : Char) (cs : List Char) : List Char := (cs.reverse.takeWhile (· ≠ c)).reverse

/-- What stands before the last sign of a kind; nothing if there is none. -/
def beforeLast (c : Char) (cs : List Char) : List Char := ((cs.reverse.dropWhile (· ≠ c)).drop 1).reverse

/-- Host and port without a user before them. The colons of an address in brackets are its own. -/
def splitPort (cs : List Char) : List Char × List Char :=
  match cs with
  | '[' :: _ =>
    let host := cs.takeWhile (· ≠ ']')
    match cs.dropWhile (· ≠ ']') with
    | [] => (host, [])
    | close :: rest => (host ++ close :: rest.takeWhile (· ≠ ':'), (rest.dropWhile (· ≠ ':')).drop 1)
  | cs => (cs.takeWhile (· ≠ ':'), (cs.dropWhile (· ≠ ':')).drop 1)

def isQueryOrHash (c : Char) : Bool := c = '?' || c = '#'

/-- The query behind a question mark. -/
def queryOf (cs : List Char) : Option (List Char) :=
  match cs with
  | '?' :: cs => some (encode notInQuery (cs.takeWhile (· ≠ '#')))
  | _ => none

def Url.parse? (s : String) : Option Url := do
  let (scheme, rest) ← scheme? (stripped s)
  let rest := rest.dropWhile isSlash
  let authority := rest.takeWhile fun c => !isSlash c && !isQueryOrHash c
  let tail := rest.dropWhile fun c => !isSlash c && !isQueryOrHash c
  let (host, port) := splitPort (afterLast '@' authority)
  let port ← port? scheme port
  let host ← Host.ofChars? host
  some { scheme, host, port
         user := Credentials.ofUserInfo? (beforeLast '@' authority)
         segments := segmentsOf (tail.takeWhile fun c => !isQueryOrHash c)
         query := queryOf (tail.dropWhile fun c => !isQueryOrHash c) }

/-- What is sent in headers of authorization because the address says so. -/
def Url.authorizations (u : Url) : List String := (u.user.map Credentials.header).toList

/-- The path with its slashes. -/
def Url.pathChars (u : Url) : List Char := u.segments.flatMap fun s => '/' :: s

/-- Path and query as they stand in a request line. -/
def Url.target (u : Url) : String :=
  String.ofList (u.pathChars ++ u.query.elim [] fun q => '?' :: q)

end LogQuery.Http
