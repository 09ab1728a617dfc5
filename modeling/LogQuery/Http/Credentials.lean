import LogQuery.Http.Host
import LogQuery.Settings.Basic
import LogQuery.Text.Cut

/-!
# Credentials

Basic authentication: the name of a user and a password, joined by a colon and written in the sixty-four
characters that headers may have. Settings give them for all nodes, and send no password without a user. The
address of a node can have its own in front of the host, and there a password may stand alone.
-/

namespace LogQuery.Http

open LogQuery.Text

def alphabet : List Char :=
  "ABCDEFGHIJKLMNOPQRSTUVWXYZabcdefghijklmnopqrstuvwxyz0123456789+/".toList

/-- The character of six bits. -/
def sextet (n : Nat) : Char := alphabet.getD (n % 64) 'A'

/-- Bytes in groups of three as four characters each; a last group that is short is filled up. -/
def base64 : List UInt8 → List Char
  | [] => []
  | [a] => [sextet (a.toNat / 4), sextet (a.toNat * 16), '=', '=']
  | [a, b] =>
    let n := a.toNat * 256 + b.toNat
    [sextet (n / 1024), sextet (n / 16), sextet (n * 4), '=']
  | a :: b :: c :: rest =>
    let n := (a.toNat * 256 + b.toNat) * 256 + c.toNat
    sextet (n / 262144) :: sextet (n / 4096) :: sextet (n / 64) :: sextet n :: base64 rest

/-- Who sends a request. -/
structure Credentials where
  user : String
  password : Option String
  deriving DecidableEq, Repr

/-- What stands in the header of a request. -/
def Credentials.header (c : Credentials) : String :=
  "Basic " ++ String.ofList (base64 (c.user ++ ":" ++ c.password.getD "").toUTF8.toList)

/-- The credentials of settings; an empty user counts as none (`HttpTransportConfig::from_settings`). -/
def Credentials.ofSettings? (s : Settings) : Option Credentials :=
  (s.username.filter fun u => !u.isEmpty).map fun u => ⟨u, s.password⟩

/-- The credentials in front of a host, the user up to the first colon. A password that is no text once it is
decoded counts as missing; with such a user, and with neither of the two, there are none. -/
def Credentials.ofUserInfo? (cs : List Char) : Option Credentials :=
  let (user, password) := (cut? ':' cs).getD (cs, [])
  (percentText? user).bind fun user =>
    let password := if password.isEmpty then none else percentText? password
    if user.isEmpty && password.isNone then none else some ⟨user, password⟩

end LogQuery.Http
