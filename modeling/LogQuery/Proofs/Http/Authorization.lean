import LogQuery.Proofs.Http.Failover

/-!
# Who is sent with a search

What stands in the header of a request can be read back: the sixty-four characters give the bytes of the
user, a colon and the password (`unbase64_base64`). All requests of a search carry the credentials of the
settings, whichever node they are sent to, and besides only those of the node's own address.

Settings that have been checked have a user beside a password, but the name of the user may be empty, and an
empty user counts as none. The password is sent with every request just if the name is not empty
(`authorization_of_password`, `anonymous_of_emptyUser`).
-/

namespace LogQuery.Http

/-! ## Reading the header back -/

/-- The six bits of a character. -/
def sextetValue? (c : Char) : Option Nat := alphabet.idxOf? c

/-- Bytes from groups of six bits; what is left over at the end fills no byte. -/
def bytesOfSextets : List Nat → List UInt8
  | a :: b :: c :: d :: rest =>
    let n := ((a * 64 + b) * 64 + c) * 64 + d
    .ofNat (n / 65536) :: .ofNat (n / 256) :: .ofNat n :: bytesOfSextets rest
  | [a, b, c] =>
    let n := (a * 64 + b) * 64 + c
    [.ofNat (n / 1024), .ofNat (n / 4)]
  | [a, b] => [.ofNat ((a * 64 + b) / 16)]
  | _ => []

/-- The bytes that the characters stand for. Characters outside the alphabet, those that fill up the last
group among them, do not count. -/
def unbase64 (cs : List Char) : List UInt8 := bytesOfSextets (cs.filterMap sextetValue?)

theorem sextetValue?_sextet (n : Nat) : sextetValue? (sextet n) = some (n % 64) := by
  have h : ∀ m < 64, sextetValue? (alphabet.getD m 'A') = some m := by decide
  exact h (n % 64) (Nat.mod_lt n (by decide))

@[simp]
theorem filterMap_sextet_cons (n : Nat) (cs : List Char) :
    (sextet n :: cs).filterMap sextetValue? = n % 64 :: cs.filterMap sextetValue? :=
  List.filterMap_cons_some (sextetValue?_sextet n)

theorem ofNat_eq_of_mod {n : Nat} {a : UInt8} (h : n % 256 = a.toNat) : UInt8.ofNat n = a := by
  apply UInt8.toNat_inj.1
  simpa using h

/-- **Encoded bytes can be read back.** -/
theorem unbase64_base64 (bs : List UInt8) : unbase64 (base64 bs) = bs := by
  have hfill : sextetValue? '=' = none := by decide
  unfold unbase64
  fun_induction base64 bs with
  | case1 => rfl
  | case2 a =>
    have ha := a.toNat_lt
    simp only [filterMap_sextet_cons, List.filterMap_cons_none hfill, List.filterMap_nil, bytesOfSextets,
      List.cons.injEq, and_true]
    exact ofNat_eq_of_mod (by omega)
  | case3 a b n =>
    have ha := a.toNat_lt
    have hb := b.toNat_lt
    simp only [filterMap_sextet_cons, List.filterMap_cons_none hfill, List.filterMap_nil, bytesOfSextets,
      List.cons.injEq, and_true]
    have hn : (n / 1024 % 64 * 64 + n / 16 % 64) * 64 + n * 4 % 64 = n * 4 := by omega
    rw [hn]
    exact ⟨ofNat_eq_of_mod (by omega), ofNat_eq_of_mod (by omega)⟩
  | case4 a b c rest n ih =>
    have ha := a.toNat_lt
    have hb := b.toNat_lt
    have hc := c.toNat_lt
    simp only [filterMap_sextet_cons, bytesOfSextets, ih, List.cons.injEq, and_true]
    -- The four values are the digits of the three bytes to the base of 64.
    have hn : ((n / 262144 % 64 * 64 + n / 4096 % 64) * 64 + n / 64 % 64) * 64 + n % 64 = n := by omega
    rw [hn]
    exact ⟨ofNat_eq_of_mod (by omega), ofNat_eq_of_mod (by omega), ofNat_eq_of_mod (by omega)⟩

/-! ## Credentials -/

/-- Behind what its address asks for, the header of the request names the user with the password. -/
def Post.Authenticates (p : Post) (user password : String) : Prop :=
  ∃ text, p.authorizations = p.url.authorizations ++ ["Basic " ++ text] ∧
    unbase64 text.toList = (user ++ ":" ++ password).toUTF8.toList

/-- All requests of a search carry the credentials of the nodes, if there are any. -/
theorem authorizations_of_search (w : FarSide Post Reply) (nodes : Nodes) (r : SearchRequest)
    (past : Dialogue Post Reply) : ∃ result posts, (search w.ask nodes r).run past = (result, past ++ posts) ∧
      ∀ x ∈ posts,
        x.1.authorizations = x.1.url.authorizations ++ (nodes.credentials.map Credentials.header).toList := by
  obtain ⟨tried, untried, result, -, hrun⟩ := exists_run_search w nodes r past
  exact ⟨result, exchanges nodes.credentials r tried, hrun, fun x hx => (posted_of_mem_exchanges hx).authorizations⟩

theorem ofSettings?_of_emptyUser {s : Settings} (h : s.username = some "") :
    Credentials.ofSettings? s = none := by
  simp [Credentials.ofSettings?, h]

theorem ofSettings?_of_user {s : Settings} {user : String} (h : s.username = some user) (hne : user ≠ "") :
    Credentials.ofSettings? s = some ⟨user, s.password⟩ := by
  simp [Credentials.ofSettings?, h, hne]

theorem authenticates_of_credentials {p : Post} {user password : String}
    (h : p.authorizations = p.url.authorizations ++ [Credentials.header ⟨user, some password⟩]) :
    p.Authenticates user password :=
  ⟨_, h, by rw [String.toList_ofList]; exact unbase64_base64 _⟩

/-- **A password goes with the name of its user** (`Settings::validate`, `HttpTransportConfig::from_settings`).
Checked settings with a password have a user and nodes. If the user has a name, every request of every search
carries the name and the password, whatever is answered; if the name is empty, no request carries anything but what
the address of the node asks for. -/
theorem authorization_of_password {s : Settings} (hs : s.validate = .ok s) {password : String}
    (hp : s.password = some password) :
    ∃ user nodes, s.username = some user ∧ Nodes.ofSettings s = .ok nodes ∧
      ∀ (w : FarSide Post Reply) (r : SearchRequest) (past : Dialogue Post Reply),
        ∃ result posts, (search w.ask nodes r).run past = (result, past ++ posts) ∧
          ∀ x ∈ posts, (user ≠ "" → x.1.Authenticates user password) ∧
            (user = "" → x.1.authorizations = x.1.url.authorizations) := by
  have hvalid := (Settings.validate_eq_ok_iff.1 hs).1
  obtain ⟨user, huser⟩ := Option.isSome_iff_exists.1 (Settings.username_of_validate hvalid (by simp [hp]))
  obtain ⟨nodes, hnodes⟩ := Nodes.exists_ofSettings (Settings.nodes_ne_nil_of_fault? hvalid)
  have hcredentials := (Nodes.ofSettings_eq_ok_iff.1 hnodes).2
  refine ⟨user, nodes, huser, hnodes, fun w r past => ?_⟩
  obtain ⟨result, posts, hrun, hposts⟩ := authorizations_of_search w nodes r past
  refine ⟨result, posts, hrun, fun x hx => ⟨fun hne => ?_, fun hempty => ?_⟩⟩
  · have hx := hposts x hx
    rw [hcredentials, ofSettings?_of_user huser hne, hp] at hx
    exact authenticates_of_credentials hx
  · rw [hposts x hx, hcredentials, ofSettings?_of_emptyUser (hempty ▸ huser), Option.map_none, Option.toList_none,
      List.append_nil]

/-- A password beside the name of its user. -/
def namedUser : Settings := { Settings.standard with username := some "ana", password := some "s3cret" }

theorem authorization_of_namedUser :
    ∃ nodes, Nodes.ofSettings namedUser = .ok nodes ∧
      ∀ (w : FarSide Post Reply) (r : SearchRequest) (past : Dialogue Post Reply),
        ∃ result posts, (search w.ask nodes r).run past = (result, past ++ posts) ∧
          ∀ x ∈ posts, x.1.Authenticates "ana" "s3cret" := by
  have hvalid : namedUser.validate = .ok namedUser := by with_unfolding_all rfl
  obtain ⟨user, nodes, huser, hnodes, hrun⟩ := authorization_of_password hvalid rfl
  obtain rfl : user = "ana" := (Option.some.inj huser).symm
  refine ⟨nodes, hnodes, fun w r past => ?_⟩
  obtain ⟨result, posts, hlog, hposts⟩ := hrun w r past
  exact ⟨result, posts, hlog, fun x hx => (hposts x hx).1 (by decide)⟩

/-! ## A user without a name -/

/-- A password, and an empty name beside it. -/
def emptyUser : Settings := { Settings.standard with username := some "", password := some "secret" }

/-- No node can be reached. -/
def noAnswer : FarSide Post Reply := ⟨fun _ _ => .unreachable "connection refused"⟩

/-- The settings are accepted, but the search is sent without the password. -/
theorem anonymous_of_emptyUser :
    emptyUser.validate = .ok emptyUser ∧ emptyUser.password = some "secret" ∧
      ∃ nodes result x, Nodes.ofSettings emptyUser = .ok nodes ∧
        (search noAnswer.ask nodes (.of "ea_log_20240115" .everything)).run [] = (result, [x]) ∧
        x.1.authorization = none := by
  have hvalid : emptyUser.validate = .ok emptyUser := by with_unfolding_all rfl
  obtain ⟨nodes, hnodes⟩ := Nodes.exists_ofSettings (s := emptyUser) (by decide)
  obtain ⟨haddresses, hcredentials⟩ := Nodes.ofSettings_eq_ok_iff.1 hnodes
  rw [ofSettings?_of_emptyUser rfl] at hcredentials
  have hpost : (post? none (.of "ea_log_20240115" .everything) "http://localhost:9200").map Post.authorization =
      some none := by decide +kernel
  obtain ⟨p, hp, hanonymous⟩ := Option.map_eq_some_iff.1 hpost
  refine ⟨hvalid, rfl, nodes, .error (.http "no search node reachable: connection refused"),
    (p, .unreachable "connection refused"), hnodes, ?_, hanonymous⟩
  have haddresses : nodes.addresses = ["http://localhost:9200"] := haddresses
  simp only [search, haddresses, hcredentials, searchNodes, tryNode, hp]
  rfl

end LogQuery.Http
