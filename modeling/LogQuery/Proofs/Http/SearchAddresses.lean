import Mathlib.Data.Bool.AllAny
import Mathlib.Data.List.TakeWhile
import LogQuery.Http.Transport
import LogQuery.Proofs.Http.Paths
import LogQuery.Search.Index

/-!
# Where a search goes

The address of a search is put together as text: the address of a node, a slash, the name of the index, and the
name of the search. What a client reads off it is the node with its own path, whatever comes behind
(`BaseAddress.parse?_text`), and the search in the index just if the name of the index is plain
(`search_address_iff`).

`LogIndex` asks nothing of its lead and its base name, so that a question mark in one of them ends the path, and the
search goes elsewhere (`search_misses_index`).
-/

namespace LogQuery.Http

open LogQuery.Text

theorem dropWhile_of_head? {p : Char → Bool} {cs : List Char} (h : ∀ c ∈ cs.head?, p c = false) :
    cs.dropWhile p = cs := by
  cases cs with
  | nil => rfl
  | cons c cs => exact List.dropWhile_cons_of_neg (by rw [h c rfl]; exact Bool.false_ne_true)

theorem takeWhile_of_head? {p : Char → Bool} {cs : List Char} (h : ∀ c ∈ cs.head?, p c = false) :
    cs.takeWhile p = [] := by
  cases cs with
  | nil => rfl
  | cons c cs => exact List.takeWhile_cons_of_neg (by rw [h c rfl]; exact Bool.false_ne_true)

/-- A text without blanks at its ends loses nothing but what is dropped anywhere. -/
theorem stripped_ofList {cs : List Char} (hhead : ∀ c ∈ cs.head?, ¬ c.toNat ≤ 0x20)
    (hlast : ∀ c ∈ cs.getLast?, ¬ c.toNat ≤ 0x20) : stripped (String.ofList cs) = kept cs := by
  have hfront : cs.dropWhile (fun c => c.toNat ≤ 0x20) = cs :=
    dropWhile_of_head? fun c hc => decide_eq_false (hhead c hc)
  have hback : cs.reverse.dropWhile (fun c => c.toNat ≤ 0x20) = cs.reverse :=
    dropWhile_of_head? fun c hc => decide_eq_false (hlast c (List.head?_reverse ▸ hc))
  rw [stripped, String.toList_ofList, hfront, hback, List.reverse_reverse]
  rfl

/-! ## Addresses of nodes -/

/-- The address of a node without the slashes at its end: one of the two schemes, a host with or without user and
port, and a path. -/
structure BaseAddress where
  scheme : List Char
  authority : List Char
  path : List Char
  scheme_web : InAnyCase scheme ['h', 't', 't', 'p'] ∨ InAnyCase scheme ['h', 't', 't', 'p', 's']
  authority_ne_nil : authority ≠ []
  authority_chars : ∀ c ∈ authority, isSlash c = false ∧ isQueryOrHash c = false ∧ isDropped c = false
  path_starts : ∀ c ∈ path.head?, c = '/'
  path_chars : ∀ c ∈ path, isQueryOrHash c = false ∧ isDropped c = false
  path_ends : path.getLast? ≠ some '/'

namespace BaseAddress

variable (b : BaseAddress)

def text : List Char := b.scheme ++ ':' :: '/' :: '/' :: (b.authority ++ b.path)

/-- The address as it is configured, with some slashes at its end. -/
def node (slashes : Nat) : String := String.ofList (b.text ++ List.replicate slashes '/')

theorem scheme_letters : b.scheme ≠ [] ∧ ∀ c ∈ b.scheme, c.toLower ∈ ['h', 't', 'p', 's'] := by
  have hword : b.scheme.map Char.toLower = ['h', 't', 't', 'p'] ∨
      b.scheme.map Char.toLower = ['h', 't', 't', 'p', 's'] :=
    b.scheme_web.imp (map_toLower_eq_iff (by decide)).2 (map_toLower_eq_iff (by decide)).2
  constructor
  · intro hnil
    rw [hnil] at hword
    obtain h | h := hword <;> cases h
  · intro c hc
    have hletters : b.scheme.map Char.toLower ⊆ ['h', 't', 'p', 's'] := by
      obtain h | h := hword <;> rw [h] <;> decide
    exact hletters (List.mem_map_of_mem hc)

/-- The letters of a scheme are no separators, and no blanks. -/
theorem scheme_chars {c : Char} (hc : c ∈ b.scheme) : c ≠ ':' ∧ isDropped c = false ∧ ¬ c.toNat ≤ 0x20 := by
  have hlower := b.scheme_letters.2 c hc
  have hbig : ¬ c.toNat ≤ 0x20 := by
    intro hle
    have hall : ∀ n ≤ 0x20, (Char.ofNat n).toLower ∉ ['h', 't', 'p', 's'] := by decide
    have h := hall c.toNat hle
    rw [Char.ofNat_toNat] at h
    exact h hlower
  refine ⟨?_, ?_, hbig⟩
  · rintro rfl
    exact absurd hlower (by decide)
  · simp only [isDropped, Bool.or_eq_false_iff, decide_eq_false_iff_not]
    refine ⟨⟨?_, ?_⟩, ?_⟩
    all_goals
      rintro rfl
      exact hbig (by decide)

theorem kept_text : kept b.text = b.text := by
  refine kept_of_none fun c hc => ?_
  simp only [text, List.mem_append, List.mem_cons] at hc
  obtain h | rfl | rfl | rfl | h | h := hc
  · exact (b.scheme_chars h).2.1
  · rfl
  · rfl
  · rfl
  · exact (b.authority_chars c h).2.2
  · exact (b.path_chars c h).2

theorem hash_not_mem_text : '#' ∉ b.text := by
  have hletter : '#'.toLower ∉ ['h', 't', 'p', 's'] := by decide
  have hhash : isQueryOrHash '#' = true := rfl
  simp only [text, List.mem_append, List.mem_cons, not_or]
  refine ⟨fun h => hletter (b.scheme_letters.2 _ h), by decide, by decide, by decide, fun h => ?_, fun h => ?_⟩
  · exact Bool.false_ne_true ((b.authority_chars _ h).2.1.symm.trans hhash)
  · exact Bool.false_ne_true ((b.path_chars _ h).1.symm.trans hhash)

theorem hash_not_mem_path {ds : List Char} (h : '#' ∉ b.text ++ '/' :: ds) : '#' ∉ b.path ++ '/' :: kept ds := by
  rw [List.mem_append, List.mem_cons]
  rintro (hpath | hslash | hds)
  · exact absurd (b.path_chars _ hpath).1 (by decide)
  · exact absurd hslash (by decide)
  · exact h (List.mem_append_right _ (List.mem_cons_of_mem _ (List.mem_of_mem_filter hds)))

theorem text_ends : ∀ c ∈ b.text.getLast?, c ≠ '/' := by
  intro c hc
  have hne : b.authority ++ b.path ≠ [] := List.append_ne_nil_of_left_ne_nil b.authority_ne_nil _
  have hlast : b.text.getLast? = (b.authority ++ b.path).getLast? := by
    rw [text, List.getLast?_append_of_ne_nil _ (List.cons_ne_nil _ _),
      List.getLast?_cons_of_ne_nil (List.cons_ne_nil _ _), List.getLast?_cons_of_ne_nil (List.cons_ne_nil _ _),
      List.getLast?_cons_of_ne_nil hne]
  rw [hlast] at hc
  rintro rfl
  by_cases hpath : b.path = []
  · rw [hpath, List.append_nil] at hc
    exact absurd (b.authority_chars _ (List.mem_of_getLast? hc)).1 (by decide)
  · rw [List.getLast?_append_of_ne_nil _ hpath] at hc
    exact b.path_ends hc

/-- Slashes at the end of a node's address make no difference. -/
theorem searchAddress_node (slashes : Nat) (index : String) :
    searchAddress (b.node slashes) index = String.ofList (b.text ++ '/' :: (index.toList ++ "/_search".toList)) := by
  have htrim : (b.text ++ List.replicate slashes '/').reverse.dropWhile (· = '/') = b.text.reverse := by
    rw [List.reverse_append, List.reverse_replicate, List.dropWhile_append_of_pos fun c hc =>
      decide_eq_true (List.eq_of_mem_replicate hc)]
    exact dropWhile_of_head? fun c hc => decide_eq_false (b.text_ends c (List.head?_reverse ▸ hc))
  have hslash : "/" = String.ofList ['/'] := rfl
  have hindex : index = String.ofList index.toList := String.ofList_toList.symm
  have hsearch : "/_search" = String.ofList "/_search".toList := String.ofList_toList.symm
  rw [searchAddress, node, String.toList_ofList, htrim, List.reverse_reverse, hslash]
  conv_lhs => rw [hindex, hsearch]
  simp only [← String.ofList_append, List.append_assoc, List.cons_append, List.nil_append]

/-! ## Reading an address -/

theorem exists_scheme? : ∃ kind, ∀ rest, scheme? (b.scheme ++ ':' :: rest) = some (kind, rest) := by
  have hname : ∀ c ∈ b.scheme, decide (c ≠ ':') = true := fun c hc => decide_eq_true (b.scheme_chars hc).1
  have hparts : ∀ rest, (b.scheme ++ ':' :: rest).takeWhile (· ≠ ':') = b.scheme ∧
      (b.scheme ++ ':' :: rest).dropWhile (· ≠ ':') = ':' :: rest := by
    intro rest
    have hcolon : ∀ c ∈ (':' :: rest).head?, decide (c ≠ ':') = false := by
      rintro c ⟨⟩
      rfl
    rw [List.takeWhile_append_of_pos hname, List.dropWhile_append_of_pos hname, takeWhile_of_head? hcolon,
      dropWhile_of_head? hcolon, List.append_nil]
    exact ⟨rfl, rfl⟩
  have hhttps : String.ofList ['h', 't', 't', 'p', 's'] ≠ "http" := by decide
  obtain h | h := b.scheme_web
  · refine ⟨.http, fun rest => ?_⟩
    rw [scheme?, (hparts rest).1, (hparts rest).2, (map_toLower_eq_iff (by decide)).2 h]
    exact if_pos rfl
  · refine ⟨.https, fun rest => ?_⟩
    rw [scheme?, (hparts rest).1, (hparts rest).2, (map_toLower_eq_iff (by decide)).2 h]
    exact (if_neg hhttps).trans (if_pos rfl)

/-- Scheme, user, host and port. -/
def site? : Option (Scheme × Option Credentials × Host × Nat) := do
  let (scheme, _) ← scheme? (b.scheme ++ [':'])
  let (host, port) := splitPort (afterLast '@' b.authority)
  let port ← port? scheme port
  let host ← Host.ofChars? host
  some (scheme, Credentials.ofUserInfo? (beforeLast '@' b.authority), host, port)

theorem stripped_text {ds : List Char} (hlast : ∀ c ∈ ds.getLast?, ¬ c.toNat ≤ 0x20) :
    stripped (String.ofList (b.text ++ '/' :: ds)) =
      b.scheme ++ ':' :: '/' :: '/' :: (b.authority ++ (b.path ++ '/' :: kept ds)) := by
  rw [stripped_ofList, kept_append, b.kept_text, kept_cons rfl, text]
  · simp only [List.append_assoc, List.cons_append]
  · intro c hc
    obtain ⟨d, ds, hd⟩ := List.exists_cons_of_ne_nil b.scheme_letters.1
    rw [text, hd] at hc
    cases hc
    exact (b.scheme_chars (hd ▸ List.mem_cons_self)).2.2
  · intro c hc
    rw [List.getLast?_append_of_ne_nil _ (List.cons_ne_nil _ _)] at hc
    cases ds with
    | nil =>
      cases hc
      decide
    | cons d ds =>
      rw [List.getLast?_cons_of_ne_nil (List.cons_ne_nil d ds)] at hc
      exact hlast c hc

theorem path_head {ds : List Char} : ∀ c ∈ (b.path ++ '/' :: ds).head?, c = '/' := by
  intro c hc
  by_cases hpath : b.path = []
  · rw [hpath] at hc
    cases hc
    rfl
  · rw [List.head?_append_of_ne_nil _ hpath] at hc
    exact b.path_starts c hc

/-- The slashes of the scheme are followed by the authority, and this by the first slash of the path. -/
theorem authority_parts (ds : List Char) :
    let rest := ('/' :: '/' :: (b.authority ++ (b.path ++ '/' :: ds))).dropWhile isSlash
    (rest.takeWhile fun c => !isSlash c && !isQueryOrHash c) = b.authority ∧
      (rest.dropWhile fun c => !isSlash c && !isQueryOrHash c) = b.path ++ '/' :: ds := by
  have hslash : isSlash '/' = true := rfl
  have hrest : ('/' :: '/' :: (b.authority ++ (b.path ++ '/' :: ds))).dropWhile isSlash =
      b.authority ++ (b.path ++ '/' :: ds) := by
    rw [List.dropWhile_cons_of_pos hslash, List.dropWhile_cons_of_pos hslash]
    refine dropWhile_of_head? fun c hc => ?_
    rw [List.head?_append_of_ne_nil _ b.authority_ne_nil] at hc
    exact (b.authority_chars c (List.mem_of_mem_head? hc)).1
  have hauthority : ∀ c ∈ b.authority, (!isSlash c && !isQueryOrHash c) = true := by
    intro c hc
    obtain ⟨hslash, hend, -⟩ := b.authority_chars c hc
    rw [hslash, hend]
    rfl
  have hpath : ∀ c ∈ (b.path ++ '/' :: ds).head?, (!isSlash c && !isQueryOrHash c) = false := by
    intro c hc
    rw [b.path_head c hc]
    rfl
  dsimp only
  rw [hrest, List.takeWhile_append_of_pos hauthority, List.dropWhile_append_of_pos hauthority,
    takeWhile_of_head? hpath, dropWhile_of_head? hpath, List.append_nil]
  exact ⟨rfl, rfl⟩

/-- What comes behind the address of a node decides about path and query only. -/
theorem parse?_text {ds : List Char} (hlast : ∀ c ∈ ds.getLast?, ¬ c.toNat ≤ 0x20) :
    Url.parse? (String.ofList (b.text ++ '/' :: ds)) = b.site?.map fun s =>
      ⟨s.1, s.2.1, s.2.2.1, s.2.2.2, segmentsOf ((b.path ++ '/' :: kept ds).takeWhile fun c => !isQueryOrHash c),
        queryOf ((b.path ++ '/' :: kept ds).dropWhile fun c => !isQueryOrHash c)⟩ := by
  obtain ⟨kind, hscheme⟩ := b.exists_scheme?
  obtain ⟨hauthority, hpath⟩ := b.authority_parts (kept ds)
  rw [Url.parse?, b.stripped_text hlast, hscheme, site?, hscheme]
  simp only [Option.bind_eq_bind, Option.bind_some, hauthority, hpath]
  cases port? kind (splitPort (afterLast '@' b.authority)).2 with
  | none => rfl
  | some port =>
    cases Host.ofChars? (splitPort (afterLast '@' b.authority)).1 with
    | none => rfl
    | some host => rfl

/-- What has been passed at the end of the node's own path. -/
def passed : List (List Char) :=
  match b.path with
  | [] => []
  | _ :: path => (path.splitOnP isSlash).foldl passBy []

theorem segmentsOf_path (cs : List Char) :
    segmentsOf (b.path ++ '/' :: cs) = resolve b.passed (cs.splitOnP isSlash) := by
  rw [segmentsOf, passed]
  cases b.path with
  | nil => rfl
  | cons c path =>
    have hslash : isSlash '/' = true := rfl
    have hne := List.splitOnP_ne_nil isSlash cs
    rw [List.cons_append, List.drop_one, List.tail_cons, List.splitOnP_append_cons path cs hslash, resolve_append hne]

theorem path_ends_not {cs : List Char} (hcs : ∀ c ∈ cs, isQueryOrHash c = false) :
    ∀ c ∈ b.path ++ '/' :: cs, (!isQueryOrHash c) = true := by
  intro c hc
  rw [List.mem_append, List.mem_cons] at hc
  obtain h | rfl | h := hc
  · rw [(b.path_chars c h).1]
    rfl
  · rfl
  · rw [hcs c h]
    rfl

/-- Behind the address of a node, a text that ends no path is all path. -/
theorem parse?_path {ds : List Char} (hlast : ∀ c ∈ ds.getLast?, ¬ c.toNat ≤ 0x20)
    (hends : ∀ c ∈ ds, isQueryOrHash c = false) :
    Url.parse? (String.ofList (b.text ++ '/' :: ds)) = b.site?.map fun s =>
      ⟨s.1, s.2.1, s.2.2.1, s.2.2.2, resolve b.passed ((kept ds).splitOnP isSlash), none⟩ := by
  have hkept : ∀ c ∈ kept ds, isQueryOrHash c = false := fun c hc => hends c (List.mem_of_mem_filter hc)
  rw [b.parse?_text hlast, List.takeWhile_eq_self_iff.2 (b.path_ends_not hkept),
    List.dropWhile_eq_nil_iff.2 (b.path_ends_not hkept), b.segmentsOf_path]
  rfl

/-- The address of the node with one slash behind it. -/
theorem parse?_root : Url.parse? (b.node 1) =
    b.site?.map fun s => ⟨s.1, s.2.1, s.2.2.1, s.2.2.2, b.passed ++ [[]], none⟩ := by
  have hlast : ∀ c ∈ ([] : List Char).getLast?, ¬ c.toNat ≤ 0x20 := by simp
  have hroot : resolve b.passed [[]] = b.passed ++ [[]] := resolve_last rfl b.passed
  rw [← hroot]
  exact b.parse?_path hlast (List.forall_mem_nil _)

/-- The name of the search itself. -/
def searchName : List Char := ['_', 's', 'e', 'a', 'r', 'c', 'h']

theorem searchAddress_eq (slashes : Nat) (index : String) :
    searchAddress (b.node slashes) index = String.ofList (b.text ++ '/' :: (index.toList ++ '/' :: searchName)) := by
  have hsearch : "/_search".toList = '/' :: searchName := by decide
  rw [b.searchAddress_node, hsearch]

theorem search_last (cs : List Char) : ∀ c ∈ (cs ++ '/' :: searchName).getLast?, ¬ c.toNat ≤ 0x20 := by
  intro c hc
  rw [List.getLast?_append_of_ne_nil _ (List.cons_ne_nil _ _)] at hc
  cases hc
  decide

/-- The address of a search in an index whose name does not end the path. -/
theorem parse?_search (slashes : Nat) {index : String} (hends : ∀ c ∈ index.toList, isQueryOrHash c = false) :
    Url.parse? (searchAddress (b.node slashes) index) = b.site?.map fun s =>
      ⟨s.1, s.2.1, s.2.2.1, s.2.2.2,
        ((kept index.toList).splitOnP isSlash).foldl passBy b.passed ++ [searchName], none⟩ := by
  have hslash : isSlash '/' = true := rfl
  have hsearch : ∀ c ∈ '/' :: searchName, isQueryOrHash c = false :=
    List.all_iff_forall_prop.1 (by decide)
  have hname : kept ('/' :: searchName) = '/' :: searchName := by decide
  have hsplit : searchName.splitOnP isSlash = [searchName] := by decide
  have hlast : ∀ passed, resolve passed [searchName] = passed ++ [searchName] := fun passed =>
    resolve_last (by decide) passed
  rw [b.searchAddress_eq, b.parse?_path (search_last _) (List.forall_mem_append.2 ⟨hends, hsearch⟩), kept_append, hname,
    List.splitOnP_append_cons _ _ hslash, hsplit, resolve_append (List.cons_ne_nil _ _)]
  simp only [hlast]

end BaseAddress

/-! ## Searches -/

theorem ends_of_queryOf_eq_none {cs : List Char} (h : queryOf (cs.dropWhile fun c => !isQueryOrHash c) = none)
    (hhash : '#' ∉ cs) : ∀ c ∈ cs, isQueryOrHash c = false := by
  induction cs with
  | nil => exact List.forall_mem_nil _
  | cons c cs ih =>
    obtain ⟨hne, hcs⟩ := not_or.1 (List.mem_cons.not.1 hhash)
    cases hc : isQueryOrHash c with
    | true =>
      have hmark : c = '?' := by
        simp only [isQueryOrHash, Bool.or_eq_true, decide_eq_true_eq] at hc
        exact hc.resolve_right (Ne.symm hne)
      subst hmark
      cases h
    | false =>
      rw [List.dropWhile_cons_of_pos (by rw [hc]; rfl)] at h
      exact List.forall_mem_cons.2 ⟨hc, ih h hcs⟩

theorem PlainName.ends {cs : List Char} (h : PlainName cs) : ∀ c ∈ cs, isQueryOrHash c = false := by
  intro c hc
  have hplain := h.chars c hc
  simp only [List.mem_cons, List.not_mem_nil, or_false, not_or] at hplain
  simp [isQueryOrHash, hplain]

/-- Read by a client, the text addresses the search in the index: at the node of the root, below its path, by the name
of the index to the letter, and with neither query nor fragment. -/
def AddressesSearch (root : Url) (index text : String) : Prop :=
  ∃ u, Url.parse? text = some u ∧ (u.scheme = root.scheme ∧ u.host = root.host ∧ u.port = root.port) ∧
    percentDecoded u.pathChars = percentDecoded root.pathChars ++ utf8 (index ++ "/_search").toList ∧
    u.query = none ∧ '#' ∉ text.toList

theorem PlainName.of_slash {cs : List Char} (h : PlainName ('/' :: cs)) : PlainName cs where
  chars := (List.forall_mem_cons.1 h.chars).2
  escapeless := (escapeless_cons_iff.1 h.escapeless).2
  stays s hs := h.stays s (by
    have hslash : isSlash '/' = true := rfl
    rw [List.splitOnP_cons_eq_if_modifyHead, if_pos hslash]
    exact List.mem_cons_of_mem _ hs)

/-- A plain path of a node is read as it is written. -/
theorem BaseAddress.pathBytes_passed {b : BaseAddress} (h : PlainName b.path) : pathBytes b.passed = utf8 b.path := by
  cases hpath : b.path with
  | nil =>
    rw [passed, hpath]
    rfl
  | cons c path =>
    obtain rfl : c = '/' := b.path_starts c (by rw [hpath]; rfl)
    have hchars : ∀ d ∈ path, isQueryOrHash d = false ∧ isDropped d = false := fun d hd =>
      b.path_chars d (hpath ▸ List.mem_cons_of_mem _ hd)
    have hread := (pathBytes_name_iff (fun d hd => (hchars d hd).1) []).2 (hpath ▸ h).of_slash
    rw [kept_of_none fun d hd => (hchars d hd).2] at hread
    rw [passed, hpath]
    exact hread

theorem path_search_iff (walked passed : List (List Char)) (cs : List Char) :
    percentDecoded (pathOf (walked ++ [BaseAddress.searchName])) =
        percentDecoded (pathOf (passed ++ [[]])) ++ utf8 (cs ++ '/' :: BaseAddress.searchName) ↔
      pathBytes walked = pathBytes passed ++ (bytesOf '/' ++ utf8 cs) := by
  have hname : pathBytes [BaseAddress.searchName] = utf8 ('/' :: BaseAddress.searchName) := by decide
  have hempty : pathBytes [[]] = bytesOf '/' := by decide
  rw [← pathBytes, ← pathBytes, pathBytes_append, pathBytes_append, hname, hempty, utf8_append, ← List.append_assoc,
    List.append_cancel_right_eq, List.append_assoc]

/-- An address without query and fragment takes the whole name into its path. -/
theorem ends_of_noQuery {b : BaseAddress} {slashes : Nat} {index : String} {u : Url}
    (hu : Url.parse? (searchAddress (b.node slashes) index) = some u) (hquery : u.query = none)
    (hhash : '#' ∉ (searchAddress (b.node slashes) index).toList) : ∀ c ∈ index.toList, isQueryOrHash c = false := by
  rw [b.searchAddress_eq] at hu hhash
  rw [b.parse?_text (BaseAddress.search_last index.toList)] at hu
  rw [String.toList_ofList] at hhash
  obtain ⟨site, -, rfl⟩ := Option.map_eq_some_iff.1 hu
  intro c hc
  cases hend : isQueryOrHash c with
  | false => rfl
  | true =>
    have hkept : c ∈ kept (index.toList ++ '/' :: BaseAddress.searchName) :=
      mem_kept_of_ends hend (List.mem_append_left _ hc)
    have hnot := ends_of_queryOf_eq_none hquery (b.hash_not_mem_path hhash) c
      (List.mem_append_right _ (List.mem_cons_of_mem _ hkept))
    exact hend.symm.trans hnot

/-- **The address of a search** (`HttpTransport::search_url`). However many slashes the address of a node ends in, a
search in an index goes to that node, and it addresses the search in just those indices whose names are plain. The
root below which this is so has the path of the node with one slash at its end. -/
theorem search_address_iff {b : BaseAddress} {root : Url} (hroot : Url.parse? (b.node 1) = some root) (slashes : Nat)
    (index : String) :
    searchAddress (b.node slashes) index = searchAddress (b.node 0) index ∧
      (∃ u, Url.parse? (searchAddress (b.node slashes) index) = some u ∧
        u.scheme = root.scheme ∧ u.host = root.host ∧ u.port = root.port) ∧
      (PlainName b.path → percentDecoded root.pathChars = utf8 (b.path ++ ['/'])) ∧
      (AddressesSearch root index (searchAddress (b.node slashes) index) ↔ PlainName index.toList) := by
  obtain ⟨site, hsite, rfl⟩ := Option.map_eq_some_iff.1 (b.parse?_root ▸ hroot)
  have hparse := b.parse?_text (BaseAddress.search_last index.toList)
  rw [← b.searchAddress_eq slashes, hsite, Option.map_some] at hparse
  have htext : (index ++ "/_search").toList = index.toList ++ '/' :: BaseAddress.searchName := by
    have hsearch : "/_search".toList = '/' :: BaseAddress.searchName := by decide
    rw [String.toList_append, hsearch]
  refine ⟨by rw [b.searchAddress_eq, b.searchAddress_eq], ⟨_, hparse, rfl, rfl, rfl⟩, fun hpath => ?_, ?_⟩
  · have hempty : pathBytes [[]] = utf8 ['/'] := by decide
    exact (pathBytes_append b.passed [[]]).trans (by rw [BaseAddress.pathBytes_passed hpath, hempty, utf8_append])
  constructor
  · rintro ⟨u, hu, -, hpath, hquery, hhash⟩
    have hends := ends_of_noQuery hu hquery hhash
    have hsearch := b.parse?_search slashes hends
    rw [hu, hsite, Option.map_some, Option.some_inj] at hsearch
    subst hsearch
    rw [htext] at hpath
    exact (pathBytes_name_iff hends _).1 ((path_search_iff _ _ _).1 hpath)
  · intro hplain
    have hsearch := b.parse?_search slashes hplain.ends
    rw [hsite, Option.map_some] at hsearch
    refine ⟨_, hsearch, ⟨rfl, rfl, rfl⟩, ?_, rfl, ?_⟩
    · rw [htext]
      exact (path_search_iff _ _ _).2 ((pathBytes_name_iff hplain.ends _).2 hplain)
    · have hname : '#' ∉ '/' :: BaseAddress.searchName := by decide
      have hindex : '#' ∉ index.toList := fun h => absurd (hplain.ends _ h) (by decide)
      rw [b.searchAddress_eq, String.toList_ofList, List.mem_append, List.mem_cons, List.mem_append]
      exact not_or.2 ⟨b.hash_not_mem_text, not_or.2 ⟨by decide, not_or.2 ⟨hindex, hname⟩⟩⟩

/-- A node of a cluster on this machine, as the settings have it. -/
def localNode : BaseAddress where
  scheme := "http".toList
  authority := "localhost:9200".toList
  path := []
  scheme_web := .inl ((map_toLower_eq_iff (by decide)).1 rfl)
  authority_ne_nil := by decide
  authority_chars := List.all_iff_forall_prop.1 (by decide)
  path_starts := by rintro c ⟨⟩
  path_chars := List.forall_mem_nil _
  path_ends := by rintro ⟨⟩

theorem localNode_address :
    Url.parse? (localNode.node 1) = some ⟨.http, none, .name "localhost", 9200, [[]], none⟩ := by decide +kernel

theorem daily_index_searched :
    AddressesSearch ⟨.http, none, .name "localhost", 9200, [[]], none⟩ "ea_log_20240115"
      (searchAddress (localNode.node 2) "ea_log_20240115") := by
  refine (search_address_iff localNode_address 2 "ea_log_20240115").2.2.2.2 ?_
  exact ⟨List.all_iff_forall_prop.1 (by decide), escapeless_of_not_mem (by decide),
    List.all_iff_forall_prop.1 (by decide)⟩

/-- Not every name of an index is searched under: a question mark in its base name ends the path. -/
theorem search_misses_index :
    ¬ ∀ (b : BaseAddress) (root : Url) (slashes : Nat) (lead base pattern : String) (t : Instant) (x : LogIndex),
      Url.parse? (b.node 1) = some root → LogIndex.create lead base pattern t = .ok x →
        AddressesSearch root x.name (searchAddress (b.node slashes) x.name) := by
  intro h
  have hpattern : Pattern.ofText? "day" = some [.literal 'd', .literal 'a', .literal 'y'] := by decide +kernel
  have hparse : Url.parse? (searchAddress (localNode.node 0) "ea_log?_day") =
      some ⟨.http, none, .name "localhost", 9200, ["ea_log".toList], some "_day/_search".toList⟩ := by decide +kernel
  let start : Instant := ⟨0, by decide, by decide, 0⟩
  let x : LogIndex := .recalculate start ⟨"ea_", "log?", [.literal 'd', .literal 'a', .literal 'y'], ""⟩
  have hx : LogIndex.create "ea_" "log?" "day" start = .ok x := by rw [LogIndex.create, hpattern]
  have hname : x.name = "ea_log?_day" := by decide +kernel
  obtain ⟨u, hu, -, -, hquery, -⟩ := h localNode _ 0 "ea_" "log?" "day" start x localNode_address hx
  rw [hname, hparse] at hu
  cases hu
  cases hquery

end LogQuery.Http
