import LogQuery.Proofs.Http.Causes
import LogQuery.Proofs.Http.Failover
import LogQuery.Proofs.Query.Placement

/-!
# What an answer without success is taken for

A caller whose query string is malformed is told so, and only then: when the answer has status 400, the tree
that was compiled has a strict query string somewhere, and the causes in the answer report one that could
not be read. Every other answer without success is handed on as it is (`fault_of_answer`).

The transport asks the compiled clause for a strict query string, not the tree; the compiler neither hides
one nor makes one up (`Node.hasStrict_compile_iff`).
-/

namespace LogQuery

/-! ## Strict query strings -/

/-- The leaf is a query string whose syntax the backend checks. -/
def Leaf.IsStrict (l : Leaf) : Prop := ∃ target text analysis, l.condition = .strict target text analysis

theorem Leaf.hasStrict_compile_iff (l : Leaf) : l.compile.hasStrict = true ↔ l.IsStrict := by
  unfold IsStrict compile
  cases l.condition <;> simp [Condition.compile, Clause.withBoost, Clause.hasStrict]

namespace Clause

mutual

/-- A clause has a strict query string just if one of the clauses without others inside is one. -/
theorem hasStrict_iff : ∀ (c : Clause) (p : Place),
    c.hasStrict = true ↔ ∃ d ∈ (c.placed p).map Prod.fst, d.hasStrict = true
  | bool must mustNot should, p => by
    simp only [hasStrict, placed, Bool.or_eq_true, Multiset.map_add, Multiset.mem_add, or_and_right,
      exists_or, anyStrict_iff must p, anyStrict_iff mustNot p.exclude, anyStrict_iff should p.choose]
  | matchAll _, p | fullText _, p | term _, p | range _, p | strict _, p | lenient _, p => by
    simp [placed]

theorem anyStrict_iff : ∀ (cs : List Clause) (p : Place),
    anyStrict cs = true ↔ ∃ d ∈ (placedAll p cs).map Prod.fst, d.hasStrict = true
  | [], p => by simp [anyStrict, placedAll]
  | c :: cs, p => by
    simp only [anyStrict, placedAll, Bool.or_eq_true, Multiset.map_add, Multiset.mem_add, or_and_right,
      exists_or, hasStrict_iff c p, anyStrict_iff cs p]

end

end Clause

/-- **The compiler keeps strict query strings in sight**, at any depth and under any operators and
polarities. -/
theorem Node.hasStrict_compile_iff (n : Node) :
    n.compile.hasStrict = true ↔ ∃ l ∈ n.leaves, l.IsStrict := by
  have he : Clause.everything.hasStrict = false := rfl
  rw [Clause.hasStrict_iff _ .root, placed_compile_at, map_fst_placed]
  constructor
  · rintro ⟨d, hd, hs⟩
    rcases Multiset.mem_add.1 hd with hd | hd
    · obtain ⟨l, hl, rfl⟩ := List.mem_map.1 (Multiset.mem_coe.1 hd)
      exact ⟨l, hl, l.hasStrict_compile_iff.1 hs⟩
    · rw [Multiset.eq_of_mem_replicate hd, he] at hs
      cases hs
  · rintro ⟨l, hl, hs⟩
    exact ⟨l.compile, Multiset.mem_add.2 (.inl (Multiset.mem_coe.2 (List.mem_map_of_mem hl))),
      l.hasStrict_compile_iff.2 hs⟩

namespace Http

/-! ## Answers -/

/-- The answer to a query tree says, with this reason, that a query string of it is malformed. -/
structure SaysMalformed (t : Node) (status : Nat) (text reason : String) : Prop where
  status : status = 400
  strict : ∃ l ∈ t.leaves, l.IsStrict
  told : ∃ answer, Json.parse? text = some answer ∧ ErrorTree.Tells answer reason

theorem saysMalformed_of_refuses {t : Node} {status : Nat} {text reason : String}
    (h : Refuses t.compile status text reason) : SaysMalformed t status text reason := by
  obtain ⟨hs, hq, answer, hj, hr⟩ := h
  exact ⟨hs, t.hasStrict_compile_iff.1 hq, answer, hj, ErrorTree.tells_of_unreadableReason? hr⟩

/-- The reason that is found need not be the one that is asked for, as several causes may have one. -/
theorem exists_refuses {t : Node} {status : Nat} {text reason : String}
    (h : SaysMalformed t status text reason) : ∃ found, Refuses t.compile status text found := by
  obtain ⟨answer, hj, hr⟩ := h.told
  obtain ⟨found, hf⟩ := Option.isSome_iff_exists.1 (ErrorTree.isSome_unreadableReason? hr)
  exact ⟨found, h.status, t.hasStrict_compile_iff.2 h.strict, answer, hj, hf⟩

/-- The body of an answer that has one is read as it is, but for a mark of its byte order. -/
theorem errorText_received {status : Nat} {s : String} (hb : isBodiless status = false)
    (hm : s.toList.head? ≠ some '\ufeff') : errorText (received status (.text s)) = s := by
  rw [received, hb, if_neg (by simp), errorText]
  split
  · next cs h => exact absurd (by simp [h]) hm
  · rfl

section
variable {w : FarSide Post Reply} {nodes : Nodes} {r : SearchRequest} {past : Dialogue Post Reply}
  {unreached : List Attempt} {first : Attempt} {untried : List String} {result : SearchResult}

/-- What the first node that can be reached replies is what the search comes to. -/
theorem run_search_of_means
    (hn : nodes.addresses = (unreached ++ [first]).map Attempt.node ++ untried)
    (ho : Occur nodes.credentials r w past (unreached ++ [first]))
    (hu : ∀ u ∈ unreached, u.reply.Unreachable) (hm : first.reply.Means r.query result) :
    ((search w.ask nodes r).run past).1 = result := by
  rw [search, hn, run_of_concludes ho (.settled hu hm)]

/-- **What the caller of a query tree learns from an answer without success** (`error_from_status`). The first node
that can be reached answers with `status` and a body that reads `text`. The search reports a malformed query string
just if the answer says that one of the tree is malformed, and then with a reason that it says; in all other cases
it reports the status and the text, which is the body that was sent. -/
theorem fault_of_answer {t : Node} {status : Nat} {body : Body} {text : String} (ht : r.query = t.compile)
    (hn : nodes.addresses = (unreached ++ [first]).map Attempt.node ++ untried)
    (ho : Occur nodes.credentials r w past (unreached ++ [first]))
    (hu : ∀ u ∈ unreached, u.reply.Unreachable) (hf : first.reply = .answered status body)
    (hs : status < 200 ∨ 300 ≤ status) (hb : errorText (received status body) = text) :
    ((∃ reason, ((search w.ask nodes r).run past).1 = .error (.malformedQuery reason)) ↔
      ∃ reason, SaysMalformed t status text reason) ∧
    (∀ reason, ((search w.ask nodes r).run past).1 = .error (.malformedQuery reason) →
      SaysMalformed t status text reason) ∧
    ((∀ reason, ¬ SaysMalformed t status text reason) →
      ((search w.ask nodes r).run past).1 = .error (.backend status text)) ∧
    ∀ s, body = .text s → isBodiless status = false → s.toList.head? ≠ some '\ufeff' → text = s := by
  have hread : ∀ s, body = .text s → isBodiless status = false → s.toList.head? ≠ some '\ufeff' → text = s := by
    rintro s rfl hbl hm
    rw [← hb, errorText_received hbl hm]
  obtain ⟨node, reply⟩ := first
  subst hf
  by_cases hr : ∃ reason, Refuses r.query status (errorText (received status body)) reason
  · obtain ⟨found, hr⟩ := hr
    rw [run_search_of_means hn ho hu (.malformed hs hr)]
    rw [ht, hb] at hr
    have hsays := saysMalformed_of_refuses hr
    refine ⟨⟨fun _ => ⟨found, hsays⟩, fun _ => ⟨found, rfl⟩⟩, ?_, fun h => absurd hsays (h found), hread⟩
    intro reason h
    obtain rfl : found = reason := by simpa using h
    exact hsays
  · have hno : ∀ reason, ¬ SaysMalformed t status text reason := by
      intro reason h
      obtain ⟨found, h⟩ := exists_refuses h
      rw [ht, hb] at hr
      exact hr ⟨found, h⟩
    rw [run_search_of_means hn ho hu (.backend hs fun reason h => hr ⟨reason, h⟩), hb]
    refine ⟨⟨?_, fun ⟨reason, h⟩ => absurd h (hno reason)⟩, ?_, fun _ => rfl, hread⟩
    · rintro ⟨reason, h⟩
      cases h
    · intro reason h
      cases h

end

/-! A backend of three nodes: the first is down, and the second refuses the query string of a tree where it
is unwanted and an alternative. -/

namespace Refusal

def text : String :=
  "\x7b\"error\":\x7b\"failed_shards\":[\x7b\"reason\":\x7b\"caused_by\":" ++
    "\x7b\"type\":\"parse_exception\",\"reason\":\"Cannot parse 'disk AND ('\"\x7d\x7d\x7d]\x7d\x7d"

def tree : Node :=
  .group [(.or, .group [(.or, .leaf ⟨.strict .allFields ⟨"disk AND (", by decide⟩ .standard, .unwanted,
    Leaf.standardBoost⟩)] .unwanted)] .wanted

def request : SearchRequest := .of "logs" tree.compile

def nodes : Nodes := ⟨["http://a", "http://b", "http://c"], by decide, none⟩

def backend : FarSide Post Reply :=
  ⟨fun past _ => if past.isEmpty then .unreachable "connection refused" else .answered 400 (.text text)⟩

def unreached : Attempt := ⟨"http://a", .unreachable "connection refused"⟩

def refused : Attempt := ⟨"http://b", .answered 400 (.text text)⟩

theorem occur : Occur none request backend [] [unreached, refused] := by
  have ha : ∃ p, post? none request "http://a" = some p := Option.isSome_iff_exists.1 (by decide +kernel)
  have hb : ∃ p, post? none request "http://b" = some p := Option.isSome_iff_exists.1 (by decide +kernel)
  obtain ⟨p, ha⟩ := ha
  obtain ⟨q, hb⟩ := hb
  simp [Occur, replyFrom, exchanges, Attempt.exchange?, unreached, refused, backend, ha, hb]

theorem saysMalformed : SaysMalformed tree 400 text "Cannot parse 'disk AND ('" where
  status := rfl
  strict := ⟨_, .head _, _, _, _, rfl⟩
  told := by
    have h : (Json.parse? text).bind ErrorTree.unreadableReason? = some "Cannot parse 'disk AND ('" := by
      decide +kernel
    obtain ⟨answer, hj, hr⟩ := Option.bind_eq_some_iff.1 h
    exact ⟨answer, hj, ErrorTree.tells_of_unreadableReason? hr⟩

end Refusal

theorem fault_of_refusal :
    Refusal.nodes.addresses = ([Refusal.unreached] ++ [Refusal.refused]).map Attempt.node ++ ["http://c"] ∧
      Occur none Refusal.request Refusal.backend [] ([Refusal.unreached] ++ [Refusal.refused]) ∧
      ∃ reason, ((search Refusal.backend.ask Refusal.nodes Refusal.request).run []).1 =
        .error (.malformedQuery reason) := by
  have ht : Refusal.request.query = Refusal.tree.compile := rfl
  have hn : Refusal.nodes.addresses =
    ([Refusal.unreached] ++ [Refusal.refused]).map Attempt.node ++ ["http://c"] := rfl
  have hu : ∀ u ∈ [Refusal.unreached], u.reply.Unreachable := List.forall_mem_singleton.2 ⟨_, rfl⟩
  have hf : Refusal.refused.reply = .answered 400 (.text Refusal.text) := rfl
  have hb : errorText (received 400 (.text Refusal.text)) = Refusal.text :=
    errorText_received rfl (by decide +kernel)
  have h := fault_of_answer ht hn Refusal.occur hu hf (.inr (by decide)) hb
  exact ⟨hn, Refusal.occur, h.1.2 ⟨_, Refusal.saysMalformed⟩⟩

end Http

end LogQuery
