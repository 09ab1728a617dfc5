import LogQuery.Field
import LogQuery.Proofs.Json.Parts
import Mathlib.Algebra.Group.Int.Defs

/-!
# Records keep every property

Which values are records, and that none of their properties is lost, renamed or read twice: a record is written
as the value that it was read from, without the `null`s among the known members of the record and of its source,
and what is written is the same record again. The members with other names are kept as they are, in the record
and in its source. The names that both know are those of the registered fields.
-/

namespace LogQuery

/-! ## The source -/

namespace Source

/-- What the known members may be. -/
def shape : List (String × (Json → Prop)) :=
  [("class", Json.IsText), ("method", Json.IsText), ("file", Json.IsText),
    ("line", Json.IsIntWithin (-2 ^ 31) (2 ^ 31 - 1)), ("classLoaderName", Json.IsText)]

def Readable (v : Json) : Prop := v.HasParts shape

def withoutNulls : Json → Json
  | .object ms => .object (Members.withoutNulls partNames ms)
  | v => v

variable {ms : Members Json} {v : Json} {s : Source}

theorem decode?_object (hc : (Json.object ms).Canonical) :
    decode? (.ofJson (.object ms)) = (do
      let className ← PartKind.text.read? (ms.find? "class")
      let method ← PartKind.text.read? (ms.find? "method")
      let file ← PartKind.text.read? (ms.find? "file")
      let line ← PartKind.int32.read? (ms.find? "line")
      let classLoaderName ← PartKind.text.read? (ms.find? "classLoaderName")
      some { className, method, file, line, classLoaderName, additional := ms.without partNames }) := by
  have text := fun name (h : name ∈ partNames) => PartKind.text.optional?_ofMembers h hc.sorted
  have line := PartKind.int32.optional?_ofMembers (by decide : "line" ∈ partNames) hc.sorted
  rw [← text "class" (by decide), ← text "method" (by decide), ← text "file" (by decide), ← line,
    ← text "classLoaderName" (by decide), Document.ofJson, decode?, Document.knownMembers?_ofMembers hc.sorted,
    Document.additional?_ofMembers hc]
  rfl

def slots : List (Slot Source) :=
  [⟨"class", .text, className⟩, ⟨"method", .text, method⟩, ⟨"file", .text, file⟩, ⟨"line", .int32, line⟩,
    ⟨"classLoaderName", .text, classLoaderName⟩]

theorem decode?_eq_some_iff (hc : (Json.object ms).Canonical) :
    decode? (.ofJson (.object ms)) = some s ↔
      (∀ slot ∈ slots, slot.Holds ms s) ∧ s.additional = ms.without partNames := by
  rw [decode?_object hc]
  simp only [Option.bind_eq_bind, Option.bind_eq_some_iff, PartKind.read?_eq_some_iff, slots, Slot.Holds,
    List.forall_mem_cons, Option.some.injEq]
  constructor
  · rintro ⟨className, h1, method, h2, file, h3, line, h4, classLoaderName, h5, rfl⟩
    exact ⟨⟨h1, h2, h3, h4, h5, List.forall_mem_nil _⟩, rfl⟩
  · rintro ⟨⟨h1, h2, h3, h4, h5, -⟩, hother⟩
    exact ⟨_, h1, _, h2, _, h3, _, h4, _, h5, hother ▸ rfl⟩

theorem exists_decode? (hc : (Json.object ms).Canonical)
    (h : ∀ slot ∈ slots, ∃ part, slot.kind.Reads (ms.find? slot.name) part) :
    ∃ s, decode? (.ofJson (.object ms)) = some s := by
  simp only [slots, List.forall_mem_cons] at h
  obtain ⟨⟨className, h1⟩, ⟨method, h2⟩, ⟨file, h3⟩, ⟨line, h4⟩, ⟨classLoaderName, h5⟩, -⟩ := h
  refine ⟨⟨className, method, file, line, classLoaderName, ms.without partNames⟩,
    (decode?_eq_some_iff hc).2 ⟨?_, rfl⟩⟩
  simp only [slots, List.forall_mem_cons]
  exact ⟨h1, h2, h3, h4, h5, List.forall_mem_nil _⟩

theorem isObject_of_decode? (h : decode? (.ofJson v) = some s) : v.IsObject := by
  cases v with
  | object ms => exact ⟨ms, rfl⟩
  | _ => cases h

def layout : Layout Source where
  slots := slots
  additional := additional
  decode? := decode?
  toJson := toJson
  nodup_names := by decide
  toJson_eq _ := rfl
  isObject_of_decode? := isObject_of_decode?
  decode?_eq_some_iff := decode?_eq_some_iff
  exists_decode? := exists_decode?

theorem layout_clean : layout.clean = withoutNulls := by
  funext v
  cases v with
  | object ms =>
    have hclean : ∀ slot ∈ slots, slot.kind.clean = id := by
      simp only [slots, List.forall_mem_cons]
      exact ⟨rfl, rfl, rfl, rfl, rfl, nofun⟩
    have hpart : (fun m : String × Json => (m.1, layout.cleanPart m.1 m.2)) = id := by
      funext m
      rw [Layout.cleanPart_eq_self (l := layout) fun slot hs _ => hclean slot hs]
      rfl
    rw [Layout.clean, Layout.cleanMembers, hpart, List.map_id]
    rfl
  | _ => rfl

end Source

/-! ## The record -/

namespace Record

/-- What the known members may be. -/
def shape : List (String × (Json → Prop)) :=
  [("timeMillis", Json.IsIntWithin (-2 ^ 63) (2 ^ 63 - 1)), ("thread", Json.IsText), ("level", Json.IsText),
    ("loggerName", Json.IsText), ("message", Json.IsText), ("endOfBatch", Json.IsBool),
    ("loggerFqcn", Json.IsText), ("contextMap", Json.IsObject),
    ("threadId", Json.IsIntWithin (-2 ^ 63) (2 ^ 63 - 1)),
    ("threadPriority", Json.IsIntWithin (-2 ^ 31) (2 ^ 31 - 1)), ("source", Source.Readable)]

def Readable (v : Json) : Prop := v.HasParts shape

/-- The value without the `null`s among the known members, also of the source. -/
def withoutNulls : Json → Json
  | .object ms => .object ((Members.withoutNulls partNames ms).map fun m =>
      if m.1 = "source" then (m.1, Source.withoutNulls m.2) else m)
  | v => v

variable {ms : Members Json} {v : Json} {r : Record}

theorem decode?_object (hc : (Json.object ms).Canonical) :
    decode? (.ofJson (.object ms)) = (do
      let timeMillis ← PartKind.int64.read? (ms.find? "timeMillis")
      let thread ← PartKind.text.read? (ms.find? "thread")
      let level ← PartKind.text.read? (ms.find? "level")
      let loggerName ← PartKind.text.read? (ms.find? "loggerName")
      let message ← PartKind.text.read? (ms.find? "message")
      let endOfBatch ← PartKind.bool.read? (ms.find? "endOfBatch")
      let loggerFqcn ← PartKind.text.read? (ms.find? "loggerFqcn")
      let contextMap ← PartKind.table.read? (ms.find? "contextMap")
      let threadId ← PartKind.int64.read? (ms.find? "threadId")
      let threadPriority ← PartKind.int32.read? (ms.find? "threadPriority")
      let source ← Source.layout.kind.read? (ms.find? "source")
      some { timeMillis, thread, level, loggerName, message, endOfBatch, loggerFqcn, contextMap, threadId,
             threadPriority, source, additional := ms.without partNames }) := by
  have text := fun name (h : name ∈ partNames) => PartKind.text.optional?_ofMembers h hc.sorted
  have long := fun name (h : name ∈ partNames) => PartKind.int64.optional?_ofMembers h hc.sorted
  have endOfBatch := PartKind.bool.optional?_ofMembers (by decide : "endOfBatch" ∈ partNames) hc.sorted
  have contextMap := PartKind.table.optional?_ofMembers (by decide : "contextMap" ∈ partNames) hc.sorted
  have threadPriority := PartKind.int32.optional?_ofMembers (by decide : "threadPriority" ∈ partNames) hc.sorted
  have source := Source.layout.kind.optional?_ofMembers (by decide : "source" ∈ partNames) hc.sorted
  rw [← long "timeMillis" (by decide), ← text "thread" (by decide), ← text "level" (by decide),
    ← text "loggerName" (by decide), ← text "message" (by decide), ← endOfBatch,
    ← text "loggerFqcn" (by decide), ← contextMap, ← long "threadId" (by decide), ← threadPriority, ← source,
    Document.ofJson, decode?, Document.knownMembers?_ofMembers hc.sorted, Document.additional?_ofMembers hc]
  rfl

def slots : List (Slot Record) :=
  [⟨"timeMillis", .int64, timeMillis⟩, ⟨"thread", .text, thread⟩, ⟨"level", .text, level⟩,
    ⟨"loggerName", .text, loggerName⟩, ⟨"message", .text, message⟩, ⟨"endOfBatch", .bool, endOfBatch⟩,
    ⟨"loggerFqcn", .text, loggerFqcn⟩, ⟨"contextMap", .table, contextMap⟩, ⟨"threadId", .int64, threadId⟩,
    ⟨"threadPriority", .int32, threadPriority⟩, ⟨"source", Source.layout.kind, source⟩]

theorem decode?_eq_some_iff (hc : (Json.object ms).Canonical) :
    decode? (.ofJson (.object ms)) = some r ↔
      (∀ slot ∈ slots, slot.Holds ms r) ∧ r.additional = ms.without partNames := by
  rw [decode?_object hc]
  simp only [Option.bind_eq_bind, Option.bind_eq_some_iff, PartKind.read?_eq_some_iff, slots, Slot.Holds,
    List.forall_mem_cons, Option.some.injEq]
  constructor
  · rintro ⟨_, h1, _, h2, _, h3, _, h4, _, h5, _, h6, _, h7, _, h8, _, h9, _, h10, _, h11, rfl⟩
    exact ⟨⟨h1, h2, h3, h4, h5, h6, h7, h8, h9, h10, h11, List.forall_mem_nil _⟩, rfl⟩
  · rintro ⟨⟨h1, h2, h3, h4, h5, h6, h7, h8, h9, h10, h11, -⟩, hother⟩
    exact ⟨_, h1, _, h2, _, h3, _, h4, _, h5, _, h6, _, h7, _, h8, _, h9, _, h10, _, h11, hother ▸ rfl⟩

theorem exists_decode? (hc : (Json.object ms).Canonical)
    (h : ∀ slot ∈ slots, ∃ part, slot.kind.Reads (ms.find? slot.name) part) :
    ∃ r, decode? (.ofJson (.object ms)) = some r := by
  simp only [slots, List.forall_mem_cons] at h
  obtain ⟨⟨timeMillis, h1⟩, ⟨thread, h2⟩, ⟨level, h3⟩, ⟨loggerName, h4⟩, ⟨message, h5⟩, ⟨endOfBatch, h6⟩,
    ⟨loggerFqcn, h7⟩, ⟨contextMap, h8⟩, ⟨threadId, h9⟩, ⟨threadPriority, h10⟩, ⟨source, h11⟩, -⟩ := h
  refine ⟨⟨timeMillis, thread, level, loggerName, message, endOfBatch, loggerFqcn, contextMap, threadId,
    threadPriority, source, ms.without partNames⟩, (decode?_eq_some_iff hc).2 ⟨?_, rfl⟩⟩
  simp only [slots, List.forall_mem_cons]
  exact ⟨h1, h2, h3, h4, h5, h6, h7, h8, h9, h10, h11, List.forall_mem_nil _⟩

theorem isObject_of_decode? (h : decode? (.ofJson v) = some r) : v.IsObject := by
  cases v with
  | object ms => exact ⟨ms, rfl⟩
  | _ => cases h

def layout : Layout Record where
  slots := slots
  additional := additional
  decode? := decode?
  toJson := toJson
  nodup_names := by decide
  toJson_eq _ := rfl
  isObject_of_decode? := isObject_of_decode?
  decode?_eq_some_iff := decode?_eq_some_iff
  exists_decode? := exists_decode?

theorem layout_fits : layout.Fits = Readable := rfl

theorem layout_clean : layout.clean = withoutNulls := by
  funext v
  cases v with
  | object ms =>
    have hclean : ∀ slot ∈ slots, slot.name ≠ "source" → slot.kind.clean = id := by
      simp only [slots, List.forall_mem_cons]
      exact ⟨fun _ => rfl, fun _ => rfl, fun _ => rfl, fun _ => rfl, fun _ => rfl, fun _ => rfl, fun _ => rfl,
        fun _ => rfl, fun _ => rfl, fun _ => rfl, fun h => absurd rfl h, nofun⟩
    have hsource : ∀ w, layout.cleanPart "source" w = Source.withoutNulls w := fun w => by
      rw [← Source.layout_clean]
      have hmem : (⟨"source", Source.layout.kind, source⟩ : Slot Record) ∈ layout.slots := by simp [layout, slots]
      exact Layout.cleanPart_slot hmem w
    have hpart : ∀ m : String × Json, (m.1, layout.cleanPart m.1 m.2) =
        if m.1 = "source" then (m.1, Source.withoutNulls m.2) else m := fun m => by
      by_cases hm : m.1 = "source"
      · rw [if_pos hm, hm, hsource]
      · rw [if_neg hm, Layout.cleanPart_eq_self (l := layout) fun slot hs hname => hclean slot hs (hname ▸ hm)]
    rw [Layout.clean, Layout.cleanMembers, funext hpart]
    rfl
  | _ => rfl

/-- What becomes of the source: an object of which the members with other names are kept. -/
theorem source_kept (hc : (Json.object ms).Canonical) (hr : ofJson? (.object ms) = some r) {s : Source}
    (hs : r.source = some s) :
    ∃ ns : Members Json, ms.find? "source" = some (.object ns) ∧ s.additional = ns.without Source.partNames := by
  obtain ⟨hslots, -⟩ := (decode?_eq_some_iff hc).1 hr
  have hmem : (⟨"source", Source.layout.kind, source⟩ : Slot Record) ∈ slots := by simp [slots]
  rcases (hslots _ hmem).cases with ⟨-, hnone⟩ | ⟨w, s', hw, hs', hread⟩
  · cases hs.symm.trans hnone
  · obtain rfl : s = s' := Option.some.inj (hs.symm.trans hs')
    have hfind := Json.eq_some_of_given hw
    obtain ⟨-, -, -, ns, rfl, hother⟩ := Source.layout.decode?_spec (hc.of_find? hfind) hread
    exact ⟨ns, hfind, hother⟩

end Record

/-! ## The known names -/

namespace Field

/-- The dotted path, taken apart. -/
def pathSegments (f : Field) : List String := (f.path.toList.splitOn '.').map String.ofList

theorem pathSegments_eq (f : Field) : f.pathSegments = f.segments := by cases f <;> decide +kernel

/-- Names that the registry has at a place of its paths, and no others. -/
theorem mem_iff_of_registered {names : List String} {i : Nat}
    (hcovered : ∀ k ∈ names, ∃ f ∈ all, f.segments[i]? = some k)
    (hknown : ∀ f ∈ all, ∀ k ∈ f.segments[i]?, k ∈ names) (k : String) :
    k ∈ names ↔ ∃ f : Field, f.pathSegments[i]? = some k := by
  simp only [pathSegments_eq]
  constructor
  · intro hk
    obtain ⟨f, -, hf⟩ := hcovered k hk
    exact ⟨f, hf⟩
  · rintro ⟨f, hf⟩
    exact hknown f f.mem_all k hf

end Field

theorem Record.mem_partNames_iff (k : String) :
    k ∈ Record.partNames ↔ ∃ f : Field, f.pathSegments[0]? = some k :=
  Field.mem_iff_of_registered (by decide) (by decide) k

theorem Source.mem_partNames_iff (k : String) :
    k ∈ Source.partNames ↔ ∃ f : Field, f.pathSegments[1]? = some k :=
  Field.mem_iff_of_registered (by decide) (by decide) k

namespace Record

/-- **Records keep every property** (`LogRecord::from_value`). A value in order, as all are that are read from
documents, is a record just if its known members are as they may be. A record is written as the value that it was
read from without the known `null`s, and is read back from what it is written as; the additional members of the
record and of its source are those with other names. The known names are those in the paths of the registered
fields. -/
theorem ofJson?_lossless {v : Json} (hv : v.Canonical) :
    ((∃ r, ofJson? v = some r) ↔ Readable v) ∧
    (∀ r, ofJson? v = some r →
      r.toJson = withoutNulls v ∧ ofJson? r.toJson = some r ∧
      ∃ ms : Members Json, v = .object ms ∧ r.additional = ms.without partNames ∧
        ∀ s, r.source = some s → ∃ ns : Members Json,
          ms.find? "source" = some (.object ns) ∧ s.additional = ns.without Source.partNames) ∧
    (∀ k, k ∈ partNames ↔ ∃ f : Field, f.pathSegments[0]? = some k) ∧
    (∀ k, k ∈ Source.partNames ↔ ∃ f : Field, f.pathSegments[1]? = some k) := by
  refine ⟨?_, ?_, mem_partNames_iff, Source.mem_partNames_iff⟩
  · rw [← layout_fits]
    exact (Layout.fits_iff (l := layout) hv).symm
  · intro r hr
    obtain ⟨hwritten, hback, -, ms, rfl, hother⟩ := layout.decode?_spec hv hr
    rw [layout_clean] at hwritten hback
    have hagain : ofJson? r.toJson = some r := by
      rw [show r.toJson = withoutNulls (.object ms) from hwritten]
      exact hback
    exact ⟨hwritten, hagain, ms, rfl, hother, fun s hs => source_kept hv hr hs⟩

/-- A record with `null`s, known and unknown, at both levels. -/
def sampleValue : Json :=
  .object [("host", .null), ("message", .null),
    ("source", .object [("class", .null), ("line", .int (2 ^ 31 - 1)), ("module", .null)]),
    ("timeMillis", .int (-2 ^ 63))]

theorem ofJson?_sampleValue :
    sampleValue.Canonical ∧ ∃ r, ofJson? sampleValue = some r ∧ ofJson? r.toJson = some r ∧
      r.additional = [("host", .null)] ∧
      r.toJson = .object [("host", .null), ("source", .object [("line", .int (2 ^ 31 - 1)), ("module", .null)]),
        ("timeMillis", .int (-2 ^ 63))] := by
  have hsource : (Json.object [("class", .null), ("line", .int (2 ^ 31 - 1)), ("module", .null)]).Canonical := by
    refine .object (by decide) ?_
    simp only [List.forall_mem_cons]
    exact ⟨.null, .int _, .null, nofun⟩
  have hvalue : sampleValue.Canonical := by
    refine .object (by decide) ?_
    simp only [List.forall_mem_cons]
    exact ⟨.null, .null, hsource, .int _, nofun⟩
  obtain ⟨-, hkeeps, -⟩ := ofJson?_lossless hvalue
  have hread : (ofJson? sampleValue).isSome = true := by rfl
  obtain ⟨r, hr⟩ := Option.isSome_iff_exists.1 hread
  obtain ⟨hwritten, hback, ms, hms, hother, -⟩ := hkeeps r hr
  obtain rfl := Json.object.inj hms
  exact ⟨hvalue, r, hr, hback, hother, hwritten⟩

end Record

end LogQuery
