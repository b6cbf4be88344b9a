import CrossMachine.Observability.Export
import Mathlib.Data.List.Forall2

/-!
# Spans as JSON

What is exported of a span, as a JSON value (`spanValue`). If all strings of the record are text
and all its doubles are finite, the line is the JSON text of that value (`spanLine_denotes`). The
names, the keys and the values alone are read back just if they are text, and the span has a line
of its own just if no other string has a NUL (`exported_iff`). A carriage return in a name is
copied (`carriage_return_copied`).
-/

namespace CrossMachine.Observability

open Lib Json

/-! ## Texts of values -/

section Denotes

/-- The bytes are the JSON text of the value. -/
def Denotes (t : Str) (value : Value) : Prop := ∃ cs, t = utf8 cs ∧ Text value cs

/-- The bytes are a member of an object. -/
structure DenotesMember (t : Str) (m : List Char × Value) : Prop where
  shown : ∀ c ∈ m.1, Unescaped c
  value : ∃ u, t = text "\"" ++ utf8 m.1 ++ text "\":" ++ u ∧ Denotes u m.2

variable {s t : Str} {ts : List Str} {value : Value} {values : List Value}
variable {ms : List (List Char × Value)}

theorem denotes_quoted (h : IsText s) : Denotes (quoted s) (.string (decodeUtf8 s)) := by
  obtain ⟨cs, rfl, hcs⟩ := h
  rw [decodeUtf8_utf8]
  exact ⟨_, quoted_utf8 cs, .string ⟨_, rfl, body_escape hcs⟩⟩

theorem denotes_decimal (n : UInt64) : Denotes (decimal n) (.number (Nat.toDigits 10 n.toNat)) :=
  ⟨_, rfl, .number (number_toDigits n.toNat)⟩

theorem denotes_array (h : List.Forall₂ Denotes ts values) :
    Denotes (array ts) (.array values) := by
  have helements : ∃ cs, (text ",").intercalate ts = utf8 cs ∧ Elements values cs := by
    induction h with
    | nil => exact ⟨[], rfl, .nil⟩
    | cons hd hrest ih =>
        obtain ⟨cs, rfl, hcs⟩ := hd
        obtain ⟨ds, hds, helements⟩ := ih
        cases hrest with
        | nil => exact ⟨cs, List.intercalate_singleton, .single hcs⟩
        | cons hd' hrest' =>
            refine ⟨cs ++ ',' :: ds, ?_, .cons hcs helements⟩
            rw [List.intercalate_cons_cons, hds]
            simp [text]
  obtain ⟨cs, hcs, helements⟩ := helements
  refine ⟨_, ?_, .array helements⟩
  rw [array, hcs]
  simp [text]

theorem denotes_object (h : List.Forall₂ DenotesMember ts ms) :
    Denotes (object ts) (.object ms) := by
  have hmembers : ∃ cs, (text ",").intercalate ts = utf8 cs ∧ Members ms cs := by
    induction h with
    | nil => exact ⟨[], rfl, .nil⟩
    | cons hd hrest ih =>
        obtain ⟨hshown, u, rfl, us, rfl, hus⟩ := hd
        obtain ⟨ds, hds, hmembers⟩ := ih
        have hkey := Unescaped.literal hshown
        cases hrest with
        | nil =>
            refine ⟨_, ?_, .single hkey hus⟩
            rw [List.intercalate_singleton]
            simp [text]
        | cons hd' hrest' =>
            refine ⟨_, ?_, .cons hkey hus hmembers⟩
            rw [List.intercalate_cons_cons, hds]
            simp [text]
  obtain ⟨cs, hcs, hmembers⟩ := hmembers
  refine ⟨_, ?_, .object hmembers⟩
  rw [object, hcs]
  simp [text]

theorem denotesMember (key : String) (hkey : (key.toList.all fun c => Unescaped c) = true)
    (h : Denotes t value) : DenotesMember (member key t) (key.toList, value) :=
  ⟨fun c hc => of_decide_eq_true (List.all_eq_true.mp hkey c hc), t, rfl, h⟩

end Denotes

/-! ## Texts of spans -/

section Span

variable {D : Type} (fmt : DoubleFormat D) (r : SpanRecord D)

def AttributeValue.value : AttributeValue D → Value
  | .string s => .string (decodeUtf8 s)
  | .double d => .number (fmt.print d)

def attributeMembers (a : Str × AttributeValue D) : List (List Char × Value) :=
  [("key".toList, .string (decodeUtf8 a.1)), ("value".toList, a.2.value fmt)]

def eventMembers (e : SpanEvent) : List (List Char × Value) :=
  [("name".toList, .string (decodeUtf8 e.name)),
    ("timeUnixNano".toList, .number (Nat.toDigits 10 e.timestampNs.toNat))]

/-- What is exported of a span. -/
def spanValue : Value :=
  .object
    [("traceId".toList, .string (decodeUtf8 r.traceId.1)),
      ("spanId".toList, .string (decodeUtf8 r.spanId.1)),
      ("parentSpanId".toList, .string (decodeUtf8 r.parentSpanId.1)),
      ("name".toList, .string (decodeUtf8 r.name)),
      ("serviceName".toList, .string (decodeUtf8 r.serviceName)),
      ("startTimeUnixNano".toList, .number (Nat.toDigits 10 r.startTimeUnixNano.toNat)),
      ("endTimeUnixNano".toList, .number (Nat.toDigits 10 r.endTimeUnixNano.toNat)),
      ("attributes".toList, .array (r.attributes.map fun a => .object (attributeMembers fmt a))),
      ("events".toList, .array (r.events.map fun e => .object (eventMembers e))),
      ("status".toList, .object
        [("error".toList, .bool r.isError),
          ("message".toList, .string (decodeUtf8 r.errorMessage))])]

/-- No attribute is an infinity or a NaN. -/
def SpanRecord.Finite : Prop := ∀ a ∈ r.attributes, ∀ d, a.2 = .double d → fmt.finite d

theorem HexId.isText (id : HexId) : IsText id.1 := by
  have hascii : ∀ b ∈ id.1, b.toNat < 128 := fun b hb => (hexDigits_shown b (id.2 b hb)).2.1
  refine ⟨_, (utf8_ascii hascii).symm, fun c hc => .inl ?_⟩
  obtain ⟨b, hb, rfl⟩ := List.mem_map.mp hc
  have hvalid : b.toNat.isValidChar := .inl ((hascii b hb).trans (by decide))
  rw [Char.ofNat, dif_pos hvalid]
  exact (hexDigits_shown b (id.2 b hb)).1

theorem denotes_valueText {value : AttributeValue D} (hs : ∀ s ∈ value.strings, IsText s)
    (hd : ∀ d, value = .double d → fmt.finite d) :
    Denotes (valueText fmt value) (value.value fmt) := by
  cases value with
  | string s => exact denotes_quoted (hs s List.mem_cons_self)
  | double d => exact ⟨_, rfl, .number (fmt.number d (hd d rfl))⟩

theorem denotes_attribute {a : Str × AttributeValue D}
    (hs : ∀ s ∈ a.1 :: a.2.strings, IsText s) (hd : ∀ d, a.2 = .double d → fmt.finite d) :
    Denotes (attributeText fmt a) (.object (attributeMembers fmt a)) := by
  obtain ⟨hkey, hvalue⟩ := List.forall_mem_cons.mp hs
  rw [attributeText_eq]
  exact denotes_object
    (.cons (denotesMember "key" (by decide) (denotes_quoted hkey))
      (.cons (denotesMember "value" (by decide) (denotes_valueText fmt hvalue hd)) .nil))

theorem denotes_event {e : SpanEvent} (hname : IsText e.name) :
    Denotes (eventText e) (.object (eventMembers e)) := by
  rw [eventText_eq]
  exact denotes_object
    (.cons (denotesMember "name" (by decide) (denotes_quoted hname))
      (.cons (denotesMember "timeUnixNano" (by decide) (denotes_decimal e.timestampNs)) .nil))

theorem denotes_status (hmessage : IsText r.errorMessage) :
    Denotes (object [member "error" (text (if r.isError then "true" else "false")),
        member "message" (quoted r.errorMessage)])
      (.object [("error".toList, .bool r.isError),
        ("message".toList, .string (decodeUtf8 r.errorMessage))]) := by
  have herror : Denotes (text (if r.isError then "true" else "false")) (.bool r.isError) := by
    cases r.isError with
    | true => exact ⟨_, rfl, .true⟩
    | false => exact ⟨_, rfl, .false⟩
  exact denotes_object
    (.cons (denotesMember "error" (by decide) herror)
      (.cons (denotesMember "message" (by decide) (denotes_quoted hmessage)) .nil))

/-- **The line is the JSON text of the span.** -/
theorem spanLine_denotes (hs : ∀ s ∈ r.named ++ r.others, IsText s) (hd : r.Finite fmt) :
    Denotes (spanLine fmt r) (spanValue fmt r) := by
  obtain ⟨hnamed, hothers⟩ := List.forall_mem_append.mp hs
  obtain ⟨hname, hattributes⟩ := List.forall_mem_cons.mp hnamed
  obtain ⟨hservice, hmessage, hevents⟩ :
      IsText r.serviceName ∧ IsText r.errorMessage ∧ ∀ e ∈ r.events, IsText e.name := by
    simpa [SpanRecord.others] using hothers
  have hattributes' : Denotes (array (r.attributes.map (attributeText fmt)))
      (.array (r.attributes.map fun a => .object (attributeMembers fmt a))) := by
    refine denotes_array (List.forall₂_map_left_iff.mpr (List.forall₂_map_right_iff.mpr ?_))
    refine List.forall₂_same.mpr fun a ha => denotes_attribute fmt (fun s hmem => ?_) (hd a ha)
    exact hattributes s (List.mem_flatMap.mpr ⟨a, ha, hmem⟩)
  have hevents' : Denotes (array (r.events.map eventText))
      (.array (r.events.map fun e => .object (eventMembers e))) := by
    refine denotes_array (List.forall₂_map_left_iff.mpr (List.forall₂_map_right_iff.mpr ?_))
    exact List.forall₂_same.mpr fun e he => denotes_event (hevents e he)
  rw [spanLine_eq]
  exact denotes_object
    (.cons (denotesMember "traceId" (by decide) (denotes_quoted r.traceId.isText))
    (.cons (denotesMember "spanId" (by decide) (denotes_quoted r.spanId.isText))
    (.cons (denotesMember "parentSpanId" (by decide) (denotes_quoted r.parentSpanId.isText))
    (.cons (denotesMember "name" (by decide) (denotes_quoted hname))
    (.cons (denotesMember "serviceName" (by decide) (denotes_quoted hservice))
    (.cons (denotesMember "startTimeUnixNano" (by decide) (denotes_decimal r.startTimeUnixNano))
    (.cons (denotesMember "endTimeUnixNano" (by decide) (denotes_decimal r.endTimeUnixNano))
    (.cons (denotesMember "attributes" (by decide) hattributes')
    (.cons (denotesMember "events" (by decide) hevents')
    (.cons (denotesMember "status" (by decide) (denotes_status r hmessage)) .nil))))))))))

/-- **A span is exported well** just if its name, keys and values are text and no other string
cuts off the line. If the others are text too, the line is the JSON text of the span. -/
theorem exported_iff {D : Type} (fmt : DoubleFormat D) (r : SpanRecord D) :
    (((∀ s ∈ r.named, quoted s <:+: written fmt r ∧ ReadsBack (quoted s) s) ∧
        OneLine (written fmt r)) ↔
      (∀ s ∈ r.named, IsText s) ∧ ∀ s ∈ r.others, 0 ∉ s) ∧
    ((∀ s ∈ r.named ++ r.others, IsText s) → r.Finite fmt →
      ∃ line, written fmt r = line ++ text "\n" ∧ Denotes line (spanValue fmt r)) := by
  have hnul : (∀ s ∈ r.named, IsText s) → (∀ s ∈ r.others, 0 ∉ s) → 0 ∉ spanLine fmt r := by
    intro hnamed hothers hzero
    obtain ⟨s, hs, hmem⟩ := (zero_mem_spanLine fmt r).mp hzero
    rcases List.mem_append.mp hs with hs | hs
    · exact (hnamed s hs).no_nul hmem
    · exact hothers s hs hmem
  refine ⟨⟨fun ⟨hread, hline⟩ => ?_, fun ⟨hnamed, hothers⟩ => ?_⟩, fun hs hd => ?_⟩
  · have hzero := (oneLine_written_iff fmt r).mp hline
    refine ⟨fun s hs => readsBack_iff.mp (hread s hs).2, fun s hs hmem => hzero ?_⟩
    exact (zero_mem_spanLine fmt r).mpr ⟨s, List.mem_append_right _ hs, hmem⟩
  · have hzero := hnul hnamed hothers
    refine ⟨fun s hs => ⟨?_, readsBack_iff.mpr (hnamed s hs)⟩,
      (oneLine_written_iff fmt r).mpr hzero⟩
    rw [written_eq fmt r hzero]
    exact (infix_spanLine fmt r hs).trans (List.prefix_append _ _).isInfix
  · obtain ⟨hnamed, hothers⟩ := List.forall_mem_append.mp hs
    exact ⟨_, written_eq fmt r (hnul hnamed fun s hs => (hothers s hs).no_nul),
      spanLine_denotes fmt r hs hd⟩

end Span

/-- One half and infinity as they are printed. -/
def halfOrInf : DoubleFormat Bool where
  print half := if half then ['0', '.', '5'] else ['i', 'n', 'f']
  finite half := half = true
  chars half := by cases half <;> simp
  number half hhalf := ⟨[], ['0'], ['.', '5'], [], .inl rfl, .inl rfl,
    .inr ⟨['5'], ⟨List.cons_ne_nil _ _, List.forall_mem_singleton.mpr rfl⟩, rfl⟩, .inl rfl,
    by rw [hhalf]; rfl⟩

/-- A root span with one attribute. -/
def rootSpan (name : Str) : SpanRecord Bool where
  traceId := .random (List.replicate 16 0)
  spanId := .random (List.replicate 8 1)
  parentSpanId := ⟨[], fun _ hb => absurd hb List.not_mem_nil⟩
  name := name
  serviceName := text "unknown_service"
  startTimeUnixNano := 1
  endTimeUnixNano := 2
  attributes := [(text "load", .double true)]
  events := []
  isError := false
  errorMessage := []

/-- A carriage return is copied as it is. -/
theorem carriage_return_copied :
    ¬ ((∀ s ∈ (rootSpan [13]).named, quoted s <:+: written halfOrInf (rootSpan [13]) ∧
        ReadsBack (quoted s) s) ∧ OneLine (written halfOrInf (rootSpan [13]))) := by
  intro h
  obtain ⟨cs, hs, hcs⟩ := readsBack_iff.mp (h.1 [13] List.mem_cons_self).2
  have hmem : (13 : UInt8) ∈ utf8 cs := hs ▸ List.mem_cons_self
  obtain ⟨c, hc, hcode⟩ := mem_utf8 hmem (by decide)
  have hcode : c.toNat = 13 := hcode
  rcases hcs c hc with hshown | rfl | rfl
  · omega
  · exact absurd hcode (by decide)
  · exact absurd hcode (by decide)

end CrossMachine.Observability
