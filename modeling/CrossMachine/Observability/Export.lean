import CrossMachine.Lib.Intercalate
import CrossMachine.Observability.Tracer
import Mathlib.Data.List.TakeWhile

/-!
# Which spans are exported as JSON

`json_escape` takes care of the quotation mark, the backslash, the newline and the tab. The other
control characters are copied, which JSON does not allow, and a NUL cuts off the line. So names,
keys and values are read back just if they are UTF-8 without other control characters, and the
span has its line just if no NUL is in it (`exported_iff`). If all strings are like that, the
whole line is the JSON text of the record (`spanLine_json`).
-/

namespace CrossMachine.Observability

open Lib Json

variable {s : Str} {b : UInt8} {c : Char} {cs v : List Char}

/-! ## Escapes -/

/-- A string literal of the line. -/
def quoted (s : Str) : Str := text "\"" ++ jsonEscape s ++ text "\""

/-- UTF-8 without control characters, but for newlines and tabs. -/
def IsText (s : Str) : Prop :=
  ∃ cs, s = utf8 cs ∧ ∀ c ∈ cs, 0x20 ≤ c.toNat ∨ c = '\n' ∨ c = '\t'

/-- The bytes are a JSON string with one value, and that is `s`. -/
def ReadsBack (lit s : Str) : Prop :=
  ∃ cs v, lit = utf8 cs ∧ Literal cs v ∧ s = utf8 v ∧ ∀ w, Literal cs w → w = v

/-- `escapeByte`, of a character. -/
def escapeChar (c : Char) : List Char :=
  if c = '"' then ['\\', '"']
  else if c = '\\' then ['\\', '\\']
  else if c = '\n' then ['\\', 'n']
  else if c = '\t' then ['\\', 't']
  else [c]

theorem jsonEscape_append (s t : Str) : jsonEscape (s ++ t) = jsonEscape s ++ jsonEscape t :=
  List.flatMap_append

theorem escapeByte_of_le (h : 128 ≤ b.toNat) : escapeByte b = [b] := by
  have hne : ∀ x : UInt8, x.toNat < 128 → b ≠ x := by
    rintro x hx rfl
    omega
  rw [escapeByte, if_neg (hne _ (by decide)), if_neg (hne _ (by decide)),
    if_neg (hne _ (by decide)), if_neg (hne _ (by decide))]

theorem escapeChar_of_le (h : 128 ≤ c.toNat) : escapeChar c = [c] := by
  have hne : ∀ x : Char, x.toNat < 128 → c ≠ x := by
    rintro x hx rfl
    omega
  rw [escapeChar, if_neg (hne _ (by decide)), if_neg (hne _ (by decide)),
    if_neg (hne _ (by decide)), if_neg (hne _ (by decide))]

/-- Bytes are escaped as the characters are. -/
theorem jsonEscape_utf8EncodeChar (c : Char) :
    jsonEscape (String.utf8EncodeChar c) = utf8 (escapeChar c) := by
  rcases Nat.lt_or_ge c.toNat 128 with hlt | hge
  · have hascii : ∀ n < 128, jsonEscape [UInt8.ofNat n] = utf8 (escapeChar (Char.ofNat n)) := by
      decide +kernel
    have h := hascii c.toNat hlt
    rwa [Char.ofNat_toNat, ← utf8EncodeChar_of_lt hlt] at h
  · rw [escapeChar_of_le hge, utf8_cons, utf8_nil, List.append_nil, jsonEscape,
      List.flatMap_congr fun b hb => escapeByte_of_le (le_of_mem_utf8EncodeChar hge hb),
      List.flatMap_singleton']

theorem jsonEscape_utf8 (cs : List Char) : jsonEscape (utf8 cs) = utf8 (cs.flatMap escapeChar) := by
  induction cs with
  | nil => rfl
  | cons c cs ih =>
      rw [utf8_cons, jsonEscape_append, jsonEscape_utf8EncodeChar, ih, List.flatMap_cons,
        utf8_append]

theorem quoted_utf8 (cs : List Char) :
    quoted (utf8 cs) = utf8 ('"' :: (cs.flatMap escapeChar ++ ['"'])) := by
  rw [quoted, jsonEscape_utf8]
  simp [text]

/-- An escaped text reads as what was escaped. -/
theorem body_escape (h : ∀ c ∈ cs, 0x20 ≤ c.toNat ∨ c = '\n' ∨ c = '\t') :
    Body (cs.flatMap escapeChar) cs := by
  induction cs with
  | nil => exact .nil
  | cons c cs ih =>
      obtain ⟨hc, hcs⟩ := List.forall_mem_cons.mp h
      have ih := ih hcs
      rw [List.flatMap_cons]
      by_cases hquote : c = '"'
      · exact hquote ▸ .short rfl ih
      by_cases hslash : c = '\\'
      · exact hslash ▸ .short rfl ih
      by_cases hnl : c = '\n'
      · exact hnl ▸ .short rfl ih
      by_cases htab : c = '\t'
      · exact htab ▸ .short rfl ih
      -- it is shown as it is
      rw [escapeChar, if_neg hquote, if_neg hslash, if_neg hnl, if_neg htab]
      exact .plain ⟨hc.resolve_right (not_or.mpr ⟨hnl, htab⟩), hquote, hslash⟩ ih

/-- **The escape is read back** just if the string is text. -/
theorem readsBack_iff : ReadsBack (quoted s) s ↔ IsText s := by
  refine ⟨fun ⟨cs, v, hlit, hread, hs, _⟩ => ⟨v, hs, fun c hc => ?_⟩, fun ⟨cs, hs, hcs⟩ => ?_⟩
  · rw [hs, quoted_utf8] at hlit
    obtain rfl := utf8_injective hlit
    by_contra hcontrol
    -- it is not escaped, so it would be in the literal
    obtain ⟨hlow, hnl, htab⟩ : ¬ 0x20 ≤ c.toNat ∧ c ≠ '\n' ∧ c ≠ '\t' := by tauto
    have hne : ∀ x : Char, 0x20 ≤ x.toNat → c ≠ x := fun x hx heq => hlow (heq ▸ hx)
    have hself : c ∈ escapeChar c := by
      rw [escapeChar, if_neg (hne _ (by decide)), if_neg (hne _ (by decide)), if_neg hnl,
        if_neg htab]
      exact List.mem_cons_self
    refine hlow (hread.printable c (List.mem_cons_of_mem _ (List.mem_append_left _ ?_)))
    exact List.mem_flatMap.mpr ⟨c, hc, hself⟩
  · have hlit : Literal ('"' :: (cs.flatMap escapeChar ++ ['"'])) cs := ⟨_, rfl, body_escape hcs⟩
    exact ⟨_, cs, hs ▸ quoted_utf8 cs, hlit, hs, fun w hw => hw.unique hlit⟩

/-! ## The line as an object -/

section Line

variable {D : Type} (fmt : DoubleFormat D) (r : SpanRecord D)

/-- A member of an object. -/
def member (key : String) (t : Str) : Str := text "\"" ++ text key ++ text "\":" ++ t

def object (members : List Str) : Str :=
  text "\x7b" ++ (text ",").intercalate members ++ text "\x7d"

def array (elements : List Str) : Str := text "[" ++ (text ",").intercalate elements ++ text "]"

theorem hexDigits_shown : ∀ b ∈ hexDigits, 0x20 ≤ b.toNat ∧ b.toNat < 128 ∧ b ≠ 34 ∧ b ≠ 92 := by
  rw [hexDigits_eq]
  simp

/-- Hexadecimal digits need no escape. -/
theorem jsonEscape_hex (id : HexId) : jsonEscape id.1 = id.1 := by
  have hself : ∀ b ∈ id.1, escapeByte b = [b] := fun b hb => by
    obtain ⟨hshown, -, hquote, hslash⟩ := hexDigits_shown b (id.2 b hb)
    have hne : ∀ x : UInt8, x.toNat < 0x20 → b ≠ x := by
      rintro x hx rfl
      omega
    rw [escapeByte, if_neg hquote, if_neg hslash, if_neg (hne 10 (by decide)),
      if_neg (hne 9 (by decide))]
  rw [jsonEscape, List.flatMap_congr hself, List.flatMap_singleton']

theorem valueText_string (s : Str) : valueText fmt (.string s) = quoted s := rfl

theorem attributeText_eq (a : Str × AttributeValue D) :
    attributeText fmt a =
      object [member "key" (quoted a.1), member "value" (valueText fmt a.2)] := by
  have hkey : text "\x7b\"key\":\"" =
      text "\x7b" ++ text "\"" ++ text "key" ++ text "\":" ++ text "\"" := by simp [text]
  have hvalue : text "\",\"value\":" =
      text "\"" ++ text "," ++ text "\"" ++ text "value" ++ text "\":" := by simp [text]
  simp only [attributeText, hkey, hvalue, object, member, quoted, List.intercalate_cons_cons,
    List.intercalate_singleton, List.flatten_cons, List.flatten_nil, List.append_nil,
    List.append_assoc]

theorem eventText_eq (e : SpanEvent) :
    eventText e = object [member "name" (quoted e.name),
      member "timeUnixNano" (decimal e.timestampNs)] := by
  have hname : text "\x7b\"name\":\"" =
      text "\x7b" ++ text "\"" ++ text "name" ++ text "\":" ++ text "\"" := by simp [text]
  have htime : text "\",\"timeUnixNano\":" =
      text "\"" ++ text "," ++ text "\"" ++ text "timeUnixNano" ++ text "\":" := by simp [text]
  simp only [eventText, hname, htime, object, member, quoted, List.intercalate_cons_cons,
    List.intercalate_singleton, List.flatten_cons, List.flatten_nil, List.append_nil,
    List.append_assoc]

/-- The members of the line. -/
def spanMembers : List Str :=
  [member "traceId" (quoted r.traceId.1), member "spanId" (quoted r.spanId.1),
    member "parentSpanId" (quoted r.parentSpanId.1), member "name" (quoted r.name),
    member "serviceName" (quoted r.serviceName),
    member "startTimeUnixNano" (decimal r.startTimeUnixNano),
    member "endTimeUnixNano" (decimal r.endTimeUnixNano),
    member "attributes" (array (r.attributes.map (attributeText fmt))),
    member "events" (array (r.events.map eventText)),
    member "status" (object [member "error" (text (if r.isError then "true" else "false")),
      member "message" (quoted r.errorMessage)])]

theorem spanLine_eq : spanLine fmt r = object (spanMembers fmt r) := by
  have htrace : text "\"traceId\":\"" =
      text "\"" ++ text "traceId" ++ text "\":" ++ text "\"" := by simp [text]
  have hspan : text "\"spanId\":\"" =
      text "\"" ++ text "spanId" ++ text "\":" ++ text "\"" := by simp [text]
  have hparent : text "\"parentSpanId\":\"" =
      text "\"" ++ text "parentSpanId" ++ text "\":" ++ text "\"" := by simp [text]
  have hname : text "\"name\":\"" =
      text "\"" ++ text "name" ++ text "\":" ++ text "\"" := by simp [text]
  have hservice : text "\"serviceName\":\"" =
      text "\"" ++ text "serviceName" ++ text "\":" ++ text "\"" := by simp [text]
  have hstart : text "\"startTimeUnixNano\":" =
      text "\"" ++ text "startTimeUnixNano" ++ text "\":" := by simp [text]
  have hend : text "\"endTimeUnixNano\":" =
      text "\"" ++ text "endTimeUnixNano" ++ text "\":" := by simp [text]
  have hattributes : text "\"attributes\":[" =
      text "\"" ++ text "attributes" ++ text "\":" ++ text "[" := by simp [text]
  have hevents : text "\"events\":[" =
      text "\"" ++ text "events" ++ text "\":" ++ text "[" := by simp [text]
  have hstatus : text "\"status\":\x7b\"error\":" =
      text "\"" ++ text "status" ++ text "\":" ++ text "\x7b" ++ text "\"" ++ text "error" ++
        text "\":" := by simp [text]
  have hmessage : text ",\"message\":\"" =
      text "," ++ text "\"" ++ text "message" ++ text "\":" ++ text "\"" := by simp [text]
  have hcomma : text "\"," = text "\"" ++ text "," := by simp [text]
  have hclose : text "]," = text "]" ++ text "," := by simp [text]
  have hbrace : text "\"\x7d" = text "\"" ++ text "\x7d" := by simp [text]
  simp only [spanLine, htrace, hspan, hparent, hname, hservice, hstart, hend, hattributes, hevents,
    hstatus, hmessage, hcomma, hclose, hbrace, object, spanMembers, member, array, quoted,
    jsonEscape_hex, List.intercalate_cons_cons, List.intercalate_singleton, List.flatten_cons,
    List.flatten_nil, List.append_nil, List.append_assoc]

end Line

/-! ## Control characters -/

section Control

variable {members : List Str}
variable (hb : b.toNat < 0x20)
include hb

theorem not_mem_utf8 (h : ∀ c ∈ cs, 0x20 ≤ c.toNat) : b ∉ utf8 cs := by
  intro hmem
  obtain ⟨c, hc, heq⟩ := mem_utf8 hmem (by omega)
  have := h c hc
  omega

theorem not_mem_text {s : String} (h : (s.toList.all fun c => 0x20 ≤ c.toNat) = true) :
    b ∉ text s :=
  not_mem_utf8 hb fun c hc => of_decide_eq_true (List.all_eq_true.mp h c hc)

/-- Control characters are copied, but for newlines and tabs. -/
theorem mem_jsonEscape : b ∈ jsonEscape s ↔ b ∈ s ∧ b ≠ 10 ∧ b ≠ 9 := by
  have hne : ∀ x : UInt8, 0x20 ≤ x.toNat → b ≠ x := by
    rintro x hx rfl
    omega
  have hbyte : ∀ x, b ∈ escapeByte x ↔ b = x ∧ b ≠ 10 ∧ b ≠ 9 := by
    intro x
    have hconst : ∀ t : String, (∀ c ∈ t.toList, 0x20 ≤ c.toNat) → b ∉ text t :=
      fun t ht => not_mem_utf8 hb ht
    unfold escapeByte
    split
    · next h => simp [hconst, h, hne 34]
    · split
      · next h => simp [hconst, h, hne 92]
      · split
        · next h => simp +contextual [hconst, h]
        · split
          · next h => simp +contextual [hconst, h]
          · next hnl htab =>
              rw [List.mem_singleton]
              refine ⟨fun h => ⟨h, h ▸ hnl, h ▸ htab⟩, fun h => h.1⟩
  rw [jsonEscape, List.mem_flatMap]
  refine ⟨fun ⟨x, hx, hmem⟩ => ?_, fun ⟨hs, hrest⟩ => ⟨b, hs, (hbyte b).mpr ⟨rfl, hrest⟩⟩⟩
  obtain ⟨rfl, hrest⟩ := (hbyte x).mp hmem
  exact ⟨hx, hrest⟩

theorem mem_quoted : b ∈ quoted s ↔ b ∈ s ∧ b ≠ 10 ∧ b ≠ 9 := by
  have hquote : b ∉ text "\"" := not_mem_text hb (by decide)
  rw [quoted, List.mem_append, List.mem_append, mem_jsonEscape hb]
  tauto

theorem mem_member (key : String) (s : Str)
    (hkey : (key.toList.all fun c => 0x20 ≤ c.toNat) = true) :
    b ∈ member key s ↔ b ∈ s := by
  have hquote : b ∉ text "\"" := not_mem_text hb (by decide)
  have hcolon : b ∉ text "\":" := not_mem_text hb (by decide)
  have hname : b ∉ text key := not_mem_text hb hkey
  simp only [member, List.mem_append, hquote, hcolon, hname, false_or]

theorem mem_commas : b ∈ (text ",").intercalate members ↔ ∃ t ∈ members, b ∈ t := by
  have hcomma : b ∉ text "," := not_mem_text hb (by decide)
  refine ⟨fun h => (mem_intercalate h).resolve_left hcomma, fun ⟨t, ht, hmem⟩ => ?_⟩
  exact (infix_intercalate ht).subset hmem

theorem mem_object : b ∈ object members ↔ ∃ t ∈ members, b ∈ t := by
  have hopen : b ∉ text "\x7b" := not_mem_text hb (by decide)
  have hclose : b ∉ text "\x7d" := not_mem_text hb (by decide)
  simp only [object, List.mem_append, mem_commas hb, hopen, hclose, false_or, or_false]

theorem mem_array : b ∈ array members ↔ ∃ t ∈ members, b ∈ t := by
  have hopen : b ∉ text "[" := not_mem_text hb (by decide)
  have hclose : b ∉ text "]" := not_mem_text hb (by decide)
  simp only [array, List.mem_append, mem_commas hb, hopen, hclose, false_or, or_false]

end Control

/-- A text has no NUL. -/
theorem IsText.no_nul (h : IsText s) : 0 ∉ s := by
  obtain ⟨cs, rfl, hcs⟩ := h
  intro hmem
  obtain ⟨c, hc, heq⟩ := mem_utf8 hmem (by decide)
  have hzero : c.toNat = 0 := heq
  rcases hcs c hc with hshown | rfl | rfl
  · omega
  · exact absurd hzero (by decide)
  · exact absurd hzero (by decide)

/-! ## One line -/

section OneLine

variable {D : Type} (fmt : DoubleFormat D) (r : SpanRecord D)

def AttributeValue.strings : AttributeValue D → List Str
  | .string s => [s]
  | .double _ => []

/-- The name, the keys and the values. -/
def SpanRecord.named : List Str :=
  r.name :: r.attributes.flatMap fun a => a.1 :: a.2.strings

/-- The other strings. -/
def SpanRecord.others : List Str := r.serviceName :: r.errorMessage :: r.events.map SpanEvent.name

/-- One line with its newline. -/
def OneLine (t : Str) : Prop := ∃ l, t = l ++ text "\n" ∧ 10 ∉ l

theorem mem_valueText (hb : b.toNat < 0x20) (value : AttributeValue D) :
    b ∈ valueText fmt value ↔ ∃ s ∈ value.strings, b ∈ s ∧ b ≠ 10 ∧ b ≠ 9 := by
  cases value with
  | string s => simp [valueText_string, mem_quoted hb, AttributeValue.strings]
  | double d =>
      have hprint : b ∉ utf8 (fmt.print d) := by
        have hshown : ("0123456789+-.einfa".toList.all fun c => 0x20 ≤ c.toNat) = true := by decide
        exact not_mem_utf8 hb fun c hc =>
          of_decide_eq_true (List.all_eq_true.mp hshown c (fmt.chars d c hc))
      simp [valueText, hprint, AttributeValue.strings]

theorem not_mem_decimal (hb : b.toNat < 0x20) (n : UInt64) : b ∉ decimal n := by
  refine not_mem_utf8 hb fun c hc => ?_
  have hdigit := Nat.isDigit_of_mem_toDigits (by decide) (by decide) hc
  simp only [Char.isDigit, Bool.and_eq_true, decide_eq_true_eq] at hdigit
  have hle : '0'.toNat ≤ c.toNat := hdigit.1
  exact le_trans (by decide) hle

theorem not_mem_hex (hb : b.toNat < 0x20) (id : HexId) : b ∉ id.1 := by
  intro hmem
  have := (hexDigits_shown b (id.2 b hmem)).1
  omega

theorem mem_attributeText (hb : b.toNat < 0x20) (a : Str × AttributeValue D) :
    b ∈ attributeText fmt a ↔ ∃ s ∈ a.1 :: a.2.strings, b ∈ s ∧ b ≠ 10 ∧ b ≠ 9 := by
  have hkey := mem_member hb "key" (quoted a.1) (by decide)
  have hvalue := mem_member hb "value" (valueText fmt a.2) (by decide)
  simp only [attributeText_eq, mem_object hb, List.mem_cons, List.not_mem_nil, or_false,
    exists_eq_or_imp, exists_eq_left, hkey, hvalue, mem_quoted hb, mem_valueText fmt hb]

theorem mem_eventText (hb : b.toNat < 0x20) (e : SpanEvent) :
    b ∈ eventText e ↔ b ∈ e.name ∧ b ≠ 10 ∧ b ≠ 9 := by
  have hname := mem_member hb "name" (quoted e.name) (by decide)
  have htime := mem_member hb "timeUnixNano" (decimal e.timestampNs) (by decide)
  simp only [eventText_eq, mem_object hb, List.mem_cons, List.not_mem_nil, or_false,
    exists_eq_or_imp, exists_eq_left, hname, htime, mem_quoted hb, not_mem_decimal hb]

/-- Control characters of the line come from the strings of the record. -/
theorem mem_spanLine (hb : b.toNat < 0x20) :
    b ∈ spanLine fmt r ↔ ∃ s ∈ r.named ++ r.others, b ∈ s ∧ b ≠ 10 ∧ b ≠ 9 := by
  have hid : ∀ id : HexId, ¬ (b ∈ id.1 ∧ b ≠ 10 ∧ b ≠ 9) := fun id h => not_mem_hex hb id h.1
  have htrue : b ∉ text (if r.isError then "true" else "false") := by
    split <;> exact not_mem_text hb (by decide)
  have hattributes : b ∈ array (r.attributes.map (attributeText fmt)) ↔
      ∃ a ∈ r.attributes, ∃ s ∈ a.1 :: a.2.strings, b ∈ s ∧ b ≠ 10 ∧ b ≠ 9 := by
    rw [mem_array hb]
    simp only [List.mem_map, exists_exists_and_eq_and, mem_attributeText fmt hb]
  have hevents : b ∈ array (r.events.map eventText) ↔
      ∃ e ∈ r.events, b ∈ e.name ∧ b ≠ 10 ∧ b ≠ 9 := by
    rw [mem_array hb]
    simp only [List.mem_map, exists_exists_and_eq_and, mem_eventText hb]
  have hstatus : b ∈ object
      [member "error" (text (if r.isError then "true" else "false")),
        member "message" (quoted r.errorMessage)] ↔ b ∈ r.errorMessage ∧ b ≠ 10 ∧ b ≠ 9 := by
    simp (disch := decide) only [mem_object hb, List.mem_cons, List.not_mem_nil, or_false,
      exists_eq_or_imp, exists_eq_left, mem_member hb, htrue, mem_quoted hb, false_or]
  rw [spanLine_eq, mem_object hb]
  simp (disch := decide) only [spanMembers, List.mem_cons, List.not_mem_nil, or_false,
    exists_eq_or_imp, exists_eq_left, mem_member hb, mem_quoted hb, hid, not_mem_decimal hb,
    hattributes, hevents, hstatus, false_or, SpanRecord.named, SpanRecord.others, List.mem_append,
    List.mem_flatMap, List.mem_map]
  refine ⟨fun h => ?_, fun h => ?_⟩
  · rcases h with h | h | ⟨a, ha, h | ⟨s, hs, h⟩⟩ | ⟨e, he, h⟩ | h
    · exact ⟨_, .inl (.inl rfl), h⟩
    · exact ⟨_, .inr (.inl rfl), h⟩
    · exact ⟨_, .inl (.inr ⟨a, ha, .inl rfl⟩), h⟩
    · exact ⟨s, .inl (.inr ⟨a, ha, .inr hs⟩), h⟩
    · exact ⟨_, .inr (.inr (.inr ⟨e, he, rfl⟩)), h⟩
    · exact ⟨_, .inr (.inr (.inl rfl)), h⟩
  · obtain ⟨s, hs, hmem⟩ := h
    rcases hs with (rfl | ⟨a, ha, rfl | hs⟩) | rfl | rfl | ⟨e, he, rfl⟩
    · exact .inl hmem
    · exact .inr (.inr (.inl ⟨a, ha, .inl hmem⟩))
    · exact .inr (.inr (.inl ⟨a, ha, .inr ⟨s, hs, hmem⟩⟩))
    · exact .inr (.inl hmem)
    · exact .inr (.inr (.inr (.inr hmem)))
    · exact .inr (.inr (.inr (.inl ⟨e, he, hmem⟩)))

theorem newline_not_mem_spanLine : 10 ∉ spanLine fmt r := fun h => by
  obtain ⟨s, -, -, hne, -⟩ := (mem_spanLine fmt r (by decide)).mp h
  exact hne rfl

theorem zero_mem_spanLine : 0 ∈ spanLine fmt r ↔ ∃ s ∈ r.named ++ r.others, 0 ∈ s := by
  rw [mem_spanLine fmt r (by decide)]
  simp

/-- Without a NUL the whole line is written. -/
theorem written_eq (h : 0 ∉ spanLine fmt r) : written fmt r = spanLine fmt r ++ text "\n" := by
  have hnl : text "\n" = [10] := by decide
  refine List.takeWhile_eq_self_iff.mpr fun x hx => ?_
  rw [hnl, List.mem_append, List.mem_singleton] at hx
  rcases hx with hx | rfl
  · exact decide_eq_true fun hzero => h (hzero ▸ hx)
  · decide

/-- A NUL cuts off the newline. -/
theorem oneLine_written_iff : OneLine (written fmt r) ↔ 0 ∉ spanLine fmt r := by
  have hnl : text "\n" = [10] := by decide
  refine ⟨fun ⟨l, hl, _⟩ hzero => ?_,
    fun h => ⟨_, written_eq fmt r h, newline_not_mem_spanLine fmt r⟩⟩
  have hcut : written fmt r = cstr (spanLine fmt r) := by
    rw [written, cstr, List.takeWhile_append, if_neg, cstr]
    intro hlen
    have hall : cstr (spanLine fmt r) = spanLine fmt r :=
      (List.takeWhile_prefix _).eq_of_length hlen
    exact absurd (List.mem_takeWhile_imp (hall.symm ▸ hzero)) (by decide)
  -- the newline would be in the line
  have hpre : cstr (spanLine fmt r) <+: spanLine fmt r := List.takeWhile_prefix _
  refine newline_not_mem_spanLine fmt r (hpre.subset ?_)
  rw [← hcut, hl, hnl]
  exact List.mem_append_right _ List.mem_cons_self

end OneLine

/-! ## What the line has in it -/

section Record

variable {D : Type} (fmt : DoubleFormat D) (r : SpanRecord D)

theorem infix_member (key : String) (t : Str) : t <:+: member key t :=
  (List.suffix_append _ t).isInfix

theorem infix_object {members : List Str} {t : Str} (h : t ∈ members) : t <:+: object members := by
  have hin : t <:+: (text ",").intercalate members := infix_intercalate h
  obtain ⟨pre, post, heq⟩ := hin
  refine ⟨text "\x7b" ++ pre, post ++ text "\x7d", ?_⟩
  rw [object, ← heq]
  simp only [List.append_assoc]

theorem infix_array {elements : List Str} {t : Str} (h : t ∈ elements) : t <:+: array elements := by
  have hin : t <:+: (text ",").intercalate elements := infix_intercalate h
  obtain ⟨pre, post, heq⟩ := hin
  refine ⟨text "[" ++ pre, post ++ text "]", ?_⟩
  rw [array, ← heq]
  simp only [List.append_assoc]

/-- The name, the keys and the values are literals of the line. -/
theorem infix_spanLine {s : Str} (h : s ∈ r.named) : quoted s <:+: spanLine fmt r := by
  rw [spanLine_eq]
  rcases List.mem_cons.mp h with rfl | h
  · refine (infix_member "name" _).trans (infix_object ?_)
    simp [spanMembers]
  · obtain ⟨a, ha, hs⟩ := List.mem_flatMap.mp h
    have hattribute : attributeText fmt a <:+: object (spanMembers fmt r) := by
      refine (infix_array (List.mem_map_of_mem ha)).trans
        ((infix_member "attributes" _).trans (infix_object ?_))
      simp [spanMembers]
    refine List.IsInfix.trans ?_ hattribute
    rw [attributeText_eq]
    rcases List.mem_cons.mp hs with rfl | hs
    · exact (infix_member "key" _).trans (infix_object List.mem_cons_self)
    · obtain ⟨key, value⟩ := a
      cases value with
      | string v =>
          obtain rfl := List.mem_singleton.mp hs
          exact (infix_member "value" _).trans
            (infix_object (List.mem_cons_of_mem _ List.mem_cons_self))
      | double d => exact absurd hs List.not_mem_nil

end Record

end CrossMachine.Observability
