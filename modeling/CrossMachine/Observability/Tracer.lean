import CrossMachine.Lib.Json
import CrossMachine.Lib.Utf8

/-!
# Exported spans

`json_escape` and `export_span` of `tracer.cpp`. A finished span is written as one line of JSON.
Strings are bytes. The line is given to `fputs` as a C string, so it ends at the first NUL.

Identifiers are made by `random_hex`, so they only have hexadecimal digits. How a stream prints a
`double` is a parameter.
-/

namespace CrossMachine.Observability

open Lib

abbrev Str := List UInt8

/-- The bytes of a string constant. -/
def text (s : String) : Str := utf8 s.toList

/-! ## Identifiers -/

def hexDigits : Str := text "0123456789abcdef"

theorem hexDigits_eq :
    hexDigits = [48, 49, 50, 51, 52, 53, 54, 55, 56, 57, 97, 98, 99, 100, 101, 102] := by
  simp [hexDigits, text, String.utf8EncodeChar]

/-- `random_hex`, with the bytes that it draws. -/
def randomHex (bytes : List UInt8) : Str :=
  bytes.flatMap fun b => [hexDigits.getD (b.toNat / 16) 0, hexDigits.getD (b.toNat % 16) 0]

/-- What `random_hex` makes, or nothing for the parent of a root. -/
def HexId : Type := {s : Str // ∀ b ∈ s, b ∈ hexDigits}

theorem randomHex_hex (bytes : List UInt8) : ∀ b ∈ randomHex bytes, b ∈ hexDigits := by
  have hdigit : ∀ i < 16, hexDigits.getD i 0 ∈ hexDigits := by
    rw [hexDigits_eq]
    decide
  intro b hb
  obtain ⟨x, -, hx⟩ := List.mem_flatMap.mp hb
  have hlt := x.toNat_lt
  rcases List.mem_cons.mp hx with rfl | hx
  · exact hdigit _ (by omega)
  · exact List.mem_singleton.mp hx ▸ hdigit _ (by omega)

def HexId.random (bytes : List UInt8) : HexId := ⟨randomHex bytes, randomHex_hex bytes⟩

/-! ## Records -/

/-- How `operator<<` prints a `double`. -/
structure DoubleFormat (D : Type) where
  print : D → List Char
  finite : D → Prop
  /-- Also for infinities and NaNs. -/
  chars : ∀ d, ∀ c ∈ print d, c ∈ "0123456789+-.einfa".toList
  number : ∀ d, finite d → Json.Number (print d)

inductive AttributeValue (D : Type) where
  | string (s : Str)
  | double (d : D)

structure SpanEvent where
  name : Str
  timestampNs : UInt64

structure SpanRecord (D : Type) where
  traceId : HexId
  spanId : HexId
  parentSpanId : HexId
  name : Str
  serviceName : Str
  startTimeUnixNano : UInt64
  endTimeUnixNano : UInt64
  attributes : List (Str × AttributeValue D)
  events : List SpanEvent
  isError : Bool
  errorMessage : Str

/-! ## Export -/

def escapeByte (c : UInt8) : Str :=
  if c = 34 then text "\\\""
  else if c = 92 then text "\\\\"
  else if c = 10 then text "\\n"
  else if c = 9 then text "\\t"
  else [c]

def jsonEscape (s : Str) : Str := s.flatMap escapeByte

/-- An integer in a stream. -/
def decimal (n : UInt64) : Str := utf8 (Nat.toDigits 10 n.toNat)

section Export

variable {D : Type} (fmt : DoubleFormat D)

def valueText : AttributeValue D → Str
  | .string s => text "\"" ++ jsonEscape s ++ text "\""
  | .double d => utf8 (fmt.print d)

/-- One turn of the loop over the attributes, less the comma. -/
def attributeText (a : Str × AttributeValue D) : Str :=
  List.flatten [text "\x7b\"key\":\"", jsonEscape a.1, text "\",\"value\":", valueText fmt a.2,
    text "\x7d"]

/-- One turn of the loop over the events, less the comma. -/
def eventText (e : SpanEvent) : Str :=
  List.flatten [text "\x7b\"name\":\"", jsonEscape e.name, text "\",\"timeUnixNano\":",
    decimal e.timestampNs, text "\x7d"]

/-- What is put into the stream before the final newline. -/
def spanLine (r : SpanRecord D) : Str :=
  List.flatten
    [text "\x7b",
      text "\"traceId\":\"", r.traceId.1, text "\",",
      text "\"spanId\":\"", r.spanId.1, text "\",",
      text "\"parentSpanId\":\"", r.parentSpanId.1, text "\",",
      text "\"name\":\"", jsonEscape r.name, text "\",",
      text "\"serviceName\":\"", jsonEscape r.serviceName, text "\",",
      text "\"startTimeUnixNano\":", decimal r.startTimeUnixNano, text ",",
      text "\"endTimeUnixNano\":", decimal r.endTimeUnixNano, text ",",
      text "\"attributes\":[", (text ",").intercalate (r.attributes.map (attributeText fmt)),
      text "],",
      text "\"events\":[", (text ",").intercalate (r.events.map eventText), text "],",
      text "\"status\":\x7b\"error\":", text (if r.isError then "true" else "false"),
      text ",\"message\":\"", jsonEscape r.errorMessage, text "\"\x7d",
      text "\x7d"]

/-- A C string: the bytes up to the first NUL. -/
def cstr (bytes : Str) : Str := bytes.takeWhile (· ≠ 0)

/-- What `export_span` puts at the end of the file. -/
def written (r : SpanRecord D) : Str := cstr (spanLine fmt r ++ text "\n")

/-- `export_span` on what is in the file, if it could be opened. -/
def exportSpan (file : Option Str) (r : SpanRecord D) : Option Str :=
  file.map fun contents => contents ++ written fmt r

end Export

end CrossMachine.Observability
