import CrossMachine.Lib.Bytes
import CrossMachine.Lib.Table
import Mathlib.Data.List.TakeWhile
import Mathlib.Data.Nat.Digits.Lemmas

/-!
# Shards: samples as adjacent members of a tar archive

A shard is a USTAR archive. A sample is a run of members that share a key, the part of the
member's name up to the first dot behind the last slash, and the rest of the name tells the
fields of the sample apart. `tar_append` writes one member and `tar_finish` the two zero blocks
at the end; `TarReader` reads the members back one by one, and `WebDatasetShardReader` groups
them, with the first member of the next sample kept for the next call.

A file is the bytes that are still to be read, and a string is a list of bytes. The map of the
fields of a sample is its list of entries in the order in which they were first written, which
nothing here depends on.
-/

namespace CrossMachine.DataLoading

open Lib Bytes

abbrev Str := List UInt8

def kBlockSize : Nat := 512

def NUL : UInt8 := 0
def SPACE : UInt8 := 32
def DOT : UInt8 := 46
def SLASH : UInt8 := 47
def ZERO : UInt8 := 48

/-! ## Numbers -/

/-- The octal digits of a number, at least `width` of them: `%0*llo`. -/
def octalDigits (width value : Nat) : Str :=
  let digits := (Nat.digits 8 value).reverse.map fun d => UInt8.ofNat (48 + d)
  List.replicate (width - digits.length) ZERO ++ digits

/-- What `write_octal` puts into a field: `snprintf` cuts the digits off to leave room for the
NUL. -/
def writeOctal (width value : Nat) : Str :=
  (octalDigits (width - 1) value).take (width - 1) ++ [NUL]

def isOctal (b : UInt8) : Bool := 48 ≤ b.toNat ∧ b.toNat ≤ 55

/-- `parse_octal`: up to the first byte that is no octal digit. -/
def parseOctal (field : Str) (width : Nat) : Nat :=
  ((field.take width).takeWhile isOctal).foldl (fun value b => value * 8 + (b.toNat - 48)) 0

/-! ## Writing -/

/-- A C string: the bytes up to the first NUL. -/
def cstr (bytes : Str) : Str := bytes.takeWhile fun b => b ≠ NUL

/-- `compute_checksum`, where the checksum field counts as spaces. -/
def computeChecksum (header : Str) : Nat :=
  (header.zipIdx.map fun (b, i) => if 148 ≤ i ∧ i < 156 then SPACE.toNat else b.toNat).sum

def ustar : Str := [117, 115, 116, 97, 114]

/-- What `tar_append` writes into the header before the checksum. -/
def headerFields (name : Str) (size : Nat) : List (Nat × Str) :=
  [(0, (cstr name).take 99 ++ [NUL]),
    (100, writeOctal 8 0o644),
    (108, writeOctal 8 0),
    (116, writeOctal 8 0),
    (124, writeOctal 12 size),
    (136, writeOctal 12 0),
    (148, List.replicate 8 SPACE),
    (156, [ZERO]),
    (257, ustar),
    (262, [NUL]),
    (263, [ZERO]),
    (264, [ZERO])]

def header (name : Str) (size : Nat) : Str :=
  let header := writeAll (List.replicate kBlockSize NUL) (headerFields name size)
  writeAll header [(148, writeOctal 7 (computeChecksum header)), (155, [NUL])]

/-- The zeros behind data of this size. -/
def padding (size : Nat) : Nat := (kBlockSize - size % kBlockSize) % kBlockSize

def tarAppend (out : Str) (name data : Str) : Str :=
  out ++ header name data.length ++ data ++ List.replicate (padding data.length) NUL

def tarFinish (out : Str) : Str := out ++ List.replicate (2 * kBlockSize) NUL

/-! ## Reading -/

/-- `TarReader`: the file, if it could be opened. -/
abbrev TarReader := Option Str

/-- `TarReader::next` on an open file: the member and the bytes behind it. -/
def nextMember (file : Str) : Option (Str × Str) × Str :=
  let header := file.take kBlockSize
  let rest := file.drop kBlockSize
  -- `fread` got less than a block
  if _h : file.length < kBlockSize then (none, rest)
  else if header.all (· = NUL) then (none, rest)
  else if slice header 257 5 ≠ ustar then (none, rest)
  else
    let typeflag := header.getD 156 NUL
    let size := parseOctal (header.drop 124) 12
    let memberPrefix := cstr (header.drop 345)
    let name := cstr header
    let fullName := if memberPrefix = [] then name else memberPrefix ++ SLASH :: name
    let data := rest.take size
    if data.length ≠ size then (none, rest.drop size)
    else
      let rest' := (rest.drop size).drop (padding size)
      -- members that are no regular files are skipped
      if typeflag ≠ ZERO ∧ typeflag ≠ NUL then nextMember rest'
      else (some (fullName, data), rest')
termination_by file.length
decreasing_by
  simp only [kBlockSize] at _h
  simp only [List.length_drop, kBlockSize]
  omega

def TarReader.next : TarReader → Option (Str × Str) × TarReader
  | none => (none, none)
  | some file => ((nextMember file).1, some (nextMember file).2)

/-- `std::string::find_last_of` of one character. -/
def findLastOf (s : Str) (c : UInt8) : Option Nat :=
  (s.reverse.findIdx? (· = c)).map fun i => s.length - 1 - i

/-- `std::string::find` of one character from a position on. -/
def findFrom (s : Str) (c : UInt8) (start : Nat) : Option Nat :=
  ((s.drop start).findIdx? (· = c)).map (· + start)

def splitKeyExt (name : Str) : Str × Str :=
  let start := match findLastOf name SLASH with
    | none => 0
    | some slash => slash + 1
  match findFrom name DOT start with
  | none => (name, [])
  | some dot => (name.take dot, name.drop (dot + 1))

structure Sample where
  key : Str
  files : List (Str × Str)
  deriving DecidableEq, Repr

/-- `sample.files[ext] = data`. -/
def Sample.setFile (s : Sample) (ext data : Str) : Sample :=
  { s with files :=
      if (s.files.lookup ext).isSome then Table.set s.files ext data else s.files ++ [(ext, data)] }

structure ShardReader where
  reader : TarReader
  pending : Option Sample
  deriving DecidableEq, Repr

/-- A member that is read leaves a shorter file. -/
theorem nextMember_length {file rest : Str} {m : Str × Str}
    (h : nextMember file = (some m, rest)) : rest.length < file.length := by
  fun_induction nextMember file with
  | case1 | case2 | case3 | case4 => cases h
  | case5 file header rest' hlen _ _ typeflag size data _ rest'' _ ih =>
      have hih := ih h
      simp only [rest'', rest', List.length_drop] at hih
      omega
  | case6 file header rest' hlen _ _ typeflag size _ _ _ data _ rest'' _ =>
      obtain ⟨-, rfl⟩ := Prod.mk.inj h
      simp only [kBlockSize] at hlen
      simp only [rest'', rest', List.length_drop, kBlockSize]
      omega

/-- The loop of `WebDatasetShardReader::next`: `sample` is the one being put together, if there
is a key yet. -/
def readSample (file : Str) (sample : Option Sample) : Option Sample × Str × Option Sample :=
  match _h : nextMember file with
  | (none, rest) => (sample, rest, none)
  | (some (name, data), rest) =>
      let (key, ext) := splitKeyExt name
      match sample with
      | none => readSample rest (some (Sample.setFile ⟨key, []⟩ ext data))
      | some s =>
          if key ≠ s.key then (some s, rest, some (Sample.setFile ⟨key, []⟩ ext data))
          else readSample rest (some (s.setFile ext data))
termination_by file.length
decreasing_by
  · exact nextMember_length _h
  · exact nextMember_length _h

/-- `WebDatasetShardReader::next`. -/
def ShardReader.next (r : ShardReader) : Option Sample × ShardReader :=
  match r.reader with
  | none => (r.pending, ⟨none, none⟩)
  | some file =>
      let (sample, rest, pending) := readSample file r.pending
      (sample, ⟨some rest, pending⟩)

/-- What a read leaves is the end of the file. -/
theorem nextMember_suffix (file : Str) : (nextMember file).2 <:+ file := by
  fun_induction nextMember file with
  | case1 | case2 | case3 => exact List.drop_suffix _ _
  | case4 => exact (List.drop_suffix _ _).trans (List.drop_suffix _ _)
  | case5 file header rest' hlen _ _ typeflag size data _ rest'' _ ih =>
      exact ih.trans ((List.drop_suffix _ _).trans
        ((List.drop_suffix _ _).trans (List.drop_suffix _ _)))
  | case6 =>
      exact (List.drop_suffix _ _).trans ((List.drop_suffix _ _).trans (List.drop_suffix _ _))

/-- A sample that is returned has been read from the file, all of it or all but its first
field; so has the first field of the next. -/
theorem readSample_length (file : Str) (sample : Option Sample) :
    (readSample file sample).2.1.length ≤ file.length ∧
      (sample = none → (readSample file sample).1.isSome →
        (readSample file sample).2.1.length < file.length) ∧
      ((readSample file sample).2.2.isSome →
        (readSample file sample).2.1.length < file.length) := by
  fun_induction readSample file sample with
  | case1 file sample rest h =>
      have hle := (nextMember_suffix file).length_le
      rw [h] at hle
      exact ⟨hle, fun hnone hsome => by simp [hnone] at hsome, fun h => by simp at h⟩
  | case2 file name data rest h key ext hsplit ih =>
      have hlt := nextMember_length h
      exact ⟨by omega, fun _ _ => by omega, fun hpending => by have := ih.2.2 hpending; omega⟩
  | case3 file name data rest h key ext hsplit s hne =>
      have hlt := nextMember_length h
      exact ⟨Nat.le_of_lt hlt, fun _ _ => hlt, fun _ => hlt⟩
  | case4 file name data rest h key ext hsplit s heq ih =>
      have hlt := nextMember_length h
      exact ⟨by omega, fun _ _ => by omega, fun hpending => by have := ih.2.2 hpending; omega⟩

/-- What a reader has still to read. -/
def ShardReader.remaining (r : ShardReader) : Nat :=
  2 * (r.reader.getD []).length + if r.pending.isSome then 1 else 0

theorem ShardReader.next_open (file : Str) (pending : Option Sample) :
    ShardReader.next ⟨some file, pending⟩ = ((readSample file pending).1,
      ⟨some (readSample file pending).2.1, (readSample file pending).2.2⟩) := rfl

variable {r r' : ShardReader} {width value : Nat}

theorem ShardReader.remaining_next {s : Sample} (h : r.next = (some s, r')) :
    r'.remaining < r.remaining := by
  obtain ⟨reader, pending⟩ := r
  cases reader with
  | none =>
      obtain ⟨rfl, rfl⟩ := Prod.mk.inj h
      exact Nat.zero_lt_one
  | some file =>
      obtain ⟨hle, hfirst, hheld⟩ := readSample_length file pending
      rw [next_open] at h
      obtain ⟨hsome, rfl⟩ := Prod.mk.inj h
      simp only [remaining, Option.getD_some]
      cases hp : (readSample file pending).2.2 with
      | some next =>
          have hlt := hheld (by rw [hp]; rfl)
          simp only [Option.isSome_some, if_true]
          omega
      | none =>
          simp only [Option.isSome_none, Bool.false_eq_true, if_false]
          cases pending with
          | none =>
              have hlt := hfirst rfl (by rw [hsome]; rfl)
              omega
          | some s => simp only [Option.isSome_some, if_true]; omega

/-- All that a reader returns before `nullopt`. -/
def ShardReader.samples (r : ShardReader) : List Sample :=
  match _h : r.next with
  | (none, _) => []
  | (some s, r') => s :: r'.samples
termination_by r.remaining
decreasing_by exact ShardReader.remaining_next _h

theorem ShardReader.samples_none (h : r.next = (none, r')) : r.samples = [] := by
  rw [samples]
  split
  · rfl
  next hnext =>
    rw [h] at hnext
    cases hnext

theorem ShardReader.samples_some {s : Sample} (h : r.next = (some s, r')) :
    r.samples = s :: r'.samples := by
  rw [samples]
  split
  next hnext =>
    rw [h] at hnext
    cases hnext
  next hnext =>
    rw [h] at hnext
    cases hnext
    rfl

/-! ## A number reads back -/

/-- The byte of an octal digit. -/
theorem octalByte {d : Nat} (h : d < 8) :
    isOctal (UInt8.ofNat (48 + d)) = true ∧ (UInt8.ofNat (48 + d)).toNat - 48 = d := by
  have hbyte : (UInt8.ofNat (48 + d)).toNat = 48 + d := by
    rw [UInt8.toNat_ofNat']
    omega
  rw [isOctal, hbyte]
  exact ⟨decide_eq_true (by omega), by omega⟩

theorem length_octalDigits (h : value < 8 ^ width) : (octalDigits width value).length = width := by
  have hlen := (Nat.digits_length_le_iff (k := width) (by decide : 1 < 8) value).mpr h
  simp only [octalDigits, List.length_append, List.length_replicate, List.length_map,
    List.length_reverse]
  omega

theorem isOctal_octalDigits : ∀ b ∈ octalDigits width value, isOctal b := by
  intro b hb
  simp only [octalDigits, List.mem_append, List.mem_replicate, List.mem_map,
    List.mem_reverse] at hb
  rcases hb with ⟨-, rfl⟩ | ⟨d, hd, rfl⟩
  · decide
  · exact (octalByte (Nat.digits_lt_base (by decide) hd)).1

/-- Digits with the lowest first, as `parse_octal` adds them up from the other end. -/
theorem foldl_octal (digits : List Nat) (h : ∀ d ∈ digits, d < 8) :
    (digits.reverse.map fun d => UInt8.ofNat (48 + d)).foldl
      (fun value b => value * 8 + (b.toNat - 48)) 0 = Nat.ofDigits 8 digits := by
  induction digits with
  | nil => rfl
  | cons d digits ih =>
      rw [List.reverse_cons, List.map_append, List.foldl_append,
        ih fun d' hd' => h d' (List.mem_cons_of_mem _ hd'), Nat.ofDigits_cons, List.map_singleton,
        List.foldl_cons, List.foldl_nil, (octalByte (h d List.mem_cons_self)).2]
      omega

theorem foldl_zeros (n : Nat) :
    (List.replicate n ZERO).foldl (fun value b => value * 8 + (b.toNat - 48)) 0 = 0 := by
  induction n with
  | zero => rfl
  | succ n ih => rw [List.replicate_succ, List.foldl_cons]; exact ih

/-- A number that fits its field is what the field is parsed as. -/
theorem parseOctal_writeOctal {field : Str} (h : value < 8 ^ (width - 1))
    (hfield : field.take width = writeOctal width value) : parseOctal field width = value := by
  have htake : (octalDigits (width - 1) value).take (width - 1) = octalDigits (width - 1) value :=
    List.take_of_length_le (Nat.le_of_eq (length_octalDigits h))
  rw [parseOctal, hfield, writeOctal, htake, List.takeWhile_append_of_pos isOctal_octalDigits,
    List.takeWhile_cons_of_neg (by decide), List.append_nil, octalDigits, List.foldl_append,
    foldl_zeros, foldl_octal _ fun d hd => Nat.digits_lt_base (by decide) hd,
    Nat.ofDigits_digits]

/-! ## A member reads back -/

/-- A member's name fits its field and ends there. -/
def NameFits (name : Str) : Prop := name.length ≤ 99 ∧ NUL ∉ name

@[simp] theorem length_writeOctal (width value : Nat) :
    (writeOctal width value).length = width - 1 + 1 := by
  have hlen : width - 1 ≤ (octalDigits (width - 1) value).length := by
    simp only [octalDigits, List.length_append, List.length_replicate]
    omega
  rw [writeOctal, List.length_append, List.length_take, Nat.min_eq_left hlen,
    List.length_singleton]

theorem cstr_of_fits {name : Str} (h : NameFits name) : (cstr name).take 99 = name := by
  have hall : (name.takeWhile fun b => b ≠ NUL) = name :=
    List.takeWhile_eq_self_iff.mpr fun b hb => decide_eq_true fun heq => h.2 (heq ▸ hb)
  rw [cstr, hall, List.take_of_length_le h.1]

/-- The fields of a header that the reader looks at. -/
structure HeaderOf (name : Str) (size : Nat) (header : Str) : Prop where
  length : header.length = kBlockSize
  name : slice header 0 (name.length + 1) = name ++ [NUL]
  size : slice header 124 12 = writeOctal 12 size
  typeflag : slice header 156 1 = [ZERO]
  magic : slice header 257 5 = ustar
  namePrefix : slice header 345 1 = [NUL]

/-- All that is written into a header. -/
def allFields (name : Str) (size checksum : Nat) : List (Nat × Str) :=
  headerFields name size ++ [(148, writeOctal 7 checksum), (155, [NUL])]

theorem header_eq (name : Str) (size : Nat) :
    ∃ checksum, header name size =
      writeAll (List.replicate kBlockSize NUL) (allFields name size checksum) :=
  ⟨_, by rw [allFields, writeAll_append, header]⟩

/-- Every field is inside the block. -/
theorem allFields_inside (name : Str) (size checksum : Nat) :
    ∀ w ∈ allFields name size checksum,
      w.1 + w.2.length ≤ (List.replicate kBlockSize NUL).length := by
  rw [List.length_replicate]
  simp [allFields, headerFields, kBlockSize, ustar]

theorem headerOf_header {name : Str} {size : Nat} (h : NameFits name) :
    HeaderOf name size (header name size) := by
  obtain ⟨checksum, heq⟩ := header_eq name size
  have hinside := allFields_inside name size checksum
  have hlen := h.1
  rw [heq]
  refine ⟨?_, ?_, ?_, ?_, ?_, ?_⟩
  · rw [length_writeAll hinside, List.length_replicate]
  · have hname : (cstr name).take 99 ++ [NUL] = name ++ [NUL] := by rw [cstr_of_fits h]
    rw [← hname]
    refine slice_writeAll_self [] ((allFields name size checksum).drop 1) hinside ?_ ?_
    · rw [hname, List.length_append, List.length_singleton]
    · simp [allFields, headerFields]
      omega
  · refine slice_writeAll_self ((allFields name size checksum).take 4)
      ((allFields name size checksum).drop 5) hinside ?_ ?_
    · rw [length_writeOctal]
    · simp [allFields, headerFields]
  · refine slice_writeAll_self ((allFields name size checksum).take 7)
      ((allFields name size checksum).drop 8) hinside rfl ?_
    simp [allFields, headerFields]
  · refine slice_writeAll_self ((allFields name size checksum).take 8)
      ((allFields name size checksum).drop 9) hinside rfl ?_
    simp [allFields, headerFields]
  · rw [slice_writeAll_apart hinside]
    · decide
    · simp [allFields, headerFields, ustar]

/-- What `tar_append` puts behind the archive. -/
def member (name data : Str) : Str :=
  header name data.length ++ (data ++ List.replicate (padding data.length) NUL)

theorem tarAppend_eq (out name data : Str) : tarAppend out name data = out ++ member name data := by
  simp only [tarAppend, member, List.append_assoc]

section

variable {name data rest : Str} {size : Nat} {h : Str}

theorem HeaderOf.mem (hh : HeaderOf name size h) : ZERO ∈ h := by
  have hmem : ZERO ∈ slice h 156 1 := hh.typeflag ▸ List.mem_singleton.mpr rfl
  exact List.mem_of_mem_drop (List.mem_of_mem_take hmem)

theorem HeaderOf.getD (hh : HeaderOf name size h) : h.getD 156 NUL = ZERO := by
  have hget : (slice h 156 1)[0]? = h[156]? := by
    rw [slice, List.getElem?_take_of_lt (by decide), List.getElem?_drop]
  rw [List.getD_eq_getElem?_getD, ← hget, hh.typeflag]
  rfl

theorem HeaderOf.not_all (hh : HeaderOf name size h) :
    ¬ (h.all fun b => decide (b = NUL)) = true := by
  intro hall
  exact absurd (of_decide_eq_true (List.all_eq_true.mp hall ZERO hh.mem)) (by decide)

/-- A header with its data reads back, whatever follows. -/
theorem HeaderOf.nextMember (hh : HeaderOf name data.length h) (hname : NUL ∉ name)
    (hsize : data.length < 8 ^ 11) :
    nextMember (h ++ (data ++ (List.replicate (padding data.length) NUL ++ rest))) =
      (some (name, data), rest) := by
  have hlen : ¬ (h ++ (data ++ (List.replicate (padding data.length) NUL ++ rest))).length <
      kBlockSize := by
    rw [List.length_append, hh.length]
    omega
  have hparse : parseOctal (h.drop 124) 12 = data.length := parseOctal_writeOctal hsize hh.size
  have hnoprefix : cstr (h.drop 345) = [] :=
    takeWhile_of_slice List.not_mem_nil hh.namePrefix
  have hcstr : cstr h = name := takeWhile_of_slice hname hh.name
  rw [DataLoading.nextMember, dif_neg hlen]
  simp only [List.take_left' hh.length, List.drop_left' hh.length, if_neg hh.not_all, hh.magic,
    hparse, hnoprefix, hcstr, hh.getD, List.take_left, List.drop_left, ne_eq, not_true_eq_false,
    if_false, false_and, if_true]
  rw [List.drop_left' List.length_replicate]

/-- A member reads back, whatever follows it. -/
theorem nextMember_member (hname : NameFits name) (hsize : data.length < 8 ^ 11) :
    nextMember (member name data ++ rest) = (some (name, data), rest) := by
  rw [member, List.append_assoc, List.append_assoc]
  exact (headerOf_header hname).nextMember hname.2 hsize

/-- The zero blocks are the end of the archive. -/
theorem nextMember_zeros (n : Nat) :
    nextMember (List.replicate n NUL) = (none, List.replicate (n - kBlockSize) NUL) := by
  rw [nextMember]
  split
  · rw [List.drop_replicate]
  · rw [if_pos, List.drop_replicate]
    rw [List.take_replicate, List.all_eq_true]
    intro b hb
    exact decide_eq_true (List.eq_of_mem_replicate hb)

end

/-! ## A name splits where it was joined -/

/-- The name of a member. -/
def memberName (key ext : Str) : Str := key ++ DOT :: ext

/-- The part of a key behind its last slash. -/
def baseName (key : Str) : Str := (key.reverse.takeWhile fun b => b ≠ SLASH).reverse

theorem findIdx?_append_of_not_mem {s t : Str} {c : UInt8} (h : c ∉ s) :
    (s ++ c :: t).findIdx? (· = c) = some s.length := by
  rw [List.findIdx?_append, List.findIdx?_eq_none_iff.mpr fun b hb => ?_, List.findIdx?_cons]
  · simp
  · exact decide_eq_false fun heq => h (heq ▸ hb)

/-- A key is what stands up to its last slash, and its base name. -/
theorem key_split (key : Str) :
    key.drop (key.length - (baseName key).length) = baseName key ∧
      (baseName key).length ≤ key.length := by
  obtain ⟨front, hfront⟩ := List.takeWhile_prefix (l := key.reverse) fun b => decide (b ≠ SLASH)
  have hsplit : front.reverse ++ baseName key = key := by
    rw [baseName, ← List.reverse_append, hfront, List.reverse_reverse]
  have hlen := congrArg List.length hsplit
  rw [List.length_append] at hlen
  refine ⟨?_, by omega⟩
  rw [show key.length - (baseName key).length = front.reverse.length by omega]
  conv_lhs => rw [← hsplit]
  rw [List.drop_left]

/-- The search for the dot starts where the base name does. -/
theorem searchStart {key ext : Str} (hext : SLASH ∉ ext) :
    (match findLastOf (memberName key ext) SLASH with
      | none => 0
      | some slash => slash + 1) = key.length - (baseName key).length := by
  have hrev : (memberName key ext).reverse = (ext.reverse ++ [DOT]) ++ key.reverse := by
    simp [memberName]
  have hfront : (ext.reverse ++ [DOT]).findIdx? (fun b => decide (b = SLASH)) = none := by
    refine List.findIdx?_eq_none_iff.mpr fun b hb => decide_eq_false ?_
    rintro rfl
    rcases List.mem_append.mp hb with hb | hb
    · exact hext (List.mem_reverse.mp hb)
    · exact absurd (List.mem_singleton.mp hb) (by decide)
  have hlen : (memberName key ext).length = key.length + (ext.length + 1) := by
    simp [memberName]
  rw [findLastOf, hrev, List.findIdx?_append, hfront, Option.none_or, baseName,
    List.length_reverse, hlen]
  cases hidx : key.reverse.findIdx? fun b => decide (b = SLASH) with
  | none =>
      have hall : (key.reverse.takeWhile fun b => b ≠ SLASH) = key.reverse := by
        refine List.takeWhile_eq_self_iff.mpr fun b hb => ?_
        simpa using List.findIdx?_eq_none_iff.mp hidx b hb
      rw [hall, List.length_reverse, Nat.sub_self]
      rfl
  | some i =>
      obtain ⟨hi, hfind⟩ := List.findIdx?_eq_some_iff_findIdx_eq.mp hidx
      have htake : (key.reverse.takeWhile fun b => b ≠ SLASH).length = i := by
        rw [List.takeWhile_eq_take_findIdx_not, List.length_take]
        simp only [ne_eq, decide_not, Bool.not_not, hfind]
        omega
      rw [htake]
      rw [List.length_reverse] at hi
      simp only [Option.map_some, List.length_append, List.length_reverse, List.length_singleton]
      show key.length + (ext.length + 1) - 1 - (i + (ext.length + 1)) + 1 = key.length - i
      omega

/-- The name of a member splits into its key and its extension. -/
theorem splitKeyExt_memberName {key ext : Str} (hkey : DOT ∉ baseName key) (hext : SLASH ∉ ext) :
    splitKeyExt (memberName key ext) = (key, ext) := by
  obtain ⟨hsuffix, hbase⟩ := key_split key
  have hdot : findFrom (memberName key ext) DOT (key.length - (baseName key).length) =
      some key.length := by
    rw [findFrom, memberName, List.drop_append_of_le_length (Nat.sub_le _ _), hsuffix,
      findIdx?_append_of_not_mem hkey, Option.map_some]
    congr 1
    omega
  rw [splitKeyExt, searchStart hext, hdot]
  simp [memberName]

/-! ## Samples -/

/-- A shard of the samples, every field a member under the key of its sample. -/
def writeSample (out : Str) (s : Sample) : Str :=
  s.files.foldl (fun out f => tarAppend out (memberName s.key f.1) f.2) out

def writeShard (samples : List Sample) : Str := tarFinish (samples.foldl writeSample [])

/-- A field that a shard can hold under this key. -/
structure FieldOk (key : Str) (f : Str × Str) : Prop where
  ext : SLASH ∉ f.1
  name : NameFits (memberName key f.1)
  size : f.2.length < 8 ^ 11

/-- A sample that a shard can hold. -/
structure SampleOk (s : Sample) : Prop where
  nonempty : s.files ≠ []
  key : DOT ∉ baseName s.key
  distinct : (Table.keys s.files).Nodup
  fields : ∀ f ∈ s.files, FieldOk s.key f

/-- Adjacent samples are told apart by their keys. -/
def ShardOk (samples : List Sample) : Prop :=
  (∀ s ∈ samples, SampleOk s) ∧ samples.IsChain fun s s' => s.key ≠ s'.key

def encodeFiles (key : Str) (files : List (Str × Str)) : Str :=
  files.flatMap fun f => member (memberName key f.1) f.2

def encode (samples : List Sample) : Str := samples.flatMap fun s => encodeFiles s.key s.files

theorem writeSample_eq (out : Str) (s : Sample) :
    writeSample out s = out ++ encodeFiles s.key s.files := by
  obtain ⟨key, files⟩ := s
  rw [writeSample, encodeFiles]
  induction files generalizing out with
  | nil => simp
  | cons f files ih => rw [List.foldl_cons, ih, tarAppend_eq, List.flatMap_cons, List.append_assoc]

theorem writeShard_eq (samples : List Sample) :
    writeShard samples = encode samples ++ List.replicate (2 * kBlockSize) NUL := by
  have hout : ∀ out, samples.foldl writeSample out = out ++ encode samples := by
    induction samples with
    | nil => simp [encode]
    | cons s samples ih =>
        intro out
        rw [List.foldl_cons, ih, writeSample_eq, encode, encode, List.flatMap_cons,
          List.append_assoc]
  rw [writeShard, hout, tarFinish, List.nil_append]

section

variable {file rest : Str} {key : Str} {f : Str × Str} {sample : Option Sample}

theorem readSample_none (sample : Option Sample) (h : nextMember file = (none, rest)) :
    readSample file sample = (sample, rest, none) := by
  rw [readSample]
  split
  next rest' h' =>
    rw [h] at h'
    cases h'
    rfl
  next h' =>
    rw [h] at h'
    cases h'

/-- What the loop does with a member of the shard. -/
theorem readSample_member (hkey : DOT ∉ baseName key) (hf : FieldOk key f) :
    readSample (member (memberName key f.1) f.2 ++ rest) sample =
      match sample with
      | none => readSample rest (some ⟨key, [f]⟩)
      | some s =>
          if key ≠ s.key then (some s, rest, some ⟨key, [f]⟩)
          else readSample rest (some (s.setFile f.1 f.2)) := by
  have hnext : nextMember (member (memberName key f.1) f.2 ++ rest) =
      (some (memberName key f.1, f.2), rest) := nextMember_member hf.name hf.size
  rw [readSample]
  split
  next h' =>
    rw [hnext] at h'
    cases h'
  next name data rest' h' =>
    rw [hnext] at h'
    cases h'
    simp only [splitKeyExt_memberName hkey hf.ext]
    cases sample <;> rfl

/-- The members of one sample are put together. -/
theorem readSample_files (hkey : DOT ∉ baseName key) (done files : List (Str × Str))
    (hfields : ∀ f ∈ files, FieldOk key f) (hnodup : (Table.keys (done ++ files)).Nodup) :
    readSample (encodeFiles key files ++ rest) (some ⟨key, done⟩) =
      readSample rest (some ⟨key, done ++ files⟩) := by
  induction files generalizing done with
  | nil => rw [encodeFiles, List.flatMap_nil, List.nil_append, List.append_nil]
  | cons f files ih =>
      have hnew : done.lookup f.1 = none := by
        refine List.lookup_eq_none_iff.mpr fun e he => ?_
        rw [Table.keys, List.map_append] at hnodup
        have hne := (List.nodup_append.mp hnodup).2.2 e.1 (List.mem_map_of_mem he) f.1
          (List.mem_map_of_mem List.mem_cons_self)
        simpa using Ne.symm hne
      rw [encodeFiles, List.flatMap_cons, List.append_assoc,
        readSample_member hkey (hfields f List.mem_cons_self)]
      simp only [ne_eq, not_true_eq_false, if_false, Sample.setFile, hnew, Option.isSome_none,
        Bool.false_eq_true]
      have hmore := ih (done ++ [f]) (fun f' hf' => hfields f' (List.mem_cons_of_mem _ hf'))
        (by simpa using hnodup)
      rw [List.append_assoc] at hmore
      exact hmore

end

/-! ## The reader over a whole shard -/

/-- The samples that a reader has still to return: none once it is at the zeros, and else the
one whose first field it holds, or is about to read, with all that follow. -/
inductive Delivers : ShardReader → List Sample → Prop
  | done (n : Nat) : Delivers ⟨some (List.replicate n NUL), none⟩ []
  | start {samples : List Sample} : ShardOk samples → samples ≠ [] →
      Delivers ⟨some (encode samples ++ List.replicate (2 * kBlockSize) NUL), none⟩ samples
  | held {key : Str} {f : Str × Str} {files : List (Str × Str)} {samples : List Sample} :
      ShardOk (⟨key, f :: files⟩ :: samples) →
      Delivers
        ⟨some (encodeFiles key files ++ (encode samples ++ List.replicate (2 * kBlockSize) NUL)),
          some ⟨key, [f]⟩⟩
        (⟨key, f :: files⟩ :: samples)

/-- From the first field of a sample on, the loop returns the sample and stops at the next. -/
theorem readSample_rest {key : Str} {f : Str × Str} {files : List (Str × Str)}
    {samples : List Sample} (hok : ShardOk (⟨key, f :: files⟩ :: samples)) :
    ∃ rest pending,
      readSample (encodeFiles key files ++ (encode samples ++ List.replicate (2 * kBlockSize) NUL))
        (some ⟨key, [f]⟩) = (some ⟨key, f :: files⟩, rest, pending) ∧
      Delivers ⟨some rest, pending⟩ samples := by
  obtain ⟨hall, hchain⟩ := hok
  have hs := hall _ List.mem_cons_self
  have hfiles : readSample
      (encodeFiles key files ++ (encode samples ++ List.replicate (2 * kBlockSize) NUL))
      (some ⟨key, [f]⟩) =
        readSample (encode samples ++ List.replicate (2 * kBlockSize) NUL)
          (some ⟨key, f :: files⟩) :=
    readSample_files hs.key [f] files (fun f' hf' => hs.fields f' (List.mem_cons_of_mem _ hf'))
      hs.distinct
  rw [hfiles]
  cases samples with
  | nil =>
      refine ⟨_, _, readSample_none _ (nextMember_zeros (2 * kBlockSize)), ?_⟩
      exact .done _
  | cons s samples =>
      obtain ⟨key', files'⟩ := s
      have hs' := hall _ (List.mem_cons_of_mem _ List.mem_cons_self)
      cases files' with
      | nil => exact absurd rfl hs'.nonempty
      | cons f' files' =>
          have hne : key' ≠ key := fun heq => (List.isChain_cons_cons.mp hchain).1 heq.symm
          rw [encode, List.flatMap_cons, encodeFiles, List.flatMap_cons, List.append_assoc,
            List.append_assoc, readSample_member hs'.key (hs'.fields f' List.mem_cons_self)]
          simp only [ne_eq, hne, not_false_eq_true, if_true]
          refine ⟨_, _, rfl, .held ⟨fun s hs => hall s (List.mem_cons_of_mem _ hs), ?_⟩⟩
          exact (List.isChain_cons_cons.mp hchain).2

/-- One call returns the next sample, and nothing when none is left. -/
theorem Delivers.next {samples : List Sample} (h : Delivers r samples) :
    r.next.1 = samples.head? ∧ Delivers r.next.2 samples.tail := by
  cases h with
  | done n =>
      have hread := readSample_none none (nextMember_zeros n)
      simp only [ShardReader.next, hread]
      exact ⟨rfl, .done _⟩
  | held hok =>
      obtain ⟨rest, pending, hread, hnext⟩ := readSample_rest hok
      simp only [ShardReader.next, hread]
      exact ⟨rfl, hnext⟩
  | start hok hne =>
      cases samples with
      | nil => exact absurd rfl hne
      | cons s samples =>
          obtain ⟨key, files⟩ := s
          have hs := hok.1 _ List.mem_cons_self
          cases files with
          | nil => exact absurd rfl hs.nonempty
          | cons f files =>
              obtain ⟨rest, pending, hread, hnext⟩ := readSample_rest hok
              have hfirst : readSample
                  (encode (⟨key, f :: files⟩ :: samples) ++ List.replicate (2 * kBlockSize) NUL)
                  none = (some ⟨key, f :: files⟩, rest, pending) := by
                rw [encode, List.flatMap_cons, encodeFiles, List.flatMap_cons, List.append_assoc,
                  List.append_assoc, readSample_member hs.key (hs.fields f List.mem_cons_self)]
                exact hread
              simp only [ShardReader.next, hfirst]
              exact ⟨rfl, hnext⟩

/-- A reader returns what it has to return. -/
theorem Delivers.samples {samples : List Sample} (h : Delivers r samples) :
    r.samples = samples := by
  induction samples generalizing r with
  | nil => exact ShardReader.samples_none (Prod.ext h.next.1 rfl)
  | cons s samples ih => rw [ShardReader.samples_some (Prod.ext h.next.1 rfl), ih h.next.2]

/-- What `n` calls of `next` return. -/
def ShardReader.nextN : Nat → ShardReader → List (Option Sample)
  | 0, _ => []
  | n + 1, r => r.next.1 :: nextN n r.next.2

theorem Delivers.nextN {samples : List Sample} (h : Delivers r samples) (n : Nat) :
    r.nextN (samples.length + n) = samples.map some ++ List.replicate n none := by
  induction samples generalizing r with
  | nil =>
      rw [List.length_nil, Nat.zero_add, List.map_nil, List.nil_append]
      induction n generalizing r with
      | zero => rfl
      | succ n ih => rw [ShardReader.nextN, h.next.1, ih h.next.2]; rfl
  | cons s samples ih =>
      rw [List.length_cons, Nat.succ_add, ShardReader.nextN, h.next.1, ih h.next.2]
      rfl

theorem delivers_writeShard {samples : List Sample} (hok : ShardOk samples) :
    Delivers ⟨some (writeShard samples), none⟩ samples := by
  rw [writeShard_eq]
  cases samples with
  | nil => exact .done _
  | cons s samples => exact .start hok (List.cons_ne_nil _ _)

/-- A shard that was written is read back: the samples come in order with their fields and
bytes, and after them nothing, however often it is asked for. -/
theorem shard_round_trip (samples : List Sample) (hok : ShardOk samples) (n : Nat) :
    ShardReader.nextN (samples.length + n) ⟨some (writeShard samples), none⟩ =
      samples.map some ++ List.replicate n none :=
  (delivers_writeShard hok).nextN n

/-- The samples `a` with the fields `x` and `y`, of which `y` is empty, and `b` with `x`. -/
def twoSamples : List Sample :=
  [⟨[97], [([120], [1, 2]), ([121], [])]⟩, ⟨[98], [([120], [3])]⟩]

theorem shardOk_twoSamples : ShardOk twoSamples := by
  refine ⟨fun s hs => ?_, by decide⟩
  rcases List.mem_pair.mp hs with rfl | rfl
  · refine ⟨by decide, by decide, by decide, fun f hf => ?_⟩
    rcases List.mem_pair.mp hf with rfl | rfl
    · exact ⟨by decide, ⟨by decide, by decide⟩, by decide⟩
    · exact ⟨by decide, ⟨by decide, by decide⟩, by decide⟩
  · refine ⟨by decide, by decide, by decide, fun f hf => ?_⟩
    rcases List.mem_singleton.mp hf with rfl
    exact ⟨by decide, ⟨by decide, by decide⟩, by decide⟩

/-- Both come back, and then nothing. -/
theorem shard_round_trip_two :
    ShardReader.nextN 3 ⟨some (writeShard twoSamples), none⟩ = twoSamples.map some ++ [none] :=
  shard_round_trip twoSamples shardOk_twoSamples 1

end CrossMachine.DataLoading
