import CrossMachine.DataLoading.Shard
import Mathlib.Logic.Basic

/-!
# USTAR archives of regular files

What the format says, without regard to who reads it. A header is a block of fields: texts that
end with their field or with a NUL before it, and octal numbers with leading zeros that spaces
or NULs end. The true name of a member is its name field, behind its prefix field and a slash if
there is a prefix.

`TarReader` takes the name field for a C string. A name of a hundred bytes has no NUL behind it,
so the reader goes on into the mode field, and everything else it reads right
(`nextN_archive_iff`).
-/

namespace CrossMachine.DataLoading

open Lib Bytes

/-- What a sequence of calls of `TarReader::next` returns. -/
def TarReader.nextN : Nat → TarReader → List (Option (Str × Str))
  | 0, _ => []
  | n + 1, r => r.next.1 :: nextN n r.next.2

namespace Ustar

/-- A text in a field of `width` bytes. -/
structure Text (width : Nat) where
  chars : Str
  noNul : NUL ∉ chars
  fits : chars.length ≤ width

/-- A number in a field of `width` bytes, digits and what ends them. -/
structure Octal (width : Nat) where
  digits : Str
  stop : Str
  octal : ∀ b ∈ digits, isOctal b
  written : digits ≠ []
  stops : ∀ b ∈ stop, b = SPACE ∨ b = NUL
  fills : digits.length + stop.length = width

def Text.bytes {width : Nat} (t : Text width) : Str :=
  t.chars ++ List.replicate (width - t.chars.length) NUL

def Octal.bytes {width : Nat} (o : Octal width) : Str := o.digits ++ o.stop

def Octal.value {width : Nat} (o : Octal width) : Nat :=
  o.digits.foldl (fun value b => value * 8 + (b.toNat - 48)) 0

/-- The fields of a header. -/
structure Header where
  name : Text 100
  mode : Octal 8
  uid : Octal 8
  gid : Octal 8
  size : Octal 12
  mtime : Octal 12
  chksum : Octal 8
  typeflag : UInt8
  linkname : Text 100
  uname : Text 32
  gname : Text 32
  devmajor : Text 8
  devminor : Text 8
  namePrefix : Text 155

/-- The fields between the name and the size. -/
def Header.owner (h : Header) : Str := h.mode.bytes ++ (h.uid.bytes ++ h.gid.bytes)

/-- The fields between the size and the type. -/
def Header.times (h : Header) : Str := h.mtime.bytes ++ h.chksum.bytes

/-- The fields between the magic and the prefix, with the version in front. -/
def Header.device (h : Header) : Str :=
  [NUL, ZERO, ZERO] ++ (h.uname.bytes ++ (h.gname.bytes ++ (h.devmajor.bytes ++ h.devminor.bytes)))

/-- The block of a header. -/
def Header.bytes (h : Header) : Str :=
  h.name.bytes ++ (h.owner ++ (h.size.bytes ++ (h.times ++ ([h.typeflag] ++
    (h.linkname.bytes ++ (ustar ++ (h.device ++ (h.namePrefix.bytes ++
      List.replicate 12 NUL))))))))

/-- A regular file with its data. -/
structure Member extends Header where
  data : Str
  regular : typeflag = ZERO ∨ typeflag = NUL
  sized : size.value = data.length
  summed : chksum.value = computeChecksum toHeader.bytes

/-- The name of the member. -/
def Header.fullName (h : Header) : Str :=
  if h.namePrefix.chars = [] then h.name.chars
  else h.namePrefix.chars ++ SLASH :: h.name.chars

def Member.bytes (m : Member) : Str :=
  m.toHeader.bytes ++ (m.data ++ List.replicate (padding m.data.length) NUL)

/-- The members, two blocks of zeros and whatever fills the last record. -/
def archive (members : List Member) (rest : Str) : Str :=
  members.flatMap Member.bytes ++ (List.replicate (2 * kBlockSize) NUL ++ rest)

/-! ## Where the fields are -/

variable {width : Nat} {h : Header} {m : Member} {members : List Member} {rest : Str}

@[simp] theorem Text.length_bytes (t : Text width) : t.bytes.length = width := by
  have hfits := t.fits
  rw [Text.bytes, List.length_append, List.length_replicate]
  omega

@[simp] theorem Octal.length_bytes (o : Octal width) : o.bytes.length = width := by
  rw [Octal.bytes, List.length_append, o.fills]

@[simp] theorem Header.length_owner (h : Header) : h.owner.length = 24 := by
  simp [Header.owner]

@[simp] theorem Header.length_times (h : Header) : h.times.length = 20 := by
  simp [Header.times]

@[simp] theorem Header.length_device (h : Header) : h.device.length = 83 := by
  simp [Header.device]

theorem Header.length_bytes (h : Header) : h.bytes.length = kBlockSize := by
  simp [Header.bytes, ustar, kBlockSize]

/-- Skipping a field. -/
theorem drop_field {xs ys : Str} {len n : Nat} (hlen : xs.length = len) (hn : len ≤ n) :
    (xs ++ ys).drop n = ys.drop (n - len) := by
  rw [List.drop_append, List.drop_of_length_le (by omega), List.nil_append, hlen]

/-- The block from the size on. -/
theorem Header.drop_size (h : Header) : h.bytes.drop 124 = h.size.bytes ++ (h.times ++
    ([h.typeflag] ++ (h.linkname.bytes ++ (ustar ++ (h.device ++ (h.namePrefix.bytes ++
      List.replicate 12 NUL)))))) := by
  rw [Header.bytes, drop_field h.name.length_bytes (by decide),
    drop_field h.length_owner (by decide)]
  rfl

/-- The block from the type on. -/
theorem Header.drop_type (h : Header) : h.bytes.drop 156 = h.typeflag :: (h.linkname.bytes ++
    (ustar ++ (h.device ++ (h.namePrefix.bytes ++ List.replicate 12 NUL)))) := by
  rw [Header.bytes, drop_field h.name.length_bytes (by decide),
    drop_field h.length_owner (by decide), drop_field h.size.length_bytes (by decide),
    drop_field h.length_times (by decide)]
  rfl

theorem Header.getD_type (h : Header) : h.bytes.getD 156 NUL = h.typeflag := by
  have hget : h.bytes[156]? = (h.bytes.drop 156)[0]? := by rw [List.getElem?_drop]
  rw [List.getD_eq_getElem?_getD, hget, h.drop_type]
  rfl

theorem Header.magic (h : Header) : slice h.bytes 257 5 = ustar := by
  have hdrop : h.bytes.drop 257 = (h.bytes.drop 156).drop 101 := by rw [List.drop_drop]
  rw [slice, hdrop, h.drop_type, List.drop_succ_cons, drop_field h.linkname.length_bytes le_rfl]
  rfl

theorem Header.drop_prefix (h : Header) :
    h.bytes.drop 345 = h.namePrefix.bytes ++ List.replicate 12 NUL := by
  have hdrop : h.bytes.drop 345 = (h.bytes.drop 156).drop 189 := by rw [List.drop_drop]
  have hmagic : ustar.length = 5 := rfl
  rw [hdrop, h.drop_type, List.drop_succ_cons, drop_field h.linkname.length_bytes (by decide),
    drop_field hmagic (by decide), drop_field h.length_device (by decide)]
  rfl

/-! ## What the reader makes of them -/

theorem cstr_append {s t : Str} (hs : NUL ∉ s) : cstr (s ++ t) = s ++ cstr t :=
  List.takeWhile_append_of_pos fun _ hb => decide_eq_true fun heq => hs (heq ▸ hb)

/-- A field that is not full ends its text. -/
theorem Text.cstr_bytes (t : Text width) (hlt : t.chars.length < width) (rest : Str) :
    cstr (t.bytes ++ rest) = t.chars := by
  obtain ⟨n, hn⟩ := Nat.exists_eq_succ_of_ne_zero (Nat.sub_ne_zero_of_lt hlt)
  rw [Text.bytes, List.append_assoc, cstr_append t.noNul, hn, List.replicate_succ,
    List.cons_append, cstr, List.takeWhile_cons_of_neg (by decide), List.append_nil]

theorem Octal.parse_bytes (o : Octal width) (rest : Str) :
    parseOctal (o.bytes ++ rest) width = o.value := by
  have hstop : o.stop.takeWhile isOctal = [] := by
    cases hs : o.stop with
    | nil => rfl
    | cons b stop =>
        have hb : b = SPACE ∨ b = NUL := o.stops b (by rw [hs]; exact List.mem_cons_self)
        refine List.takeWhile_cons_of_neg ?_
        rcases hb with rfl | rfl <;> decide
  rw [parseOctal, List.take_left' o.length_bytes, Octal.bytes,
    List.takeWhile_append_of_pos o.octal, hstop, List.append_nil, Octal.value]

/-- A number starts with a digit, which ends no string. -/
theorem Octal.cstr_ne_nil (o : Octal width) (rest : Str) : cstr (o.bytes ++ rest) ≠ [] := by
  obtain ⟨d, digits, hdigits⟩ := List.exists_cons_of_ne_nil o.written
  have hd : isOctal d := o.octal d (by rw [hdigits]; exact List.mem_cons_self)
  have hne : d ≠ NUL := by
    rintro rfl
    exact absurd hd (by decide)
  rw [Octal.bytes, hdigits]
  simp [cstr, hne]

/-- The name that the reader finds. -/
def Header.readName (h : Header) : Str :=
  if h.namePrefix.chars = [] then cstr h.bytes
  else h.namePrefix.chars ++ SLASH :: cstr h.bytes

theorem Header.cstr_prefix (h : Header) : cstr (h.bytes.drop 345) = h.namePrefix.chars := by
  rw [h.drop_prefix, Text.bytes, List.append_assoc, cstr_append h.namePrefix.noNul,
    List.replicate_append_replicate]
  -- the twelve zeros behind the field end a text that fills it
  have hpos : 155 - h.namePrefix.chars.length + 12 =
      (155 - h.namePrefix.chars.length + 11) + 1 := rfl
  rw [hpos, List.replicate_succ, cstr, List.takeWhile_cons_of_neg (by decide), List.append_nil]

/-- The C string at the start of the block is the name field unless that is full. -/
theorem Header.cstr_bytes_iff (h : Header) :
    cstr h.bytes = h.name.chars ↔ h.name.chars.length < 100 := by
  constructor
  · intro heq
    by_contra hfull
    have hlen := h.name.fits
    have hbytes : h.name.bytes = h.name.chars := by
      rw [Text.bytes, Nat.sub_eq_zero_of_le (Nat.le_of_not_lt hfull), List.replicate_zero,
        List.append_nil]
    rw [Header.bytes, hbytes, cstr_append h.name.noNul, List.append_right_eq_self, Header.owner,
      List.append_assoc] at heq
    exact h.mode.cstr_ne_nil _ heq
  · exact fun hlt => h.name.cstr_bytes hlt _

theorem Header.readName_iff (h : Header) :
    h.readName = h.fullName ↔ h.name.chars.length < 100 := by
  rw [← h.cstr_bytes_iff]
  unfold Header.readName Header.fullName
  split
  · exact Iff.rfl
  · simp only [List.append_cancel_left_eq, List.cons.injEq, true_and]

theorem Header.not_all (h : Header) : ¬ (h.bytes.all fun b => decide (b = NUL)) = true := by
  intro hall
  have hmem : (117 : UInt8) ∈ slice h.bytes 257 5 := by
    rw [h.magic]
    decide
  have hin : (117 : UInt8) ∈ h.bytes := List.mem_of_mem_drop (List.mem_of_mem_take hmem)
  exact absurd (of_decide_eq_true (List.all_eq_true.mp hall _ hin)) (by decide)

/-- A member is read with its data, whatever follows, and under the name that the reader finds. -/
theorem nextMember_bytes (m : Member) (rest : Str) :
    nextMember (m.bytes ++ rest) = (some (m.readName, m.data), rest) := by
  have hsplit : m.bytes ++ rest = m.toHeader.bytes ++
      (m.data ++ (List.replicate (padding m.data.length) NUL ++ rest)) := by
    simp only [Member.bytes, List.append_assoc]
  have hlen := m.toHeader.length_bytes
  have hparse : parseOctal (m.toHeader.bytes.drop 124) 12 = m.data.length := by
    rw [m.toHeader.drop_size, Octal.parse_bytes, m.sized]
  have hregular : ¬ (m.typeflag ≠ ZERO ∧ m.typeflag ≠ NUL) := fun hne =>
    m.regular.elim hne.1 hne.2
  rw [hsplit, nextMember, dif_neg (by rw [List.length_append, hlen]; omega)]
  simp only [List.take_left' hlen, List.drop_left' hlen, if_neg m.toHeader.not_all,
    m.toHeader.magic, hparse, m.toHeader.cstr_prefix, m.toHeader.getD_type, List.take_left,
    List.drop_left, ne_eq, not_true_eq_false, if_false, if_neg hregular]
  rw [List.drop_left' List.length_replicate, Header.readName]

theorem nextMember_end (rest : Str) :
    nextMember (List.replicate (2 * kBlockSize) NUL ++ rest) =
      (none, List.replicate kBlockSize NUL ++ rest) := by
  have hsplit : List.replicate (2 * kBlockSize) NUL ++ rest =
      List.replicate kBlockSize NUL ++ (List.replicate kBlockSize NUL ++ rest) := by
    rw [← List.append_assoc, List.replicate_append_replicate]
    rfl
  have hlen : (List.replicate kBlockSize NUL).length = kBlockSize := List.length_replicate
  have hall : ((List.replicate kBlockSize NUL).all fun b => decide (b = NUL)) = true := by
    rw [List.all_eq_true]
    exact fun b hb => decide_eq_true (List.eq_of_mem_replicate hb)
  rw [hsplit, nextMember, dif_neg (by rw [List.length_append, hlen]; omega)]
  simp only [List.take_left' hlen, List.drop_left' hlen, if_pos hall]

/-- The members come in order, and then the end. -/
theorem nextN_archive (members : List Member) (rest : Str) :
    TarReader.nextN (members.length + 1) (some (archive members rest)) =
      members.map (fun m => some (m.readName, m.data)) ++ [none] := by
  induction members with
  | nil =>
      have hend : (nextMember (archive [] rest)).1 = none := by
        rw [archive, List.flatMap_nil, List.nil_append, nextMember_end]
      rw [List.length_nil, TarReader.nextN, TarReader.nextN, TarReader.next, hend]
      rfl
  | cons m members ih =>
      have hsplit : archive (m :: members) rest = m.bytes ++ archive members rest := by
        rw [archive, List.flatMap_cons, List.append_assoc, archive]
      rw [List.length_cons, TarReader.nextN, TarReader.next, hsplit, nextMember_bytes, ih]
      rfl

/-- **Reading USTAR.** The reader returns the true name and the data of every member of an
archive, and then the end, exactly when no name fills its field. -/
theorem nextN_archive_iff (members : List Member) (rest : Str) :
    TarReader.nextN (members.length + 1) (some (archive members rest)) =
        members.map (fun m => some (m.fullName, m.data)) ++ [none] ↔
      ∀ m ∈ members, m.name.chars.length < 100 := by
  rw [nextN_archive, List.append_cancel_right_eq, List.map_inj_left]
  refine forall₂_congr fun m _ => ?_
  rw [← m.toHeader.readName_iff, Option.some.injEq, Prod.mk.injEq, and_iff_left rfl]

/-- A text that is not there. -/
def noText (width : Nat) : Text width := ⟨[], List.not_mem_nil, Nat.zero_le _⟩

def zeroOctal (width : Nat) : Octal (width + 2) where
  digits := List.replicate (width + 1) ZERO
  stop := [NUL]
  octal b hb := by rw [List.eq_of_mem_replicate hb]; decide
  written := List.cons_ne_nil _ _
  stops := by simp
  fills := by rw [List.length_replicate, List.length_singleton]

/-- An empty file whose name is a hundred times the letter `a`. -/
def longName : Member where
  name := ⟨List.replicate 100 97, by decide +kernel, List.length_replicate.le⟩
  mode := zeroOctal 6
  uid := zeroOctal 6
  gid := zeroOctal 6
  size := zeroOctal 10
  mtime := zeroOctal 10
  chksum := ⟨[48, 51, 48, 54, 54, 51], [NUL, SPACE], by simp [isOctal], by decide, by simp, rfl⟩
  typeflag := ZERO
  linkname := noText 100
  uname := noText 32
  gname := noText 32
  devmajor := noText 8
  devminor := noText 8
  namePrefix := noText 155
  data := []
  regular := .inl rfl
  sized := by decide
  summed := by decide +kernel

/-- It is returned under another name. -/
theorem nextN_longName :
    TarReader.nextN 2 (some (archive [longName] [])) ≠
      [some (longName.fullName, longName.data), none] := by
  have hread : TarReader.nextN 2 (some (archive [longName] [])) =
      [some (longName.readName, longName.data), none] := nextN_archive [longName] []
  rw [hread]
  intro heq
  have hname : longName.readName = longName.fullName :=
    (Prod.mk.inj (Option.some.inj (List.cons.inj heq).1)).1
  exact absurd ((Header.readName_iff _).mp hname) (by decide)

end Ustar

end CrossMachine.DataLoading
