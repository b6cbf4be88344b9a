import Mathlib.Data.List.Basic

/-!
# UTF-8

The bytes of a list of characters. They determine the characters (`utf8_injective`). An ASCII
character is one byte, and the bytes of any other character are no ASCII ones.
-/

namespace CrossMachine.Lib

/-- The encoding of a text. -/
def utf8 (cs : List Char) : List UInt8 := cs.flatMap String.utf8EncodeChar

@[simp]
theorem utf8_nil : utf8 [] = [] := rfl

@[simp]
theorem utf8_cons (c : Char) (cs : List Char) :
    utf8 (c :: cs) = String.utf8EncodeChar c ++ utf8 cs := rfl

@[simp]
theorem utf8_append (cs ds : List Char) : utf8 (cs ++ ds) = utf8 cs ++ utf8 ds :=
  List.flatMap_append

/-- The characters of a text, if it is one. -/
def decodeUtf8 (s : List UInt8) : List Char :=
  (s.toByteArray.utf8Decode?.getD #[]).toList

theorem decodeUtf8_utf8 (cs : List Char) : decodeUtf8 (utf8 cs) = cs := by
  have hdec : (utf8 cs).toByteArray.utf8Decode? = some cs.toArray := List.utf8Decode?_utf8Encode
  rw [decodeUtf8, hdec, Option.getD_some]

theorem utf8_injective {cs ds : List Char} (h : utf8 cs = utf8 ds) : cs = ds := by
  rw [← decodeUtf8_utf8 cs, h, decodeUtf8_utf8]

/-- An ASCII character is its own byte. -/
theorem utf8EncodeChar_of_lt {c : Char} (h : c.toNat < 128) :
    String.utf8EncodeChar c = [UInt8.ofNat c.toNat] := by
  have hle : c.val.toNat ≤ 0x7f := Nat.le_of_lt_succ h
  simp only [String.utf8EncodeChar, if_pos hle]
  rfl

/-- ASCII bytes are the encoding of the characters with their codes. -/
theorem utf8_ascii {s : List UInt8} (h : ∀ b ∈ s, b.toNat < 128) :
    utf8 (s.map fun b => Char.ofNat b.toNat) = s := by
  induction s with
  | nil => rfl
  | cons b s ih =>
      obtain ⟨hb, hs⟩ := List.forall_mem_cons.mp h
      have hvalid : b.toNat.isValidChar := .inl (by omega)
      have hcode : (Char.ofNat b.toNat).toNat = b.toNat := by
        rw [Char.ofNat, dif_pos hvalid]
        rfl
      rw [List.map_cons, utf8_cons, utf8EncodeChar_of_lt (hcode.symm ▸ hb), hcode, ih hs,
        UInt8.ofNat_toNat, List.singleton_append]

theorem le_of_mem_utf8EncodeChar {c : Char} {b : UInt8} (h : 128 ≤ c.toNat)
    (hb : b ∈ String.utf8EncodeChar c) : 128 ≤ b.toNat := by
  have hv : ¬ c.val.toNat ≤ 0x7f := Nat.not_le.mpr h
  simp only [String.utf8EncodeChar, if_neg hv] at hb
  split at hb
  · simp only [List.mem_cons, List.not_mem_nil, or_false] at hb
    rcases hb with rfl | rfl <;> rw [UInt8.toNat_ofNat'] <;> omega
  · split at hb
    · simp only [List.mem_cons, List.not_mem_nil, or_false] at hb
      rcases hb with rfl | rfl | rfl <;> rw [UInt8.toNat_ofNat'] <;> omega
    · simp only [List.mem_cons, List.not_mem_nil, or_false] at hb
      rcases hb with rfl | rfl | rfl | rfl <;> rw [UInt8.toNat_ofNat'] <;> omega

/-- An ASCII byte is a character of the text. -/
theorem mem_utf8 {cs : List Char} {b : UInt8} (hb : b ∈ utf8 cs) (h : b.toNat < 128) :
    ∃ c ∈ cs, c.toNat = b.toNat := by
  obtain ⟨c, hc, hbc⟩ := List.mem_flatMap.mp hb
  refine ⟨c, hc, ?_⟩
  by_cases hascii : c.toNat < 128
  · rw [utf8EncodeChar_of_lt hascii, List.mem_singleton] at hbc
    rw [hbc, UInt8.toNat_ofNat']
    omega
  · have hle := le_of_mem_utf8EncodeChar (Nat.le_of_not_lt hascii) hbc
    omega

end CrossMachine.Lib
