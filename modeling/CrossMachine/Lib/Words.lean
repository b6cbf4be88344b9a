import Mathlib.Data.Nat.Digits.Lemmas

/-!
# Words of a fixed number of bytes

A number is written as a fixed number of bytes, the lowest first, and a sequence of numbers as
one word after another. What was written reads back, whatever follows it, and a sequence that is
read back takes exactly its words.
-/

namespace CrossMachine.Lib.Words

variable {width value count : Nat} {values : List Nat}

/-- The `width` bytes of a number, lowest first. -/
def toBytes (width value : Nat) : List UInt8 :=
  (Nat.digitsAppend 256 width value).map UInt8.ofNat

/-- The number that some bytes stand for. -/
def ofBytes (bytes : List UInt8) : Nat := Nat.ofDigits 256 (bytes.map UInt8.toNat)

theorem length_toBytes (h : value < 256 ^ width) : (toBytes width value).length = width := by
  rw [toBytes, List.length_map, Nat.length_digitsAppend (by norm_num) width h]

theorem ofBytes_toBytes (h : value < 256 ^ width) : ofBytes (toBytes width value) = value := by
  have hdigits : (toBytes width value).map UInt8.toNat = Nat.digitsAppend 256 width value := by
    rw [toBytes, List.map_map]
    refine (List.map_congr_left fun d hd => ?_).trans (List.map_id _)
    -- a digit is less than the base, and so a byte
    exact UInt8.toNat_ofNat_of_lt' (Nat.lt_of_mem_digitsAppend (by norm_num) width d hd)
  rw [ofBytes, hdigits]
  exact (Nat.setInvOn_digitsAppend_ofDigits (by norm_num) width).2 h

/-- A sequence of numbers, each as a word of `width` bytes. -/
def encode (width : Nat) (values : List Nat) : List UInt8 := values.flatMap (toBytes width)

/-- The first `count` words. -/
def decode (width : Nat) : Nat → List UInt8 → List Nat
  | 0, _ => []
  | count + 1, bytes => ofBytes (bytes.take width) :: decode width count (bytes.drop width)

theorem length_encode (h : ∀ v ∈ values, v < 256 ^ width) :
    (encode width values).length = width * values.length := by
  induction values with
  | nil => rfl
  | cons v values ih =>
      obtain ⟨hv, hrest⟩ := List.forall_mem_cons.mp h
      have hlater := ih hrest
      unfold encode at hlater ⊢
      rw [List.flatMap_cons, List.length_append, length_toBytes hv, hlater, List.length_cons,
        Nat.mul_succ, Nat.add_comm]

theorem length_decode (width count : Nat) (bytes : List UInt8) :
    (decode width count bytes).length = count := by
  induction count generalizing bytes with
  | zero => rfl
  | succ count ih => rw [decode, List.length_cons, ih]

theorem decode_encode (h : ∀ v ∈ values, v < 256 ^ width) (rest : List UInt8) :
    decode width values.length (encode width values ++ rest) = values := by
  induction values with
  | nil => rfl
  | cons v values ih =>
      obtain ⟨hv, hrest⟩ := List.forall_mem_cons.mp h
      have hsplit : encode width (v :: values) ++ rest =
          toBytes width v ++ (encode width values ++ rest) := by
        rw [encode, List.flatMap_cons, List.append_assoc, encode]
      rw [List.length_cons, decode, hsplit, List.take_left' (length_toBytes hv),
        List.drop_left' (length_toBytes hv), ofBytes_toBytes hv, ih hrest]

end CrossMachine.Lib.Words
