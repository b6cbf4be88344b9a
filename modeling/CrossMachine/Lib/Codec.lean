import Mathlib.Data.List.Basic

/-!
# Encodings of a fixed width

How the elements of a type lie in memory: each in the same number of units, one after the other.
-/

namespace CrossMachine.Lib

variable {α γ : Type*}

/-- The memory of an element: `width` units, from which it can be had back. -/
structure Codec (α γ : Type*) where
  width : Nat
  enc : α → List γ
  dec : List γ → α
  length_enc : ∀ x, (enc x).length = width
  dec_enc : ∀ x, dec (enc x) = x

/-- So many elements from their units. -/
def Codec.decode (c : Codec α γ) : Nat → List γ → List α
  | 0, _ => []
  | n + 1, raw => c.dec (raw.take c.width) :: c.decode n (raw.drop c.width)

theorem Codec.length_flatMap_enc (c : Codec α γ) (data : List α) :
    (data.flatMap c.enc).length = data.length * c.width := by
  induction data with
  | nil => rw [List.flatMap_nil, List.length_nil, List.length_nil, Nat.zero_mul]
  | cons x data ih =>
      rw [List.flatMap_cons, List.length_append, ih, c.length_enc, List.length_cons, Nat.add_mul,
        Nat.one_mul, Nat.add_comm]

theorem Codec.decode_flatMap_enc (c : Codec α γ) (data : List α) :
    c.decode data.length (data.flatMap c.enc) = data := by
  induction data with
  | nil => rfl
  | cons x data ih =>
      have hlen := c.length_enc x
      rw [List.flatMap_cons, List.length_cons, Codec.decode, ← hlen, List.take_left,
        List.drop_left, ih, c.dec_enc]

end CrossMachine.Lib
