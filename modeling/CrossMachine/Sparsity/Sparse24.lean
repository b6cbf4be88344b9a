import CrossMachine.Lib.Loops
import Mathlib.Algebra.Order.Ring.Int
import Mathlib.Data.List.Basic

/-!
# 2:4 structured sparsity

`compress_2_4_cpu` of `sparse_24.h`. A row of a pruned matrix is cut into groups of four
elements, two of which are not zero. These two are packed into `values`, and four bits of
`metadata` say which ones they were: two bits for either.

The buffers come from `new[]`, so they have any contents at first. To write outside of a buffer
is undefined, and so is a product of two `int`s that is too large; both are `none` here. Only
`compress_2_4_cpu` is modelled, not the kernels for the device.
-/

namespace CrossMachine.Sparsity

open Lib

/-- The bits of a `__half`. -/
abbrev Half := UInt16

/-- `__half2float(x) != 0.0f`. There are two zeros. -/
def nonzero (x : Half) : Bool := x ≠ 0 ∧ x ≠ 0x8000

/-- `Sparse24Matrix`, less the numbers of rows and columns. -/
structure Sparse24Matrix where
  values : Nat → Half
  metadata : Nat → UInt8

/-- `buf[i] = x`, for a buffer of `len` elements. -/
def store {α : Type} (len : Nat) (buf : Nat → α) (i : Nat) (x : α) : Option (Nat → α) :=
  if i < len then some (Function.update buf i x) else none

/-- The variables of the loop over the elements of a group. -/
structure Packing where
  values : Nat → Half
  mask : UInt8
  written : Nat

/-- One turn of the loop over the elements of a group. -/
def packElement (nvals valIdx : Nat) (elem : Nat → Half) (i : Nat) (s : Packing) :
    Option Packing :=
  if nonzero (elem i) then do
    let values ← store nvals s.values (valIdx + s.written) (elem i)
    let written := s.written + 1
    some ⟨values, s.mask ||| UInt8.ofNat (i <<< (if written = 1 then 0 else 2)), written⟩
  else some s

section Compress

variable (rows cols : Nat) (pruned : Nat → Half)

/-- An element of the group `g` of the row `r`. -/
def elem (r g i : Nat) : Half := pruned (r * cols + (g * 4 + i))

/-- `val_idx`. -/
def valIdx (r g : Nat) : Nat := r * (cols / 2) + g * 2

/-- `meta_idx`. -/
def metaIdx (r g : Nat) : Nat := r * (cols / 8) + g / 2

/-- One turn of the loop over the groups of a row. -/
def compressGroup (r g : Nat) (out : Sparse24Matrix) : Option Sparse24Matrix := do
  let s ← forRange 4 (packElement (rows * cols / 2) (valIdx cols r g) (elem cols pruned r g))
    ⟨out.values, 0, 0⟩
  let packed :=
    -- two groups to a byte
    if g % 2 = 0 then s.mask else out.metadata (metaIdx cols r g) ||| s.mask <<< 4
  let metadata ← store (rows * cols / 8) out.metadata (metaIdx cols r g) packed
  some ⟨s.values, metadata⟩

def compress24Cpu (buffers : Sparse24Matrix) : Option Sparse24Matrix :=
  if rows * cols < 2 ^ 31 then
    forRange rows (fun r => forRange (cols / 4) (compressGroup rows cols pruned r)) buffers
  else none

end Compress

/-! ## What it is for -/

/-- The four bits of a group. -/
def nibble (cols : Nat) (metadata : Nat → UInt8) (r g : Nat) : Nat :=
  if g % 2 = 0 then (metadata (metaIdx cols r g)).toNat % 16
  else (metadata (metaIdx cols r g)).toNat / 16

/-- The element of a compressed matrix: one of the two values of its group, if it is at one of the
two positions. -/
def decompress (cols : Nat) (m : Sparse24Matrix) (r g i : Nat) : Half :=
  if i = nibble cols m.metadata r g / 4 then m.values (valIdx cols r g + 1)
  else if i = nibble cols m.metadata r g % 4 then m.values (valIdx cols r g)
  else 0

/-- Equal as numbers. -/
def Same (x y : Half) : Prop := x = y ∨ nonzero x = false ∧ nonzero y = false

/-- The positions in a group that are not zero. -/
def positions (cols : Nat) (pruned : Nat → Half) (r g : Nat) : List Nat :=
  (List.range 4).filter fun i => nonzero (elem cols pruned r g i)

/-- Whatever is in the buffers, no write is outside of them, and the matrix can be had back. -/
def RoundTrip (rows cols : Nat) (pruned : Nat → Half) : Prop :=
  ∀ buffers, ∃ out, compress24Cpu rows cols pruned buffers = some out ∧
    ∀ r < rows, ∀ g < cols / 4, ∀ i < 4,
      Same (decompress cols out r g i) (elem cols pruned r g i)

end CrossMachine.Sparsity
