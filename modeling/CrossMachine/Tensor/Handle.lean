import CrossMachine.Lib.Strided
import Mathlib.Data.List.Defs

/-!
# Tensor handles

`TensorHandle` of `tensor.h`: a pointer to the element at the index of zeros, and a size and
a stride in bytes for every dimension. `transpose`, `slice` and `reshape` make a new handle
on the same memory.

Addresses, sizes and strides are integers here, without a bound. A failed assertion is `none`;
the assertions are what the callers of the views have to see to, and they leave room:
`reshape` asks that the number of elements stays the same, and takes negative sizes.
-/

namespace CrossMachine.Tensor

open Lib

inductive Dtype where
  | float32
  | float64
  | float16
  | bfloat16
  | int64
  | int32
  | int8
  | uint8
  deriving DecidableEq, Repr

/-- `dtype_size`. -/
def Dtype.size : Dtype → Nat
  | .float64 => 8
  | .float32 => 4
  | .int64 => 8
  | .int32 => 4
  | .float16 => 2
  | .bfloat16 => 2
  | .int8 => 1
  | .uint8 => 1

structure TensorHandle where
  /-- The address that `data_` holds. -/
  data : Int
  shape : List Int
  strides : List Int
  dtype : Dtype
  deriving DecidableEq, Repr

namespace TensorHandle

/-- `data_` is not null. -/
def valid (t : TensorHandle) : Prop := t.data ≠ 0

def ndim (t : TensorHandle) : Nat := t.shape.length

def numelOf (shape : List Int) : Int := shape.foldl (fun n s => n * s) 1

def numel (t : TensorHandle) : Int := numelOf t.shape

/-- The strides, from the last dimension to the first, and the stride that one more dimension
would have. -/
def contiguousStridesFrom (shape : List Int) (dtype : Dtype) : List Int × Int :=
  shape.foldr (fun d (s, next) => (next :: s, next * d)) ([], dtype.size)

def contiguousStrides (shape : List Int) (dtype : Dtype) : List Int :=
  (contiguousStridesFrom shape dtype).1

/-- How many bytes `empty` allocates. -/
def allocated (shape : List Int) (dtype : Dtype) : Nat :=
  let bytes := (numelOf shape).toNat * dtype.size
  if bytes = 0 then 1 else bytes

/-- The empty handle. -/
def null : TensorHandle := ⟨0, [], [], .float32⟩

/-- `empty`, where `malloc` returns `raw`. -/
def empty (raw : Int) (shape : List Int) (dtype : Dtype) : TensorHandle :=
  if raw = 0 then null
  else
    { data := raw
      shape := shape
      strides := contiguousStrides shape dtype
      dtype := dtype }

/-- The loop of `is_contiguous`, on the dimensions that are left, innermost first. -/
def isContiguousFrom : List (Int × Int) → Int → Bool
  | [], _ => true
  | (size, stride) :: rest, expected =>
      if size = 0 then true
      else if stride ≠ expected then false
      else isContiguousFrom rest (expected * size)

def isContiguous (t : TensorHandle) : Bool :=
  if t.shape = [] then true
  else isContiguousFrom (t.shape.zip t.strides).reverse t.dtype.size

/-- `byte_ptr`. -/
def bytePtr (t : TensorHandle) (indices : List Int) : Option Int :=
  if List.Forall₂ (fun i d => 0 ≤ i ∧ i < d) indices t.shape then
    some (t.data + (List.zipWith (· * ·) indices t.strides).foldl (fun offset x => offset + x) 0)
  else none

instance (t : TensorHandle) : Decidable t.valid := inferInstanceAs (Decidable (_ ≠ _))

def transpose (t : TensorHandle) (d0 d1 : Int) : Option TensorHandle :=
  if t.valid ∧ 0 ≤ d0 ∧ d0 < t.ndim ∧ 0 ≤ d1 ∧ d1 < t.ndim then
    some { t with
      shape := swapAt t.shape d0.toNat d1.toNat
      strides := swapAt t.strides d0.toNat d1.toNat }
  else none

def slice (t : TensorHandle) (dim start stop step : Int) : Option TensorHandle :=
  if t.valid ∧ 0 ≤ dim ∧ dim < t.ndim then do
    let size ← t.shape[dim.toNat]?
    let stride ← t.strides[dim.toNat]?
    if 0 < step ∧ 0 ≤ start ∧ start ≤ stop ∧ stop ≤ size then
      some { t with
        data := t.data + start * stride
        shape := t.shape.set dim.toNat ((stop - start + step - 1).tdiv step)
        strides := t.strides.set dim.toNat (stride * step) }
    else none
  else none

def reshape (t : TensorHandle) (newShape : List Int) : Option TensorHandle :=
  if t.valid ∧ t.isContiguous ∧ numelOf newShape = t.numel then
    some { t with
      shape := newShape
      strides := contiguousStrides newShape t.dtype }
  else none

end TensorHandle

/-- A call that makes a view. -/
inductive View where
  | transpose (d0 d1 : Int)
  | slice (dim start stop step : Int)
  | reshape (newShape : List Int)
  deriving DecidableEq, Repr

def View.apply : View → TensorHandle → Option TensorHandle
  | .transpose d0 d1, t => t.transpose d0 d1
  | .slice dim start stop step, t => t.slice dim start stop step
  | .reshape newShape, t => t.reshape newShape

/-- A chain of calls. -/
def views (vs : List View) (t : TensorHandle) : Option TensorHandle :=
  vs.foldlM (fun t v => v.apply t) t

/-! ## What a view means

Each call says which element of its operand an index of its result is to reach. -/

/-- The shape of the result, given that of the operand. -/
def View.shape : View → List Int → List Int
  | .transpose d0 d1, shape => swapAt shape d0.toNat d1.toNat
  | .slice dim start stop step, shape => shape.set dim.toNat ((stop - start + step - 1) / step)
  | .reshape newShape, _ => newShape

/-- The index into the operand. -/
def View.index : View → List Int → List Int → List Int
  | .transpose d0 d1, _, idx => swapAt idx d0.toNat d1.toNat
  | .slice dim start _ step, _, idx => idx.modify dim.toNat fun i => start + i * step
  | .reshape newShape, shape, idx => unravel shape (ravel newShape idx)

/-- The index into an array of the shape `shape`, for an index of what a chain makes of it. -/
def designated : List View → List Int → List Int → List Int
  | [], _, idx => idx
  | v :: vs, shape, idx => v.index shape (designated vs (v.shape shape) idx)

end CrossMachine.Tensor
