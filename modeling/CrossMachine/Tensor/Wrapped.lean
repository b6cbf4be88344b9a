import CrossMachine.Tensor.Views

/-!
# Allocation in 64 bits

`empty` and `byte_ptr` as the machine computes them: sizes, strides and offsets are `int64_t`,
the number of bytes is `size_t`, and every product and sum wraps. Each of them is what the exact
model computes, wrapped once at the end (`numelOf_eq`, `contiguousStrides_eq`, `offset_eq`).

An index is as far into the tensor as its position, times the size of an element. The offset is
right as long as it is below `2 ^ 63`, and from there on it is negative. So the elements are
within the allocation exactly when there are none or their bytes are at most `2 ^ 63`
(`empty_fits_iff`). Past that the number of bytes may wrap to anything, `0` included, and then
`malloc` is asked for one byte.
-/

namespace CrossMachine.Tensor.Wrapped

open Lib

/-- The `int64_t` that a value wraps to. -/
def int64 (x : Int) : Int := x.bmod (2 ^ 64)

/-- `static_cast<std::size_t>`. -/
def toSize (x : Int) : Nat := (x % 2 ^ 64).toNat

/-- `numel_of`. -/
def numelOf (shape : List Int) : Int := shape.foldl (fun n s => int64 (n * s)) 1

/-- The strides, from the last dimension to the first, and the stride that one more dimension
would have. -/
def contiguousStridesFrom (shape : List Int) (dtype : Dtype) : List Int × Int :=
  shape.foldr (fun d (s, next) => (next :: s, int64 (next * d))) ([], dtype.size)

def contiguousStrides (shape : List Int) (dtype : Dtype) : List Int :=
  (contiguousStridesFrom shape dtype).1

def bytes (shape : List Int) (dtype : Dtype) : Nat :=
  toSize (numelOf shape) * dtype.size % 2 ^ 64

/-- How many bytes `empty` asks `malloc` for. -/
def allocated (shape : List Int) (dtype : Dtype) : Nat :=
  if bytes shape dtype = 0 then 1 else bytes shape dtype

/-- `empty`; `malloc` answers with an address, or `0`. -/
def empty (malloc : Nat → Int) (shape : List Int) (dtype : Dtype) : TensorHandle :=
  if malloc (allocated shape dtype) = 0 then .null
  else
    { data := malloc (allocated shape dtype)
      shape := shape
      strides := contiguousStrides shape dtype
      dtype := dtype }

/-- The offset that `byte_ptr` adds up. -/
def offset (strides indices : List Int) : Int :=
  (List.zipWith (fun i s => int64 (i * s)) indices strides).foldl (fun o x => int64 (o + x)) 0

/-- `byte_ptr`. -/
def bytePtr (t : TensorHandle) (indices : List Int) : Option Int :=
  if List.Forall₂ (fun i d => 0 ≤ i ∧ i < d) indices t.shape then
    some (t.data + offset t.strides indices)
  else none

/-! ## The exact values, wrapped -/

theorem int64_of_bounds {x : Int} (hlo : -(2 ^ 63) ≤ x) (hhi : x < 2 ^ 63) : int64 x = x := by
  apply Int.bmod_eq_of_le <;> omega

@[simp] theorem int64_mul_left (x y : Int) : int64 (int64 x * y) = int64 (x * y) :=
  Int.bmod_mul_bmod

@[simp] theorem int64_mul_right (x y : Int) : int64 (x * int64 y) = int64 (x * y) :=
  Int.mul_bmod_bmod

@[simp] theorem int64_add_left (x y : Int) : int64 (int64 x + y) = int64 (x + y) :=
  Int.bmod_add_bmod

@[simp] theorem int64_add_right (x y : Int) : int64 (x + int64 y) = int64 (x + y) :=
  Int.add_bmod_bmod

theorem int64_size (dtype : Dtype) : int64 dtype.size = dtype.size := by
  cases dtype <;> decide

theorem numelOf_eq (shape : List Int) : numelOf shape = int64 (TensorHandle.numelOf shape) := by
  have hfold : ∀ n, shape.foldl (fun n s => int64 (n * s)) (int64 n) =
      int64 (shape.foldl (fun n s => n * s) n) := by
    induction shape with
    | nil => exact fun _ => rfl
    | cons d ds ih =>
        intro n
        rw [List.foldl_cons, List.foldl_cons, int64_mul_left, ih]
  exact hfold 1

theorem contiguousStrides_eq (shape : List Int) (dtype : Dtype) :
    contiguousStrides shape dtype = (TensorHandle.contiguousStrides shape dtype).map int64 := by
  have hfrom : contiguousStridesFrom shape dtype =
      ((TensorHandle.contiguousStridesFrom shape dtype).1.map int64,
        int64 (TensorHandle.contiguousStridesFrom shape dtype).2) := by
    induction shape with
    | nil => simp [contiguousStridesFrom, TensorHandle.contiguousStridesFrom, int64_size]
    | cons d ds ih =>
        have hstep : contiguousStridesFrom (d :: ds) dtype =
            ((contiguousStridesFrom ds dtype).2 :: (contiguousStridesFrom ds dtype).1,
              int64 ((contiguousStridesFrom ds dtype).2 * d)) := rfl
        have hexact : TensorHandle.contiguousStridesFrom (d :: ds) dtype =
            ((TensorHandle.contiguousStridesFrom ds dtype).2 ::
                (TensorHandle.contiguousStridesFrom ds dtype).1,
              (TensorHandle.contiguousStridesFrom ds dtype).2 * d) := rfl
        rw [hstep, hexact, ih]
        simp only [int64_mul_left, List.map_cons]
  rw [contiguousStrides, hfrom, TensorHandle.contiguousStrides]

theorem offset_eq (strides indices : List Int) :
    offset (strides.map int64) indices = int64 (dot indices strides) := by
  have hfold : ∀ (is ts : List Int) (o : Int),
      (List.zipWith (fun i s => int64 (i * s)) is (ts.map int64)).foldl
        (fun o x => int64 (o + x)) (int64 o) = int64 (o + dot is ts) := by
    intro is
    induction is with
    | nil => intro ts o; simp [dot]
    | cons i is ih =>
        intro ts o
        cases ts with
        | nil => simp [dot]
        | cons t ts =>
            rw [List.map_cons, List.zipWith_cons_cons, List.foldl_cons, int64_mul_right,
              int64_add_left, int64_add_right, ih, dot_cons, add_assoc]
  have h := hfold indices strides 0
  rw [zero_add] at h
  exact h

theorem bytes_eq (shape : List Int) (dtype : Dtype) :
    (bytes shape dtype : Int) = dtype.size * shape.prod % 2 ^ 64 := by
  have hcast : toSize (numelOf shape) = (shape.prod % 2 ^ 64).toNat := by
    rw [toSize, numelOf_eq, TensorHandle.numelOf_eq_prod, int64]
    exact congrArg Int.toNat Int.bmod_emod
  have hnonneg : 0 ≤ shape.prod % 2 ^ 64 := Int.emod_nonneg _ (by decide)
  have hword : ((2 ^ 64 : Nat) : Int) = 2 ^ 64 := rfl
  rw [bytes, hcast, Int.natCast_emod, Int.natCast_mul, Int.toNat_of_nonneg hnonneg, hword,
    Int.mul_emod, Int.emod_emod_of_dvd _ (dvd_refl _), ← Int.mul_emod, Int.mul_comm]

/-! ## Where the elements are -/

section

variable {malloc : Nat → Int} {shape idx : List Int} {dtype : Dtype}

theorem empty_of_valid (h : (empty malloc shape dtype).valid) :
    empty malloc shape dtype =
      ⟨malloc (allocated shape dtype), shape, contiguousStrides shape dtype, dtype⟩ := by
  rw [empty]
  split
  · next hnull =>
      rw [empty, if_pos hnull] at h
      exact absurd rfl h
  · rfl

/-- The address of an index is its position times the size of an element behind `data_`, with
the product wrapped. -/
theorem bytePtr_empty (h : (empty malloc shape dtype).valid) (hidx : InRange idx shape) :
    bytePtr (empty malloc shape dtype) idx =
      some ((empty malloc shape dtype).data + int64 (dtype.size * ravel shape idx)) := by
  have hoffset : offset (contiguousStrides shape dtype) idx =
      int64 (dtype.size * ravel shape idx) := by
    rw [contiguousStrides_eq, offset_eq, TensorHandle.contiguousStrides_eq,
      dot_rowStrides _ hidx.length_eq]
  rw [empty_of_valid h, bytePtr, ← hoffset]
  exact if_pos hidx

/-- An index whose offset wraps, if there are more than `2 ^ 63` bytes. -/
theorem exists_wrapped (hshape : ∀ d ∈ shape, 0 ≤ d) (hne : shape.prod ≠ 0)
    (hlarge : 2 ^ 63 < dtype.size * shape.prod) :
    ∃ idx, InRange idx shape ∧ dtype.size * ravel shape idx = (2 ^ 63 : Int) := by
  have hpos : ∀ d ∈ shape, 0 < d := fun d hd =>
    lt_of_le_of_ne (hshape d hd) fun h => hne (List.prod_eq_zero (h ▸ hd))
  -- the size of an element divides `2 ^ 63`
  obtain ⟨r, hr, hsize⟩ : ∃ r : Int, 0 ≤ r ∧ dtype.size * r = (2 ^ 63 : Int) := by
    cases dtype
    case float64 | int64 => exact ⟨2 ^ 60, by decide, by decide⟩
    case float32 | int32 => exact ⟨2 ^ 61, by decide, by decide⟩
    case float16 | bfloat16 => exact ⟨2 ^ 62, by decide, by decide⟩
    case int8 | uint8 => exact ⟨2 ^ 63, by decide, by decide⟩
  have hlt : r < shape.prod := by
    rw [← hsize] at hlarge
    exact lt_of_mul_lt_mul_left hlarge dtype.size_pos.le
  refine ⟨unravel shape r, inRange_unravel hpos hr hlt, ?_⟩
  rw [ravel_unravel, hsize]
  rintro rfl
  rw [List.prod_nil] at hlt
  omega

/-- **When an allocation holds its tensor.** Every element of a tensor that `empty` has made is
within the bytes that were asked for exactly when there is no element or there are at most
`2 ^ 63` bytes of them. -/
theorem empty_fits_iff (hshape : ∀ d ∈ shape, 0 ≤ d) (hvalid : (empty malloc shape dtype).valid) :
    (∀ idx, InRange idx shape → ∃ p, bytePtr (empty malloc shape dtype) idx = some p ∧
      (empty malloc shape dtype).data ≤ p ∧
      p + dtype.size ≤ (empty malloc shape dtype).data + allocated shape dtype) ↔
    shape.prod = 0 ∨ dtype.size * shape.prod ≤ (2 ^ 63 : Int) := by
  have hsize := dtype.size_pos
  constructor
  · intro h
    by_contra hnot
    rw [not_or, not_le] at hnot
    obtain ⟨idx, hidx, hpos⟩ := exists_wrapped hshape hnot.1 hnot.2
    obtain ⟨p, hp, hle, -⟩ := h idx hidx
    rw [bytePtr_empty hvalid hidx, hpos] at hp
    have hwrap : int64 (2 ^ 63) = -2 ^ 63 := by decide
    rw [hwrap] at hp
    have := Option.some.inj hp
    omega
  · intro h idx hidx
    have hprod := hidx.prod_pos
    obtain ⟨hlo, hhi⟩ := ravel_bounds hidx
    have hfit : dtype.size * shape.prod ≤ (2 ^ 63 : Int) := h.resolve_left hprod.ne'
    have hend : dtype.size * ravel shape idx + dtype.size ≤ dtype.size * shape.prod := by
      nlinarith
    have hstart : 0 ≤ dtype.size * ravel shape idx := Int.mul_nonneg hsize.le hlo
    have hbytes := bytes_eq shape dtype
    rw [Int.emod_eq_of_lt (Int.mul_nonneg hsize.le hprod.le) (by omega)] at hbytes
    have hbytes_pos : 0 < dtype.size * shape.prod := Int.mul_pos hsize hprod
    have hall : allocated shape dtype = bytes shape dtype := if_neg (by omega)
    refine ⟨_, bytePtr_empty hvalid hidx, ?_, ?_⟩
    · rw [int64_of_bounds (by omega) (by omega)]
      omega
    · rw [int64_of_bounds (by omega) (by omega), hall, hbytes]
      omega

end

theorem empty_fits_floats :
    (empty (fun _ => 4096) [2, 3] .float32).valid ∧
      ∀ idx, InRange idx [2, 3] →
        ∃ p, bytePtr (empty (fun _ => 4096) [2, 3] .float32) idx = some p ∧
          4096 ≤ p ∧ p + 4 ≤ 4096 + allocated [2, 3] .float32 := by
  have hvalid : (empty (fun _ => 4096) [2, 3] .float32).valid := by decide
  exact ⟨hvalid, (empty_fits_iff (by decide) hvalid).mpr (.inr (by decide))⟩

/-- `2 ^ 64` bytes wrap to none, so one is allocated, and the second element is behind it. -/
theorem empty_too_small :
    (empty (fun _ => 4096) [2 ^ 32, 2 ^ 32] .uint8).valid ∧
      ¬ ∀ idx, InRange idx [2 ^ 32, 2 ^ 32] →
        ∃ p, bytePtr (empty (fun _ => 4096) [2 ^ 32, 2 ^ 32] .uint8) idx = some p ∧
          4096 ≤ p ∧ p + 1 ≤ 4096 + allocated [2 ^ 32, 2 ^ 32] .uint8 := by
  refine ⟨by decide, fun h => ?_⟩
  obtain ⟨p, hp, -, hle⟩ := h [0, 1] (.cons (by decide) (.cons (by decide) .nil))
  have haddr : bytePtr (empty (fun _ => 4096) [2 ^ 32, 2 ^ 32] .uint8) [0, 1] =
      some (4096 + 1) := by decide
  have hbytes : allocated [2 ^ 32, 2 ^ 32] .uint8 = 1 := by decide
  obtain rfl := Option.some.inj (haddr.symm.trans hp)
  rw [hbytes] at hle
  omega

end CrossMachine.Tensor.Wrapped
