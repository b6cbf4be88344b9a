import CrossMachine.Lib.Instances
import CrossMachine.Training.Matrix
import Mathlib.Algebra.Order.Floor.Ring
import Mathlib.Algebra.Order.Round

/-!
# GPTQ quantization

`gptq.cpp`, over exact arithmetic: an ordered field with a floor. A weight matrix is quantized
in groups of columns, each row of a group with a scale and a zero point of its own, and
`quantizeRtn` rounds every weight for itself. `quantize` goes through the columns of a row one
after another and pushes what rounding a column has lost onto the columns that are left, by way
of the inverse of the calibration Hessian.

The integers are the machine's: what overflows is `none`, and so is a quotient by zero, which
has no exact value. The arrays of a row are built in the order they are filled in.
-/

namespace CrossMachine.Serving

open Training (Matrix)

variable {K : Type} [Field K] [LinearOrder K]

/-! ## Integers -/

/-- A quotient that exists. -/
def exactDiv (x y : K) : Option K := if y = 0 then none else some (x / y)

/-- `std::lround`: to the nearest integer, halves away from zero. -/
def lround [FloorRing K] (x : K) : Int := if 0 ≤ x then ⌊x + 1 / 2⌋ else -⌊-x + 1 / 2⌋

/-- `static_cast<int32_t>(std::lround(x))`: the result has to fit a `long`, and the cast wraps. -/
def lroundInt32 [FloorRing K] (x : K) : Option Int :=
  if -2 ^ 63 ≤ lround x ∧ lround x < 2 ^ 63 then some ((lround x).bmod (2 ^ 32)) else none

/-- An `int` sum. -/
def addInt32 (a b : Int) : Option Int :=
  if -2 ^ 31 ≤ a + b ∧ a + b < 2 ^ 31 then some (a + b) else none

def clamp (x lo hi : Int) : Int := max lo (min x hi)

/-- `(1 << bits) - 1`. -/
def qmaxOf (bits : Nat) : Option Int := if bits ≤ 30 then some (2 ^ bits - 1) else none

/-! ## A group -/

structure QuantParams (K : Type) where
  scale : K
  zero : Int

/-- The minimum and the maximum. The values they start from, the largest and the lowest `float`,
stand above and below every weight, and are `none`. -/
def minMax (values : List K) : Option (K × K) :=
  values.foldl (fun m w => match m with
    | none => some (w, w)
    | some (lo, hi) => some (min lo w, max hi w)) none

/-- A group whose values are all equal has the scale 1. -/
def scaleOf (range : K) (qmax : Int) : Option K :=
  if range > 1 / 10 ^ 8 then exactDiv range qmax else some 1

def dequantizeScalar (q : Int) (p : QuantParams K) : K := ((q : K) - p.zero) * p.scale

section

variable [FloorRing K]

def findGroupParams (minVal maxVal : K) (bits : Nat) : Option (QuantParams K) := do
  let qmax ← qmaxOf bits
  let scale ← scaleOf (maxVal - minVal) qmax
  let zero ← lroundInt32 (-minVal / scale)
  return ⟨scale, clamp zero 0 qmax⟩

def quantizeScalar (w : K) (p : QuantParams K) (bits : Nat) : Option Int := do
  let qmax ← qmaxOf bits
  let steps ← lroundInt32 (w / p.scale)
  let q ← addInt32 steps p.zero
  return clamp q 0 qmax

/-- `find_group_params` of the minimum and maximum of a group. -/
def groupParams (values : List K) (bits : Nat) : Option (QuantParams K) := do
  let (minVal, maxVal) ← minMax values
  findGroupParams minVal maxVal bits

end

/-! ## Round to nearest -/

/-- What is stored of one row. -/
structure RowArrays (K : Type) where
  qweight : List Int
  scales : List K
  zeros : List Int

def RowArrays.empty : RowArrays K := ⟨[], [], []⟩

/-- A group begins. -/
def RowArrays.addParams (a : RowArrays K) (p : QuantParams K) : RowArrays K :=
  { a with scales := a.scales ++ [p.scale], zeros := a.zeros ++ [p.zero] }

def RowArrays.addCodes (a : RowArrays K) (codes : List Int) : RowArrays K :=
  { a with qweight := a.qweight ++ codes }

structure QuantizedWeight (K : Type) where
  qweight : List Int
  scales : List K
  zeros : List Int
  rows : Nat
  cols : Nat
  groupSize : Nat
  bits : Nat

/-- `(cols + group_size - 1) / group_size`, in `int`. -/
def numGroups (cols groupSize : Nat) : Option Nat :=
  if groupSize = 0 ∨ 2 ^ 31 ≤ cols + groupSize then none
  else some ((cols + groupSize - 1) / groupSize)

/-- The columns from `c0` to `c1` of a group. -/
def groupColumns (cols groupSize g : Nat) : List Nat :=
  let c0 := g * groupSize
  let c1 := min (c0 + groupSize) cols
  List.range' c0 (c1 - c0)

/-- The matrix whose rows these are. -/
def assemble (rows : List (RowArrays K)) (cols groupSize bits : Nat) : QuantizedWeight K where
  qweight := rows.flatMap RowArrays.qweight
  scales := rows.flatMap RowArrays.scales
  zeros := rows.flatMap RowArrays.zeros
  rows := rows.length
  cols := cols
  groupSize := groupSize
  bits := bits

def dequantize (q : QuantizedWeight K) : Option (Matrix K) := do
  let groups ← numGroups q.cols q.groupSize
  return Matrix.ofFn q.rows q.cols fun r c =>
    let slot := r * groups + c / q.groupSize
    dequantizeScalar (q.qweight.getD (r * q.cols + c) 0) ⟨q.scales.getD slot 0, q.zeros.getD slot 0⟩

section

variable [FloorRing K]

/-- A group of a row. -/
def rtnGroup (row : Nat → K) (cols groupSize bits : Nat) (a : RowArrays K) (g : Nat) :
    Option (RowArrays K) := do
  let columns := groupColumns cols groupSize g
  let p ← groupParams (columns.map row) bits
  let codes ← columns.mapM fun c => quantizeScalar (row c) p bits
  return (a.addParams p).addCodes codes

def rtnRow (row : Nat → K) (cols groupSize bits groups : Nat) : Option (RowArrays K) :=
  (List.range groups).foldlM (rtnGroup row cols groupSize bits) RowArrays.empty

def quantizeRtn (weight : Matrix K) (groupSize bits : Nat) : Option (QuantizedWeight K) := do
  let groups ← numGroups weight.cols groupSize
  let rows ← (List.range weight.height).mapM fun r =>
    rtnRow (weight.entry r) weight.cols groupSize bits groups
  return assemble rows weight.cols groupSize bits

end

/-! ## The Hessian and its inverse -/

/-- `2 * X^T X`, passing over the zeros. -/
def twiceGram (activations : Matrix K) : Matrix K :=
  Matrix.ofFn activations.cols activations.cols fun i j =>
    (List.range activations.height).foldl (fun h s =>
      if activations.entry s i = 0 then h
      else h + 2 * activations.entry s i * activations.entry s j) 0

def diagMean (h : Matrix K) (cols : Nat) : K :=
  let sum := (List.range cols).foldl (fun sum i => sum + h.entry i i) 0
  if cols > 0 then sum / cols else 0

def computeHessian (activations : Matrix K) (dampFrac : K) : Matrix K :=
  let h := twiceGram activations
  let damp := dampFrac * diagMean h activations.cols
  Matrix.ofFn activations.cols activations.cols fun i j =>
    if i = j then h.entry i j + damp else h.entry i j

/-- The row with the largest element of the column, from the diagonal down; the first of equals. -/
def findPivot (a : Matrix K) (n col : Nat) : Nat :=
  ((List.range' (col + 1) (n - (col + 1))).foldl (fun (pivot, best) r =>
    let v := |a.entry r col|
    if v > best then (r, v) else (pivot, best)) (col, |a.entry col col|)).1

def swapRows (a : Matrix K) (n i j : Nat) : Matrix K :=
  Matrix.ofFn n n fun r c => a.entry (if r = i then j else if r = j then i else r) c

/-- A pivot near zero is replaced. -/
def guardPivot (diag : K) : K :=
  if |diag| < 1 / 10 ^ 12 then (if diag ≥ 0 then 1 / 10 ^ 12 else -(1 / 10 ^ 12)) else diag

/-- What the elimination of `col` makes of `b`, when `a` is what is eliminated. -/
def eliminate (a b : Matrix K) (n col : Nat) (diag : K) : Matrix K :=
  Matrix.ofFn n n fun r j =>
    let scaled := b.entry col j / diag
    if r = col then scaled
    else
      let factor := a.entry r col
      if factor = 0 then b.entry r j else b.entry r j - factor * scaled

/-- One round of the elimination, on the matrix and what becomes its inverse. -/
def invertColumn (n : Nat) (s : Matrix K × Matrix K) (col : Nat) : Matrix K × Matrix K :=
  let pivot := findPivot s.1 n col
  let a := swapRows s.1 n col pivot
  let inv := swapRows s.2 n col pivot
  let diag := guardPivot (a.entry col col)
  (eliminate a a n col diag, eliminate a inv n col diag)

def invert (a : Matrix K) : Matrix K :=
  let n := a.height
  let inv := Matrix.ofFn n n fun i j => if i = j then 1 else 0
  ((List.range n).foldl (invertColumn n) (a, inv)).2

/-! ## GPTQ -/

/-- A row while its columns are quantized. -/
structure RowState (K : Type) where
  w : List K
  arrays : RowArrays K

/-- The parameters of group `g`, as they are read back. -/
def RowArrays.params (a : RowArrays K) (g : Nat) : QuantParams K :=
  ⟨a.scales.getD g 0, a.zeros.getD g 0⟩

section

variable [FloorRing K]

/-- `c / group_size_`. -/
def groupIndex (groupSize c : Nat) : Option Nat :=
  if groupSize = 0 then none else some (c / groupSize)

/-- At the first column of a group its parameters are found, from the weights as they are. -/
def startGroup (cols groupSize bits : Nat) (s : RowState K) (c : Nat) : Option (RowArrays K) :=
  if c % groupSize = 0 then do
    let c1 := min (c + groupSize) cols
    let p ← groupParams ((List.range' c (c1 - c)).map fun cc => s.w.getD cc 0) bits
    return s.arrays.addParams p
  else some s.arrays

def quantizeColumn (hinv : Matrix K) (cols groupSize bits : Nat) (s : RowState K) (c : Nat) :
    Option (RowState K) := do
  let g ← groupIndex groupSize c
  let arrays ← startGroup cols groupSize bits s c
  let p := arrays.params g
  let qval ← quantizeScalar (s.w.getD c 0) p bits
  let recon := dequantizeScalar qval p
  let err ← exactDiv (s.w.getD c 0 - recon) (hinv.entry c c)
  return {
    w := s.w.mapIdx fun j wj => if c < j then wj - err * hinv.entry c j else wj
    arrays := arrays.addCodes [qval] }

/-- The first `k` columns of a row. -/
def quantizeColumns (hinv : Matrix K) (row : Nat → K) (cols groupSize bits k : Nat) :
    Option (RowState K) :=
  (List.range k).foldlM (quantizeColumn hinv cols groupSize bits)
    ⟨(List.range cols).map row, RowArrays.empty⟩

def quantize (groupSize bits : Nat) (weight calibrationActivations : Matrix K) :
    Option (QuantizedWeight K) :=
  if weight.cols = calibrationActivations.cols then do
    let _groups ← numGroups weight.cols groupSize
    let hinv := invert (computeHessian calibrationActivations (1 / 100))
    let rows ← (List.range weight.height).mapM fun r =>
      (quantizeColumns hinv (weight.entry r) weight.cols groupSize bits weight.cols).map
        RowState.arrays
    return assemble rows weight.cols groupSize bits
  else none

end

end CrossMachine.Serving
