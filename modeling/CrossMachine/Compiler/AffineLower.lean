import CrossMachine.Compiler.Ir
import CrossMachine.Lib.Loops
import Mathlib.Algebra.BigOperators.Fin
import Mathlib.Data.Matrix.Mul

/-!
# Lowering a matrix product to loops

`lowerMatmulToAffine` turns a `runtime.matmul` of two matrices with static shapes into two
loop nests over buffers: one that writes zeros, and one that adds up the products. What the
operation means depends on two attributes, `transpose_lhs` and `transpose_rhs`, and the
function does not look at them: the nest reads `lhs[i, k]` and `rhs[k, j]`, and its third bound
is the second dimension of the left operand, whatever that is. Nor does it look at the element
type, and multiplies integers with `arith.mulf`.

So the nest computes the product if the elements are floats and nothing is transposed, and
beyond that only where there is nothing to transpose (`Harmless`).

Elements are those of any semiring, which floats are but for their rounding. A load or store
out of bounds has no result, and neither has a nest that the verifier rejects.
-/

namespace CrossMachine.Compiler.Affine

open Lib

variable {α : Type*}

/-- A `runtime.matmul`; of the bias only whether there is one. -/
structure MatmulOp where
  lhs : Ty
  rhs : Ty
  result : Ty
  bias : Bool
  transposeLhs : Bool
  transposeRhs : Bool
  deriving DecidableEq, Repr

/-- The two nests, by their bounds and the types of the buffers. -/
structure Nest where
  m : Nat
  n : Nat
  k : Nat
  lhsTy : List Nat × Elem
  rhsTy : List Nat × Elem
  resTy : List Nat × Elem
  deriving DecidableEq, Repr

/-- Nothing is said of the rank of `rhs`. -/
def lowerMatmulToAffine (op : MatmulOp) : Option Nest :=
  match op.lhs.static?, op.rhs.static?, op.result.static? with
  | some lhsTy, some rhsTy, some resTy =>
      if lhsTy.1.length ≠ 2 ∨ op.bias = true then none
      else some { m := resTy.1.getD 0 0, n := resTy.1.getD 1 0, k := lhsTy.1.getD 1 0,
                  lhsTy, rhsTy, resTy }
  | _, _, _ => none

/-! ## What the loops do -/

/-- The elements of a buffer by their indices. -/
abbrev Buffer (α : Type*) := List Nat → α

/-- There is an index for every dimension, and none is too large. -/
def inBounds : List Nat → List Nat → Bool
  | [], [] => true
  | d :: shape, i :: is => decide (i < d) && inBounds shape is
  | _, _ => false

def load (shape : List Nat) (mem : Buffer α) (is : List Nat) : Option α :=
  if inBounds shape is then some (mem is) else none

def store (shape : List Nat) (is : List Nat) (a : α) (mem : Buffer α) : Option (Buffer α) :=
  if inBounds shape is then some (Function.update mem is a) else none

def Elem.isFloat : Elem → Bool
  | .float _ => true
  | .int _ => false

/-- `arith.mulf` takes two floats of one type, and `arith.addf` two of the type of the
result. -/
def Nest.verifies (nest : Nest) : Bool :=
  Elem.isFloat nest.lhsTy.2 && decide (nest.rhsTy.2 = nest.lhsTy.2) &&
    decide (nest.resTy.2 = nest.lhsTy.2)

variable [Semiring α]

/-- The first nest. -/
def Nest.clear (nest : Nest) : Buffer α → Option (Buffer α) :=
  forRange nest.m fun i => forRange nest.n fun j => store nest.resTy.1 [i, j] 0

/-- The body of the second nest. -/
def Nest.multiplyAdd (nest : Nest) (lhs rhs : Buffer α) (i j k : Nat) (out : Buffer α) :
    Option (Buffer α) := do
  let a ← load nest.lhsTy.1 lhs [i, k]
  let b ← load nest.rhsTy.1 rhs [k, j]
  let c ← load nest.resTy.1 out [i, j]
  store nest.resTy.1 [i, j] (c + a * b) out

def Nest.accumulate (nest : Nest) (lhs rhs : Buffer α) : Buffer α → Option (Buffer α) :=
  forRange nest.m fun i => forRange nest.n fun j => forRange nest.k fun k =>
    nest.multiplyAdd lhs rhs i j k

/-- The nests on the operands and on memory that was just allocated. -/
def Nest.run (nest : Nest) (lhs rhs out : Buffer α) : Option (Buffer α) :=
  if nest.verifies then (nest.clear out).bind (nest.accumulate lhs rhs) else none

/-! ## What the operation means -/

/-- The operation multiplies an `M × K` by a `K × N` matrix, each of which may be given
transposed. -/
structure MatmulOp.Dims (op : MatmulOp) (M N K : Nat) : Prop where
  lhs : ∃ e, op.lhs.static? = some (if op.transposeLhs then [K, M] else [M, K], e)
  rhs : ∃ e, op.rhs.static? = some (if op.transposeRhs then [N, K] else [K, N], e)
  result : ∃ e, op.result.static? = some ([M, N], e)

/-- The matrix in a buffer. -/
def ofBuffer (rows cols : Nat) (mem : Buffer α) : Matrix (Fin rows) (Fin cols) α :=
  fun i j => mem [i, j]

/-- The matrix that an operand stands for. -/
def operand (transposed : Bool) (rows cols : Nat) (mem : Buffer α) :
    Matrix (Fin rows) (Fin cols) α :=
  if transposed then (ofBuffer cols rows mem).transpose else ofBuffer rows cols mem

def MatmulOp.product (op : MatmulOp) (M N K : Nat) (lhs rhs : Buffer α) :
    Matrix (Fin M) (Fin N) α :=
  operand op.transposeLhs M K lhs * operand op.transposeRhs K N rhs

variable (α) in
/-- The nest runs with every load and store in bounds, and leaves the product, for all
operands. -/
def Computes (op : MatmulOp) (nest : Nest) (M N K : Nat) : Prop :=
  ∀ lhs rhs out : Buffer α, ∃ mem, nest.run lhs rhs out = some mem ∧
    ∀ (i : Fin M) (j : Fin N), mem [i, j] = op.product M N K lhs rhs i j

/-- All elements are floats of one type. -/
def MatmulOp.Floats (op : MatmulOp) : Prop :=
  ∃ bits l r e, op.lhs.static? = some (l, .float bits) ∧ op.rhs.static? = some (r, .float bits) ∧
    op.result.static? = some (e, .float bits)

/-- Whether an operand is transposed makes no difference: the product is empty, or what is
transposed has one element, or nothing is added up in it and only `rhs` is transposed. -/
def MatmulOp.Harmless (op : MatmulOp) (M N K : Nat) : Prop :=
  M = 0 ∨ N = 0 ∨ (op.transposeLhs = true → M = 1 ∧ K = 1) ∧
    (op.transposeRhs = true → K = 0 ∨ N = 1 ∧ K = 1)

/-! ## Running the nests -/

section Run

variable {nest : Nest} {lhs rhs out mem : Buffer α} {M N i j k : Nat}

@[simp] theorem inBounds_pair {a b : Nat} : inBounds [a, b] [i, j] = true ↔ i < a ∧ j < b := by
  simp [inBounds]

/-- All loads are in bounds. -/
structure Nest.Safe (nest : Nest) : Prop where
  res : nest.resTy.1 = [nest.m, nest.n]
  lhs : ∀ i < nest.m, 0 < nest.n → ∀ k < nest.k, inBounds nest.lhsTy.1 [i, k] = true
  rhs : 0 < nest.m → ∀ j < nest.n, ∀ k < nest.k, inBounds nest.rhsTy.1 [k, j] = true

/-- What the second nest adds to an element. -/
def dot (lhs rhs : Buffer α) (n i j : Nat) : α := ∑ k ∈ Finset.range n, lhs [i, k] * rhs [k, j]

def addDot (lhs rhs : Buffer α) (n : Nat) : List Nat → α → α
  | [i, j], a => a + dot lhs rhs n i j
  | _, a => a

/-- The elements of a matrix with so many rows and columns. -/
def cells (m n : Nat) : Set (List Nat) := {x | ∃ i < m, x ∈ {x | ∃ j < n, x ∈ ({[i, j]} : Set _)}}

theorem mem_cells (hi : i < M) (hj : j < N) : [i, j] ∈ cells M N :=
  ⟨i, hi, j, hj, rfl⟩

omit [Semiring α] in
/-- A nest of two loops that changes the element of its indices changes all elements. -/
theorem nest_updateOn {f : List Nat → α → α} {body : Nat → Nat → Buffer α → Option (Buffer α)}
    (hbody : ∀ i < M, ∀ j < N, ∀ mem, body i j mem = some (updateOn {[i, j]} f mem)) :
    forRange M (fun i => forRange N (body i)) mem = some (updateOn (cells M N) f mem) := by
  refine forRange_updateOn ?_ fun i hi mem => forRange_updateOn ?_ (hbody i hi)
  · rintro i - i' hi' x ⟨j, -, rfl⟩ ⟨j', -, hx⟩
    have hii' : i = i' := by simpa using congrArg List.head? (Set.mem_singleton_iff.mp hx)
    omega
  · rintro j - j' hj' x rfl hx
    have hjj' : j = j' := by simpa using Set.mem_singleton_iff.mp hx
    omega

/-- The innermost loop adds the products of a row and a column. -/
theorem multiplyAdd_loop (hsafe : nest.Safe) (hi : i < nest.m) (hj : j < nest.n) :
    forRange nest.k (nest.multiplyAdd lhs rhs i j) mem =
      some (updateOn {[i, j]} (addDot lhs rhs nest.k) mem) := by
  have hres : inBounds nest.resTy.1 [i, j] = true := by
    rw [hsafe.res, inBounds_pair]
    exact ⟨hi, hj⟩
  have hturn : ∀ k < nest.k,
      nest.multiplyAdd lhs rhs i j k
          (Function.update mem [i, j] (mem [i, j] + dot lhs rhs k i j)) =
        some (Function.update mem [i, j] (mem [i, j] + dot lhs rhs (k + 1) i j)) := by
    intro k hk
    have hl := hsafe.lhs i hi (Nat.zero_lt_of_lt hj) k hk
    have hr := hsafe.rhs (Nat.zero_lt_of_lt hi) j hj k hk
    simp only [Nest.multiplyAdd, load, store, hl, hr, hres, if_true, Option.bind_eq_bind,
      Option.bind_some, Function.update_self, Function.update_idem, dot, Finset.sum_range_succ,
      add_assoc]
  have hloop := forRange_eq
    (f := fun k => Function.update mem [i, j] (mem [i, j] + dot lhs rhs k i j)) hturn
  have hstart : Function.update mem [i, j] (mem [i, j] + dot lhs rhs 0 i j) = mem := by
    rw [dot, Finset.range_zero, Finset.sum_empty, add_zero, Function.update_eq_self]
  rw [hstart] at hloop
  rw [hloop, updateOn_singleton]
  rfl

variable (lhs rhs out) in
/-- A nest that verifies and reads in bounds leaves the sums of the products it reads. -/
theorem run_of_safe (hverifies : nest.verifies = true) (hsafe : nest.Safe) :
    ∃ mem, nest.run lhs rhs out = some mem ∧
      ∀ i < nest.m, ∀ j < nest.n, mem [i, j] = dot lhs rhs nest.k i j := by
  have hclear : nest.clear out = some (updateOn (cells nest.m nest.n) (fun _ _ => 0) out) := by
    refine nest_updateOn fun i hi j hj mem => ?_
    rw [store, hsafe.res, if_pos (inBounds_pair.mpr ⟨hi, hj⟩), updateOn_singleton]
  have hacc : ∀ mem, nest.accumulate lhs rhs mem =
      some (updateOn (cells nest.m nest.n) (addDot lhs rhs nest.k) mem) := fun mem =>
    nest_updateOn fun i hi j hj mem => multiplyAdd_loop hsafe hi hj
  refine ⟨_, by rw [Nest.run, if_pos hverifies, hclear, Option.bind_some, hacc], ?_⟩
  intro i hi j hj
  rw [updateOn_mem (mem_cells hi hj), updateOn_mem (mem_cells hi hj), addDot, zero_add]

/-- A nest that comes to its end has read in bounds. -/
theorem inBounds_of_run (h : nest.run lhs rhs out = some mem) (hi : i < nest.m)
    (hj : j < nest.n) (hk : k < nest.k) :
    inBounds nest.lhsTy.1 [i, k] = true ∧ inBounds nest.rhsTy.1 [k, j] = true := by
  rw [Nest.run] at h
  split at h
  · obtain ⟨cleared, -, hacc⟩ := Option.bind_eq_some_iff.mp h
    obtain ⟨t₁, t₁', h₁⟩ := turn_of_forRange hacc hi
    obtain ⟨t₂, t₂', h₂⟩ := turn_of_forRange h₁ hj
    obtain ⟨t₃, t₃', h₃⟩ := turn_of_forRange h₂ hk
    simp only [Nest.multiplyAdd, Option.bind_eq_bind, Option.bind_eq_some_iff] at h₃
    obtain ⟨a, ha, b, hb, -⟩ := h₃
    constructor
    · by_contra hnot
      simp [load, hnot] at ha
    · by_contra hnot
      simp [load, hnot] at hb
  · cases h

theorem verifies_of_run (h : nest.run lhs rhs out = some mem) : nest.verifies = true := by
  by_contra hnot
  simp [Nest.run, hnot] at h

end Run

/-! ## When the nest is right -/

section Right

variable {op : MatmulOp} {nest : Nest} {M N K : Nat} {lhs rhs out : Buffer α}

/-- What the nest of an operation with these dimensions is. -/
structure Lowered (op : MatmulOp) (nest : Nest) (M N K : Nat) : Prop where
  m : nest.m = M
  n : nest.n = N
  k : nest.k = if op.transposeLhs then M else K
  lhs : nest.lhsTy.1 = if op.transposeLhs then [K, M] else [M, K]
  rhs : nest.rhsTy.1 = if op.transposeRhs then [N, K] else [K, N]
  res : nest.resTy.1 = [M, N]
  lhsTy : op.lhs.static? = some nest.lhsTy
  rhsTy : op.rhs.static? = some nest.rhsTy
  resTy : op.result.static? = some nest.resTy

theorem lowered_of_dims (h : lowerMatmulToAffine op = some nest) (hdims : op.Dims M N K) :
    Lowered op nest M N K := by
  obtain ⟨el, hl⟩ := hdims.lhs
  obtain ⟨er, hr⟩ := hdims.rhs
  obtain ⟨e, he⟩ := hdims.result
  generalize hlshape : (if op.transposeLhs then [K, M] else [M, K]) = lshape at hl
  generalize hrshape : (if op.transposeRhs then [N, K] else [K, N]) = rshape at hr
  simp only [lowerMatmulToAffine, hl, hr, he] at h
  split at h
  · cases h
  · obtain rfl := Option.some.inj h
    refine ⟨rfl, rfl, ?_, hlshape.symm, hrshape.symm, rfl, hl, hr, he⟩
    rw [← hlshape]
    cases op.transposeLhs <;> rfl

/-- Where the left operand is one element or not transposed, the third bound is right. -/
theorem Lowered.k_eq (h : Lowered op nest M N K) (hl : op.transposeLhs = true → M = 1 ∧ K = 1) :
    nest.k = K := by
  rw [h.k]
  split
  · rename_i htl
    obtain ⟨hM, hK⟩ := hl htl
    rw [hM, hK]
  · rfl

theorem Lowered.verifies_iff (h : Lowered op nest M N K) :
    nest.verifies = true ↔ op.Floats := by
  constructor
  · intro hv
    simp only [Nest.verifies, Bool.and_eq_true, decide_eq_true_eq] at hv
    obtain ⟨⟨hfloat, hr⟩, he⟩ := hv
    cases hl : nest.lhsTy.2 with
    | int bits => simp [hl, Elem.isFloat] at hfloat
    | float bits =>
        refine ⟨bits, nest.lhsTy.1, nest.rhsTy.1, nest.resTy.1, ?_, ?_, ?_⟩
        · rw [h.lhsTy, ← hl]
        · rw [h.rhsTy, ← hl, ← hr]
        · rw [h.resTy, ← hl, ← he]
  · rintro ⟨bits, l, r, e, hl, hr, he⟩
    have hl' := Option.some.inj (h.lhsTy.symm.trans hl)
    have hr' := Option.some.inj (h.rhsTy.symm.trans hr)
    have he' := Option.some.inj (h.resTy.symm.trans he)
    simp [Nest.verifies, hl', hr', he', Elem.isFloat]

/-- The product, one sum for each element. -/
theorem product_apply (i : Fin M) (j : Fin N) : op.product M N K lhs rhs i j =
    ∑ k ∈ Finset.range K, (if op.transposeLhs then lhs [k, i] else lhs [i, k]) *
      (if op.transposeRhs then rhs [j, k] else rhs [k, j]) := by
  rw [MatmulOp.product, Matrix.mul_apply, Finset.sum_range]
  refine Finset.sum_congr rfl fun k _ => ?_
  congr 1
  · cases op.transposeLhs <;> rfl
  · cases op.transposeRhs <;> rfl

/-- What the nest reads where an operand is transposed is the same. -/
theorem dot_eq_product (hlow : Lowered op nest M N K) (h : op.Harmless M N K) (i : Fin M)
    (j : Fin N) : dot lhs rhs nest.k i j = op.product M N K lhs rhs i j := by
  have hi := i.isLt
  have hj := j.isLt
  rcases h with hzero | hzero | ⟨hl, hr⟩
  · omega
  · omega
  rw [dot, product_apply, hlow.k_eq hl]
  refine Finset.sum_congr rfl fun k hk => ?_
  rw [Finset.mem_range] at hk
  congr 1
  · split
    · rename_i htl
      obtain ⟨hM, hK⟩ := hl htl
      have hik : (i : Nat) = k := by omega
      rw [hik]
    · rfl
  · split
    · rename_i htr
      rcases hr htr with hzero | ⟨hN, hK⟩
      · omega
      · have hjk : (j : Nat) = k := by omega
        rw [hjk]
    · rfl

theorem safe_of_harmless (hlow : Lowered op nest M N K) (h : op.Harmless M N K) : nest.Safe := by
  have hres : nest.resTy.1 = [nest.m, nest.n] := by rw [hlow.res, hlow.m, hlow.n]
  have hm := hlow.m
  have hn := hlow.n
  rcases h with hM | hN | ⟨hl, hr⟩
  · exact ⟨hres, fun i hi => by omega, fun hpos => by omega⟩
  · exact ⟨hres, fun i _ hpos => by omega, fun _ j hj => by omega⟩
  have hk := hlow.k_eq hl
  refine ⟨hres, fun i hi _ k hkk => ?_, fun _ j hj k hkk => ?_⟩
  · rw [hlow.lhs]
    split
    · rename_i htl
      have := hl htl
      exact inBounds_pair.mpr (by omega)
    · exact inBounds_pair.mpr (by omega)
  · rw [hlow.rhs]
    split
    · rename_i htr
      have := hr htr
      exact inBounds_pair.mpr (by omega)
    · exact inBounds_pair.mpr (by omega)

/-- A buffer with a single one. -/
def unit (is : List Nat) : Buffer α := Pi.single is 1

/-- Of two operands with a single one each the product has one where they meet. -/
theorem product_unit (hK : 0 < K) (hM : 0 < M) (hN : 0 < N) :
    op.product M N K (unit (α := α) (if op.transposeLhs then [K - 1, 0] else [0, K - 1]))
      (unit (if op.transposeRhs then [0, K - 1] else [K - 1, 0])) ⟨0, hM⟩ ⟨0, hN⟩ = 1 := by
  rw [product_apply, Finset.sum_eq_single (K - 1)]
  · cases op.transposeLhs <;> cases op.transposeRhs <;> simp [unit]
  · intro k _ hk
    cases op.transposeLhs <;> simp [unit, Pi.single_apply, hk]
  · intro hnot
    exact absurd (Finset.mem_range.mpr (by omega)) hnot

/-- The nest does not see it where an operand is transposed. -/
theorem dot_unit {n : Nat} (hK : 2 ≤ K)
    (htr : op.transposeLhs = true ∨ op.transposeRhs = true) :
    dot (unit (α := α) (if op.transposeLhs then [K - 1, 0] else [0, K - 1]))
      (unit (if op.transposeRhs then [0, K - 1] else [K - 1, 0])) n 0 0 = 0 := by
  have hne : 0 ≠ K - 1 := by omega
  refine Finset.sum_eq_zero fun k _ => ?_
  rcases htr with htl | htr
  · rw [htl]
    simp [unit, Pi.single_apply, hne]
  · rw [htr]
    simp [unit, Pi.single_apply, hne]

/-- The nest of a lowered product is right if and only if the elements are floats and nothing
is transposed, or it makes no difference that it is. -/
theorem lowered_iff [Nontrivial α] (h : lowerMatmulToAffine op = some nest)
    (hdims : op.Dims M N K) :
    Computes α op nest M N K ↔ op.Floats ∧ op.Harmless M N K := by
  have hlow := lowered_of_dims h hdims
  constructor
  · intro hcomp
    obtain ⟨_, hrun, -⟩ := hcomp 0 0 0
    have hverifies := verifies_of_run hrun
    refine ⟨hlow.verifies_iff.mp hverifies, ?_⟩
    by_cases hM : M = 0
    · exact .inl hM
    by_cases hN : N = 0
    · exact .inr (.inl hN)
    have hm := hlow.m
    have hn := hlow.n
    have hsafe : nest.Safe :=
      ⟨by rw [hlow.res, hm, hn],
        fun i hi hpos k hk => (inBounds_of_run hrun hi hpos hk).1,
        fun hpos j hj k hk => (inBounds_of_run hrun hpos hj hk).2⟩
    -- a longer sum is not the same
    have hshort : op.transposeLhs = true ∨ op.transposeRhs = true → K ≤ 1 := by
      intro htr
      by_contra hK
      obtain ⟨mem, hmem, hvalue⟩ := hcomp
        (unit (if op.transposeLhs then [K - 1, 0] else [0, K - 1]))
        (unit (if op.transposeRhs then [0, K - 1] else [K - 1, 0])) 0
      obtain ⟨mem', hmem', hdot⟩ := run_of_safe
        (unit (α := α) (if op.transposeLhs then [K - 1, 0] else [0, K - 1]))
        (unit (if op.transposeRhs then [0, K - 1] else [K - 1, 0])) 0 hverifies hsafe
      obtain rfl := Option.some.inj (hmem.symm.trans hmem')
      have hone := hvalue ⟨0, by omega⟩ ⟨0, by omega⟩
      rw [product_unit (by omega), hdot 0 (by omega) 0 (by omega), dot_unit (by omega) htr] at hone
      exact zero_ne_one hone
    refine .inr (.inr ⟨fun htl => ?_, fun htr => ?_⟩)
    · have hk : nest.k = M := by rw [hlow.k, if_pos htl]
      have hin := hsafe.lhs (M - 1) (by omega) (by omega) 0 (by omega)
      rw [hlow.lhs, if_pos htl, inBounds_pair] at hin
      have := hshort (.inl htl)
      omega
    · have hK := hshort (.inr htr)
      rcases Nat.eq_zero_or_pos K with hzero | hpos
      · exact .inl hzero
      · have hk : 0 < nest.k := by
          rw [hlow.k]
          split <;> omega
        have hin := hsafe.rhs (by omega) (N - 1) (by omega) 0 hk
        rw [hlow.rhs, if_pos htr, inBounds_pair] at hin
        omega
  · rintro ⟨hfloats, hharmless⟩ lhs rhs out
    obtain ⟨mem, hrun, hdot⟩ := run_of_safe lhs rhs out
      (hlow.verifies_iff.mpr hfloats) (safe_of_harmless hlow hharmless)
    refine ⟨mem, hrun, fun i j => ?_⟩
    rw [hdot i (hlow.m ▸ i.isLt) j (hlow.n ▸ j.isLt)]
    exact dot_eq_product hlow hharmless i j

end Right

/-- A matrix of 32-bit floats. -/
def floats (rows cols : Nat) : Ty := .tensor [some rows, some cols] (.float 32)

theorem static_floats (rows cols : Nat) :
    (floats rows cols).static? = some ([rows, cols], .float 32) := rfl

def plainOp : MatmulOp where
  lhs := floats 2 3
  rhs := floats 3 2
  result := floats 2 2
  bias := false
  transposeLhs := false
  transposeRhs := false

theorem lowered_iff_plain : ∃ nest, lowerMatmulToAffine plainOp = some nest ∧
    Computes ℤ plainOp nest 2 2 3 := by
  have hdims : plainOp.Dims 2 2 3 :=
    ⟨⟨_, static_floats 2 3⟩, ⟨_, static_floats 3 2⟩, ⟨_, static_floats 2 2⟩⟩
  have hfloats : plainOp.Floats :=
    ⟨32, _, _, _, static_floats 2 3, static_floats 3 2, static_floats 2 2⟩
  have hharmless : plainOp.Harmless 2 2 3 := .inr (.inr (by simp [plainOp]))
  exact ⟨_, rfl, (lowered_iff rfl hdims).mpr ⟨hfloats, hharmless⟩⟩

/-- The same with two square matrices, the first of them transposed. -/
def transposedOp : MatmulOp where
  lhs := floats 2 2
  rhs := floats 2 2
  result := floats 2 2
  bias := false
  transposeLhs := true
  transposeRhs := false

def transposedNest : Nest where
  m := 2
  n := 2
  k := 2
  lhsTy := ([2, 2], .float 32)
  rhsTy := ([2, 2], .float 32)
  resTy := ([2, 2], .float 32)

/-- A matrix with a one above the diagonal, times the unit matrix. The nest leaves the one where
it was. -/
theorem transposed_ignored :
    lowerMatmulToAffine transposedOp = some transposedNest ∧ transposedOp.Dims 2 2 2 ∧
      transposedOp.Floats ∧ ¬ Computes ℤ transposedOp transposedNest 2 2 2 := by
  refine ⟨rfl, ⟨⟨_, static_floats 2 2⟩, ⟨_, static_floats 2 2⟩, ⟨_, static_floats 2 2⟩⟩,
    ⟨32, _, _, _, static_floats 2 2, static_floats 2 2, static_floats 2 2⟩, fun h => ?_⟩
  let lhs : Buffer ℤ := fun is => if is = [0, 1] then 1 else 0
  let rhs : Buffer ℤ := fun is => if is = [0, 0] ∨ is = [1, 1] then 1 else 0
  obtain ⟨mem, hrun, hvalue⟩ := h lhs rhs 0
  have hleft : (transposedNest.run lhs rhs 0).map (fun mem => mem [0, 1]) = some 1 := by decide
  have hright : transposedOp.product 2 2 2 lhs rhs 0 1 = 0 := by decide
  rw [hrun, Option.map_some, Option.some.injEq] at hleft
  have hzero := hvalue 0 1
  rw [hright] at hzero
  exact absurd (hleft.symm.trans hzero) (by decide)

end CrossMachine.Compiler.Affine
