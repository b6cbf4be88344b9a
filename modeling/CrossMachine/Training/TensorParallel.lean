import CrossMachine.Collectives.Gather
import CrossMachine.Training.Matrix

/-!
# Tensor parallelism

`tensor_parallel_linear.h`, and the block it is written for: a column-parallel layer, an
elementwise activation, a row-parallel layer, with one sum over the ranks in each direction.

Rank `r` has a slice of the hidden columns. Forward, a product over the hidden dimension falls
apart into one sum for each slice; backward, the same happens to the gradient of the input.
Everything else is computed column by column or row by row, and slices go through it.
-/

namespace CrossMachine.Training

open Lib Collectives
open Relation (ReflTransGen)

variable {n : Nat} {F : Type*} [CommSemiring F] [DecidableEq F]

/-! ## The layers -/

structure ColumnParallelLinear (F : Type*) where
  weightShard : Matrix F
  biasShard : Matrix F

namespace ColumnParallelLinear

structure Grads (F : Type*) where
  dweight : Matrix F
  dbias : Matrix F
  /-- To be summed over the ranks by the caller. -/
  dxPartial : Matrix F

def forward (l : ColumnParallelLinear F) (x : Matrix F) : Option (Matrix F) := do
  let y ← x.matmul l.weightShard
  y.addRowBroadcast l.biasShard

def backward (l : ColumnParallelLinear F) (x dyShard : Matrix F) : Option (Grads F) := do
  let dweight ← x.transpose.matmul dyShard
  let dxPartial ← dyShard.matmul l.weightShard.transpose
  return ⟨dweight, dyShard.sumRows, dxPartial⟩

end ColumnParallelLinear

structure RowParallelLinear (F : Type*) where
  weightShard : Matrix F

namespace RowParallelLinear

structure Grads (F : Type*) where
  dweight : Matrix F
  dxShard : Matrix F

/-- A part of the sum that the output is. -/
def forward (l : RowParallelLinear F) (xShard : Matrix F) : Option (Matrix F) :=
  xShard.matmul l.weightShard

def backward (l : RowParallelLinear F) (xShard dyFull : Matrix F) : Option (Grads F) := do
  let dweight ← xShard.transpose.matmul dyFull
  let dxShard ← dyFull.matmul l.weightShard.transpose
  return ⟨dweight, dxShard⟩

end RowParallelLinear

/-! ## The block -/

/-- Two layers that fit together. -/
structure Mlp (F : Type*) where
  wCol : Matrix F
  bCol : Matrix F
  wRow : Matrix F
  rowBias : Matrix F
  bCol_fits : bCol.height = 1 ∧ bCol.cols = wCol.cols
  wRow_fits : wRow.height = wCol.cols
  rowBias_fits : rowBias.height = 1 ∧ rowBias.cols = wRow.cols

/-- An activation, its derivative, and the gradient of the loss by the output. -/
structure MlpArgs (F : Type*) where
  act : F → F
  dact : F → F
  dloss : Matrix F → Matrix F

structure MlpGrads (F : Type*) where
  y : Matrix F
  dwCol : Matrix F
  dbCol : Matrix F
  dwRow : Matrix F
  drowBias : Matrix F
  dx : Matrix F

/-- The two layers in one process, forward and backward. -/
def Mlp.unsharded (m : Mlp F) (args : MlpArgs F) (x : Matrix F) : Option (MlpGrads F) := do
  let xw ← x.matmul m.wCol
  let pre ← xw.addRowBroadcast m.bCol
  let post := pre.apply args.act
  let yw ← post.matmul m.wRow
  let y ← yw.addRowBroadcast m.rowBias
  let dy := args.dloss y
  let dwRow ← post.transpose.matmul dy
  let dpost ← dy.matmul m.wRow.transpose
  let dpre ← dpost.elementwiseMul (pre.apply args.dact)
  let dwCol ← x.transpose.matmul dpre
  let dx ← dpre.matmul m.wCol.transpose
  return ⟨y, dwCol, dpre.sumRows, dwRow, dy.sumRows, dx⟩

/-- What an assertion lets through. -/
def asserted {α β γ : Type*} : Option β → (β → Proc (Fin n) α γ) → Proc (Fin n) α γ
  | some b, k => k b
  | none, _ => .fault

/-- `ring_allreduce(m.data(), m.size(), channel)`. -/
def allReduceData (rank : Nat) (m : Matrix F) : Proc (Fin n) F (Matrix F) :=
  (ringAllreduce (· + ·) n m.data.length rank m.data).bind fun data => .done (m.withData data)

/-- The block on one rank, with one sum over the ranks in each direction. -/
def tensorParallelMlp (col : ColumnParallelLinear F) (row : RowParallelLinear F)
    (rowBias : Matrix F) (args : MlpArgs F) (rank : Nat) (x : Matrix F) :
    Proc (Fin n) F (MlpGrads F) :=
  asserted (col.forward x) fun preShard =>
  let postShard := preShard.apply args.act
  asserted (row.forward postShard) fun yPartial =>
  (allReduceData rank yPartial).bind fun ySum =>
  asserted (ySum.addRowBroadcast rowBias) fun y =>
  let dy := args.dloss y
  asserted (row.backward postShard dy) fun rowGrads =>
  asserted (rowGrads.dxShard.elementwiseMul (preShard.apply args.dact)) fun dpreShard =>
  asserted (col.backward x dpreShard) fun colGrads =>
  (allReduceData rank colGrads.dxPartial).bind fun dx =>
  .done ⟨y, colGrads.dweight, colGrads.dbias, rowGrads.dweight, dy.sumRows, dx⟩

/-- Where the shard of rank `r` starts. -/
def shardStart (width : Fin n → Nat) (r : Fin n) : Nat :=
  ∑ i : Fin r.val, width (Fin.castLE r.isLt.le i)

/-- The block of rank `r`, when the hidden dimension is split into these widths. -/
def Mlp.onRank (m : Mlp F) (args : MlpArgs F) (width : Fin n → Nat) (x : Matrix F) (r : Fin n) :
    Proc (Fin n) F (MlpGrads F) :=
  tensorParallelMlp
    ⟨m.wCol.colSlice (shardStart width r) (width r), m.bCol.colSlice (shardStart width r) (width r)⟩
    ⟨m.wRow.rowSlice (shardStart width r) (width r)⟩ m.rowBias args r x

/-- What rank `r` has of the gradients: its slices, and the whole of the rest. -/
def MlpGrads.shard (full : MlpGrads F) (start width : Nat) : MlpGrads F where
  y := full.y
  dwCol := full.dwCol.colSlice start width
  dbCol := full.dbCol.colSlice start width
  dwRow := full.dwRow.rowSlice start width
  drowBias := full.drowBias
  dx := full.dx

/-! ## Shards of a sum -/

theorem shardStart_castSucc (width : Fin (n + 1) → Nat) (r : Fin n) :
    shardStart width r.castSucc = shardStart (fun i => width i.castSucc) r := rfl

theorem shardStart_last (width : Fin (n + 1) → Nat) :
    shardStart width (Fin.last n) = ∑ i : Fin n, width i.castSucc := rfl

theorem shardStart_fits (width : Fin n → Nat) (r : Fin n) :
    shardStart width r + width r ≤ ∑ i, width i := by
  induction n with
  | zero => exact r.elim0
  | succ n ih =>
      rw [Fin.sum_univ_castSucc]
      cases r using Fin.lastCases with
      | last => rw [shardStart_last]
      | cast r =>
          have hfront := ih (fun i => width i.castSucc) r
          rw [shardStart_castSucc]
          omega

/-- A sum over the hidden dimension, shard by shard. -/
theorem sum_shards {M : Type*} [AddCommMonoid M] (width : Fin n → Nat) (f : Nat → M) :
    ∑ r, ∑ k ∈ Finset.range (width r), f (shardStart width r + k) =
      ∑ k ∈ Finset.range (∑ i, width i), f k := by
  induction n with
  | zero => rfl
  | succ n ih =>
      rw [Fin.sum_univ_castSucc, Fin.sum_univ_castSucc, Finset.sum_range_add, shardStart_last]
      congr 1
      exact ih fun i => width i.castSucc

/-! ## The sum over the ranks -/

omit [DecidableEq F] in
theorem allReduceData_meets {β : Type*} {h c : Nat} (f : Fin n → Nat → Nat → F)
    (k : Fin n → Matrix F → Proc (Fin n) F β) :
    ReflTransGen Meet
      (fun i : Fin n => (allReduceData i (Matrix.ofFn h c (f i))).bind (k i))
      (fun i => k i (Matrix.ofFn h c fun x y => ∑ r, f r x y)) := by
  have hlen (i : Fin n) : (Matrix.ofFn h c (f i)).data.length = h * c := by
    rw [Matrix.data_ofFn, List.length_ofFn]
  have hsum : vecSum (h * c) (fun i => (Matrix.ofFn h c (f i)).data) =
      List.ofFn fun y : Fin (h * c) => ∑ r, f r (y / c) (y % c) := by
    simp only [Matrix.data_ofFn]
    exact vecSum_ofFn fun i (y : Fin (h * c)) => f i (y / c) (y % c)
  have hrun := allReduce_meets hlen fun i data =>
    (Proc.done ((Matrix.ofFn h c (f i)).withData data) : Proc (Fin n) F (Matrix F)).bind (k i)
  simp only [hsum, Proc.bind_done] at hrun
  simp only [Matrix.withData_ofFn (fun x y => ∑ r, f r x y)] at hrun
  simpa only [allReduceData, Proc.bind_assoc, hlen, Proc.bind_done] using hrun

/-! ## The block, element by element -/

section

variable {batch inn hidden out : Nat} {X W B V C D : Nat → Nat → F} {args : MlpArgs F}

/-- Before the activation. -/
def preAt (inn : Nat) (X W B : Nat → Nat → F) (i j : Nat) : F :=
  (∑ k ∈ Finset.range inn, X i k * W k j) + B 0 j

/-- The part that `width` hidden columns have in the output. -/
def outAt (act : F → F) (width : Nat) (pre V : Nat → Nat → F) (i j : Nat) : F :=
  ∑ k ∈ Finset.range width, act (pre i k) * V k j

/-- The gradient before the activation. -/
def dpreAt (dact : F → F) (out : Nat) (pre V D : Nat → Nat → F) (i j : Nat) : F :=
  (∑ k ∈ Finset.range out, D i k * V j k) * dact (pre i j)

open CrossMachine.Training.Matrix in
/-- All that one process computes. -/
theorem Mlp.unsharded_eq {m : Mlp F} (hwCol : m.wCol = ofFn inn hidden W)
    (hbCol : m.bCol = ofFn 1 hidden B) (hwRow : m.wRow = ofFn hidden out V)
    (hrowBias : m.rowBias = ofFn 1 out C)
    (hloss : args.dloss (ofFn batch out fun i j =>
      outAt args.act hidden (preAt inn X W B) V i j + C 0 j) = ofFn batch out D) :
    m.unsharded args (ofFn batch inn X) = some
      { y := ofFn batch out fun i j => outAt args.act hidden (preAt inn X W B) V i j + C 0 j
        dwCol := ofFn inn hidden fun i j =>
          ∑ k ∈ Finset.range batch, X k i * dpreAt args.dact out (preAt inn X W B) V D k j
        dbCol := ofFn 1 hidden fun _ j =>
          ∑ k ∈ Finset.range batch, dpreAt args.dact out (preAt inn X W B) V D k j
        dwRow := ofFn hidden out fun i j =>
          ∑ k ∈ Finset.range batch, args.act (preAt inn X W B k i) * D k j
        drowBias := ofFn 1 out fun _ j => ∑ k ∈ Finset.range batch, D k j
        dx := ofFn batch inn fun i j => ∑ k ∈ Finset.range hidden,
          dpreAt args.dact out (preAt inn X W B) V D i k * W j k } := by
  -- layer by layer: a matrix given by its elements goes into the next operation as one
  have hpre : (fun i j => (∑ k ∈ Finset.range inn, X i k * W k j) + B 0 j) = preAt inn X W B := rfl
  have hout : (fun i j => (∑ k ∈ Finset.range hidden, args.act (preAt inn X W B i k) * V k j)
      + C 0 j) = fun i j => outAt args.act hidden (preAt inn X W B) V i j + C 0 j := rfl
  have hdpre : (fun i j => (∑ k ∈ Finset.range out, D i k * V j k) *
      args.dact (preAt inn X W B i j)) = dpreAt args.dact out (preAt inn X W B) V D := rfl
  simp only [Mlp.unsharded, hwCol, hbCol, hwRow, hrowBias, matmul_ofFn, addRowBroadcast_ofFn,
    Option.bind_eq_bind, Option.bind_some, hpre, apply_ofFn, hout, hloss, transpose_ofFn,
    elementwiseMul_ofFn, hdpre, sumRows_ofFn]
  rfl

open CrossMachine.Training.Matrix in
/-- All that the ranks compute, whatever their weights: the outputs and the gradients of the
input are summed, and the rest is what each computes from its own. -/
theorem tensorParallelMlp_meets {width : Fin n → Nat} {W B V : Fin n → Nat → Nat → F}
    (hloss : args.dloss (ofFn batch out fun i j =>
      ∑ r, outAt args.act (width r) (preAt inn X (W r) (B r)) (V r) i j + C 0 j) =
        ofFn batch out D) :
    ReflTransGen Meet
      (fun r : Fin n => tensorParallelMlp ⟨ofFn inn (width r) (W r), ofFn 1 (width r) (B r)⟩
        ⟨ofFn (width r) out (V r)⟩ (ofFn 1 out C) args r (ofFn batch inn X))
      fun r => .done
        { y := ofFn batch out fun i j =>
            ∑ r, outAt args.act (width r) (preAt inn X (W r) (B r)) (V r) i j + C 0 j
          dwCol := ofFn inn (width r) fun i j => ∑ k ∈ Finset.range batch,
            X k i * dpreAt args.dact out (preAt inn X (W r) (B r)) (V r) D k j
          dbCol := ofFn 1 (width r) fun _ j => ∑ k ∈ Finset.range batch,
            dpreAt args.dact out (preAt inn X (W r) (B r)) (V r) D k j
          dwRow := ofFn (width r) out fun i j => ∑ k ∈ Finset.range batch,
            args.act (preAt inn X (W r) (B r) k i) * D k j
          drowBias := ofFn 1 out fun _ j => ∑ k ∈ Finset.range batch, D k j
          dx := ofFn batch inn fun i j => ∑ r, ∑ k ∈ Finset.range (width r),
            dpreAt args.dact out (preAt inn X (W r) (B r)) (V r) D i k * W r j k } := by
  have hpre (r : Fin n) : (fun i j => (∑ k ∈ Finset.range inn, X i k * W r k j) + B r 0 j) =
    preAt inn X (W r) (B r) := rfl
  have hout (r : Fin n) : (fun i j => ∑ k ∈ Finset.range (width r),
      args.act (preAt inn X (W r) (B r) i k) * V r k j) =
    outAt args.act (width r) (preAt inn X (W r) (B r)) (V r) := rfl
  have hdpre (r : Fin n) : (fun i j => (∑ k ∈ Finset.range out, D i k * V r j k) *
      args.dact (preAt inn X (W r) (B r) i j)) =
    dpreAt args.dact out (preAt inn X (W r) (B r)) (V r) D := rfl
  -- up to the sum of the outputs
  simp only [tensorParallelMlp, ColumnParallelLinear.forward, RowParallelLinear.forward,
    matmul_ofFn, addRowBroadcast_ofFn, Option.bind_eq_bind, Option.bind_some, asserted, hpre,
    apply_ofFn, hout]
  refine (allReduceData_meets _ _).trans ?_
  -- and from there to the sum of the gradients
  simp only [addRowBroadcast_ofFn, hloss, RowParallelLinear.backward,
    ColumnParallelLinear.backward, transpose_ofFn, matmul_ofFn, Option.bind_eq_bind,
    Option.bind_some, pure, elementwiseMul_ofFn, hdpre, sumRows_ofFn]
  exact allReduceData_meets _ _

end

/-! ## The block and its shards -/

open CrossMachine.Training.Matrix in
/-- **The ranks compute the block.** However the hidden dimension is split, every rank ends with
the output and the gradient of the input, and with its slices of the gradients of the weights. -/
theorem tensorParallel_mlp (m : Mlp F) (args : MlpArgs F)
    (hloss : ∀ y, (args.dloss y).SameShape y) (x : Matrix F) (hx : x.cols = m.wCol.height)
    (width : Fin n → Nat) (hsplit : ∑ r, width r = m.wCol.cols) :
    ∃ full, m.unsharded args x = some full ∧
      Completes (m.onRank args width x) fun r =>
        full.shard (shardStart width r) (width r) := by
  obtain ⟨X, hX⟩ := exists_ofFn (m := x) rfl hx
  obtain ⟨W, hW⟩ := exists_ofFn (m := m.wCol) rfl hsplit.symm
  obtain ⟨B, hB⟩ := exists_ofFn m.bCol_fits.1 (m.bCol_fits.2.trans hsplit.symm)
  obtain ⟨V, hV⟩ := exists_ofFn (m.wRow_fits.trans hsplit.symm) rfl
  obtain ⟨C, hC⟩ := exists_ofFn m.rowBias_fits.1 m.rowBias_fits.2
  generalize x.height = batch at hX
  generalize m.wCol.height = inn at hX hW
  generalize m.wRow.cols = out at hV hC
  subst hX
  obtain ⟨D, hD⟩ := exists_ofFn (h := batch) (c := out)
    ((hloss (ofFn batch out fun i j => outAt args.act (∑ r, width r) (preAt inn X W B) V i j
      + C 0 j)).1.trans (height_ofFn _ _ _)) (hloss _).2
  refine ⟨_, Mlp.unsharded_eq hW hB hV hC hD, completes_of_meets ?_⟩
  have hfits := shardStart_fits width
  have hranks : m.onRank args width (ofFn batch inn X) = fun r => tensorParallelMlp
      ⟨ofFn inn (width r) fun i j => W i (shardStart width r + j),
        ofFn 1 (width r) fun i j => B i (shardStart width r + j)⟩
      ⟨ofFn (width r) out fun i j => V (shardStart width r + i) j⟩ (ofFn 1 out C) args r
      (ofFn batch inn X) := by
    funext r
    rw [Mlp.onRank, hW, hB, hV, hC, colSlice_ofFn (hfits r), colSlice_ofFn (hfits r),
      rowSlice_ofFn (hfits r)]
  -- the two sums over the hidden dimension, shard by shard
  have hy (i j : Nat) : ∑ r, outAt args.act (width r)
      (preAt inn X (fun i j => W i (shardStart width r + j))
        fun i j => B i (shardStart width r + j))
      (fun i j => V (shardStart width r + i) j) i j =
        outAt args.act (∑ r, width r) (preAt inn X W B) V i j :=
    sum_shards width fun k => args.act (preAt inn X W B i k) * V k j
  have hdx (i j : Nat) : ∑ r, ∑ k ∈ Finset.range (width r),
      dpreAt args.dact out (preAt inn X (fun i j => W i (shardStart width r + j))
          fun i j => B i (shardStart width r + j))
        (fun i j => V (shardStart width r + i) j) D i k * W j (shardStart width r + k) =
        ∑ k ∈ Finset.range (∑ r, width r),
          dpreAt args.dact out (preAt inn X W B) V D i k * W j k :=
    sum_shards width fun k => dpreAt args.dact out (preAt inn X W B) V D i k * W j k
  simp only [← hy] at hD
  have hrun := tensorParallelMlp_meets hD
  rw [hranks]
  simp only [MlpGrads.shard, colSlice_ofFn (hfits _), rowSlice_ofFn (hfits _), ← hy, ← hdx]
  exact hrun

/-- Three ranks and three hidden columns: two, none and one. -/
theorem tensorParallel_mlp_two_none_one :
    ∃ full, (⟨⟨3, [#v[1, 2, 3]]⟩, ⟨3, [#v[0, 1, 0]]⟩, ⟨1, [#v[1], #v[2], #v[-1]]⟩, ⟨1, [#v[5]]⟩,
        ⟨rfl, rfl⟩, rfl, ⟨rfl, rfl⟩⟩ : Mlp Int).unsharded ⟨fun v => v * v, fun v => 2 * v, id⟩
          ⟨1, [#v[4]]⟩ = some full ∧
      Completes ((⟨⟨3, [#v[1, 2, 3]]⟩, ⟨3, [#v[0, 1, 0]]⟩, ⟨1, [#v[1], #v[2], #v[-1]]⟩,
        ⟨1, [#v[5]]⟩, ⟨rfl, rfl⟩, rfl, ⟨rfl, rfl⟩⟩ : Mlp Int).onRank
          ⟨fun v => v * v, fun v => 2 * v, id⟩ (![2, 0, 1] : Fin 3 → Nat) ⟨1, [#v[4]]⟩) fun r =>
        full.shard (shardStart (![2, 0, 1] : Fin 3 → Nat) r) ((![2, 0, 1] : Fin 3 → Nat) r) :=
  tensorParallel_mlp _ _ (fun _ => ⟨rfl, rfl⟩) _ rfl _ rfl

end CrossMachine.Training
