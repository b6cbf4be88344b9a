import Mathlib.Algebra.Field.Basic
import CrossMachine.Collectives.Gather

/-!
# Adam

`adam.h`, over exact arithmetic: a field, with the square root as a parameter.

Adam treats every element for itself, so a step over a block of the parameters, the gradient
and the moments is the block of the step over all of them (`adamStep_block`). Everything that
shards an optimizer rests on this.
-/

namespace CrossMachine.Training

open Collectives

variable {K : Type*}

structure AdamState (K : Type*) where
  m : List K
  v : List K
  t : Nat

def AdamState.create [Zero K] (n : Nat) : AdamState K :=
  ⟨List.replicate n 0, List.replicate n 0, 0⟩

/-- What `adam_step` takes besides the vectors. -/
structure AdamArgs (K : Type*) where
  lr : K
  beta1 : K
  beta2 : K
  eps : K

section

variable [Field K] (sqrt : K → K)

def adamStep (args : AdamArgs K) (param grad : List K) (state : AdamState K) :
    List K × AdamState K :=
  let t := state.t + 1
  let biasCorrection1 := 1 - args.beta1 ^ t
  let biasCorrection2 := 1 - args.beta2 ^ t
  let m := List.zipWith (fun m g => args.beta1 * m + (1 - args.beta1) * g) state.m grad
  let v := List.zipWith (fun v g => args.beta2 * v + (1 - args.beta2) * g * g) state.v grad
  let mhat := m.map (· / biasCorrection1)
  let vhat := v.map (· / biasCorrection2)
  let update := List.zipWith (fun mhat vhat => args.lr * mhat / (sqrt vhat + args.eps)) mhat vhat
  (List.zipWith (· - ·) param update, ⟨m, v, t⟩)

end

/-! ## Blocks of a step -/

def AdamState.block (state : AdamState K) (off len : Nat) : AdamState K :=
  ⟨Collectives.block state.m off len, Collectives.block state.v off len, state.t⟩

/-- The moments are of one length. -/
structure AdamState.Sized (state : AdamState K) (n : Nat) : Prop where
  m : state.m.length = n
  v : state.v.length = n

theorem AdamState.sized_create [Zero K] (n : Nat) : (AdamState.create n : AdamState K).Sized n where
  m := List.length_replicate
  v := List.length_replicate

theorem AdamState.block_create [Zero K] {n off len : Nat} (h : off + len ≤ n) :
    (AdamState.create n : AdamState K).block off len = AdamState.create len := by
  have hlen : min len (n - off) = len := by omega
  simp [AdamState.create, AdamState.block, Collectives.block, hlen]

theorem block_zipWith {α β γ : Type*} (f : α → β → γ) (a : List α) (b : List β) (off len : Nat) :
    block (List.zipWith f a b) off len = List.zipWith f (block a off len) (block b off len) := by
  rw [block, List.drop_zipWith, List.take_zipWith]
  rfl

theorem block_map {α β : Type*} (f : α → β) (a : List α) (off len : Nat) :
    block (a.map f) off len = (block a off len).map f := by
  rw [block, ← List.map_drop, ← List.map_take]
  rfl

section

variable [Field K] (sqrt : K → K) (args : AdamArgs K)

/-- Sharding: a step over a block is the block of a step. -/
theorem adamStep_block (param grad : List K) (state : AdamState K) (off len : Nat) :
    adamStep sqrt args (block param off len) (block grad off len) (state.block off len) =
      (block (adamStep sqrt args param grad state).1 off len,
        (adamStep sqrt args param grad state).2.block off len) := by
  simp only [adamStep, AdamState.block, block_zipWith, block_map]

theorem length_adamStep {param grad : List K} {state : AdamState K} {n : Nat}
    (hparam : param.length = n) (hgrad : grad.length = n) (hstate : state.Sized n) :
    (adamStep sqrt args param grad state).1.length = n := by
  simp [adamStep, hparam, hgrad, hstate.m, hstate.v]

theorem sized_adamStep {param grad : List K} {state : AdamState K} {n : Nat}
    (hgrad : grad.length = n) (hstate : state.Sized n) :
    (adamStep sqrt args param grad state).2.Sized n where
  m := by simp [adamStep, hgrad, hstate.m]
  v := by simp [adamStep, hgrad, hstate.v]

end

end CrossMachine.Training
