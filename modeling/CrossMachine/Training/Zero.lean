import Mathlib.Algebra.BigOperators.Field
import CrossMachine.Training.Adam

/-!
# ZeRO: sharded optimizers

Three optimizers that spread the work of one Adam over the ranks. Stage 1 shards the state:
every rank has the whole gradient, updates its shard of the parameters and gathers the others.
Stage 2 shards the gradient too: it is reduced into shards. Stage 3 shards the parameters too:
the whole vector exists only while a step is computed.

The shards are a slot of a vector that is padded to one slot a rank. Stage 1 gives rank `r`
shard `r` and has to turn back what the ring turned; the others give it shard `r + 1`, where
the ring puts it.

All three are simulated by one unsharded Adam over the padded vector (`Sharded`), whose state
the ranks have in slots. That the padding changes nothing is one more use of `adamStep_block`.
-/

namespace CrossMachine.Training

open Lib Collectives
open Relation (ReflTransGen)

variable {n : Nat} {K : Type*} [Field K]

/-- `(total_params + world_size - 1) / world_size`. -/
def shardSizeOf (totalParams worldSize : Nat) : Nat := (totalParams + worldSize - 1) / worldSize

/-! ## Stage 1 -/

structure ZeroStage1Optimizer (K : Type*) where
  rank : Nat
  worldSize : Nat
  /-- `lr_`, `beta1_`, `beta2_` and the default of `eps`. -/
  args : AdamArgs K
  shardSize : Nat
  state : AdamState K

namespace ZeroStage1Optimizer

def create (totalParams rank worldSize : Nat) (args : AdamArgs K) : ZeroStage1Optimizer K where
  rank := rank
  worldSize := worldSize
  args := args
  shardSize := shardSizeOf totalParams worldSize
  state := AdamState.create (shardSizeOf totalParams worldSize)

def paddedTotalParams (o : ZeroStage1Optimizer K) : Nat := o.shardSize * o.worldSize

/-- The loop that copies the gathered slots back, over the owners that are left. -/
def unrotate (o : ZeroStage1Optimizer K) (gathered : List K) :
    List Nat → List K → Proc (Fin n) K (List K)
  | [], fullParams => .done fullParams
  | owner :: owners, fullParams =>
      let slot := (owner + 1) % o.worldSize
      load gathered (slot * o.shardSize : Nat) o.shardSize fun shard =>
        store (fun _ x => x) fullParams (owner * o.shardSize : Nat) shard
          (o.unrotate gathered owners)

/-- `channelRank` is the rank that the collectives ask the channel for. -/
def step (sqrt : K → K) (o : ZeroStage1Optimizer K) (channelRank : Nat)
    (fullParams fullGrad : List K) : Proc (Fin n) K (ZeroStage1Optimizer K × List K) :=
  let shardStart := o.rank * o.shardSize
  load fullParams shardStart o.shardSize fun localParamShard =>
    load fullGrad shardStart o.shardSize fun localGradShard =>
      let (localParamShard, state) := adamStep sqrt o.args localParamShard localGradShard o.state
      (allGather n o.shardSize channelRank localParamShard
        (List.replicate (o.shardSize * o.worldSize) 0)).bind fun gathered =>
          (o.unrotate gathered (List.range o.worldSize) fullParams).bind fun fullParams =>
            .done ({ o with state := state }, fullParams)

end ZeroStage1Optimizer

/-! ## Stage 2 -/

structure ZeroStage2Optimizer (K : Type*) where
  worldSize : Nat
  args : AdamArgs K
  shardSize : Nat
  ownedShard : Nat
  state : AdamState K

namespace ZeroStage2Optimizer

def create (totalParams rank worldSize : Nat) (args : AdamArgs K) : ZeroStage2Optimizer K where
  worldSize := worldSize
  args := args
  shardSize := shardSizeOf totalParams worldSize
  ownedShard := (rank + 1) % worldSize
  state := AdamState.create (shardSizeOf totalParams worldSize)

def paddedTotalParams (o : ZeroStage2Optimizer K) : Nat := o.shardSize * o.worldSize

def step (sqrt : K → K) (o : ZeroStage2Optimizer K) (channelRank : Nat)
    (fullParams localGrad : List K) : Proc (Fin n) K (ZeroStage2Optimizer K × List K) :=
  (reduceScatter (· + ·) n localGrad.length channelRank localGrad).bind fun localGrad =>
    let start := o.ownedShard * o.shardSize
    load localGrad start o.shardSize fun ownedGrad =>
      load fullParams start o.shardSize fun localParamShard =>
        let (localParamShard, state) := adamStep sqrt o.args localParamShard ownedGrad o.state
        (allGather n o.shardSize channelRank localParamShard
          (List.replicate o.paddedTotalParams 0)).bind fun fullParams =>
            .done ({ o with state := state }, fullParams)

end ZeroStage2Optimizer

/-! ## Stage 3 -/

structure ZeroStage3Optimizer (K : Type*) where
  worldSize : Nat
  args : AdamArgs K
  shardSize : Nat
  ownedShard : Nat
  paramsShard : List K
  state : AdamState K

namespace ZeroStage3Optimizer

def create (totalParams rank worldSize : Nat) (args : AdamArgs K) : ZeroStage3Optimizer K where
  worldSize := worldSize
  args := args
  shardSize := shardSizeOf totalParams worldSize
  ownedShard := (rank + 1) % worldSize
  paramsShard := List.replicate (shardSizeOf totalParams worldSize) 0
  state := AdamState.create (shardSizeOf totalParams worldSize)

def paddedTotalParams (o : ZeroStage3Optimizer K) : Nat := o.shardSize * o.worldSize

def initFromFull (o : ZeroStage3Optimizer K) (fullParams : List K) :
    Proc (Fin n) K (ZeroStage3Optimizer K) :=
  load fullParams (o.ownedShard * o.shardSize : Nat) o.shardSize fun shard =>
    .done { o with paramsShard := shard }

def gatherFullParams (o : ZeroStage3Optimizer K) (channelRank : Nat) : Proc (Fin n) K (List K) :=
  allGather n o.shardSize channelRank o.paramsShard (List.replicate o.paddedTotalParams 0)

def step (sqrt : K → K) (o : ZeroStage3Optimizer K) (channelRank : Nat) (localGrad : List K) :
    Proc (Fin n) K (ZeroStage3Optimizer K) :=
  (reduceScatter (· + ·) n localGrad.length channelRank localGrad).bind fun localGrad =>
    load localGrad (o.ownedShard * o.shardSize : Nat) o.shardSize fun ownedGrad =>
      let (paramsShard, state) := adamStep sqrt o.args o.paramsShard ownedGrad o.state
      .done { o with paramsShard := paramsShard, state := state }

end ZeroStage3Optimizer

/-! ## Training

A rank trains as the three tests do it: it computes its own gradient from the parameters it
sees, pads it, scales it, and makes a step. -/

/-- `resize` with zeros. -/
def resize (l : List K) (len : Nat) : List K := l.take len ++ List.replicate (len - l.length) 0

/-- A loop of `steps` steps from step `k` on. It returns the parameters before each step and
at the end, without the padding. -/
def trainLoop {σ : Type*} (view : σ → Proc (Fin n) K (List K))
    (step : σ → List K → Proc (Fin n) K σ) (total : Nat) (localGrad : Nat → List K → List K) :
    Nat → Nat → σ → Proc (Fin n) K (List (List K))
  | 0, _, s => (view s).bind fun fullParams => .done [fullParams.take total]
  | steps + 1, k, s =>
      (view s).bind fun fullParams =>
        (step s (localGrad k (fullParams.take total))).bind fun s =>
          (trainLoop view step total localGrad steps (k + 1) s).bind fun rest =>
            .done (fullParams.take total :: rest)

section

variable (sqrt : K → K) (args : AdamArgs K) (total n : Nat) (scale : K)
  (localGrad : Nat → Fin n → List K → Vector K total) (initial : Vector K total) (steps : Nat)
  (rank : Fin n)

/-- Stage 1: the gradient is all-reduced, and scaled afterwards. -/
def zero1Train : Proc (Fin n) K (List (List K)) :=
  let opt := ZeroStage1Optimizer.create total rank n args
  trainLoop (fun s => .done s.2)
    (fun s grad =>
      (ringAllreduce (· + ·) n s.1.paddedTotalParams rank
        (resize grad s.1.paddedTotalParams)).bind fun grad =>
          s.1.step sqrt rank s.2 (grad.map (· / scale)))
    total (fun k params => (localGrad k rank params).toList) steps 0
    (opt, resize initial.toList opt.paddedTotalParams)

/-- Stage 2: the gradient is scaled, and reduced by the step. -/
def zero2Train : Proc (Fin n) K (List (List K)) :=
  let opt := ZeroStage2Optimizer.create total rank n args
  trainLoop (fun s => .done s.2)
    (fun s grad =>
      s.1.step sqrt rank s.2 ((resize grad s.1.paddedTotalParams).map (· / scale)))
    total (fun k params => (localGrad k rank params).toList) steps 0
    (opt, resize initial.toList opt.paddedTotalParams)

/-- Stage 3: the parameters are gathered for every step. -/
def zero3Train : Proc (Fin n) K (List (List K)) :=
  let opt := ZeroStage3Optimizer.create total rank n args
  (opt.initFromFull (resize initial.toList opt.paddedTotalParams)).bind
    (trainLoop (fun o => o.gatherFullParams rank)
      (fun o grad => o.step sqrt rank ((resize grad o.paddedTotalParams).map (· / scale)))
      total (fun k params => (localGrad k rank params).toList) steps 0)

/-- The combined gradient of all ranks. -/
def combinedGrad (grads : Fin n → List K) : List K :=
  (vecSum total grads).map (· / scale)

/-- One Adam over all parameters, fed the combined gradient. -/
def adamTrain : Nat → Nat → List K → AdamState K → List (List K)
  | 0, _, params, _ => [params]
  | steps + 1, k, params, state =>
      let grad := combinedGrad total n scale fun i => (localGrad k i params).toList
      let (params', state) := adamStep sqrt args params grad state
      params :: adamTrain steps (k + 1) params' state

end

end CrossMachine.Training
