import Mathlib.Algebra.Order.Field.Rat
import CrossMachine.Training.Zero

/-!
# The sharded optimizers are Adam

Every stage is a way to have one Adam over the padded vector in shares: `share` says what a
rank has of it. The ranks can be shown the whole parameters, and a step of all of them is a
step of the one (`Sharded`). A training loop over shares is then the loop over the one Adam
(`Sharded.trainLoop`), and the padding is dropped at the end.
-/

namespace CrossMachine.Training

open Lib Collectives
open Relation (ReflTransGen)

variable {n m total : Nat} {K : Type*} [Field K]

/-! ## Padding -/

theorem le_padded (hn : 0 < n) (total : Nat) : total ≤ shardSizeOf total n * n := by
  have hdiv := Nat.div_add_mod (total + n - 1) n
  have hmod := Nat.mod_lt (total + n - 1) hn
  rw [shardSizeOf, Nat.mul_comm]
  omega

theorem length_resize (l : List K) (len : Nat) : (resize l len).length = len := by
  rw [resize, List.length_append, List.length_take, List.length_replicate]
  omega

theorem take_resize {l : List K} {len : Nat} (hl : l.length = total) (hlen : total ≤ len) :
    (resize l len).take total = l := by
  have hwhole : l.take len = l := List.take_of_length_le (by omega)
  rw [resize, hwhole, List.take_append_of_le_length (by omega), List.take_of_length_le (by omega)]

theorem length_combinedGrad (scale : K) (g : Fin n → List K) :
    (combinedGrad total n scale g).length = total := by
  rw [combinedGrad, List.length_map, length_vecSum]

/-- Scaling before the sum, as stages 2 and 3 have it. -/
theorem vecSum_scaled (scale : K) (g : Fin n → List K) :
    vecSum total (fun i => (g i).map (· / scale)) = combinedGrad total n scale g := by
  rw [combinedGrad, vecSum, vecSum, List.map_ofFn]
  congr 1
  funext y
  rw [Function.comp_apply, Finset.sum_div]
  refine Finset.sum_congr rfl fun i _ => ?_
  rw [List.getD_eq_getElem?_getD, List.getD_eq_getElem?_getD, List.getElem?_map]
  cases (g i)[y.val]? with
  | none => exact (zero_div scale).symm
  | some x => rfl

/-- The padding of the gradients does not reach the parameters. -/
theorem take_combinedGrad (scale : K) {g : Fin n → List K} {len : Nat}
    (hg : ∀ i, (g i).length = total) (hlen : total ≤ len) :
    (combinedGrad len n scale fun i => resize (g i) len).take total =
      combinedGrad total n scale g := by
  rw [combinedGrad, combinedGrad, ← List.map_take]
  congr 1
  refine List.ext_getElem ?_ fun y hy hy' => ?_
  · rw [List.length_take, length_vecSum, length_vecSum]
    omega
  · rw [length_vecSum] at hy'
    rw [List.getElem_take]
    simp only [vecSum, List.getElem_ofFn]
    refine Finset.sum_congr rfl fun i _ => ?_
    have hfront := take_resize (hg i) hlen
    rw [List.getD_eq_getElem?_getD, List.getD_eq_getElem?_getD, ← List.getElem?_take_of_lt hy',
      hfront]

/-! ## Shares of one Adam -/

/-- Rank `i` has `share X S i` of parameters `X` and state `S`: it is shown the parameters, and
the steps of all ranks are the step of the one Adam. -/
structure Sharded (sqrt : K → K) (args : AdamArgs K) (total len : Nat) (scale : K) {σ : Type*}
    (view : Fin n → σ → Proc (Fin n) K (List K))
    (step : Fin n → σ → List K → Proc (Fin n) K σ)
    (share : List K → AdamState K → Fin n → σ) : Prop where
  view : ∀ (X : List K) (S : AdamState K), X.length = len →
    ∀ k : Fin n → List K → Proc (Fin n) K (List (List K)),
      ReflTransGen Meet (fun i => (view i (share X S i)).bind (k i)) (fun i => k i X)
  step : ∀ (X : List K) (S : AdamState K) (g : Fin n → List K), X.length = len → S.Sized len →
    ∀ k : Fin n → σ → Proc (Fin n) K (List (List K)),
      ReflTransGen Meet (fun i => (step i (share X S i) (g i)).bind (k i)) fun i =>
        let next := adamStep sqrt args X (combinedGrad len n scale fun i => resize (g i) len) S
        k i (share next.1 next.2 i)

section

variable {sqrt : K → K} {args : AdamArgs K} {scale : K}

/-- Training on shares is training with the one Adam. -/
theorem Sharded.trainLoop {len : Nat} {σ : Type*} {view : Fin n → σ → Proc (Fin n) K (List K)}
    {step : Fin n → σ → List K → Proc (Fin n) K σ} {share : List K → AdamState K → Fin n → σ}
    (h : Sharded sqrt args total len scale view step share) (hlen : total ≤ len)
    (localGrad : Nat → Fin n → List K → Vector K total) (steps k : Nat) {X : List K}
    {S : AdamState K} (hX : X.length = len) (hS : S.Sized len) :
    ReflTransGen Meet
      (fun i => Training.trainLoop (view i) (step i) total
        (fun k params => (localGrad k i params).toList) steps k (share X S i))
      (fun _ => .done (adamTrain sqrt args total n scale localGrad steps k (X.take total)
        (S.block 0 total))) := by
  induction steps generalizing k X S with
  | zero => exact h.view X S hX _
  | succ steps ih =>
      let g : Fin n → List K := fun i => (localGrad k i (X.take total)).toList
      let G := combinedGrad len n scale fun i => resize (g i) len
      have hG : G.length = len := length_combinedGrad scale _
      refine (h.view X S hX _).trans ((h.step X S g hX hS _).trans ?_)
      have hrest := ih (k + 1) (X := (adamStep sqrt args X G S).1)
        (S := (adamStep sqrt args X G S).2) (length_adamStep sqrt args hX hG hS)
        (sized_adamStep sqrt args hG hS)
      -- the first `total` elements make the step that Adam makes on them alone
      have hfront : block G 0 total = combinedGrad total n scale g :=
        take_combinedGrad scale (fun i => Vector.length_toList) hlen
      have hstep := adamStep_block sqrt args X G S 0 total
      rw [hfront] at hstep
      have htrain : adamTrain sqrt args total n scale localGrad (steps + 1) k (X.take total)
          (S.block 0 total) = X.take total :: adamTrain sqrt args total n scale localGrad steps
            (k + 1) ((adamStep sqrt args X G S).1.take total)
            ((adamStep sqrt args X G S).2.block 0 total) := by
        rw [adamTrain]
        have hpair : adamStep sqrt args (X.take total) (combinedGrad total n scale g)
          (S.block 0 total) = _ := hstep
        rw [hpair]
        rfl
      rw [htrain]
      exact meets_bind (fun _ rest => .done (X.take total :: rest)) hrest

/-! ## The three stages -/

/-- What a rank has under stage 1. -/
def stage1Share (args : AdamArgs K) (m : Nat) (X : List K) (S : AdamState K) (i : Fin n) :
    ZeroStage1Optimizer K × List K :=
  (⟨i, n, args, m, S.block (i.val * m) m⟩, X)

/-- What a rank has under stage 2. -/
def stage2Share (args : AdamArgs K) (m : Nat) (X : List K) (S : AdamState K) (i : Fin n) :
    ZeroStage2Optimizer K × List K :=
  (⟨n, args, m, (ringRight i).val, S.block ((ringRight i).val * m) m⟩, X)

/-- What a rank has under stage 3. -/
def stage3Share (args : AdamArgs K) (m : Nat) (X : List K) (S : AdamState K) (i : Fin n) :
    ZeroStage3Optimizer K :=
  ⟨n, args, m, (ringRight i).val, block X ((ringRight i).val * m) m,
    S.block ((ringRight i).val * m) m⟩

omit [Field K] in
/-- Copying the slots of `gathered` back, an owner at a time. -/
theorem unrotate_eq {o : ZeroStage1Optimizer K} (hsize : o.shardSize = m) (hworld : o.worldSize = n)
    (hn : 0 < n) {gathered : List K} (hgathered : gathered.length = m * n) {owners : List Nat}
    (howners : ∀ s ∈ owners, s < n) {X : List K} (hX : X.length = m * n) :
    ∃ X', (o.unrotate gathered owners X : Proc (Fin n) K (List K)) = .done X' ∧
      X'.length = m * n ∧ ∀ s < n, block X' (s * m) m =
        if s ∈ owners then block gathered ((s + 1) % n * m) m else block X (s * m) m := by
  induction owners generalizing X with
  | nil => exact ⟨X, rfl, hX, fun s _ => by simp⟩
  | cons owner owners ih =>
      have howner := howners owner List.mem_cons_self
      have hslot : (owner + 1) % n * m + m ≤ gathered.length := by
        rw [hgathered]
        exact slot_inside (Nat.mod_lt _ hn)
      have hlen : (block gathered ((owner + 1) % n * m) m).length = m := length_block hslot
      have hinside : owner * m + (block gathered ((owner + 1) % n * m) m).length ≤ X.length := by
        rw [hlen, hX]
        exact slot_inside howner
      obtain ⟨X', hrun, hX', hblocks⟩ := ih (fun s hs => howners s (List.mem_cons_of_mem _ hs))
        (X := overwrite X (owner * m) (block gathered ((owner + 1) % n * m) m))
        (by rw [length_overwrite hinside, hX])
      refine ⟨X', ?_, hX', fun s hs => ?_⟩
      · rw [ZeroStage1Optimizer.unrotate, hsize, hworld, load_eq hslot, store_eq hinside, hrun]
      · rw [hblocks s hs]
        by_cases hmem : s ∈ owners
        · rw [if_pos hmem, if_pos (List.mem_cons_of_mem _ hmem)]
        · rw [if_neg hmem]
          by_cases heq : s = owner
          · subst heq
            rw [if_pos List.mem_cons_self]
            have hself := block_overwrite_self hinside
            rwa [hlen] at hself
          · rw [if_neg (by simp [heq, hmem]), block_overwrite_of_ne hlen (by omega) (Ne.symm heq)]

omit [Field K] in
/-- All slots are turned back by one. -/
theorem unrotate_range {o : ZeroStage1Optimizer K} (hsize : o.shardSize = m)
    (hworld : o.worldSize = n) (hn : 0 < n) {gathered X X' : List K}
    (hgathered : gathered.length = m * n) (hX : X.length = m * n) (hX' : X'.length = m * n)
    (hslots : ∀ s : Fin n, block gathered (s.val * m) m = block X' ((ringLeft s).val * m) m) :
    (o.unrotate gathered (List.range n) X : Proc (Fin n) K (List K)) = .done X' := by
  obtain ⟨X'', hdone, hlen, hblocks⟩ := unrotate_eq hsize hworld hn hgathered
    (fun s hs => List.mem_range.mp hs) hX
  rw [hdone, eq_of_blocks hlen hX' fun s hs => ?_]
  rw [hblocks s hs, if_pos (List.mem_range.mpr hs)]
  have hslot := hslots (ringRight ⟨s, hs⟩)
  rwa [ringLeft_right] at hslot

/-- Shards that are gathered: every rank has them one slot behind the rank they are from. -/
theorem allGather_shards {β : Type*} (hn : 0 < n) {X : List K} (hX : X.length = m * n)
    (shardOf : Fin n → Fin n) :
    ∃ out : List K, out.length = m * n ∧
      (∀ s : Fin n, block out (s.val * m) m = block X ((shardOf (ringLeft s)).val * m) m) ∧
      ∀ k : Fin n → List K → Proc (Fin n) K β, ReflTransGen Meet
        (fun i : Fin n => (allGather n m i (block X ((shardOf i).val * m) m)
          (List.replicate (m * n) 0)).bind (k i))
        (fun i => k i out) :=
  allGather_meets hn
    (fun i => length_block (by rw [hX]; exact slot_inside (shardOf i).isLt))
    (fun _ => List.length_replicate)

/-- The shards of stages 2 and 3 are put where they belong. -/
theorem gather_shards {β : Type*} (hn : 0 < n) {X : List K} (hX : X.length = m * n)
    (k : Fin n → List K → Proc (Fin n) K β) :
    ReflTransGen Meet
      (fun i : Fin n => (allGather n m i (block X ((ringRight i).val * m) m)
        (List.replicate (m * n) 0)).bind (k i))
      (fun i => k i X) := by
  obtain ⟨out, hout, hblocks, hrun⟩ := allGather_shards (β := β) hn hX ringRight
  have hsame : out = X := by
    refine eq_of_blocks hout hX fun s hs => ?_
    rw [hblocks ⟨s, hs⟩, ringRight_left]
  exact hsame ▸ hrun k

section

variable {β : Type*} {X X' G : List K} {S S' : AdamState K} (hn : 0 < n) (hX : X.length = m * n)
  (hG : G.length = m * n) (hS : S.Sized (m * n)) (hnext : adamStep sqrt args X G S = (X', S'))

include hX hG hS hnext in
theorem length_next : X'.length = m * n := by
  have hlen := length_adamStep sqrt args hX hG hS
  rwa [hnext] at hlen

include hnext in
theorem adamStep_shard (s : Nat) :
    adamStep sqrt args (block X (s * m) m) (block G (s * m) m) (S.block (s * m) m) =
      (block X' (s * m) m, S'.block (s * m) m) := by
  rw [adamStep_block, hnext]

omit [Field K] in
theorem load_shard {L : List K} (hL : L.length = m * n) (s : Fin n)
    (k : List K → Proc (Fin n) K β) :
    load L (s.val * m : Nat) m k = k (block L (s.val * m) m) :=
  load_eq (by rw [hL]; exact slot_inside s.isLt) k

include hn hX hG hS hnext

/-- A step of all ranks under stage 1. -/
theorem stage1_step (k : Fin n → ZeroStage1Optimizer K × List K → Proc (Fin n) K β) :
    ReflTransGen Meet (fun i => ((stage1Share args m X S i).1.step sqrt i X G).bind (k i))
      (fun i => k i (stage1Share args m X' S' i)) := by
  have hX' := length_next hX hG hS hnext
  have hprog (i : Fin n) : ((stage1Share args m X S i).1.step sqrt i X G).bind (k i) =
      (allGather n m i (block X' (i.val * m) m) (List.replicate (m * n) 0)).bind fun gathered =>
        ((stage1Share args m X S i).1.unrotate gathered (List.range n) X).bind fun X =>
          k i (⟨i, n, args, m, S'.block (i.val * m) m⟩, X) := by
    simp only [ZeroStage1Optimizer.step, stage1Share]
    rw [load_shard hX, load_shard hG, adamStep_shard hnext]
    simp only [Proc.bind_assoc, Proc.bind_done]
  obtain ⟨out, hout, hblocks, hrun⟩ := allGather_shards (β := β) hn hX' id
  have hend := hrun fun i gathered =>
    ((stage1Share args m X S i).1.unrotate gathered (List.range n) X).bind fun X =>
      k i (⟨i, n, args, m, S'.block (i.val * m) m⟩, X)
  have hback (i : Fin n) :
      ((stage1Share args m X S i).1.unrotate out (List.range n) X : Proc (Fin n) K (List K)) =
        .done X' := unrotate_range rfl rfl hn hout hX hX' hblocks
  simp only [hback, Proc.bind_done] at hend
  simp only [hprog]
  exact hend

/-- A step of all ranks under stage 2, on gradients that add up to `G`. -/
theorem stage2_step {g : Fin n → List K} (hg : ∀ i, (g i).length = m * n)
    (hsum : vecSum (m * n) g = G)
    (k : Fin n → ZeroStage2Optimizer K × List K → Proc (Fin n) K β) :
    ReflTransGen Meet (fun i => ((stage2Share args m X S i).1.step sqrt i X (g i)).bind (k i))
      (fun i => k i (stage2Share args m X' S' i)) := by
  have hX' := length_next hX hG hS hnext
  obtain ⟨g', hg', hsums, hrun⟩ := reduceScatter_meets (β := β) hn hg
  rw [hsum] at hsums
  simp only [ZeroStage2Optimizer.step, stage2Share, hg, Proc.bind_assoc]
  refine (hrun _).trans ?_
  simp only [load_shard hX, load_shard (hg' _), hsums, adamStep_shard hnext, Proc.bind_assoc,
    Proc.bind_done, ZeroStage2Optimizer.paddedTotalParams]
  exact gather_shards hn hX' _

omit hX hG hS in
/-- A step of all ranks under stage 3, on gradients that add up to `G`. -/
theorem stage3_step {g : Fin n → List K} (hg : ∀ i, (g i).length = m * n)
    (hsum : vecSum (m * n) g = G) (k : Fin n → ZeroStage3Optimizer K → Proc (Fin n) K β) :
    ReflTransGen Meet (fun i => ((stage3Share args m X S i).step sqrt i (g i)).bind (k i))
      (fun i => k i (stage3Share args m X' S' i)) := by
  obtain ⟨g', hg', hsums, hrun⟩ := reduceScatter_meets (β := β) hn hg
  rw [hsum] at hsums
  simp only [ZeroStage3Optimizer.step, stage3Share, hg, Proc.bind_assoc]
  refine (hrun _).trans ?_
  simp only [load_shard (hg' _), hsums, adamStep_shard hnext, Proc.bind_done]
  exact .refl

end

/-! ## Training -/

section

variable (sqrt : K → K) (args : AdamArgs K) (total m : Nat) (scale : K) (hn : 0 < n)

include hn

theorem stage1_sharded :
    Sharded (n := n) sqrt args total (m * n) scale (fun _ s => .done s.2)
      (fun i s grad => (ringAllreduce (· + ·) n s.1.paddedTotalParams i
        (resize grad s.1.paddedTotalParams)).bind fun grad =>
          s.1.step sqrt i s.2 (grad.map (· / scale)))
      (stage1Share args m) where
  view _ _ _ _ := .refl
  step X S g hX hS k := by
    simp only [Proc.bind_assoc]
    exact (allReduce_meets (fun i => length_resize (g i) (m * n)) _).trans
      (stage1_step hn hX (length_combinedGrad scale _) hS rfl k)

theorem stage2_sharded :
    Sharded (n := n) sqrt args total (m * n) scale (fun _ s => .done s.2)
      (fun i s grad =>
        s.1.step sqrt i s.2 ((resize grad s.1.paddedTotalParams).map (· / scale)))
      (stage2Share args m) where
  view _ _ _ _ := .refl
  step X S g hX hS k :=
    stage2_step hn hX (length_combinedGrad scale _) hS rfl
      (fun i => by rw [List.length_map, length_resize]; rfl) (vecSum_scaled scale _) k

theorem stage3_sharded :
    Sharded (n := n) sqrt args total (m * n) scale (fun i o => o.gatherFullParams i)
      (fun i o grad => o.step sqrt i ((resize grad o.paddedTotalParams).map (· / scale)))
      (stage3Share args m) where
  view X S hX k := gather_shards hn hX k
  step X S g hX hS k :=
    stage3_step hn rfl
      (fun i => by rw [List.length_map, length_resize]; rfl) (vecSum_scaled scale _) k

end

/-- Training from the padded parameters and a fresh state. -/
theorem Sharded.train {σ : Type*} {view : Fin n → σ → Proc (Fin n) K (List K)}
    {step : Fin n → σ → List K → Proc (Fin n) K σ} {share : List K → AdamState K → Fin n → σ}
    (h : Sharded sqrt args total (shardSizeOf total n * n) scale view step share) (hn : 0 < n)
    (localGrad : Nat → Fin n → List K → Vector K total) (initial : Vector K total) (steps : Nat) :
    ReflTransGen Meet
      (fun i => Training.trainLoop (view i) (step i) total
        (fun k params => (localGrad k i params).toList) steps 0
        (share (resize initial.toList (shardSizeOf total n * n))
          (AdamState.create (shardSizeOf total n * n)) i))
      (fun _ => .done (adamTrain sqrt args total n scale localGrad steps 0 initial.toList
        (AdamState.create total))) := by
  have hlen := le_padded hn total
  have hrun := h.trainLoop hlen localGrad steps 0 (length_resize initial.toList _)
    (AdamState.sized_create _)
  rwa [take_resize Vector.length_toList hlen, AdamState.block_create (by omega)] at hrun

theorem block_create_slot (m : Nat) (s : Fin n) :
    (AdamState.create (m * n) : AdamState K).block (s.val * m) m = AdamState.create m :=
  AdamState.block_create (slot_inside s.isLt)

/-- **ZeRO is Adam.** Under every stage and every schedule, all ranks have after each step the
parameters that one Adam has that is fed the combined gradient. -/
theorem zero_equivalence (sqrt : K → K) (args : AdamArgs K) (n total : Nat) (hn : 0 < n)
    (scale : K) (localGrad : Nat → Fin n → List K → Vector K total) (initial : Vector K total)
    (steps : Nat) :
    let trained := adamTrain sqrt args total n scale localGrad steps 0 initial.toList
      (AdamState.create total)
    Completes (zero1Train sqrt args total n scale localGrad initial steps) (fun _ => trained) ∧
      Completes (zero2Train sqrt args total n scale localGrad initial steps) (fun _ => trained) ∧
      Completes (zero3Train sqrt args total n scale localGrad initial steps)
        (fun _ => trained) := by
  intro trained
  refine ⟨completes_of_meets ?_, completes_of_meets ?_, completes_of_meets ?_⟩
  · have hrun := (stage1_sharded sqrt args total (shardSizeOf total n) scale hn).train hn
      localGrad initial steps
    simp only [stage1Share, block_create_slot] at hrun
    exact hrun
  · have hrun := (stage2_sharded sqrt args total (shardSizeOf total n) scale hn).train hn
      localGrad initial steps
    simp only [stage2Share, block_create_slot] at hrun
    exact hrun
  · have hrun := (stage3_sharded sqrt args total (shardSizeOf total n) scale hn).train hn
      localGrad initial steps
    have hinit (i : Fin n) : ((ZeroStage3Optimizer.create total i n args).initFromFull
        (resize initial.toList (shardSizeOf total n * n)) : Proc (Fin n) K _) =
          .done (stage3Share args (shardSizeOf total n)
            (resize initial.toList (shardSizeOf total n * n))
            (AdamState.create (shardSizeOf total n * n)) i) := by
      rw [stage3Share, block_create_slot]
      exact load_shard (length_resize initial.toList _) (ringRight i) _
    have hprog : zero3Train sqrt args total n scale localGrad initial steps = fun i =>
        trainLoop (fun o => o.gatherFullParams i)
          (fun o grad => o.step sqrt i ((resize grad o.paddedTotalParams).map (· / scale)))
          total (fun k params => (localGrad k i params).toList) steps 0
          (stage3Share args (shardSizeOf total n)
            (resize initial.toList (shardSizeOf total n * n))
            (AdamState.create (shardSizeOf total n * n)) i) := by
      funext i
      exact congrArg (fun p => Proc.bind p _) (hinit i)
    rw [hprog]
    exact hrun

end

/-- The square root of the square of a fraction. -/
def ratSqrt (x : ℚ) : ℚ := Nat.sqrt x.num.toNat / Nat.sqrt x.den

/-- Three parameters on two ranks: the second shard is half padding. -/
theorem zero_equivalence_three :
    let args : AdamArgs ℚ := ⟨1 / 10, 9 / 10, 999 / 1000, 1 / 10 ^ 8⟩
    let localGrad : Nat → Fin 2 → List ℚ → Vector ℚ 3 :=
      fun _ i params => #v[params.getD 0 0, (i.val : ℚ), 2]
    Completes (zero3Train ratSqrt args 3 2 2 localGrad #v[1, 2, 3] 1) fun _ =>
      [[1, 2, 3], [90000001 / 100000001, 95000002 / 50000001, 580000003 / 200000001]] := by
  intro args localGrad
  have hzero := (zero_equivalence ratSqrt args 2 3 (by decide) 2 localGrad #v[1, 2, 3] 1).2.2
  have htrained : adamTrain ratSqrt args 3 2 2 localGrad 1 0 [1, 2, 3] (AdamState.create 3) =
      [[1, 2, 3], [90000001 / 100000001, 95000002 / 50000001, 580000003 / 200000001]] := by
    decide +kernel
  exact htrained ▸ hzero

end CrossMachine.Training
