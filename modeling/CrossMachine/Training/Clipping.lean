import CrossMachine.Lib.Instances
import CrossMachine.Lib.StrictOrder
import CrossMachine.Training.Adam
import Mathlib.Algebra.Order.Chebyshev
import Mathlib.Analysis.Real.Sqrt

/-!
# Gradient clipping

`grad_clipping.h`, and the four operations of `training_worker.cpp` that make the gradient an
optimizer step is given: the norm, the clip, the sum over the ranks, the division by their
number.

The norm is that of all local vectors laid end to end. For shards of one gradient that is the
norm of the gradient, and a shard is clipped as its part of the whole (`clip_shards`). The
worker has the whole gradient of its own batch on every rank instead, and the norm it clips by
is not that of their mean, which is what is used (`syncGrad_iff`).
-/

namespace CrossMachine.Training

open Lib Collectives
open Relation (ReflTransGen)

variable {n : Nat} {K : Type*}

section

variable [Field K]

def sumsq (g : List K) : K := g.foldl (fun s x => s + x * x) 0

/-- `sqrt` is `std::sqrt`. -/
def globalGradNorm (sqrt : K → K) (rank : Nat) (localShard : List K) : Proc (Fin n) K K :=
  (ringAllreduce (· + ·) n 1 rank [sumsq localShard]).bind fun buf =>
    match buf with
    | [sum] => .done (sqrt sum)
    | _ => .fault

def kEps : K := 1 / 1000000

variable [LinearOrder K]

def clipScale (globalNorm maxNorm : K) : K := min 1 (maxNorm / (globalNorm + kEps))

/-- The shard as it is left, and the scale that is returned. -/
def clipGradByGlobalNorm (localShard : List K) (globalNorm maxNorm : K) : List K × K :=
  let scale := clipScale globalNorm maxNorm
  (if scale < 1 then localShard.map (· * scale) else localShard, scale)

/-- From the local gradient to the one that the optimizer is given. -/
def syncGrad (sqrt : K → K) (maxGradNorm : K) (rank : Nat) (grad : List K) :
    Proc (Fin n) K (List K) :=
  (globalGradNorm sqrt rank grad).bind fun gnorm =>
    let grad := (clipGradByGlobalNorm grad gnorm maxGradNorm).1
    (ringAllreduce (· + ·) n grad.length rank grad).bind fun grad =>
      .done (grad.map (· / (n : K)))

/-- What one process does with a gradient of its own: the clip, by its own norm. -/
def clipped (sqrt : K → K) (maxNorm : K) (grad : List K) : List K :=
  (clipGradByGlobalNorm grad (sqrt (sumsq grad)) maxNorm).1

end

/-- The mean of the local gradients. -/
def meanGrad [Field K] (len : Nat) (g : Fin n → List K) : List K :=
  (vecSum len g).map (· / (n : K))

/-! ## The norm -/

section

variable [Field K]

theorem sumsq_eq (g : List K) : sumsq g = (g.map (· ^ 2)).sum := by
  have hfold (s : K) : g.foldl (fun s x => s + x * x) s = s + (g.map (· ^ 2)).sum := by
    induction g generalizing s with
    | nil => simp
    | cons x g ih => rw [List.foldl_cons, ih, List.map_cons, List.sum_cons, sq, add_assoc]
  rw [sumsq, hfold, zero_add]

theorem sumsq_ofFn {len : Nat} (f : Fin len → K) : sumsq (List.ofFn f) = ∑ y, f y ^ 2 := by
  rw [sumsq_eq, List.map_ofFn, List.sum_ofFn]
  rfl

/-- Every rank has the norm of all local vectors together. -/
theorem globalGradNorm_meets {β : Type*} (sqrt : K → K) (g : Fin n → List K)
    (k : Fin n → K → Proc (Fin n) K β) :
    ReflTransGen Meet (fun i : Fin n => (globalGradNorm sqrt i (g i)).bind (k i))
      (fun i => k i (sqrt (∑ i, sumsq (g i)))) := by
  have hsum : vecSum 1 (fun i => [sumsq (g i)]) = [∑ i, sumsq (g i)] := by
    simp [vecSum]
  have hone (i : Fin n) : [sumsq (g i)].length = 1 := rfl
  have hrun := allReduce_meets hone (fun i buf => (match buf with
      | [sum] => (.done (sqrt sum) : Proc (Fin n) K K)
      | _ => .fault).bind (k i))
  rw [hsum] at hrun
  simpa only [globalGradNorm, Proc.bind_assoc, Proc.bind_done] using hrun

variable [LinearOrder K]

/-- A scale of one is not applied, which is the same. -/
theorem clipGrad_eq (grad : List K) (globalNorm maxNorm : K) :
    (clipGradByGlobalNorm grad globalNorm maxNorm).1 =
      grad.map (· * clipScale globalNorm maxNorm) := by
  rw [clipGradByGlobalNorm]
  dsimp only
  split
  · rfl
  · rename_i hscale
    have hone : clipScale globalNorm maxNorm = 1 :=
      le_antisymm (min_le_left _ _) (not_lt.mp hscale)
    simp [hone]

omit [LinearOrder K] in
theorem vecSum_map_mul {len : Nat} (g : Fin n → List K) (c : K) :
    vecSum len (fun i => (g i).map (· * c)) = (vecSum len g).map (· * c) := by
  rw [vecSum, vecSum, List.map_ofFn]
  congr 1
  funext y
  rw [Function.comp_apply, Finset.sum_mul]
  refine Finset.sum_congr rfl fun i _ => ?_
  rw [List.getD_eq_getElem?_getD, List.getD_eq_getElem?_getD, List.getElem?_map]
  cases (g i)[y.val]? with
  | none => exact (zero_mul c).symm
  | some x => rfl

/-- The optimizer is given the mean, scaled by what all local gradients together ask for. -/
theorem syncGrad_meets {len : Nat} (sqrt : K → K) (maxNorm : K) {g : Fin n → List K}
    (hg : ∀ i, (g i).length = len) :
    ReflTransGen Meet (fun i : Fin n => syncGrad sqrt maxNorm i (g i)) fun _ =>
      .done ((meanGrad len g).map (· * clipScale (sqrt (∑ i, sumsq (g i))) maxNorm)) := by
  refine (globalGradNorm_meets sqrt g _).trans ?_
  simp only [clipGrad_eq, List.length_map, hg]
  generalize clipScale (sqrt (∑ i, sumsq (g i))) maxNorm = scale
  have hlen (i : Fin n) : ((g i).map (· * scale)).length = len := by rw [List.length_map, hg]
  refine (allReduce_meets hlen _).trans ?_
  -- scaling and averaging are in the other order
  rw [vecSum_map_mul, meanGrad, List.map_map, List.map_map]
  have hcomm : ((· / (n : K)) ∘ (· * scale)) = (· * scale) ∘ (· / (n : K)) := by
    funext x
    exact (div_mul_eq_mul_div x (n : K) scale).symm
  rw [hcomm]

/-- **Shards.** When the local vectors are parts of one gradient, they are left as the parts of
that gradient clipped. -/
theorem clip_shards (sqrt : K → K) (maxNorm : K) (shard : Fin n → List K) :
    ∃ left : Fin n → List K,
      Completes (fun i : Fin n => (globalGradNorm sqrt i (shard i)).bind fun gnorm =>
        .done (clipGradByGlobalNorm (shard i) gnorm maxNorm).1) left ∧
      (List.ofFn left).flatten = clipped sqrt maxNorm (List.ofFn shard).flatten := by
  refine ⟨_, completes_of_meets (globalGradNorm_meets sqrt shard _), ?_⟩
  have hnorm : sumsq (List.ofFn shard).flatten = ∑ i, sumsq (shard i) := by
    simp only [sumsq_eq, List.map_flatten, List.sum_flatten, List.map_ofFn, List.sum_ofFn,
      Function.comp_def]
  rw [clipped, hnorm, clipGrad_eq]
  simp only [clipGrad_eq, List.map_flatten, List.map_ofFn, Function.comp_def]

end

/-! ## The scale -/

section

variable [Field K] [LinearOrder K] [IsStrictOrderedRing K]

open scoped CrossMachine.Lib.StrictOrder

theorem kEps_pos : (0 : K) < kEps := by
  rw [kEps]
  positivity

/-- Two norms scale alike when they are equal, when nothing is left, and when neither is over
the bound. -/
theorem clipScale_eq_iff {a b maxNorm : K} (hb : 0 ≤ b) (hab : b ≤ a) :
    clipScale a maxNorm = clipScale b maxNorm ↔
      a = b ∨ maxNorm = 0 ∨ a + kEps ≤ maxNorm := by
  have hB : 0 < b + kEps := add_pos_of_nonneg_of_pos hb kEps_pos
  have hA : 0 < a + kEps := lt_of_lt_of_le hB (by gcongr)
  constructor
  · intro heq
    by_cases hover : a + kEps ≤ maxNorm
    · exact .inr (.inr hover)
    have hlt : maxNorm / (a + kEps) < 1 := (div_lt_one hA).mpr (not_le.mp hover)
    rw [clipScale, clipScale, min_eq_right hlt.le] at heq
    -- the larger norm is clipped; the smaller one is scaled alike only where nothing depends on it
    rcases min_choice 1 (maxNorm / (b + kEps)) with hone | hsame
    · rw [hone] at heq
      exact absurd heq hlt.ne
    · rw [hsame, div_eq_div_iff hA.ne' hB.ne', mul_eq_mul_left_iff] at heq
      rcases heq with heq | hzero
      · exact .inl (add_right_cancel heq).symm
      · exact .inr (.inl hzero)
  · rintro (rfl | rfl | hover)
    · rfl
    · simp [clipScale]
    · have hunder : b + kEps ≤ maxNorm := le_trans (by gcongr) hover
      rw [clipScale, clipScale, min_eq_left ((one_le_div hA).mpr hover),
        min_eq_left ((one_le_div hB).mpr hunder)]

end

/-! ## The worker and one process -/

section

variable {len : Nat} (maxNorm : ℝ) (g : Fin n → Fin len → ℝ)

theorem meanGrad_ofFn :
    meanGrad len (fun i => List.ofFn (g i)) = List.ofFn fun y => (∑ i, g i y) / n := by
  rw [meanGrad, vecSum_ofFn, List.map_ofFn]
  rfl

/-- The mean of `n` gradients is that much shorter. -/
theorem sumsq_mean_le :
    n * sumsq (List.ofFn fun y => (∑ i, g i y) / n) ≤ ∑ i, sumsq (List.ofFn (g i)) := by
  simp only [sumsq_ofFn]
  rw [Finset.sum_comm, Finset.mul_sum]
  refine Finset.sum_le_sum fun y _ => ?_
  have hcs : (∑ i, g i y) ^ 2 ≤ n * ∑ i, g i y ^ 2 := by
    simpa using sq_sum_le_card_mul_sum_sq (s := Finset.univ) (f := fun i => g i y)
  rcases Nat.eq_zero_or_pos n with rfl | hn
  · simp
  · have hn' : (0 : ℝ) < n := Nat.cast_pos.mpr hn
    rw [div_pow, mul_div_assoc', sq (n : ℝ), mul_div_mul_left _ _ hn'.ne', div_le_iff₀ hn',
      mul_comm]
    exact hcs

theorem sumsq_mean_nonneg : 0 ≤ sumsq (List.ofFn fun y => (∑ i, g i y) / n) := by
  rw [sumsq_ofFn]
  exact Finset.sum_nonneg fun y _ => sq_nonneg _

/-- The mean has the norm of all local gradients together only when there is one of them or it
is nothing. -/
theorem mean_eq_zero_of_norms (hn : 2 ≤ n)
    (h : √(∑ i, sumsq (List.ofFn (g i))) = √(sumsq (List.ofFn fun y => (∑ i, g i y) / n)))
    (y : Fin len) : ∑ i, g i y = 0 := by
  have hmean := sumsq_mean_nonneg g
  have hshort := sumsq_mean_le g
  have hn' : (2 : ℝ) ≤ n := by exact_mod_cast hn
  have hall : 0 ≤ ∑ i, sumsq (List.ofFn (g i)) := le_trans (by positivity) hshort
  rw [Real.sqrt_inj hall hmean] at h
  have hzero : sumsq (List.ofFn fun y => (∑ i, g i y) / n) = 0 := by nlinarith
  rw [sumsq_ofFn, Finset.sum_eq_zero_iff_of_nonneg fun y _ => sq_nonneg _] at hzero
  have hy := pow_eq_zero_iff two_ne_zero |>.mp (hzero y (Finset.mem_univ y))
  exact (div_eq_zero_iff.mp hy).resolve_right (by positivity)

/-- Both are the mean, scaled. -/
theorem completes_clipped_iff :
    Completes (fun i : Fin n => syncGrad Real.sqrt maxNorm i (List.ofFn (g i)))
        (fun _ => clipped Real.sqrt maxNorm (meanGrad len fun i => List.ofFn (g i))) ↔
      n = 0 ∨ (∀ y, ∑ i, g i y = 0) ∨
        clipScale √(∑ i, sumsq (List.ofFn (g i))) maxNorm =
          clipScale √(sumsq (List.ofFn fun y => (∑ i, g i y) / n)) maxNorm := by
  rcases Nat.eq_zero_or_pos n with rfl | hn
  · exact ⟨fun _ => .inl rfl, fun _ => completes_nobody⟩
  rw [completes_iff (syncGrad_meets Real.sqrt maxNorm fun i => List.length_ofFn), clipped,
    clipGrad_eq, meanGrad_ofFn]
  generalize clipScale √(∑ i, sumsq (List.ofFn (g i))) maxNorm = a
  generalize clipScale √(sumsq (List.ofFn fun y => (∑ i, g i y) / n)) maxNorm = b
  have hn' : (n : ℝ) ≠ 0 := Nat.cast_ne_zero.mpr hn.ne'
  constructor
  · intro heq
    -- two multiples of the mean are equal where the factors are, or the mean is zero
    have hlist := congrFun heq ⟨0, hn⟩
    rw [List.map_ofFn, List.map_ofFn, List.ofFn_inj] at hlist
    by_cases hab : a = b
    · exact .inr (.inr hab)
    · refine .inr (.inl fun y => ?_)
      have hy : (∑ i, g i y) / n * b = (∑ i, g i y) / n * a := congrFun hlist y
      rcases mul_eq_mul_left_iff.mp hy with hba | hzero
      · exact absurd hba.symm hab
      · exact (div_eq_zero_iff.mp hzero).resolve_right hn'
  · intro h
    rcases h with h | hzero | hab
    · exact absurd h hn.ne'
    · simp [hzero]
    · rw [hab]

/-- **The worker's gradient** is the mean of the local ones, clipped, exactly when there is one
rank at most, the gradients cancel out, the bound is zero, or all local gradients together are
within the bound. Otherwise the mean is clipped by a norm that is not its own. -/
theorem syncGrad_iff (n len : Nat) (maxNorm : ℝ) (g : Fin n → Fin len → ℝ) :
    Completes (fun i : Fin n => syncGrad Real.sqrt maxNorm i (List.ofFn (g i)))
        (fun _ => clipped Real.sqrt maxNorm (meanGrad len fun i => List.ofFn (g i))) ↔
      n ≤ 1 ∨ (∀ y, ∑ i, g i y = 0) ∨ maxNorm = 0 ∨
        √(∑ i, ∑ y, g i y ^ 2) + kEps ≤ maxNorm := by
  rw [completes_clipped_iff]
  rcases Nat.lt_or_ge n 2 with hn | hn
  · refine iff_of_true ?_ (.inl (by omega))
    obtain rfl | rfl : n = 0 ∨ n = 1 := by omega
    · exact .inl rfl
    · simp
  -- the norm of the mean is at most the norm that the worker clips by
  have hle : √(sumsq (List.ofFn fun y => (∑ i, g i y) / n)) ≤
      √(∑ i, sumsq (List.ofFn (g i))) := by
    refine Real.sqrt_le_sqrt (le_trans ?_ (sumsq_mean_le g))
    exact le_mul_of_one_le_left (sumsq_mean_nonneg g) (by exact_mod_cast (by omega : 1 ≤ n))
  rw [clipScale_eq_iff (Real.sqrt_nonneg _) hle]
  have hsq : ∑ i, sumsq (List.ofFn (g i)) = ∑ i, ∑ y, g i y ^ 2 := by simp only [sumsq_ofFn]
  constructor
  · rintro (hzero | hcancel | hsame | hnone | hunder)
    · omega
    · exact .inr (.inl hcancel)
    · exact .inr (.inl (mean_eq_zero_of_norms g hn hsame))
    · exact .inr (.inr (.inl hnone))
    · exact .inr (.inr (.inr (hsq ▸ hunder)))
  · rintro (hone | hcancel | hnone | hunder)
    · omega
    · exact .inr (.inl hcancel)
    · exact .inr (.inr (.inr (.inl hnone)))
    · exact .inr (.inr (.inr (.inr (hsq ▸ hunder))))

/-- Two ranks, both with the gradient 1 and the bound 1. The mean is 1 and is scaled by
`1 / (√2 + eps)`. -/
theorem syncGrad_two_ranks :
    ¬ Completes (fun i : Fin 2 => syncGrad Real.sqrt (1 : ℝ) i [1])
        (fun _ => clipped Real.sqrt (1 : ℝ) (meanGrad 1 fun _ : Fin 2 => [1])) := by
  intro h
  have hones := (completes_clipped_iff 1 fun (_ : Fin 2) (_ : Fin 1) => (1 : ℝ)).mp
    (by simpa using h)
  have hroot : (1 : ℝ) < √2 := Real.one_lt_sqrt_two
  have heps : (0 : ℝ) < kEps := kEps_pos
  simp only [sumsq_ofFn] at hones
  norm_num at hones
  rcases (clipScale_eq_iff zero_le_one hroot.le).mp hones with hone | hnone | hunder
  · exact hroot.ne' hone
  · exact one_ne_zero hnone
  · linarith

end

end CrossMachine.Training
