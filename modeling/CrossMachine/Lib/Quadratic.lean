import CrossMachine.Lib.Instances
import CrossMachine.Lib.StrictOrder
import Mathlib.Algebra.BigOperators.Ring.Finset
import Mathlib.Algebra.Order.BigOperators.Group.Finset
import Mathlib.Algebra.Order.Field.Basic
import Mathlib.Tactic.FieldSimp
import Mathlib.Tactic.Linarith
import Mathlib.Tactic.Ring

/-!
# Minimising a quadratic form

A symmetric form that is positive definite, and the vectors that agree with a given one outside
some free coordinates. Among them the form is least at the given vector exactly when its gradient
vanishes in every free coordinate (`quad_minimal_iff`): along a coordinate with a gradient there
is a step down, and without one every way leads up.
-/

namespace CrossMachine.Lib

variable {ι K : Type*} [Field K] {s : Finset ι} {H : ι → ι → K}

/-- `v H vᵀ`. -/
def quad (s : Finset ι) (H : ι → ι → K) (v : ι → K) : K := ∑ i ∈ s, ∑ j ∈ s, v i * H i j * v j

/-- Half the gradient at `v`. -/
def grad (s : Finset ι) (H : ι → ι → K) (v : ι → K) (j : ι) : K := ∑ i ∈ s, H j i * v i

def PosDef [LinearOrder K] (s : Finset ι) (H : ι → ι → K) : Prop :=
  ∀ v : ι → K, (∃ i ∈ s, v i ≠ 0) → 0 < quad s H v

theorem quad_eq (v : ι → K) : quad s H v = ∑ i ∈ s, v i * grad s H v i := by
  simp only [quad, grad, Finset.mul_sum, mul_assoc]

theorem grad_congr {v w : ι → K} (h : ∀ i ∈ s, v i = w i) (j : ι) :
    grad s H v j = grad s H w j :=
  Finset.sum_congr rfl fun i hi => by rw [h i hi]

theorem quad_congr {v w : ι → K} (h : ∀ i ∈ s, v i = w i) : quad s H v = quad s H w :=
  Finset.sum_congr rfl fun i hi => Finset.sum_congr rfl fun j hj => by rw [h i hi, h j hj]

theorem grad_add (v d : ι → K) (j : ι) :
    grad s H (fun i => v i + d i) j = grad s H v j + grad s H d j := by
  simp only [grad, mul_add, Finset.sum_add_distrib]

/-- The two mixed terms of a symmetric form are equal. -/
theorem sum_mul_grad_comm (hsymm : ∀ i ∈ s, ∀ j ∈ s, H i j = H j i) (v d : ι → K) :
    ∑ i ∈ s, v i * grad s H d i = ∑ i ∈ s, d i * grad s H v i := by
  simp only [grad, Finset.mul_sum]
  rw [Finset.sum_comm]
  refine Finset.sum_congr rfl fun j hj => Finset.sum_congr rfl fun i hi => ?_
  rw [hsymm i hi j hj]
  ring

theorem quad_add (hsymm : ∀ i ∈ s, ∀ j ∈ s, H i j = H j i) (v d : ι → K) :
    quad s H (fun i => v i + d i) =
      quad s H v + 2 * (∑ i ∈ s, d i * grad s H v i) + quad s H d := by
  simp only [quad_eq, grad_add, add_mul, mul_add, Finset.sum_add_distrib,
    sum_mul_grad_comm hsymm v d]
  ring

variable [LinearOrder K]

theorem PosDef.nonneg (hpos : PosDef s H) (v : ι → K) : 0 ≤ quad s H v := by
  by_cases hv : ∃ i ∈ s, v i ≠ 0
  · exact (hpos v hv).le
  · refine (Finset.sum_eq_zero fun i hi => Finset.sum_eq_zero fun j _ => ?_).ge
    have hzero : v i = 0 := not_not.mp fun hne => hv ⟨i, hi, hne⟩
    rw [hzero, zero_mul, zero_mul]

variable [DecidableEq ι]

omit [LinearOrder K] in
/-- A vector along one coordinate. -/
theorem quad_single {j : ι} (hj : j ∈ s) (t : K) :
    quad s H (fun i => if i = j then t else 0) = t ^ 2 * H j j := by
  have hgrad : grad s H (fun i => if i = j then t else 0) j = H j j * t := by
    simp [grad, hj]
  rw [quad_eq, Finset.sum_eq_single_of_mem j hj fun i _ hne => by rw [if_neg hne, zero_mul],
    if_pos rfl, hgrad]
  ring

variable [IsStrictOrderedRing K]

open scoped CrossMachine.Lib.StrictOrder

theorem PosDef.diag_pos (hpos : PosDef s H) {j : ι} (hj : j ∈ s) : 0 < H j j := by
  have h := hpos (fun i => if i = j then 1 else 0) ⟨j, hj, by simp⟩
  rwa [quad_single hj, one_pow, one_mul] at h

/-- **A least value.** With some coordinates fixed, the form is least where its gradient vanishes
in the free ones, and only there. -/
theorem quad_minimal_iff (hsymm : ∀ i ∈ s, ∀ j ∈ s, H i j = H j i) (hpos : PosDef s H)
    (free : ι → Prop) (v : ι → K) :
    (∀ v' : ι → K, (∀ i ∈ s, ¬ free i → v' i = v i) → quad s H v ≤ quad s H v') ↔
      ∀ j ∈ s, free j → grad s H v j = 0 := by
  constructor
  · intro hleast j hj hfree
    have hdiag := hpos.diag_pos hj
    -- the step down along `j`
    have hstep := hleast (fun i => v i + if i = j then -grad s H v j / H j j else 0)
      fun i _ hfixed => by
        have hne : i ≠ j := fun heq => hfixed (by rwa [heq])
        rw [if_neg hne, add_zero]
    rw [quad_add hsymm, quad_single hj,
      Finset.sum_eq_single_of_mem j hj fun i _ hne => by rw [if_neg hne, zero_mul],
      if_pos rfl] at hstep
    have hdown : 2 * (-grad s H v j / H j j * grad s H v j) + (-grad s H v j / H j j) ^ 2 * H j j =
        -(grad s H v j ^ 2 / H j j) := by
      field_simp
      ring
    have hle : grad s H v j ^ 2 / H j j ≤ 0 := by linarith
    rw [div_le_iff₀ hdiag, zero_mul] at hle
    exact pow_eq_zero_iff two_ne_zero |>.mp (le_antisymm hle (sq_nonneg _))
  · intro hgrad v' hfixed
    have hmixed : ∑ i ∈ s, (v' i - v i) * grad s H v i = 0 := by
      refine Finset.sum_eq_zero fun i hi => ?_
      by_cases hfree : free i
      · rw [hgrad i hi hfree, mul_zero]
      · rw [hfixed i hi hfree, sub_self, zero_mul]
    have hsplit := quad_add hsymm v fun i => v' i - v i
    simp only [add_sub_cancel] at hsplit
    rw [hsplit, hmixed]
    linarith [hpos.nonneg fun i => v' i - v i]

end CrossMachine.Lib
