import Mathlib.Algebra.BigOperators.Field
import Mathlib.Algebra.Order.BigOperators.Group.Finset
import Mathlib.Algebra.Order.Field.Basic
import Mathlib.Tactic.FieldSimp
import Mathlib.Tactic.Linarith
import Mathlib.Tactic.Positivity
import Mathlib.Tactic.Ring

/-!
# The Gini index

How mixed a population is whose classes have the sizes `a c` out of `n`: the probability that two
members drawn with replacement are of different classes. Parting a population never raises the
index on average, and it leaves the index where it was exactly when both parts have the classes in
the proportions of the whole (`gini_parted`, `gini_parted_eq_zero`).
-/

namespace CrossMachine.Lib

variable {ι K : Type*} [Field K]

def gini (s : Finset ι) (a : ι → K) (n : K) : K := 1 - ∑ c ∈ s, (a c / n) * (a c / n)

variable {s : Finset ι} {a b : ι → K} {m n : K}

/-- What parting takes off the index. -/
theorem gini_parted (hm : m ≠ 0) (hn : n ≠ 0) (hmn : m + n ≠ 0) :
    gini s (fun c => a c + b c) (m + n) - (m * gini s a m + n * gini s b n) / (m + n) =
      ∑ c ∈ s, (a c * n - b c * m) ^ 2 / (m * n * (m + n) ^ 2) := by
  have hterm (c : ι) : (a c * n - b c * m) ^ 2 / (m * n * (m + n) ^ 2) =
      (m * ((a c / m) * (a c / m)) + n * ((b c / n) * (b c / n))) / (m + n) -
        ((a c + b c) / (m + n)) * ((a c + b c) / (m + n)) := by
    field_simp
    ring
  simp only [hterm, Finset.sum_sub_distrib, ← Finset.sum_div, Finset.sum_add_distrib,
    ← Finset.mul_sum, gini]
  field_simp
  ring

variable [LinearOrder K] [IsStrictOrderedRing K]

theorem gini_parted_eq_zero (hm : 0 < m) (hn : 0 < n) :
    gini s (fun c => a c + b c) (m + n) - (m * gini s a m + n * gini s b n) / (m + n) ≤ 0 ↔
      ∀ c ∈ s, a c * (m + n) = m * (a c + b c) := by
  have hpos : 0 < m * n * (m + n) ^ 2 := by positivity
  have hterm : ∀ c ∈ s, 0 ≤ (a c * n - b c * m) ^ 2 / (m * n * (m + n) ^ 2) :=
    fun c _ => by positivity
  rw [gini_parted hm.ne' hn.ne' (add_pos hm hn).ne', (Finset.sum_nonneg hterm).ge_iff_eq',
    Finset.sum_eq_zero_iff_of_nonneg hterm]
  refine forall₂_congr fun c _ => ?_
  rw [div_eq_zero_iff, or_iff_left hpos.ne', sq_eq_zero_iff]
  constructor <;> intro h <;> linarith

/-- A population with two classes is mixed. -/
theorem gini_pos (ha : ∀ c ∈ s, 0 ≤ a c) (hsum : ∑ c ∈ s, a c = n) {c : ι} (hc : c ∈ s)
    (hpos : 0 < a c) (hlt : a c < n) : 0 < gini s a n := by
  have hn : 0 < n := hpos.trans hlt
  have hshare : ∑ c ∈ s, a c / n = 1 := by rw [← Finset.sum_div, hsum, div_self hn.ne']
  have hle : ∀ d ∈ s, a d / n ≤ 1 := fun d hd => by
    rw [div_le_one hn, ← hsum]
    exact Finset.single_le_sum ha hd
  have hsquares : ∑ d ∈ s, (a d / n) * (a d / n) < ∑ d ∈ s, a d / n := by
    refine Finset.sum_lt_sum (fun d hd => ?_) ⟨c, hc, ?_⟩
    · exact mul_le_of_le_one_right (div_nonneg (ha d hd) hn.le) (hle d hd)
    · exact mul_lt_of_lt_one_right (div_pos hpos hn) ((div_lt_one hn).mpr hlt)
  rw [gini, sub_pos, ← hshare]
  exact hsquares

end CrossMachine.Lib
