import CrossMachine.Lib.Instances
import CrossMachine.Lib.Loops
import CrossMachine.Lib.StrictOrder
import CrossMachine.Serving.Gptq
import Mathlib.Algebra.Order.Floor.Ring
import Mathlib.Data.Rat.Floor
import Mathlib.Tactic.Linarith

/-!
# The error of rounding to nearest

A code and the zero point it is read with lie in `[0, 2^bits - 1]`, so what is read back lies
within `2^bits - 1` steps of zero, wherever the group lies. That bounds the weights that can come
back: the clamp of the zero point moves a group that is farther out. Within the bound, rounding
twice and clamping twice costs one step at most (`abs_code_sub_le`), and the exact condition
follows for a group (`groupMet_iff`) and for a matrix (`rtn_within_step_iff`).
-/

namespace CrossMachine.Serving

open Lib
open Training (Matrix)

variable {K : Type} [Field K] [LinearOrder K] [FloorRing K]

/-! ## What a group has to be -/

/-- The step of a group with these extremes. -/
def groupStep (lo hi : K) (bits : Nat) : K :=
  if hi - lo > 1 / 10 ^ 8 then (hi - lo) / (2 ^ bits - 1) else 1

/-- No weight is farther from zero than `2^bits` steps, and a weight that is alone in its group
is one of the integers that can be read back. -/
def GroupFits (bits : Nat) (values : List K) : Prop :=
  bits ≤ 30 ∧ ∀ lo hi, minMax values = some (lo, hi) →
    (∀ w ∈ values, |w| ≤ 2 ^ bits * groupStep lo hi bits) ∧
    (lo = hi → ∃ k : Int, lo = k ∧ |k| ≤ 2 ^ bits - 1)

/-- What is read back of a group. -/
def GroupMet (bits : Nat) (values : List K) : Prop :=
  ∃ p, groupParams values bits = some p ∧ ∀ w ∈ values, ∃ q, quantizeScalar w p bits = some q ∧
    |dequantizeScalar q p - w| ≤ p.scale ∧
    ((∀ w' ∈ values, w' = w) → dequantizeScalar q p = w)

/-! ## Rounding and clamping -/

section

variable [IsStrictOrderedRing K]

open scoped CrossMachine.Lib.StrictOrder

theorem abs_lround_sub_le (x : K) : |(lround x : K) - x| ≤ 1 / 2 := by
  have hfloor (y : K) : |(⌊y + 1 / 2⌋ : K) - y| ≤ 1 / 2 := by
    have hle := Int.floor_le (y + 1 / 2)
    have hlt := Int.lt_floor_add_one (y + 1 / 2)
    rw [abs_le]
    constructor <;> linarith
  rw [lround]
  split
  · exact hfloor x
  · have hneg := hfloor (-x)
    rwa [Int.cast_neg, ← abs_neg, neg_sub, sub_neg_eq_add, add_comm, ← sub_neg_eq_add]

variable {x : K} {k Q : Int} {values : List K}

theorem lround_le (h : x ≤ k) : lround x ≤ k := by
  have hhalf := (abs_le.mp (abs_lround_sub_le x)).2
  have hlt : (lround x : K) < (k + 1 : Int) := by
    push_cast
    linarith
  exact Int.lt_add_one_iff.mp (Int.cast_lt.mp hlt)

theorem le_lround (h : k ≤ x) : k ≤ lround x := by
  have hhalf := (abs_le.mp (abs_lround_sub_le x)).1
  have hlt : ((k - 1 : Int) : K) < lround x := by
    push_cast
    linarith
  exact Int.sub_one_lt_iff.mp (Int.cast_lt.mp hlt)

@[simp] theorem lround_intCast (k : Int) : lround (k : K) = k :=
  le_antisymm (lround_le le_rfl) (le_lround le_rfl)

theorem clamp_bounds {x hi : Int} (h : 0 ≤ hi) : 0 ≤ clamp x 0 hi ∧ clamp x 0 hi ≤ hi := by
  rw [clamp]
  omega

/-- A rounded quotient that is within `2^30` of zero is what the cast gives. -/
theorem lroundInt32_eq (h : |x| ≤ 2 ^ 30) : lroundInt32 x = some (lround x) := by
  have hhi : lround x ≤ 2 ^ 30 := lround_le (by exact_mod_cast (abs_le.mp h).2)
  have hlo : -2 ^ 30 ≤ lround x := le_lround (by exact_mod_cast (abs_le.mp h).1)
  rw [lroundInt32, if_pos (by omega)]
  congr 1
  rw [Int.bmod_eq_of_le] <;> omega

/-- **One step.** The zero point is rounded and clamped, and so is the code. -/
theorem abs_code_sub_le {a u : K} (hQ : 0 ≤ Q) (hau : a ≤ u) (hwide : u - a ≤ Q)
    (hlo : -(Q + 1) ≤ u) (hhi : u ≤ Q + 1) :
    |((clamp (lround u + clamp (lround (-a)) 0 Q) 0 Q - clamp (lround (-a)) 0 Q : Int) : K) - u|
      ≤ 1 := by
  obtain ⟨hu, hu'⟩ := abs_le.mp (abs_lround_sub_le u)
  obtain ⟨ha, ha'⟩ := abs_le.mp (abs_lround_sub_le (-a))
  obtain ⟨hz₀, hzQ⟩ := clamp_bounds (x := lround (-a)) hQ
  generalize hz : clamp (lround (-a)) 0 Q = z at hz₀ hzQ ⊢
  -- the zero point is where it leaves room for `u` on both sides
  have hbelow : -u - 1 ≤ z := by
    by_cases hclamped : lround (-a) ≤ Q
    · have hge : lround (-a) ≤ z := by rw [← hz, clamp]; omega
      have hge' : (lround (-a) : K) ≤ z := Int.cast_le.mpr hge
      linarith only [hge', ha, hau]
    · have htop : z = Q := by rw [← hz, clamp]; omega
      rw [htop]
      linarith only [hlo]
  have habove : (z : K) ≤ Q - u + 1 := by
    by_cases hclamped : 0 ≤ lround (-a)
    · have hle : z ≤ lround (-a) := by rw [← hz, clamp]; omega
      have hle' : (z : K) ≤ lround (-a) := Int.cast_le.mpr hle
      linarith only [hle', ha', hwide]
    · have hbottom : z = 0 := by rw [← hz, clamp]; omega
      rw [hbottom, Int.cast_zero]
      linarith only [hhi]
  by_cases hunder : lround u + z < 0
  · have hcode : clamp (lround u + z) 0 Q - z = -z := by rw [clamp]; omega
    have hround : (lround u : K) + z < 0 := by exact_mod_cast hunder
    rw [hcode, Int.cast_neg, abs_le]
    exact ⟨by linarith only [hround, hu], by linarith only [hbelow]⟩
  by_cases hover : Q < lround u + z
  · have hcode : clamp (lround u + z) 0 Q - z = Q - z := by rw [clamp]; omega
    have hround : (Q : K) < lround u + z := by exact_mod_cast hover
    rw [hcode, Int.cast_sub, abs_le]
    exact ⟨by linarith only [habove], by linarith only [hround, hu']⟩
  · have hcode : clamp (lround u + z) 0 Q - z = lround u := by rw [clamp]; omega
    rw [hcode]
    exact (abs_lround_sub_le u).trans one_half_lt_one.le

/-- An integer within the range keeps its place, though its zero point is clamped. -/
theorem code_sub_eq (h : |k| ≤ Q) : clamp (k + clamp (-k) 0 Q) 0 Q - clamp (-k) 0 Q = k := by
  have hk := abs_le.mp h
  simp only [clamp]
  omega

/-! ## The parameters of a group -/

theorem groupStep_pos {bits : Nat} (hbits : 1 ≤ bits) (lo hi : K) : 0 < groupStep lo hi bits := by
  have hQ : (1 : K) < 2 ^ bits := one_lt_pow₀ one_lt_two (by omega)
  rw [groupStep]
  split
  · rename_i hrange
    have hwide : 0 < hi - lo := lt_trans (by positivity) hrange
    exact div_pos hwide (sub_pos.mpr hQ)
  · exact zero_lt_one

/-- All of a group fits in the steps there are. -/
theorem sub_le_steps {bits : Nat} (hbits : 1 ≤ bits) (lo hi : K) :
    (hi - lo) / groupStep lo hi bits ≤ 2 ^ bits - 1 := by
  have hQ : (2 : K) ≤ 2 ^ bits := le_self_pow₀ one_le_two (by omega)
  rw [groupStep]
  split
  · rename_i hrange
    have hwide : 0 < hi - lo := lt_trans (by positivity) hrange
    rw [div_div_cancel₀ hwide.ne']
  · rename_i hrange
    have hsmall : hi - lo ≤ 1 := (not_lt.mp hrange).trans (by norm_num)
    rw [div_one]
    linarith

theorem findGroupParams_eq {bits : Nat} (hbits : 1 ≤ bits) (hmax : bits ≤ 30) (lo hi : K) :
    findGroupParams lo hi bits = (lroundInt32 (-lo / groupStep lo hi bits)).map fun z =>
      ⟨groupStep lo hi bits, clamp z 0 (2 ^ bits - 1)⟩ := by
  have hQ : (1 : K) < 2 ^ bits := one_lt_pow₀ one_lt_two (by omega)
  have hscale : scaleOf (hi - lo) (2 ^ bits - 1) = some (groupStep lo hi bits) := by
    rw [scaleOf, groupStep]
    split
    · rw [exactDiv]
      push_cast
      rw [if_neg (sub_pos.mpr hQ).ne']
    · rfl
  simp only [findGroupParams, qmaxOf, if_pos hmax, Option.bind_eq_bind, Option.bind_some, hscale]
  cases lroundInt32 (-lo / groupStep lo hi bits) <;> rfl

omit [Field K] [FloorRing K] [IsStrictOrderedRing K] in
/-- A group that is not empty has its extremes among its values. -/
theorem minMax_eq_some (hne : values ≠ []) :
    ∃ lo hi, minMax values = some (lo, hi) ∧ lo ∈ values ∧ hi ∈ values ∧
      ∀ w ∈ values, lo ≤ w ∧ w ≤ hi := by
  induction values using List.reverseRecOn with
  | nil => exact absurd rfl hne
  | append_singleton front w ih =>
      rw [minMax, List.foldl_concat, ← minMax]
      by_cases hfront : front = []
      · subst hfront
        exact ⟨w, w, rfl, by simp⟩
      obtain ⟨lo, hi, heq, hlo, hhi, hall⟩ := ih hfront
      refine ⟨min lo w, max hi w, by rw [heq], ?_, ?_, ?_⟩
      · rcases min_choice lo w with h | h <;> simp [h, hlo]
      · rcases max_choice hi w with h | h <;> simp [h, hhi]
      · intro x hx
        rcases List.mem_append.mp hx with hx | hx
        · exact ⟨(min_le_left _ _).trans (hall x hx).1, (hall x hx).2.trans (le_max_left _ _)⟩
        · rw [List.mem_singleton.mp hx]
          exact ⟨min_le_right _ _, le_max_right _ _⟩

theorem qmaxOf_eq_some {bits : Nat} : qmaxOf bits = some Q ↔ bits ≤ 30 ∧ 2 ^ bits - 1 = Q := by
  rw [qmaxOf]
  split <;> simp_all

omit [IsStrictOrderedRing K] in
theorem quantizeScalar_eq_some {w : K} {p : QuantParams K} {bits : Nat} {q : Int} :
    quantizeScalar w p bits = some q ↔ bits ≤ 30 ∧ ∃ steps sum,
      lroundInt32 (w / p.scale) = some steps ∧ addInt32 steps p.zero = some sum ∧
        clamp sum 0 (2 ^ bits - 1) = q := by
  simp only [quantizeScalar, Option.bind_eq_bind, Option.bind_eq_some_iff, qmaxOf_eq_some, pure,
    Option.some.injEq]
  constructor
  · rintro ⟨_, ⟨hbits, rfl⟩, steps, hsteps, sum, hsum, rfl⟩
    exact ⟨hbits, steps, sum, hsteps, hsum, rfl⟩
  · rintro ⟨hbits, steps, sum, hsteps, hsum, rfl⟩
    exact ⟨_, ⟨hbits, rfl⟩, steps, hsteps, sum, hsum, rfl⟩

/-! ## A group -/

/-- Nothing is read back from beyond `2^bits - 1` steps. -/
theorem abs_dequantizeScalar_le {scale : K} {zero q : Int} (hscale : 0 < scale)
    (hsteps : |q - zero| ≤ Q) : |dequantizeScalar q ⟨scale, zero⟩| ≤ Q * scale := by
  have hcast : |(q : K) - zero| ≤ Q := by exact_mod_cast hsteps
  rw [dequantizeScalar, abs_mul, abs_of_pos hscale]
  exact mul_le_mul_of_nonneg_right hcast hscale.le

theorem one_le_qmax {bits : Nat} (hbits : 1 ≤ bits) : (1 : Int) ≤ 2 ^ bits - 1 := by
  have hpow : (2 : Int) ^ 1 ≤ 2 ^ bits := pow_le_pow_right₀ (by norm_num) hbits
  omega

/-- What comes back within a step was within the steps there are. -/
theorem GroupMet.fits {bits : Nat} (hbits : 1 ≤ bits) (hne : values ≠ [])
    (h : GroupMet bits values) : GroupFits bits values := by
  obtain ⟨p, hp, hall⟩ := h
  obtain ⟨lo, hi, hextremes, hlo, hhi, hwithin⟩ := minMax_eq_some hne
  obtain ⟨q, hq, -⟩ := hall lo hlo
  have hmax : bits ≤ 30 := (quantizeScalar_eq_some.mp hq).1
  have hQ := one_le_qmax hbits
  simp only [groupParams, hextremes, Option.bind_eq_bind, Option.bind_some,
    findGroupParams_eq hbits hmax, Option.map_eq_some_iff] at hp
  obtain ⟨z, -, rfl⟩ := hp
  have hzero := clamp_bounds (x := z) (by omega : (0 : Int) ≤ 2 ^ bits - 1)
  generalize clamp z 0 (2 ^ bits - 1) = zero at hall hq hzero
  have hstep := groupStep_pos hbits lo hi
  have hback (w : K) (hw : w ∈ values) : ∃ code : Int, |code - zero| ≤ 2 ^ bits - 1 ∧
      |dequantizeScalar code ⟨groupStep lo hi bits, zero⟩ - w| ≤ groupStep lo hi bits ∧
      ((∀ w' ∈ values, w' = w) →
        dequantizeScalar code ⟨groupStep lo hi bits, zero⟩ = w) := by
    obtain ⟨q, hq, hbound⟩ := hall w hw
    obtain ⟨-, steps, sum, -, -, rfl⟩ := quantizeScalar_eq_some.mp hq
    have hcode := clamp_bounds (x := sum) (by omega : (0 : Int) ≤ 2 ^ bits - 1)
    exact ⟨_, abs_le.mpr ⟨by omega, by omega⟩, hbound⟩
  refine ⟨hmax, fun lo' hi' hextremes' => ?_⟩
  obtain ⟨rfl, rfl⟩ := Prod.mk.inj (Option.some.inj (hextremes.symm.trans hextremes'))
  refine ⟨fun w hw => ?_, fun hsame => ?_⟩
  · -- what is read back is not far from zero, and the weight is not far from that
    obtain ⟨code, hsteps, herror, -⟩ := hback w hw
    have hfar := abs_dequantizeScalar_le hstep hsteps
    have htriangle := abs_sub_abs_le_abs_sub w
      (dequantizeScalar code ⟨groupStep lo hi bits, zero⟩)
    rw [abs_sub_comm] at htriangle
    push_cast at hfar
    linarith
  · obtain ⟨code, hsteps, -, hexact⟩ := hback lo hlo
    have hone : groupStep lo hi bits = 1 := by
      rw [groupStep, hsame, sub_self, if_neg (by norm_num)]
    have hvalue := hexact fun w hw =>
      le_antisymm (hsame ▸ (hwithin w hw).2) (hwithin w hw).1
    rw [dequantizeScalar, hone, mul_one, ← Int.cast_sub] at hvalue
    exact ⟨code - zero, hvalue.symm, hsteps⟩

/-- What is within the steps there are comes back within a step. -/
theorem GroupFits.met {bits : Nat} (hbits : 1 ≤ bits) (hne : values ≠ [])
    (h : GroupFits bits values) : GroupMet bits values := by
  obtain ⟨hmax, h⟩ := h
  obtain ⟨lo, hi, hextremes, hlo, hhi, hwithin⟩ := minMax_eq_some hne
  obtain ⟨hfar, hsame⟩ := h lo hi hextremes
  have hQ := one_le_qmax hbits
  have hpow : (2 : Int) ^ bits ≤ 2 ^ 30 := pow_le_pow_right₀ (by norm_num) hmax
  have hpow' : (2 : K) ^ bits ≤ 2 ^ 30 := pow_le_pow_right₀ one_le_two hmax
  have hstep := groupStep_pos hbits lo hi
  have hwide := sub_le_steps hbits lo hi
  have hsteps (w : K) (hw : w ∈ values) : |w / groupStep lo hi bits| ≤ 2 ^ bits := by
    rw [abs_div, abs_of_pos hstep, div_le_iff₀ hstep]
    exact hfar w hw
  have hround (w : K) (hw : w ∈ values) : lround (w / groupStep lo hi bits) ≤ 2 ^ bits ∧
      -2 ^ bits ≤ lround (w / groupStep lo hi bits) :=
    ⟨lround_le (by exact_mod_cast (abs_le.mp (hsteps w hw)).2),
      le_lround (by exact_mod_cast (abs_le.mp (hsteps w hw)).1)⟩
  refine ⟨⟨groupStep lo hi bits,
    clamp (lround (-(lo / groupStep lo hi bits))) 0 (2 ^ bits - 1)⟩, ?_, fun w hw => ?_⟩
  · simp only [groupParams, hextremes, Option.bind_eq_bind, Option.bind_some,
      findGroupParams_eq hbits hmax]
    rw [neg_div, lroundInt32_eq (by rw [abs_neg]; exact (hsteps lo hlo).trans hpow')]
    rfl
  have hzero := clamp_bounds (x := lround (-(lo / groupStep lo hi bits)))
    (by omega : (0 : Int) ≤ 2 ^ bits - 1)
  have hw' := hround w hw
  refine ⟨_, quantizeScalar_eq_some.mpr ⟨hmax, _, _, lroundInt32_eq ((hsteps w hw).trans hpow'),
    if_pos ?_, rfl⟩, ?_, fun hall => ?_⟩
  · dsimp only
    omega
  · -- counted in steps, the weight and the lowest one are at most the range apart
    have hnear : w / groupStep lo hi bits - lo / groupStep lo hi bits ≤
        ((2 ^ bits - 1 : Int) : K) := by
      rw [← sub_div]
      push_cast
      exact (div_le_div_of_nonneg_right (sub_le_sub_right (hwithin w hw).2 lo) hstep.le).trans hwide
    have hcode := abs_code_sub_le (by omega) (div_le_div_of_nonneg_right (hwithin w hw).1 hstep.le)
      hnear (by push_cast; linarith [(abs_le.mp (hsteps w hw)).1])
      (by push_cast; linarith [(abs_le.mp (hsteps w hw)).2])
    have herror := mul_le_mul_of_nonneg_right hcode hstep.le
    rw [one_mul, ← abs_of_pos hstep, ← abs_mul, abs_of_pos hstep, sub_mul,
      div_mul_cancel₀ _ hstep.ne', Int.cast_sub] at herror
    exact herror
  · -- a weight that is alone is its own extremes, and an integer
    obtain rfl : lo = w := hall lo hlo
    obtain rfl : hi = lo := hall hi hhi
    obtain ⟨k, hk, hkQ⟩ := hsame rfl
    have hone : groupStep hi hi bits = 1 := by rw [groupStep, sub_self, if_neg (by norm_num)]
    rw [hone, div_one, hk, ← Int.cast_neg, lround_intCast, lround_intCast, dequantizeScalar,
      mul_one, ← Int.cast_sub, code_sub_eq hkQ]

theorem groupMet_iff {bits : Nat} (hbits : 1 ≤ bits) (hne : values ≠ []) :
    GroupMet bits values ↔ GroupFits bits values :=
  ⟨GroupMet.fits hbits hne, GroupFits.met hbits hne⟩

/-- Zero inside the group is enough. -/
theorem GroupFits.of_straddles {bits : Nat} (hbits : 1 ≤ bits) (hmax : bits ≤ 30)
    (hneg : ∃ w ∈ values, w ≤ 0) (hpos : ∃ w ∈ values, 0 ≤ w) : GroupFits bits values := by
  obtain ⟨x, hx, hx₀⟩ := hneg
  obtain ⟨y, hy, hy₀⟩ := hpos
  obtain ⟨lo, hi, hextremes, -, -, hwithin⟩ := minMax_eq_some (List.ne_nil_of_mem hx)
  refine ⟨hmax, fun lo' hi' hextremes' => ?_⟩
  obtain ⟨rfl, rfl⟩ := Prod.mk.inj (Option.some.inj (hextremes.symm.trans hextremes'))
  have hstep := groupStep_pos hbits lo hi
  have hlo : lo ≤ 0 := (hwithin x hx).1.trans hx₀
  have hhi : 0 ≤ hi := hy₀.trans (hwithin y hy).2
  have hwide : hi - lo ≤ (2 ^ bits - 1) * groupStep lo hi bits :=
    (div_le_iff₀ hstep).mp (sub_le_steps hbits lo hi)
  refine ⟨fun w hw => ?_, fun hsame => ⟨0, ?_, ?_⟩⟩
  · have hw' := hwithin w hw
    have hfar : |w| ≤ hi - lo := abs_le.mpr ⟨by linarith, by linarith⟩
    linarith
  · rw [Int.cast_zero]
    exact le_antisymm hlo (hsame ▸ hhi)
  · have hQ := one_le_qmax hbits
    rw [abs_zero]
    omega

end

/-! ## Columns and groups -/

variable {c : Nat} {weight : Matrix K}

theorem mem_groupColumns {cols groupSize g : Nat} (hsize : 0 < groupSize) :
    c ∈ groupColumns cols groupSize g ↔ c < cols ∧ c / groupSize = g := by
  have hmul := Nat.succ_mul g groupSize
  rw [groupColumns, List.mem_range'_1, Nat.div_eq_iff hsize]
  omega

theorem numGroups_eq_some {cols groupSize groups : Nat} :
    numGroups cols groupSize = some groups ↔ 0 < groupSize ∧ cols + groupSize < 2 ^ 31 ∧
      (cols + groupSize - 1) / groupSize = groups := by
  rw [numGroups]
  split
  · exact ⟨fun h => by simp at h, fun h => by omega⟩
  · simp only [Option.some.injEq]
    omega

/-- A column has one of the groups. -/
theorem div_lt_groups {cols groupSize : Nat} (hsize : 0 < groupSize) (hc : c < cols) :
    c / groupSize < (cols + groupSize - 1) / groupSize := by
  rw [Nat.div_lt_iff_lt_mul hsize]
  have hdiv := Nat.div_add_mod (cols + groupSize - 1) groupSize
  have hmod := Nat.mod_lt (cols + groupSize - 1) hsize
  rw [Nat.mul_comm]
  omega

/-- A group has one of the columns. -/
theorem groupColumns_ne_nil {cols groupSize g : Nat} (hsize : 0 < groupSize)
    (hg : g < (cols + groupSize - 1) / groupSize) : groupColumns cols groupSize g ≠ [] := by
  have hle := (Nat.le_div_iff_mul_le hsize).mp hg
  rw [Nat.succ_mul] at hle
  refine List.ne_nil_of_mem (a := g * groupSize) ((mem_groupColumns hsize).mpr ⟨by omega, ?_⟩)
  exact Nat.mul_div_cancel g hsize

/-! ## A row -/

/-- The first `g` groups of a row are quantized. -/
structure RowQuantized (row : Nat → K) (cols groupSize bits g : Nat) (a : RowArrays K) : Prop where
  scales : a.scales.length = g
  zeros : a.zeros.length = g
  codes : a.qweight.length = min (g * groupSize) cols
  params : ∀ g' < g, groupParams ((groupColumns cols groupSize g').map row) bits =
    some (a.params g')
  code : ∀ c < min (g * groupSize) cols, quantizeScalar (row c) (a.params (c / groupSize)) bits =
    some (a.qweight.getD c 0)

variable {row : Nat → K} {cols groupSize bits g groups : Nat} {a a' : RowArrays K}

theorem rtnGroup_eq_some : rtnGroup row cols groupSize bits a g = some a' ↔ ∃ p codes,
    groupParams ((groupColumns cols groupSize g).map row) bits = some p ∧
      (groupColumns cols groupSize g).mapM (fun c => quantizeScalar (row c) p bits) = some codes ∧
      (a.addParams p).addCodes codes = a' := by
  simp only [rtnGroup, Option.bind_eq_bind, Option.bind_eq_some_iff, pure, Option.some.injEq]
  constructor
  · rintro ⟨p, hp, codes, hcodes, rfl⟩
    exact ⟨p, codes, hp, hcodes, rfl⟩
  · rintro ⟨p, codes, hp, hcodes, rfl⟩
    exact ⟨p, hp, codes, hcodes, rfl⟩

omit [LinearOrder K] [FloorRing K] in
/-- The parameters of the groups before stay, and those of the new one are behind them. -/
theorem params_addParams {p : QuantParams K} (hscales : a.scales.length = g)
    (hzeros : a.zeros.length = g) {g' : Nat} (hg : g' ≤ g) (codes : List Int) :
    ((a.addParams p).addCodes codes).params g' = if g' = g then p else a.params g' := by
  rw [RowArrays.params, RowArrays.addCodes, RowArrays.addParams]
  split
  · rename_i heq
    subst heq
    rw [List.getD_append_right _ _ _ _ hscales.le, List.getD_append_right _ _ _ _ hzeros.le,
      hscales, hzeros, Nat.sub_self]
    rfl
  · rw [List.getD_append _ _ _ _ (by omega), List.getD_append _ _ _ _ (by omega)]
    rfl

theorem RowQuantized.step (hsize : 0 < groupSize) (ha : RowQuantized row cols groupSize bits g a)
    (h : rtnGroup row cols groupSize bits a g = some a') :
    RowQuantized row cols groupSize bits (g + 1) a' := by
  obtain ⟨p, codes, hp, hcodes, rfl⟩ := rtnGroup_eq_some.mp h
  obtain ⟨hlen, hcode⟩ := mapM_range'_getD hcodes 0
  have hnext : (g + 1) * groupSize = g * groupSize + groupSize := Nat.succ_mul g groupSize
  have hparams {g' : Nat} (hg : g' ≤ g) :=
    params_addParams (p := p) ha.scales ha.zeros hg codes
  refine ⟨?_, ?_, ?_, fun g' hg => ?_, fun c hc => ?_⟩
  · simp [RowArrays.addCodes, RowArrays.addParams, ha.scales]
  · simp [RowArrays.addCodes, RowArrays.addParams, ha.zeros]
  · rw [RowArrays.addCodes, RowArrays.addParams, List.length_append, ha.codes, hlen]
    omega
  · rw [hparams (by omega)]
    split
    · rename_i heq
      rw [heq, hp]
    · exact ha.params g' (by omega)
  · have hgroup : c / groupSize ≤ g := by
      rw [← Nat.lt_add_one_iff, Nat.div_lt_iff_lt_mul hsize]
      omega
    rw [hparams hgroup, RowArrays.addCodes, RowArrays.addParams]
    by_cases hfront : c < min (g * groupSize) cols
    · -- a column of the groups before
      have hother : c / groupSize ≠ g := by
        have := (Nat.div_lt_iff_lt_mul hsize).mpr (show c < g * groupSize by omega)
        omega
      rw [if_neg hother, List.getD_append _ _ _ _ (by rw [ha.codes]; exact hfront)]
      exact ha.code c hfront
    · have hown : c / groupSize = g := by
        have := (Nat.le_div_iff_mul_le hsize).mpr (show g * groupSize ≤ c by omega)
        omega
      have hin := hcode (c - g * groupSize) (by omega)
      rw [Nat.add_sub_cancel' (by omega)] at hin
      rw [if_pos hown, List.getD_append_right _ _ _ _ (by rw [ha.codes]; omega), ha.codes, hin]
      congr 2
      omega

theorem rtnRow_quantized (hsize : 0 < groupSize)
    (h : rtnRow row cols groupSize bits groups = some a) :
    RowQuantized row cols groupSize bits groups a := by
  induction groups generalizing a with
  | zero =>
      obtain rfl : RowArrays.empty = a := Option.some.inj h
      refine ⟨rfl, rfl, by simp [RowArrays.empty], fun g' hg => absurd hg (Nat.not_lt_zero g'),
        fun c hc => ?_⟩
      omega
  | succ groups ih =>
      rw [rtnRow, List.range_succ, List.foldlM_append] at h
      obtain ⟨front, hfront, hlast⟩ := Option.bind_eq_some_iff.mp h
      obtain ⟨last, hstep, hdone⟩ := foldlM_cons_eq_some.mp hlast
      obtain rfl : last = a := Option.some.inj hdone
      exact (ih hfront).step hsize hstep

/-- A row is quantized when its groups can be. -/
theorem rtnRow_isSome (h : ∀ g < groups, ∃ p,
    groupParams ((groupColumns cols groupSize g).map row) bits = some p ∧
      ∀ c ∈ groupColumns cols groupSize g, ∃ q, quantizeScalar (row c) p bits = some q) :
    ∃ a, rtnRow row cols groupSize bits groups = some a := by
  refine foldlM_isSome_iff.mpr fun before g after hsplit t _ => ?_
  have hg : g < groups := List.mem_range.mp (by rw [hsplit]; simp)
  obtain ⟨p, hp, hall⟩ := h g hg
  obtain ⟨codes, hcodes⟩ := mapM_isSome_iff.mpr hall
  exact ⟨_, rtnGroup_eq_some.mpr ⟨p, codes, hp, hcodes, rfl⟩⟩

/-! ## A matrix -/

/-- The rows of a quantized matrix. -/
theorem quantizeRtn_eq_some {q : QuantizedWeight K} :
    quantizeRtn weight groupSize bits = some q ↔ ∃ groups rows,
      numGroups weight.cols groupSize = some groups ∧
        (List.range weight.height).mapM (fun r =>
          rtnRow (weight.entry r) weight.cols groupSize bits groups) = some rows ∧
        assemble rows weight.cols groupSize bits = q := by
  simp only [quantizeRtn, Option.bind_eq_bind, Option.bind_eq_some_iff, pure, Option.some.injEq]
  constructor
  · rintro ⟨groups, hgroups, rows, hrows, rfl⟩
    exact ⟨groups, rows, hgroups, hrows, rfl⟩
  · rintro ⟨groups, rows, hgroups, hrows, rfl⟩
    exact ⟨groups, hgroups, rows, hrows, rfl⟩

omit [LinearOrder K] [FloorRing K] in
/-- What is read back at a place: the code of the place, with the parameters of its group. -/
theorem dequantize_assemble {rows : List (RowArrays K)} (bits : Nat)
    (hgroups : numGroups cols groupSize = some groups)
    (hcodes : ∀ a ∈ rows, a.qweight.length = cols) (hscales : ∀ a ∈ rows, a.scales.length = groups)
    (hzeros : ∀ a ∈ rows, a.zeros.length = groups) :
    ∃ out, dequantize (assemble rows cols groupSize bits) = some out ∧
      out.height = rows.length ∧ out.cols = cols ∧
      ∀ r (hr : r < rows.length), ∀ c < cols,
        out.entry r c =
          dequantizeScalar (rows[r].qweight.getD c 0) (rows[r].params (c / groupSize)) ∧
        (assemble rows cols groupSize bits).scales.getD (r * groups + c / groupSize) 0 =
          (rows[r].params (c / groupSize)).scale := by
  obtain ⟨hsize, -, hcount⟩ := numGroups_eq_some.mp hgroups
  simp only [dequantize, assemble, hgroups, Option.bind_eq_bind, Option.bind_some]
  refine ⟨_, rfl, Matrix.height_ofFn _ _ _, rfl, fun r hr c hc => ?_⟩
  have hgroup : c / groupSize < groups := hcount ▸ div_lt_groups hsize hc
  rw [Matrix.entry_ofFn_of_lt hr hc, getD_flatMap hcodes hr hc, getD_flatMap hscales hr hgroup,
    getD_flatMap hzeros hr hgroup]
  exact ⟨rfl, rfl⟩

/-- The groups cover the columns. -/
theorem min_groups_cols (hsize : 0 < groupSize) :
    min ((cols + groupSize - 1) / groupSize * groupSize) cols = cols := by
  rcases Nat.eq_zero_or_pos cols with hzero | hpos
  · omega
  · have hlast := div_lt_groups hsize (show cols - 1 < cols by omega)
    rw [Nat.div_lt_iff_lt_mul hsize] at hlast
    omega

/-- Each place of a quantized matrix is quantized and read back with the parameters of its
group. -/
theorem rtn_places {q : QuantizedWeight K} (h : quantizeRtn weight groupSize bits = some q) :
    ∃ groups out, numGroups weight.cols groupSize = some groups ∧ dequantize q = some out ∧
      out.SameShape weight ∧ ∀ r < weight.height, ∀ c < weight.cols, ∃ p code,
        groupParams ((groupColumns weight.cols groupSize (c / groupSize)).map (weight.entry r))
          bits = some p ∧
        quantizeScalar (weight.entry r c) p bits = some code ∧
        out.entry r c = dequantizeScalar code p ∧
        q.scales.getD (r * groups + c / groupSize) 0 = p.scale := by
  obtain ⟨groups, rows, hgroups, hrows, rfl⟩ := quantizeRtn_eq_some.mp h
  obtain ⟨hsize, -, hcount⟩ := numGroups_eq_some.mp hgroups
  obtain ⟨hlen, hall⟩ := mapM_range_getElem hrows
  have hquantized (r : Nat) (hr : r < rows.length) := rtnRow_quantized hsize (hall r hr)
  have hcover : min (groups * groupSize) weight.cols = weight.cols := by
    rw [← hcount]
    exact min_groups_cols hsize
  obtain ⟨out, hout, hheight, hcols, hplaces⟩ :=
    dequantize_assemble bits hgroups
      (List.forall_mem_iff_forall_getElem.mpr fun r hr => (hquantized r hr).codes.trans hcover)
      (List.forall_mem_iff_forall_getElem.mpr fun r hr => (hquantized r hr).scales)
      (List.forall_mem_iff_forall_getElem.mpr fun r hr => (hquantized r hr).zeros)
  refine ⟨groups, out, hgroups, hout, ⟨hheight.trans hlen, hcols⟩, fun r hr c hc => ?_⟩
  have hr' : r < rows.length := by omega
  have hgroup : c / groupSize < groups := hcount ▸ div_lt_groups hsize hc
  obtain ⟨hentry, hscale⟩ := hplaces r hr' c hc
  exact ⟨_, _, (hquantized r hr').params _ hgroup,
    (hquantized r hr').code c (by rw [hcover]; exact hc), hentry, hscale⟩

/-- The values of the group that a place is in. -/
def groupOf (weight : Matrix K) (groupSize r c : Nat) : List K :=
  (groupColumns weight.cols groupSize (c / groupSize)).map (weight.entry r)

omit [LinearOrder K] [FloorRing K] in
theorem mem_groupOf (hsize : 0 < groupSize) {r : Nat} {w : K} :
    w ∈ groupOf weight groupSize r c ↔
      ∃ c' < weight.cols, c' / groupSize = c / groupSize ∧ weight.entry r c' = w := by
  simp only [groupOf, List.mem_map, mem_groupColumns hsize, and_assoc]

/-- Where every group is met, every row is quantized. -/
theorem rtnRows_isSome (hsize : 0 < groupSize)
    (hmet : ∀ r < weight.height, ∀ c < weight.cols, GroupMet bits (groupOf weight groupSize r c)) :
    ∃ rows, (List.range weight.height).mapM (fun r =>
      rtnRow (weight.entry r) weight.cols groupSize bits
        ((weight.cols + groupSize - 1) / groupSize)) = some rows := by
  refine mapM_isSome_iff.mpr fun r hr => rtnRow_isSome fun g hg => ?_
  -- a group has a column, and the group of that column is met
  obtain ⟨c, hin⟩ := List.exists_mem_of_ne_nil _ (groupColumns_ne_nil hsize hg)
  obtain ⟨hc, rfl⟩ := (mem_groupColumns hsize).mp hin
  obtain ⟨p, hp, hall⟩ := hmet r (List.mem_range.mp hr) c hc
  refine ⟨p, hp, fun c' hc' => ?_⟩
  obtain ⟨code, hcode, -⟩ := hall _ (List.mem_map_of_mem hc')
  exact ⟨code, hcode⟩

/-- Rounding to nearest and reading back moves a weight by the step of its group at most, and
not at all where all weights of the group are equal. -/
def RtnWithinStep (weight : Matrix K) (groupSize bits : Nat) : Prop :=
  ∃ groups q out, numGroups weight.cols groupSize = some groups ∧
    quantizeRtn weight groupSize bits = some q ∧ dequantize q = some out ∧
    out.SameShape weight ∧ ∀ r < weight.height, ∀ c < weight.cols,
      |out.entry r c - weight.entry r c| ≤ q.scales.getD (r * groups + c / groupSize) 0 ∧
      ((∀ c' < weight.cols, c' / groupSize = c / groupSize →
        weight.entry r c' = weight.entry r c) → out.entry r c = weight.entry r c)

/-- **Within a step** is every weight exactly when the sizes are in the range of an `int` and
every group lies near enough to zero. -/
theorem rtn_within_step_iff [IsStrictOrderedRing K] (weight : Matrix K) {groupSize bits : Nat}
    (hsize : 1 ≤ groupSize) (hbits : 1 ≤ bits) :
    RtnWithinStep weight groupSize bits ↔
      weight.cols + groupSize < 2 ^ 31 ∧ ∀ r < weight.height, ∀ c < weight.cols,
        GroupFits bits (groupOf weight groupSize r c) := by
  have hne (r c : Nat) (hc : c < weight.cols) : groupOf weight groupSize r c ≠ [] :=
    List.ne_nil_of_mem ((mem_groupOf hsize).mpr ⟨c, hc, rfl, rfl⟩)
  constructor
  · rintro ⟨groups, q, out, hgroups, hq, hout, hshape, hplaces⟩
    refine ⟨(numGroups_eq_some.mp hgroups).2.1, fun r hr c hc => ?_⟩
    -- the parameters of the group, and what is stored for each weight of it
    obtain ⟨groups', out', hgroups', hout', -, hstored⟩ := rtn_places hq
    obtain rfl := Option.some.inj (hgroups.symm.trans hgroups')
    obtain rfl := Option.some.inj (hout.symm.trans hout')
    obtain ⟨p, -, hp, -⟩ := hstored r hr c hc
    refine GroupMet.fits hbits (hne r c hc) ⟨p, hp, fun w hw => ?_⟩
    obtain ⟨c', hc', hgroup, rfl⟩ := (mem_groupOf hsize).mp hw
    obtain ⟨p', code, hp', hcode, hentry, hscale⟩ := hstored r hr c' hc'
    obtain rfl := Option.some.inj (hp.symm.trans (hgroup ▸ hp'))
    obtain ⟨herror, hexact⟩ := hplaces r hr c' hc'
    rw [hentry, hscale] at herror
    refine ⟨code, hcode, herror, fun hsame => hentry ▸ hexact fun c'' hc'' hgroup'' => ?_⟩
    exact hsame _ ((mem_groupOf hsize).mpr ⟨c'', hc'', hgroup''.trans hgroup, rfl⟩)
  · rintro ⟨hint, hfits⟩
    have hmet (r : Nat) (hr : r < weight.height) (c : Nat) (hc : c < weight.cols) :=
      (hfits r hr c hc).met hbits (hne r c hc)
    have hgroups : numGroups weight.cols groupSize = some _ :=
      numGroups_eq_some.mpr ⟨hsize, hint, rfl⟩
    obtain ⟨rows, hrows⟩ := rtnRows_isSome hsize hmet
    have hq := quantizeRtn_eq_some.mpr ⟨_, rows, hgroups, hrows, rfl⟩
    obtain ⟨groups, out, hgroups, hout, hshape, hstored⟩ := rtn_places hq
    refine ⟨groups, _, out, hgroups, hq, hout, hshape, fun r hr c hc => ?_⟩
    obtain ⟨p, code, hp, hcode, hentry, hscale⟩ := hstored r hr c hc
    obtain ⟨p', hp', hall⟩ := hmet r hr c hc
    obtain rfl := Option.some.inj (hp.symm.trans hp')
    obtain ⟨code', hcode', herror, hexact⟩ := hall _ ((mem_groupOf hsize).mpr ⟨c, hc, rfl, rfl⟩)
    obtain rfl := Option.some.inj (hcode.symm.trans hcode')
    rw [hentry, hscale]
    refine ⟨herror, fun hsame => hexact fun w hw => ?_⟩
    obtain ⟨c', hc', hgroup, rfl⟩ := (mem_groupOf hsize).mp hw
    exact hsame c' hc' hgroup

/-- Three columns on both sides of zero, in groups of two: the last group has one column, and
its weight is zero. -/
theorem rtnWithinStep_around_zero :
    RtnWithinStep (⟨3, [#v[-1, 1 / 2, 0]]⟩ : Matrix ℚ) 2 4 := by
  refine (rtn_within_step_iff _ (by norm_num) (by norm_num)).mpr ⟨by norm_num, fun r hr c hc => ?_⟩
  obtain rfl : r = 0 := Nat.lt_one_iff.mp hr
  have hgroup : groupOf (⟨3, [#v[-1, 1 / 2, 0]]⟩ : Matrix ℚ) 2 0 c = [-1, 1 / 2] ∨
      groupOf (⟨3, [#v[-1, 1 / 2, 0]]⟩ : Matrix ℚ) 2 0 c = [0] := by
    obtain rfl | rfl | rfl : c = 0 ∨ c = 1 ∨ c = 2 := by
      have hthree : c < 3 := hc
      omega
    · exact .inl (by decide +kernel)
    · exact .inl (by decide +kernel)
    · exact .inr (by decide +kernel)
  rcases hgroup with h | h <;> rw [h] <;>
    exact GroupFits.of_straddles (by norm_num) (by norm_num) (by norm_num) (by norm_num)

/-- The weights 10, 11 and 12 have the step `2/15` and the zero point 0: they are 15 steps long,
and the clamp leaves them at 2. -/
theorem not_rtnWithinStep_ten :
    ¬ RtnWithinStep (⟨3, [#v[10, 11, 12]]⟩ : Matrix ℚ) 3 4 := by
  rintro ⟨groups, q, out, -, hq, hout, -, hplaces⟩
  have hscale : (quantizeRtn (⟨3, [#v[10, 11, 12]]⟩ : Matrix ℚ) 3 4).map
      (fun q => q.scales.getD 0 0) = some (2 / 15) := by decide +kernel
  have hback : ((quantizeRtn (⟨3, [#v[10, 11, 12]]⟩ : Matrix ℚ) 3 4).bind dequantize).map
      (fun out => out.entry 0 0) = some 2 := by decide +kernel
  have hten : (⟨3, [#v[10, 11, 12]]⟩ : Matrix ℚ).entry 0 0 = 10 := by decide +kernel
  rw [hq] at hscale hback
  rw [Option.bind_some, hout] at hback
  have hscale : q.scales.getD 0 0 = 2 / 15 := Option.some.inj hscale
  have hback : out.entry 0 0 = 2 := Option.some.inj hback
  have herror := (hplaces 0 Nat.one_pos 0 (by norm_num)).1
  rw [Nat.zero_mul, Nat.zero_div, Nat.add_zero, hten, hback, hscale] at herror
  norm_num at herror

end CrossMachine.Serving
