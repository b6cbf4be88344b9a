import Mathlib.Data.Nat.Bitwise
import Mathlib.Data.Nat.Log

/-!
# Masks of one bit

Partners in a tree or on a hypercube are found by setting, clearing or flipping one bit
of a number. On the numbers themselves that is the addition or the subtraction of a
power of two, and which of the two it is depends on the bit, `r / 2 ^ t % 2`.

The masks come from loops that shift a bit up while it is below a bound, or down while
it is not zero. Such a loop is the list of the masks it goes through.
-/

namespace CrossMachine.Lib

/-! ## One bit of a number -/

theorem two_pow_succ (t : Nat) : 2 ^ (t + 1) = 2 * 2 ^ t := by
  rw [Nat.pow_succ, Nat.mul_comm]

/-- The next lower bit splits a quotient. -/
theorem div_two_pow (r t : Nat) : r / 2 ^ t = 2 * (r / 2 ^ (t + 1)) + r / 2 ^ t % 2 := by
  rw [Nat.pow_succ, ← Nat.div_div_eq_div_mul]
  omega

theorem mod_two_pow_succ (r t : Nat) :
    r % 2 ^ (t + 1) = r % 2 ^ t + 2 ^ t * (r / 2 ^ t % 2) := Nat.mod_pow_succ

theorem land_two_pow_eq_zero {r t : Nat} : r &&& 2 ^ t = 0 ↔ r / 2 ^ t % 2 = 0 := by
  rw [Nat.and_two_pow, Nat.testBit_eq_decide_div_mod_eq]
  have hpos := Nat.two_pow_pos t
  by_cases h : r / 2 ^ t % 2 = 1
  · simp [h]
  · simp only [h, decide_false, Bool.toNat_false, Nat.zero_mul, true_iff]
    omega

private theorem xor_one_of_even {q : Nat} (h : q % 2 = 0) : q ^^^ 1 = q + 1 := by
  have hdiv : (q ^^^ 1) / 2 = q / 2 := by rw [Nat.xor_div_two]; simp
  have hmod : (q ^^^ 1) % 2 = 1 := by rw [Nat.xor_mod_two_eq_one]; omega
  omega

theorem xor_two_pow_of_clear {r t : Nat} (h : r / 2 ^ t % 2 = 0) : r ^^^ 2 ^ t = r + 2 ^ t := by
  have hpos := Nat.two_pow_pos t
  have hdiv : (r ^^^ 2 ^ t) / 2 ^ t = r / 2 ^ t + 1 := by
    rw [Nat.xor_div_two_pow, Nat.div_self hpos, xor_one_of_even h]
  have hmod : (r ^^^ 2 ^ t) % 2 ^ t = r % 2 ^ t := by
    rw [Nat.xor_mod_two_pow, Nat.mod_self, Nat.xor_zero]
  calc r ^^^ 2 ^ t = 2 ^ t * ((r ^^^ 2 ^ t) / 2 ^ t) + (r ^^^ 2 ^ t) % 2 ^ t :=
        (Nat.div_add_mod _ _).symm
    _ = 2 ^ t * (r / 2 ^ t) + r % 2 ^ t + 2 ^ t := by rw [hdiv, hmod, Nat.mul_add]; omega
    _ = r + 2 ^ t := by rw [Nat.div_add_mod]

theorem two_pow_le_of_set {r t : Nat} (h : r / 2 ^ t % 2 = 1) : 2 ^ t ≤ r := by
  by_contra hlt
  rw [Nat.div_eq_of_lt (by omega)] at h
  omega

/-- Without the bit. -/
theorem sub_two_pow_div {r t : Nat} (h : r / 2 ^ t % 2 = 1) :
    (r - 2 ^ t) / 2 ^ t = r / 2 ^ t - 1 := by
  have hle := two_pow_le_of_set h
  have := Nat.sub_mul_div r (2 ^ t) 1
  rwa [Nat.mul_one] at this

theorem xor_two_pow_of_set {r t : Nat} (h : r / 2 ^ t % 2 = 1) : r ^^^ 2 ^ t = r - 2 ^ t := by
  have hle := two_pow_le_of_set h
  have hclear : (r - 2 ^ t) / 2 ^ t % 2 = 0 := by rw [sub_two_pow_div h]; omega
  have hback := xor_two_pow_of_clear hclear
  rw [Nat.sub_add_cancel hle] at hback
  calc r ^^^ 2 ^ t = ((r - 2 ^ t) ^^^ 2 ^ t) ^^^ 2 ^ t := by rw [hback]
    _ = r - 2 ^ t := by rw [Nat.xor_assoc, Nat.xor_self, Nat.xor_zero]

theorem lor_two_pow_of_clear {r t : Nat} (h : r / 2 ^ t % 2 = 0) : r ||| 2 ^ t = r + 2 ^ t := by
  rw [← xor_two_pow_of_clear h]
  apply Nat.eq_of_testBit_eq
  intro i
  rw [Nat.testBit_or, Nat.testBit_xor, Nat.testBit_two_pow]
  by_cases hi : t = i
  · subst hi
    simp [Nat.testBit_eq_decide_div_mod_eq, h]
  · simp [hi]

theorem ldiff_two_pow_of_set {r t : Nat} (h : r / 2 ^ t % 2 = 1) :
    Nat.ldiff r (2 ^ t) = r - 2 ^ t := by
  rw [← xor_two_pow_of_set h]
  apply Nat.eq_of_testBit_eq
  intro i
  rw [Nat.testBit_ldiff, Nat.testBit_xor, Nat.testBit_two_pow]
  by_cases hi : t = i
  · subst hi
    simp [Nat.testBit_eq_decide_div_mod_eq, h]
  · simp [hi]

/-- Clearing the lowest bits rounds down. -/
theorem ldiff_two_pow_pred (n k : Nat) : Nat.ldiff n (2 ^ k - 1) = 2 ^ k * (n / 2 ^ k) := by
  refine Nat.eq_of_testBit_eq fun i => ?_
  rw [Nat.testBit_ldiff, Nat.testBit_two_pow_sub_one, Nat.testBit_two_pow_mul]
  by_cases hi : i < k
  · simp [hi]
  · rw [Nat.testBit_div_two_pow, Nat.sub_add_cancel (by omega)]
    simp [hi, Nat.le_of_not_lt hi]

/-! ## Indices of a ring -/

/-- In a ring of a power of two of slots, masking is taking the remainder. -/
theorem land_pred_eq_mod {N : Nat} (hN : N ≠ 0) (hpow : N &&& (N - 1) = 0) (p : Nat) :
    p &&& (N - 1) = p % N := by
  obtain ⟨k, rfl⟩ := (Nat.and_sub_one_eq_zero_iff_isPowerOfTwo hN).mp hpow
  exact Nat.and_two_pow_sub_one_eq_mod p k

/-! ## Loops over masks -/

/-- `for (mask = 1; mask < p; mask <<= 1)`. Shifting `p` times is enough. -/
def masksUp (p : Nat) : List Nat := ((List.range p).map (1 <<< ·)).takeWhile (· < p)

/-- `for (mask = p / 2; mask > 0; mask >>= 1)`. -/
def masksDown (p : Nat) : List Nat := ((List.range p).map ((p / 2) >>> ·)).takeWhile (0 < ·)

/-- A loop that stops at its `m`-th value. -/
theorem takeWhile_map_range {β : Type*} {g : Nat → β} {P : β → Bool} {m N : Nat} (hm : m ≤ N)
    (hgo : ∀ i, i < m → P (g i) = true) (hstop : m < N → P (g m) = false) :
    ((List.range N).map g).takeWhile P = (List.range m).map g := by
  obtain ⟨d, rfl⟩ := Nat.exists_eq_add_of_le hm
  rw [List.range_add, List.map_append, List.takeWhile_append_of_pos]
  · cases d with
    | zero => simp
    | succ d =>
        have hnot := hstop (by omega)
        rw [List.range_succ_eq_map]
        simp [hnot]
  · intro x hx
    obtain ⟨i, hi, rfl⟩ := List.mem_map.mp hx
    exact hgo i (List.mem_range.mp hi)

theorem masksUp_eq (p : Nat) :
    masksUp p = (List.range (Nat.clog 2 p)).map fun t => 2 ^ t := by
  have hle : Nat.clog 2 p ≤ p :=
    Nat.clog_le_of_le_pow (Nat.le_of_lt Nat.lt_two_pow_self)
  have hshift : ((List.range p).map fun i => 1 <<< i) = (List.range p).map fun t => 2 ^ t := by
    simp only [Nat.one_shiftLeft]
  unfold masksUp
  rw [hshift]
  refine takeWhile_map_range hle ?_ ?_
  · intro i hi
    exact decide_eq_true (Nat.pow_lt_of_lt_clog hi)
  · intro _
    exact decide_eq_false (Nat.not_lt.mpr (Nat.le_pow_clog (by decide) p))

theorem masksDown_two_pow (k : Nat) :
    masksDown (2 ^ k) = (List.range k).map fun t => 2 ^ (k - 1 - t) := by
  have hlt : k < 2 ^ k := Nat.lt_two_pow_self
  have hvalue : ∀ i, i < k → (2 ^ k / 2) >>> i = 2 ^ (k - 1 - i) := by
    intro i hi
    obtain ⟨j, rfl⟩ : ∃ j, k = j + 1 := ⟨k - 1, by omega⟩
    rw [Nat.pow_succ, Nat.mul_div_cancel _ (by decide), Nat.shiftRight_eq_div_pow,
      Nat.pow_div (by omega) (by decide)]
    rfl
  unfold masksDown
  rw [takeWhile_map_range (m := k) (by omega)]
  · refine List.map_congr_left fun i hi => hvalue i (List.mem_range.mp hi)
  · intro i hi
    rw [hvalue i hi]
    exact decide_eq_true (Nat.two_pow_pos _)
  · intro _
    refine decide_eq_false ?_
    rw [Nat.shiftRight_eq_div_pow, Nat.div_div_eq_div_mul, ← Nat.pow_succ',
      Nat.div_eq_of_lt (Nat.pow_lt_pow_right (by decide) (Nat.lt_succ_self k))]
    omega

end CrossMachine.Lib
