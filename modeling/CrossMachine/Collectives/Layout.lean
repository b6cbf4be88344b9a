import CrossMachine.Collectives.Ring
import CrossMachine.Lib.CInt
import Mathlib.Tactic.Ring

/-!
# Where the chunks begin

`ring_allreduce.h` says that chunk `i` spans `[i*count/N, (i+1)*count/N)`, and the MPI
implementation computes it so, in `int`s. `computeChunks` gives the elements that are left over
when `count` is divided by `N` to the first chunks instead of spreading them. With more than one
rank the second chunk begins at `count / N` in the documentation, and one later in the code as
soon as anything is left over. And the end of the last chunk is `N*count / N` in the MPI
implementation, which is `count` as long as the product is an `int`.
-/

namespace CrossMachine.Collectives

open Lib

variable {n count : Nat}

/-- `chunk_begin` of `mpi_ring_allreduce.cpp`; the size of the buffer is cast to an `int`. -/
def chunkBegin (count worldSize i : Nat) : Int := (int32 (i * int32 count)).tdiv worldSize

/-- `chunk_len`. -/
def chunkLen (count worldSize i : Nat) : Int :=
  int32 (chunkBegin count worldSize (i + 1) - chunkBegin count worldSize i)

/-- Chunk `i` spans `[i*count/N, (i+1)*count/N)`. -/
def AsDocumented (count n : Nat) : Prop :=
  ∀ i < n, (computeChunks count n).startOf i = i * count / n ∧
    (computeChunks count n).startOf i + (computeChunks count n).sizeOf i = (i + 1) * count / n

/-- Both implementations divide the buffer in the same way. -/
def AsMpi (count n : Nat) : Prop :=
  ∀ i < n, (computeChunks count n).startOf i = chunkBegin count n i ∧
    (computeChunks count n).sizeOf i = chunkLen count n i

/-! ## As documented -/

theorem mul_div_eq (hn : 0 < n) (i : Nat) :
    i * count / n = i * (count / n) + i * (count % n) / n := by
  have hsplit : i * count = n * (i * (count / n)) + i * (count % n) := by
    conv_lhs => rw [← Nat.div_add_mod count n]
    ring
  rw [hsplit, Nat.mul_add_div hn]

/-- Nothing is left over. -/
theorem chunkStart_of_dvd (hn : 0 < n) (h : n ∣ count) (i : Nat) :
    chunkStart count n i = i * count / n := by
  rw [mul_div_eq hn, chunkStart, Nat.mod_eq_zero_of_dvd h]
  simp

/-- The second chunk is the first one that tells them apart. -/
theorem dvd_of_startOf_one (hn : 1 ≤ n)
    (h : 1 < n → (computeChunks count n).startOf 1 = count / n) : n ∣ count := by
  rcases Nat.lt_or_ge 1 n with hlt | hle
  · have hstart := h hlt
    have hmod := Nat.mod_lt count (by omega : 0 < n)
    rw [computeChunks_startOf hlt, chunkStart, Nat.one_mul] at hstart
    exact Nat.dvd_of_mod_eq_zero (by omega)
  · obtain rfl : n = 1 := Nat.le_antisymm hle hn
    exact Nat.one_dvd count

theorem asDocumented_iff (hn : 1 ≤ n) : AsDocumented count n ↔ n ∣ count := by
  refine ⟨fun h => dvd_of_startOf_one hn fun hlt => ?_, fun h i hi => ?_⟩
  · rw [(h 1 hlt).1, Nat.one_mul]
  · rw [computeChunks_startOf hi, computeChunks_sizeOf hi, ← chunkStart_succ,
      chunkStart_of_dvd hn h, chunkStart_of_dvd hn h]
    exact ⟨rfl, rfl⟩

/-! ## The same as with MPI -/

theorem tdiv_bounds {x : Int} (hn : 2 ≤ n) (hlo : -(2 ^ 31) ≤ x) (hhi : x < 2 ^ 31) :
    -(2 ^ 30) ≤ x.tdiv n ∧ x.tdiv n < 2 ^ 30 := by
  rcases Int.le_total 0 x with hx | hx
  · rw [Int.tdiv_eq_ediv_of_nonneg hx]
    have hlow := Int.ediv_nonneg hx (Int.natCast_nonneg n)
    exact ⟨by omega, Int.ediv_lt_of_lt_mul (by omega) (by omega)⟩
  · obtain ⟨y, rfl⟩ : ∃ y : Int, x = -y := ⟨-x, by omega⟩
    rw [Int.neg_tdiv, Int.tdiv_eq_ediv_of_nonneg (by omega)]
    have hlow := Int.ediv_nonneg (by omega : 0 ≤ y) (Int.natCast_nonneg n)
    have hhigh : y / n < 2 ^ 30 + 1 := Int.ediv_lt_of_lt_mul (by omega) (by omega)
    omega

/-- The subtraction does not wrap. -/
theorem chunkLen_eq {i : Nat} (hi : i < n) :
    chunkLen count n i = chunkBegin count n (i + 1) - chunkBegin count n i := by
  rcases Nat.lt_or_ge n 2 with hn | hn
  · obtain ⟨rfl, rfl⟩ : n = 1 ∧ i = 0 := by omega
    have hwhole : chunkBegin count 1 1 - chunkBegin count 1 0 = int32 count := by
      simp [chunkBegin, int32]
    rw [chunkLen, hwhole]
    exact Int.bmod_bmod
  · have hbegin (i : Nat) : -(2 ^ 30) ≤ chunkBegin count n i ∧ chunkBegin count n i < 2 ^ 30 :=
      tdiv_bounds hn (Int.le_bmod (by decide)) (int32_lt _)
    have hlow := hbegin i
    have hhigh := hbegin (i + 1)
    exact int32_of_bounds (by omega) (by omega)

theorem chunkBegin_of_fits (h : n * count < 2 ^ 31) {i : Nat} (hi : i ≤ n) (hpos : 1 ≤ i) :
    chunkBegin count n i = (i * count / n : Nat) := by
  have hi' : i * count < 2 ^ 31 := (Nat.mul_le_mul_right count hi).trans_lt h
  have hcount : count < 2 ^ 31 := (Nat.le_mul_of_pos_left count hpos).trans_lt hi'
  rw [chunkBegin, int32_of_nonneg (Int.natCast_nonneg count) (by exact_mod_cast hcount),
    ← Int.natCast_mul, int32_of_nonneg (Int.natCast_nonneg _) (by exact_mod_cast hi')]
  exact (Int.ofNat_tdiv _ _).symm

/-- The end of the last chunk is the end of the buffer only if it is computed without wrapping. -/
theorem fits_of_chunkBegin_last (hn : 1 ≤ n) (h : chunkBegin count n n = count) :
    n * count < 2 ^ 31 := by
  rw [chunkBegin] at h
  have hlt := int32_lt (n * int32 count)
  rcases Int.le_total 0 (int32 (n * int32 count)) with hx | hx
  · rw [Int.tdiv_eq_ediv_of_nonneg hx] at h
    have hle := Int.mul_ediv_self_le (x := int32 (n * int32 count)) (k := (n : Int)) (by omega)
    rw [h] at hle
    have : (n : Int) * count < 2 ^ 31 := hle.trans_lt hlt
    exact_mod_cast this
  · have hneg := Int.tdiv_nonneg (Int.neg_nonneg_of_nonpos hx) (Int.natCast_nonneg n)
    rw [Int.neg_tdiv, h] at hneg
    obtain rfl : count = 0 := by omega
    norm_num

theorem asMpi_iff (hn : 1 ≤ n) : AsMpi count n ↔ n ∣ count ∧ n * count < 2 ^ 31 := by
  refine ⟨fun h => ?_, fun ⟨hdvd, hfits⟩ i hi => ?_⟩
  · have hfits : n * count < 2 ^ 31 := by
      have hlast := h (n - 1) (by omega)
      rw [chunkLen_eq (by omega), ← hlast.1, computeChunks_startOf (by omega),
        computeChunks_sizeOf (by omega), Nat.sub_add_cancel hn] at hlast
      have hend := chunkStart_succ count n (n - 1)
      rw [Nat.sub_add_cancel hn, chunkStart_last hn] at hend
      exact fits_of_chunkBegin_last hn (by omega)
    refine ⟨dvd_of_startOf_one hn fun hlt => ?_, hfits⟩
    have hstart := (h 1 hlt).1
    rw [chunkBegin_of_fits hfits hn le_rfl, Nat.one_mul] at hstart
    exact_mod_cast hstart
  · have hbegin {i : Nat} (hi : i ≤ n) : chunkBegin count n i = chunkStart count n i := by
      rw [chunkStart_of_dvd hn hdvd]
      rcases Nat.eq_zero_or_pos i with rfl | hpos
      · simp [chunkBegin, int32]
      · exact chunkBegin_of_fits hfits hi hpos
    rw [computeChunks_startOf hi, computeChunks_sizeOf hi, chunkLen_eq hi, hbegin hi.le, hbegin hi,
      chunkStart_succ]
    exact ⟨rfl, by omega⟩

/-- The chunks are as documented exactly when the ranks divide the buffer evenly. They are those
of the MPI implementation exactly when, besides, its products are `int`s. -/
theorem computeChunks_layout (count : Nat) (hn : 1 ≤ n) :
    (AsDocumented count n ↔ n ∣ count) ∧ (AsMpi count n ↔ n ∣ count ∧ n * count < 2 ^ 31) :=
  ⟨asDocumented_iff hn, asMpi_iff hn⟩

theorem computeChunks_layout_three :
    (AsDocumented 12 3 ↔ 3 ∣ 12) ∧ (AsMpi 12 3 ↔ 3 ∣ 12 ∧ 3 * 12 < 2 ^ 31) :=
  computeChunks_layout 12 (by decide)

/-- Three elements on two ranks: the first chunk has two of them instead of one. -/
theorem computeChunks_uneven : ¬ ∀ count n, 1 ≤ n → AsDocumented count n ∧ AsMpi count n := by
  intro h
  have hstart := ((h 3 2 (by decide)).1 1 (by decide)).1
  exact absurd hstart (by decide)

end CrossMachine.Collectives
