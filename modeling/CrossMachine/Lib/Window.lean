import CrossMachine.Lib.Bits
import Mathlib.Data.Nat.ModEq
import Mathlib.Data.List.Basic

/-!
# Windows

The values of a function at the indices from `lo` up to `hi`, as a list, and what becomes of
it when an end moves. A circular buffer of `n` cells keeps a window as long as the window is
not longer than `n`: two indices in it that differ are then in two cells.
-/

namespace CrossMachine.Lib

variable {β : Type*} {f g : Int → β} {lo hi : Int}

def window (f : Int → β) (lo hi : Int) : List β :=
  (List.range (hi - lo).toNat).map fun k : Nat => f (lo + k)

theorem window_congr (h : ∀ i, lo ≤ i → i < hi → f i = g i) : window f lo hi = window g lo hi := by
  unfold window
  refine List.map_congr_left fun k hk => h _ (by omega) ?_
  have := List.mem_range.mp hk
  omega

theorem window_empty (h : hi ≤ lo) : window f lo hi = [] := by
  unfold window
  rw [Int.toNat_of_nonpos (by omega), List.range_zero, List.map_nil]

/-- The upper end moves up. -/
theorem window_snoc (h : lo ≤ hi) : window f lo (hi + 1) = window f lo hi ++ [f hi] := by
  obtain ⟨n, hn⟩ := Int.eq_ofNat_of_zero_le (show 0 ≤ hi - lo by omega)
  have hlen : (hi + 1 - lo).toNat = n + 1 := by omega
  have hlen' : (hi - lo).toNat = n := by omega
  unfold window
  rw [hlen, hlen', List.range_succ, List.map_append, List.map_singleton,
    show lo + (n : Int) = hi by omega]

/-- The lower end moves up. -/
theorem window_cons (h : lo < hi) : window f lo hi = f lo :: window f (lo + 1) hi := by
  obtain ⟨n, hn⟩ := Int.eq_ofNat_of_zero_le (show 0 ≤ hi - (lo + 1) by omega)
  have hlen : (hi - lo).toNat = n + 1 := by omega
  have hlen' : (hi - (lo + 1)).toNat = n := by omega
  unfold window
  rw [hlen, hlen', List.range_succ_eq_map, List.map_cons, List.map_map]
  refine congrArg₂ List.cons (by simp) (List.map_congr_left fun k _ => ?_)
  exact congrArg f (by simp only [Nat.succ_eq_add_one]; omega)

/-! ## Cells of a circular buffer -/

/-- A power of two, the way it is tested. -/
def PowTwo (n : Nat) : Prop := 0 < n ∧ n &&& (n - 1) = 0

theorem PowTwo.double {n : Nat} (h : PowTwo n) : PowTwo (n * 2) := by
  obtain ⟨hpos, hpow⟩ := h
  obtain ⟨k, rfl⟩ := (Nat.and_sub_one_eq_zero_iff_isPowerOfTwo (by omega)).mp hpow
  refine ⟨by omega, (Nat.and_sub_one_eq_zero_iff_isPowerOfTwo (by omega)).mpr ⟨k + 1, ?_⟩⟩
  rw [Nat.pow_succ]

theorem mod_ne_of_lt {n i j : Nat} (hlt : i < j) (hclose : j < i + n) : i % n ≠ j % n := by
  intro heq
  have hdvd : n ∣ j - i := (Nat.modEq_iff_dvd' (Nat.le_of_lt hlt)).mp heq
  have := Nat.le_of_dvd (by omega) hdvd
  omega

/-- Two indices that are close are in two cells. -/
theorem cell_ne {n : Nat} (hn : PowTwo n) {i j : Int} (hi : 0 ≤ i) (hj : 0 ≤ j) (hne : i ≠ j)
    (hij : i < j + n) (hji : j < i + n) : i.toNat &&& (n - 1) ≠ j.toNat &&& (n - 1) := by
  obtain ⟨hpos, hpow⟩ := hn
  rw [land_pred_eq_mod (by omega) hpow, land_pred_eq_mod (by omega) hpow]
  rcases lt_or_gt_of_ne hne with h | h
  · exact mod_ne_of_lt (by omega) (by omega)
  · exact (mod_ne_of_lt (by omega) (by omega)).symm

end CrossMachine.Lib
