import Mathlib.Algebra.BigOperators.Group.Finset.Basic
import Mathlib.Data.Fintype.Basic
import Mathlib.Tactic.Abel

/-!
# Sums over a table

A table of cells is summed cell by cell. When one cell changes, the sum changes by
that cell alone; stated without subtraction, so that it serves bags as well as
numbers.
-/

namespace CrossMachine.Lib

variable {ι κ : Type*} [Fintype ι] [DecidableEq ι] [Fintype κ] [DecidableEq κ]
variable {α M : Type*}

/-- A loop that adds up. -/
theorem foldl_range_add [AddCommMonoid M] (f : Nat → M) (n : Nat) (x : M) :
    (List.range n).foldl (fun out i => out + f i) x = x + ∑ i ∈ Finset.range n, f i := by
  induction n with
  | zero => simp
  | succ n ih => rw [List.range_succ, List.foldl_concat, ih, Finset.sum_range_succ, add_assoc]

theorem sum_update_add [AddCommMonoid M] (g : ι → α → M) (f : ι → α) (a : ι) (x : α) :
    ∑ i, g i (Function.update f a x i) + g a (f a) = ∑ i, g i (f i) + g a x := by
  have hrest : ∑ i ∈ Finset.univ.erase a, g i (Function.update f a x i)
      = ∑ i ∈ Finset.univ.erase a, g i (f i) := by
    refine Finset.sum_congr rfl fun i hi => ?_
    rw [Function.update_of_ne (Finset.ne_of_mem_erase hi)]
  rw [← Finset.add_sum_erase _ _ (Finset.mem_univ a),
    ← Finset.add_sum_erase _ (fun i => g i (f i)) (Finset.mem_univ a), Function.update_self, hrest]
  abel

/-- The same for a table of two arguments. -/
theorem sum_update₂_add [AddCancelCommMonoid M] (g : ι → κ → α → M) (f : ι → κ → α) (a : ι)
    (b : κ) (x : α) :
    ∑ i, ∑ k, g i k (Function.update f a (Function.update (f a) b x) i k) + g a b (f a b)
      = ∑ i, ∑ k, g i k (f i k) + g a b x := by
  have houter := sum_update_add (fun i row => ∑ k, g i k (row k)) f a (Function.update (f a) b x)
  have hinner := sum_update_add (g a) (f a) b x
  refine add_right_cancel (b := ∑ k, g a k (f a k)) ?_
  rw [add_right_comm, houter, add_assoc, hinner]
  abel

section Lists

variable {ι κ : Type*} {w : ι → Nat} {w' : κ → Nat} {f : ι → κ} {xs : List ι} {ys : List κ}

/-- A list sums up to no more than one that has a place of its own for every element that
counts. -/
theorem sum_map_le_of_pairwise (hmem : ∀ x ∈ xs, 0 < w x → f x ∈ ys ∧ w x ≤ w' (f x))
    (hinj : xs.Pairwise fun a b => 0 < w a → 0 < w b → f a ≠ f b) :
    (xs.map w).sum ≤ (ys.map w').sum := by
  classical
  induction xs generalizing ys with
  | nil => exact Nat.zero_le _
  | cons x xs ih =>
      obtain ⟨hx, hxs⟩ := List.forall_mem_cons.mp hmem
      obtain ⟨hne, hinj⟩ := List.pairwise_cons.mp hinj
      rw [List.map_cons, List.sum_cons]
      rcases Nat.eq_zero_or_pos (w x) with hzero | hpos
      · rw [hzero, Nat.zero_add]
        exact ih hxs hinj
      · obtain ⟨hin, hle⟩ := hx hpos
        -- the place of `x` is taken, and nobody else needs it
        have hrest : (xs.map w).sum ≤ ((ys.erase (f x)).map w').sum := by
          refine ih (fun a ha hapos => ⟨?_, (hxs a ha hapos).2⟩) hinj
          exact (List.mem_erase_of_ne (hne a ha hpos hapos).symm).mpr (hxs a ha hapos).1
        have hsum : (ys.map w').sum = w' (f x) + ((ys.erase (f x)).map w').sum := by
          rw [((List.perm_cons_erase hin).map w').sum_eq, List.map_cons, List.sum_cons]
        omega

end Lists

end CrossMachine.Lib
