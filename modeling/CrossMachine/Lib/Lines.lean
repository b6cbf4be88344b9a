import Mathlib.Data.Set.Basic

/-!
# Lines of a box

The points that differ from a point in one coordinate at most. The lines of a direction are the
classes of an equivalence, and two lines of different directions through a point share that point
only.
-/

namespace CrossMachine.Lib

variable {ι : Type*} {α : ι → Type*} {i j : ι} {x y z : ∀ i, α i}

/-- The line through `x` in direction `i`. -/
def line (i : ι) (x : ∀ i, α i) : Set (∀ i, α i) := {y | ∀ j, j ≠ i → y j = x j}

theorem mem_line_self : x ∈ line i x := fun _ _ => rfl

theorem line_eq_of_mem (h : y ∈ line i x) : line i y = line i x :=
  Set.ext fun _ => forall₂_congr fun j hj => by rw [h j hj]

theorem eq_of_mem_lines (hij : i ≠ j) (hi : y ∈ line i x) (hj : y ∈ line j x) : y = x := by
  funext k
  by_cases hk : k = i
  · exact hj k fun hkj => hij (hk ▸ hkj)
  · exact hi k hk

end CrossMachine.Lib
