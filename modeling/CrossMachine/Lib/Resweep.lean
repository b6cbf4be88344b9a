import CrossMachine.Lib.Postorder
import Mathlib.Algebra.BigOperators.Group.Finset.Piecewise

/-!
# Sweeping again

A sweep leaves something at every node it visits. One that is begun afterwards, at a node `v`
that gets its seed in place of what it holds, adds to what it finds: so the nodes between `v`
and the leaves hand on what they were left with once more.

At a leaf this comes to what the leaf held, what a sweep of its own would have brought it, and
what the nodes below `v` held, pulled back along all paths (`resweep_leaf`).
-/

namespace CrossMachine.Lib.Dag

variable {ι F : Type*}

/-- The nodes strictly below `v` that have operands. -/
def below (d : Dag ι F) (v : Nat) : Finset Nat :=
  (Finset.range v).filter fun w => d.slots w ≠ [] ∧ d.paths v w ≠ []

theorem paths_ne_nil {d : Dag ι F} {u v : Nat} : d.paths u v ≠ [] ↔ d.Reaches u v := by
  constructor
  · intro hne
    obtain ⟨q, hq⟩ := List.exists_mem_of_ne_nil _ hne
    exact ⟨q, d.mem_paths.mp hq⟩
  · rintro ⟨q, hq⟩
    exact List.ne_nil_of_mem (d.mem_paths.mpr hq)

theorem mem_below {d : Dag ι F} {v w : Nat} :
    w ∈ d.below v ↔ d.slots w ≠ [] ∧ w ≠ v ∧ d.Reaches v w := by
  rw [below, Finset.mem_filter, Finset.mem_range, paths_ne_nil]
  constructor
  · intro ⟨hlt, hslots, hreach⟩
    exact ⟨hslots, Nat.ne_of_lt hlt, hreach⟩
  · intro ⟨hslots, hne, hreach⟩
    exact ⟨Nat.lt_of_le_of_ne hreach.le hne, hslots, hreach⟩

/-- A node without operands reaches itself only. -/
theorem Reaches.eq_of_leaf {d : Dag ι F} {u v : Nat} (hu : d.slots u = [])
    (h : d.Reaches u v) : v = u := by
  obtain ⟨q, hq⟩ := h
  cases hq with
  | nil => rfl
  | cons hs _ =>
      rw [hu] at hs
      exact absurd hs (by simp)

section Sweep

variable [CommSemiring F] [DecidableEq ι] (d : Dag ι F)

theorem total_leaf {ℓ : Nat} {k : ι} (hk : k ∈ d.dom ℓ) {w : Nat} (hw : d.slots w = [])
    (E : ι → F) : d.total ℓ k w E = if w = ℓ then E k else 0 := by
  rw [d.total_eq hk, hw]
  exact add_zero _

/-- There is no derivative by what is not reached. -/
theorem pathSum_of_not_reaches {u v : Nat} (h : ¬ d.Reaches u v) (i k : ι) :
    d.pathSum u v i k = 0 := by
  have hnone : d.paths u v = [] := by
    by_contra hsome
    exact h (paths_ne_nil.mp hsome)
  rw [pathSum, hnone]
  rfl

/-- What the leaf `ℓ` is left with by a sweep of all that `v` reaches, begun on `g` with
a seed in place of what `v` holds. -/
theorem resweep_leaf {L : List Nat} (hL : d.Topological L) {v : Nat}
    (hmem : ∀ x, x ∈ L ↔ d.Reaches v x) {ℓ : Nat} {k : ι} (hk : k ∈ d.dom ℓ)
    (hleaf : d.slots ℓ = []) (hne : ℓ ≠ v) (g : Nat → ι → F) (seed : ι → F) :
    L.foldl d.accumulate (Function.update g v seed) ℓ k =
      g ℓ k + d.total ℓ k v seed + ∑ w ∈ d.below v, d.total ℓ k w (g w) := by
  have hv : v ∈ L := (hmem v).mpr (.refl d v)
  have hrest : ∀ w ∈ L.toFinset.erase v,
      d.total ℓ k w (Function.update g v seed w) = d.total ℓ k w (g w) := fun w hw => by
    rw [Function.update_of_ne (Finset.ne_of_mem_erase hw)]
  -- the nodes with operands are those below `v`; the others are leaves, and only `ℓ` counts
  have hinner : (L.toFinset.erase v).filter (fun w => d.slots w ≠ []) = d.below v := by
    ext w
    rw [Finset.mem_filter, Finset.mem_erase, List.mem_toFinset, hmem, mem_below]
    tauto
  have hleaves : ∑ w ∈ (L.toFinset.erase v).filter (fun w => ¬ d.slots w ≠ []),
      d.total ℓ k w (g w) = if ℓ ∈ L then g ℓ k else 0 := by
    have hone : ∀ w ∈ (L.toFinset.erase v).filter (fun w => ¬ d.slots w ≠ []),
        d.total ℓ k w (g w) = if w = ℓ then g w k else 0 := fun w hw =>
      d.total_leaf hk (not_ne_iff.mp (Finset.mem_filter.mp hw).2) (g w)
    rw [Finset.sum_congr rfl hone, Finset.sum_ite_eq']
    refine if_congr ?_ rfl rfl
    simp [hne, hleaf]
  calc L.foldl d.accumulate (Function.update g v seed) ℓ k
      = d.potential ℓ k L (Function.update g v seed) := d.foldl_accumulate hL hk _
    _ = ∑ w ∈ L.toFinset, d.total ℓ k w (Function.update g v seed w) +
          if ℓ ∈ L then 0 else g ℓ k := by
        rw [potential, List.sum_toFinset _ hL.nodup, Function.update_of_ne hne]
    _ = d.total ℓ k v seed + ∑ w ∈ L.toFinset.erase v, d.total ℓ k w (g w) +
          if ℓ ∈ L then 0 else g ℓ k := by
        rw [← Finset.add_sum_erase _ _ (List.mem_toFinset.mpr hv), Function.update_self,
          Finset.sum_congr rfl hrest]
    _ = d.total ℓ k v seed + (∑ w ∈ d.below v, d.total ℓ k w (g w) +
          if ℓ ∈ L then g ℓ k else 0) + if ℓ ∈ L then 0 else g ℓ k := by
        rw [← Finset.sum_filter_add_sum_filter_not _ (fun w => d.slots w ≠ []), hinner, hleaves]
    _ = g ℓ k + d.total ℓ k v seed + ∑ w ∈ d.below v, d.total ℓ k w (g w) := by
        split <;> ring

/-- A leaf that gets a seed has nothing to hand it on to. -/
theorem resweep_self {L : List Nat} (hL : d.Topological L) {v : Nat}
    (hmem : ∀ x, x ∈ L ↔ d.Reaches v x) {k : ι} (hk : k ∈ d.dom v) (hleaf : d.slots v = [])
    (g : Nat → ι → F) (seed : ι → F) :
    L.foldl d.accumulate (Function.update g v seed) v k = seed k := by
  have hone : ∀ w ∈ L, w = v := fun w hw => ((hmem w).mp hw).eq_of_leaf hleaf
  have hsum : ∑ w ∈ L.toFinset, d.total v k w (Function.update g v seed w) = seed k := by
    have hL' : L.toFinset = {v} := by
      ext w
      rw [List.mem_toFinset, Finset.mem_singleton]
      exact ⟨hone w, fun hw => hw ▸ (hmem v).mpr (.refl d v)⟩
    rw [hL', Finset.sum_singleton, d.total_leaf hk hleaf, if_pos rfl, Function.update_self]
  rw [d.foldl_accumulate hL hk, potential, ← List.sum_toFinset _ hL.nodup, hsum,
    if_pos ((hmem v).mpr (.refl d v)), add_zero]

end Sweep

end CrossMachine.Lib.Dag
