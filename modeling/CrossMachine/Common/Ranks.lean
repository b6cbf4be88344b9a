import Mathlib.Data.List.FinRange

/-!
# The ranks of a mesh

`netcommon::Channel` connects `world_size` ranks pairwise. Every component keeps the
other ranks in a vector `peers_`, filled by the same loop.
-/

namespace CrossMachine

variable {n : Nat}

/-- `peers_`: every other rank, in order. -/
def peers (self : Fin n) : List (Fin n) := (List.finRange n).filter (· ≠ self)

theorem mem_peers {s p : Fin n} : p ∈ peers s ↔ p ≠ s := by
  simp [peers]

theorem peers_nodup (s : Fin n) : (peers s).Nodup :=
  (List.nodup_finRange n).filter _

theorem length_peers (s : Fin n) : (peers s).length + 1 = n := by
  have hsplit := List.length_eq_length_filter_add (l := List.finRange n) (fun p => decide (p ≠ s))
  have hone : ((List.finRange n).filter fun p => !decide (p ≠ s)).length = 1 := by
    rw [← List.countP_eq_length_filter]
    have hcount := List.count_eq_one_of_mem (List.nodup_finRange n) (List.mem_finRange s)
    rw [List.count] at hcount
    rw [← hcount]
    congr 1
    funext p
    simp [beq_eq_decide]
  rw [List.length_finRange, hone] at hsplit
  exact hsplit.symm

end CrossMachine
