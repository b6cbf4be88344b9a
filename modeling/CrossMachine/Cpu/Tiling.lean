import CrossMachine.Lib.Strides
import Mathlib.Tactic.Linarith

/-!
# Tiled matrix multiplication

`matmul.h`: the plain triple loop, and the same loops over blocks. Both add up products into the
elements of `C`, and rounding makes the outcome depend on the order. For an element of `C` the
order is the same in both (`turnsOf_naive`, `turnsOf_tiled`): the blocks of `k` come in ascending
order, inside a block `k` ascends, and of the blocks of rows and of columns one has the element.

A matrix is memory from a pointer on; an access behind the last element is `none`. Addition and
multiplication are any operations.
-/

namespace CrossMachine.Cpu

open Lib

variable {F : Type}

/-- `p[i]`, where `p` points to `size` elements. -/
def load (size : Nat) (p : Nat → F) (i : Nat) : Option F := if i < size then some (p i) else none

/-! ## The loops -/

section

variable (add mul : F → F → F) (A B : Nat → F) (M K N : Nat)

/-- The three inner loops, over some rows, some `k` and some columns. -/
def microKernel (i₀ iend k₀ kend j₀ jend : Nat) (C : Nat → F) : Option (Nat → F) :=
  (strides iend 1 i₀).foldlM (fun C i =>
    (strides kend 1 k₀).foldlM (fun C k => do
      let a ← load (M * K) A (i * K + k)
      (strides jend 1 j₀).foldlM (fun C j => do
        let b ← load (K * N) B (k * N + j)
        let c ← load (M * N) C (i * N + j)
        return Function.update C (i * N + j) (add c (mul a b))) C) C) C

/-- `matmul_naive_f32` -/
def matmulNaive (C : Nat → F) : Option (Nat → F) := microKernel add mul A B M K N 0 M 0 K 0 N C

/-- `matmul_tiled_f32` -/
def matmulTiled (tile : Nat) (C : Nat → F) : Option (Nat → F) :=
  (strides M tile 0).foldlM (fun C i₀ =>
    (strides K tile 0).foldlM (fun C k₀ =>
      (strides N tile 0).foldlM (fun C j₀ =>
        microKernel add mul A B M K N i₀ (min (i₀ + tile) M) k₀ (min (k₀ + tile) K)
          j₀ (min (j₀ + tile) N) C) C) C) C

end

/-! ## The turns -/

/-- A turn `(i, k, j)` -/
abbrev Turn := Nat × Nat × Nat

def kernelTurns (i₀ iend k₀ kend j₀ jend : Nat) : List Turn :=
  (strides iend 1 i₀).flatMap fun i =>
    (strides kend 1 k₀).flatMap fun k => (strides jend 1 j₀).map fun j => (i, k, j)

def tiledTurns (M K N tile : Nat) : List Turn :=
  (strides M tile 0).flatMap fun i₀ =>
    (strides K tile 0).flatMap fun k₀ =>
      (strides N tile 0).flatMap fun j₀ =>
        kernelTurns i₀ (min (i₀ + tile) M) k₀ (min (k₀ + tile) K) j₀ (min (j₀ + tile) N)

/-- The turns at the element `(a, b)` of `C`. -/
def turnsOf (a b : Nat) (l : List Turn) : List Turn := l.filter fun t => t.1 = a ∧ t.2.2 = b

theorem turnsOf_flatMap (a b : Nat) (l : List Nat) (f : Nat → List Turn) :
    turnsOf a b (l.flatMap f) = l.flatMap fun x => turnsOf a b (f x) :=
  List.filter_flatMap

/-- A kernel comes to its elements once for every `k`, in ascending order. -/
theorem turnsOf_kernel (a b i₀ iend k₀ kend j₀ jend : Nat) :
    turnsOf a b (kernelTurns i₀ iend k₀ kend j₀ jend) =
      if a ∈ strides iend 1 i₀ then
        if b ∈ strides jend 1 j₀ then (strides kend 1 k₀).map fun k => (a, k, b) else []
      else [] := by
  have hrow (i k : Nat) : turnsOf a b ((strides jend 1 j₀).map fun j => (i, k, j)) =
      if i = a then if b ∈ strides jend 1 j₀ then [(a, k, b)] else [] else [] := by
    rw [← flatMap_ite_eq (nodup_strides_one _ _) b [(a, k, b)], List.map_eq_flatMap,
      turnsOf_flatMap]
    by_cases hi : i = a
    · subst hi
      rw [if_pos rfl]
      refine List.flatMap_congr fun j _ => ?_
      by_cases hj : j = b <;> simp [turnsOf, hj]
    · rw [if_neg hi]
      exact List.flatMap_eq_nil_iff.mpr fun j _ => by simp [turnsOf, hi]
  have hcolumn (i : Nat) : turnsOf a b ((strides kend 1 k₀).flatMap fun k =>
      (strides jend 1 j₀).map fun j => (i, k, j)) =
      if i = a then
        if b ∈ strides jend 1 j₀ then (strides kend 1 k₀).map fun k => (a, k, b) else []
      else [] := by
    simp only [turnsOf_flatMap, hrow]
    split
    · split
      · exact List.map_eq_flatMap.symm
      · exact List.flatMap_eq_nil_iff.mpr fun _ _ => rfl
    · exact List.flatMap_eq_nil_iff.mpr fun _ _ => rfl
  rw [kernelTurns, turnsOf_flatMap]
  simp only [hcolumn]
  exact flatMap_ite_eq (nodup_strides_one _ _) a _

theorem turnsOf_naive (a b M K N : Nat) :
    turnsOf a b (kernelTurns 0 M 0 K 0 N) =
      if a < M then if b < N then (strides K 1 0).map fun k => (a, k, b) else [] else [] := by
  rw [turnsOf_kernel]
  simp only [mem_strides_one, Nat.zero_le, true_and]

/-- Tiling leaves every element its turns, in their order. -/
theorem turnsOf_tiled (a b M K N : Nat) {tile : Nat} (htile : 0 < tile) :
    turnsOf a b (tiledTurns M K N tile) = turnsOf a b (kernelTurns 0 M 0 K 0 N) := by
  -- of the blocks of columns, one has `b`
  have hcolumns (i₀ k₀ : Nat) : turnsOf a b ((strides N tile 0).flatMap fun j₀ =>
      kernelTurns i₀ (min (i₀ + tile) M) k₀ (min (k₀ + tile) K) j₀ (min (j₀ + tile) N)) =
      if a ∈ strides (min (i₀ + tile) M) 1 i₀ then
        if b < N then (strides (min (k₀ + tile) K) 1 k₀).map fun k => (a, k, b) else []
      else [] := by
    simp only [turnsOf_flatMap, turnsOf_kernel]
    split
    · exact flatMap_block_of_mem htile N b _
    · exact List.flatMap_eq_nil_iff.mpr fun _ _ => rfl
  -- the blocks of `k` come one after the other
  have hdepth (i₀ : Nat) : turnsOf a b ((strides K tile 0).flatMap fun k₀ =>
      (strides N tile 0).flatMap fun j₀ =>
        kernelTurns i₀ (min (i₀ + tile) M) k₀ (min (k₀ + tile) K) j₀ (min (j₀ + tile) N)) =
      if a ∈ strides (min (i₀ + tile) M) 1 i₀ then
        if b < N then (strides K 1 0).map fun k => (a, k, b) else []
      else [] := by
    rw [turnsOf_flatMap]
    simp only [hcolumns]
    split
    · split
      · rw [← flatMap_blocks htile, List.map_flatMap]
      · exact List.flatMap_eq_nil_iff.mpr fun _ _ => rfl
    · exact List.flatMap_eq_nil_iff.mpr fun _ _ => rfl
  rw [turnsOf_naive, tiledTurns, turnsOf_flatMap]
  simp only [hdepth]
  exact flatMap_block_of_mem htile M a _

/-! ## What the loops do -/

section

variable {add mul : F → F → F} {A B : Nat → F} {M K N : Nat}

/-- What a turn makes of an element of `C`. -/
def product (add mul : F → F → F) (A B : Nat → F) (K N : Nat) (t : Turn) (c : F) : F :=
  add c (mul (A (t.1 * K + t.2.1)) (B (t.2.1 * N + t.2.2)))

/-- Where the element of a turn is. -/
def element (N : Nat) (t : Turn) : Nat := t.1 * N + t.2.2

theorem index_lt {i j m n : Nat} (hi : i < m) (hj : j < n) : i * n + j < m * n := by
  have hle : (i + 1) * n ≤ m * n := Nat.mul_le_mul_right n hi
  rw [Nat.succ_mul] at hle
  omega

/-- Inside the matrices the kernel makes its turns. -/
theorem microKernel_eq {i₀ iend k₀ kend j₀ jend : Nat} (hi : iend ≤ M) (hk : kend ≤ K)
    (hj : jend ≤ N) (C : Nat → F) :
    microKernel add mul A B M K N i₀ iend k₀ kend j₀ jend C =
      some ((kernelTurns i₀ iend k₀ kend j₀ jend).foldl
        (changeAt (element N) (product add mul A B K N)) C) := by
  simp only [kernelTurns, List.foldl_flatMap, List.foldl_map]
  refine foldlM_eq_some_foldl (fun i hi' C => ?_) C
  refine foldlM_eq_some_foldl (fun k hk' C => ?_) C
  have hrow := (mem_strides_one.mp hi').2.trans_le hi
  have hdepth := (mem_strides_one.mp hk').2.trans_le hk
  rw [load, if_pos (index_lt hrow hdepth), Option.bind_eq_bind, Option.bind_some]
  refine foldlM_eq_some_foldl (fun j hj' C => ?_) C
  have hcolumn := (mem_strides_one.mp hj').2.trans_le hj
  rw [load, load, if_pos (index_lt hdepth hcolumn), if_pos (index_lt hrow hcolumn)]
  rfl

theorem matmulNaive_eq (C : Nat → F) :
    matmulNaive add mul A B M K N C = some ((kernelTurns 0 M 0 K 0 N).foldl
      (changeAt (element N) (product add mul A B K N)) C) :=
  microKernel_eq le_rfl le_rfl le_rfl C

theorem matmulTiled_eq (tile : Nat) (C : Nat → F) :
    matmulTiled add mul A B M K N tile C = some ((tiledTurns M K N tile).foldl
      (changeAt (element N) (product add mul A B K N)) C) := by
  simp only [tiledTurns, List.foldl_flatMap]
  refine foldlM_eq_some_foldl (fun i₀ _ C => ?_) C
  refine foldlM_eq_some_foldl (fun k₀ _ C => ?_) C
  refine foldlM_eq_some_foldl (fun j₀ _ C => ?_) C
  exact microKernel_eq (min_le_right _ _) (min_le_right _ _) (min_le_right _ _) C

/-- Every turn is inside the matrices. -/
theorem mem_kernelTurns {i₀ iend k₀ kend j₀ jend : Nat} {t : Turn}
    (h : t ∈ kernelTurns i₀ iend k₀ kend j₀ jend) : t.1 < iend ∧ t.2.1 < kend ∧ t.2.2 < jend := by
  obtain ⟨i, hi, h⟩ := List.mem_flatMap.mp h
  obtain ⟨k, hk, h⟩ := List.mem_flatMap.mp h
  obtain ⟨j, hj, rfl⟩ := List.mem_map.mp h
  exact ⟨(mem_strides_one.mp hi).2, (mem_strides_one.mp hk).2, (mem_strides_one.mp hj).2⟩

theorem mem_tiledTurns {tile : Nat} {t : Turn} (h : t ∈ tiledTurns M K N tile) :
    t.1 < M ∧ t.2.1 < K ∧ t.2.2 < N := by
  obtain ⟨i₀, -, h⟩ := List.mem_flatMap.mp h
  obtain ⟨k₀, -, h⟩ := List.mem_flatMap.mp h
  obtain ⟨j₀, -, h⟩ := List.mem_flatMap.mp h
  obtain ⟨hi, hk, hj⟩ := mem_kernelTurns h
  exact ⟨hi.trans_le (min_le_right _ _), hk.trans_le (min_le_right _ _),
    hj.trans_le (min_le_right _ _)⟩

/-- The turns that come to a place of memory are those at an element of `C`. -/
theorem filter_element {l : List Turn} (h : ∀ t ∈ l, t.2.2 < N) (x : Nat) :
    (l.filter fun t => element N t = x) = turnsOf (x / N) (x % N) l := by
  refine List.filter_congr fun t ht => decide_eq_decide.mpr ?_
  have hj := h t ht
  have hN : 0 < N := Nat.zero_lt_of_lt hj
  constructor
  · rintro rfl
    rw [element, Nat.mul_comm, Nat.mul_add_div hN, Nat.div_eq_of_lt hj, Nat.mul_add_mod,
      Nat.mod_eq_of_lt hj]
    exact ⟨rfl, rfl⟩
  · rintro ⟨hrow, hcolumn⟩
    rw [element, hrow, hcolumn, Nat.mul_comm, Nat.div_add_mod]

/-- **Tiling changes nothing, whatever addition and multiplication are.** Both come to their end,
so no access is outside the matrices, and they leave the same memory. -/
theorem matmulTiled_eq_naive (add mul : F → F → F) (A B : Nat → F) (M K N : Nat) {tile : Nat}
    (htile : 1 ≤ tile) (C : Nat → F) :
    ∃ C', matmulNaive add mul A B M K N C = some C' ∧
      matmulTiled add mul A B M K N tile C = some C' ∧ ∀ x, M * N ≤ x → C' x = C x := by
  refine ⟨_, matmulNaive_eq C, ?_, fun x hx => ?_⟩
  · rw [matmulTiled_eq]
    refine congrArg some (foldl_changeAt_congr (fun x => ?_) C)
    rw [filter_element fun t ht => (mem_tiledTurns ht).2.2,
      filter_element fun t ht => (mem_kernelTurns ht).2.2]
    exact turnsOf_tiled _ _ M K N htile
  · have hnone : ((kernelTurns 0 M 0 K 0 N).filter fun t => element N t = x) = [] := by
      refine List.filter_eq_nil_iff.mpr fun t ht => ?_
      obtain ⟨hi, -, hj⟩ := mem_kernelTurns ht
      have hlt := index_lt hi hj
      rw [decide_eq_true_eq, element]
      omega
    rw [foldl_changeAt_apply, hnone]
    rfl

/-- Blocks of two over three rows, five `k` and three columns, with an addition that is not
associative. -/
theorem matmulTiled_eq_naive_two :
    ∃ C', matmulNaive (fun c p : Int => (c + p) / 2) (· * ·) (fun x => x + 1) (fun x => 7 - x) 3 5 3
        (fun _ => 0) = some C' ∧
      matmulTiled (fun c p : Int => (c + p) / 2) (· * ·) (fun x => x + 1) (fun x => 7 - x) 3 5 3 2
        (fun _ => 0) = some C' ∧ ∀ x, 3 * 3 ≤ x → C' x = 0 :=
  matmulTiled_eq_naive _ _ _ _ 3 5 3 one_le_two _

end

end CrossMachine.Cpu
