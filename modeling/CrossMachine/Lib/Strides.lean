import CrossMachine.Lib.Loops
import Mathlib.Data.List.Range
import Mathlib.Data.List.Nodup

/-!
# Nests of loops as lists of turns

A nest of loops is the list of its turns, and what it does is a fold over them. When every turn
changes one cell by what the cell has, a cell sees only its own turns, so two nests whose turns at
each cell are the same, in the same order, do the same (`foldl_changeAt_congr`): no law of the
operation is needed. A loop that is cut into blocks has the turns of its blocks, one after the other
(`flatMap_blocks`).
-/

namespace CrossMachine.Lib

variable {ι κ α : Type*}

/-! ## The turns of a loop -/

/-- The values of `i` in `for (i = lo; i < hi; i += step)`, where `step` is not zero. -/
def strides (hi step : Nat) (lo : Nat) : List Nat :=
  if lo < hi ∧ 0 < step then lo :: strides hi step (lo + step) else []
termination_by hi - lo

theorem lt_of_mem_strides {hi step lo i : Nat} (h : i ∈ strides hi step lo) : i < hi := by
  fun_induction strides hi step lo with
  | case1 lo hlo ih =>
      rcases List.mem_cons.mp h with rfl | h
      · exact hlo.1
      · exact ih h
  | case2 lo hlo => cases h

theorem strides_one (lo hi : Nat) : strides hi 1 lo = List.range' lo (hi - lo) := by
  fun_induction strides hi 1 lo with
  | case1 lo h ih =>
      obtain ⟨n, hn⟩ := Nat.exists_eq_add_of_lt h.1
      rw [ih, show hi - lo = hi - (lo + 1) + 1 by omega, List.range'_succ]
  | case2 lo h => rw [show hi - lo = 0 by omega, List.range'_zero]

theorem mem_strides_one {lo hi i : Nat} : i ∈ strides hi 1 lo ↔ lo ≤ i ∧ i < hi := by
  rw [strides_one, List.mem_range'_1]
  omega

theorem nodup_strides_one (lo hi : Nat) : (strides hi 1 lo).Nodup := by
  rw [strides_one]
  exact List.nodup_range'

/-- The turns of the blocks are the turns of the loop. -/
theorem flatMap_blocks {step : Nat} (hstep : 0 < step) (lo hi : Nat) :
    (strides hi step lo).flatMap (fun s => strides (min (s + step) hi) 1 s) = strides hi 1 lo := by
  fun_induction strides hi step lo with
  | case1 lo h ih =>
      rw [List.flatMap_cons, ih, strides_one, strides_one, strides_one]
      rcases Nat.le_total (lo + step) hi with hle | hle
      · rw [min_eq_left hle, Nat.add_sub_cancel_left, List.range'_append_1]
        exact congrArg (List.range' lo) (by omega)
      · rw [min_eq_right hle, Nat.sub_eq_zero_of_le hle, List.range'_zero, List.append_nil]
  | case2 lo h =>
      rw [strides_one, show hi - lo = 0 by omega]
      rfl

/-- Of the turns of a loop, one has a given value. -/
theorem flatMap_ite_eq {l : List ι} [DecidableEq ι] (hl : l.Nodup) (a : ι) (r : List κ) :
    (l.flatMap fun x => if x = a then r else []) = if a ∈ l then r else [] := by
  have hnone {l : List ι} (ha : a ∉ l) : (l.flatMap fun x => if x = a then r else []) = [] :=
    List.flatMap_eq_nil_iff.mpr fun x hx => if_neg fun hxa : x = a => ha (hxa ▸ hx)
  split
  · rename_i ha
    obtain ⟨front, back, rfl⟩ := List.append_of_mem ha
    have hrest := (List.nodup_cons.mp (List.nodup_middle.mp hl)).1
    obtain ⟨hfront, hback⟩ := not_or.mp (List.mem_append.not.mp hrest)
    rw [List.flatMap_append, List.flatMap_cons, hnone hfront, hnone hback, if_pos rfl,
      List.nil_append, List.append_nil]
  · rename_i ha
    exact hnone ha

/-- Of the blocks of a loop, one has a given turn. -/
theorem flatMap_block_of_mem {step : Nat} (hstep : 0 < step) (hi a : Nat) (r : List κ) :
    ((strides hi step 0).flatMap fun s => if a ∈ strides (min (s + step) hi) 1 s then r else []) =
      if a < hi then r else [] := by
  have hblock (s : Nat) : (if a ∈ strides (min (s + step) hi) 1 s then r else []) =
      (strides (min (s + step) hi) 1 s).flatMap fun x => if x = a then r else [] :=
    (flatMap_ite_eq (nodup_strides_one _ _) a r).symm
  simp only [hblock]
  rw [← List.flatMap_assoc, flatMap_blocks hstep, flatMap_ite_eq (nodup_strides_one _ _)]
  exact if_congr (by rw [mem_strides_one]; omega) rfl rfl

/-! ## What the turns do -/

/-- A cell is changed by what it has. -/
def changeAt [DecidableEq ι] (cell : κ → ι) (f : κ → α → α) (mem : ι → α) (t : κ) : ι → α :=
  Function.update mem (cell t) (f t (mem (cell t)))

theorem foldl_changeAt_apply [DecidableEq ι] (cell : κ → ι) (f : κ → α → α) (l : List κ)
    (mem : ι → α) (x : ι) :
    l.foldl (changeAt cell f) mem x =
      (l.filter fun t => cell t = x).foldl (fun v t => f t v) (mem x) := by
  induction l generalizing mem with
  | nil => rfl
  | cons t l ih =>
      rw [List.foldl_cons, ih, List.filter_cons]
      by_cases ht : cell t = x
      · subst ht
        simp only [decide_true, if_true, List.foldl_cons, changeAt, Function.update_self]
      · simp only [ht, decide_false, Bool.false_eq_true, if_false, changeAt,
          Function.update_of_ne (Ne.symm ht)]

theorem foldl_changeAt_congr [DecidableEq ι] {cell : κ → ι} {f : κ → α → α} {l l' : List κ}
    (h : ∀ x, (l.filter fun t => cell t = x) = l'.filter fun t => cell t = x) (mem : ι → α) :
    l.foldl (changeAt cell f) mem = l'.foldl (changeAt cell f) mem := by
  funext x
  rw [foldl_changeAt_apply, foldl_changeAt_apply, h]

/-- A loop none of whose turns fails. -/
theorem foldlM_eq_some_foldl {l : List κ} {step : α → κ → Option α} {f : α → κ → α}
    (h : ∀ t ∈ l, ∀ s, step s t = some (f s t)) (s : α) :
    l.foldlM step s = some (l.foldl f s) := by
  induction l generalizing s with
  | nil => rfl
  | cons t l ih =>
      rw [List.foldlM_cons, h t List.mem_cons_self, List.foldl_cons]
      exact ih (fun u hu => h u (List.mem_cons_of_mem t hu)) _

end CrossMachine.Lib
