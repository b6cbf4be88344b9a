import CrossMachine.Lib.Strides
import Mathlib.Algebra.BigOperators.Group.List.Basic
import Mathlib.Algebra.Order.Ring.Int
import Mathlib.Algebra.Order.Group.Nat
import Mathlib.Data.List.Perm.Basic
import Mathlib.Order.WellFounded

/-!
# Shrinking

`shrink` of `proptest.h`: the simpler values that are tried for a counterexample, for `int`,
`size_t` and vectors of what can be shrunk. A vector loses elements or has one of them shrunk, so
its weight counts every element once more than the element weighs (`Ty.weight`).
-/

namespace CrossMachine.Proptest

open Lib

/-- The types with a `shrink` of their own. -/
inductive Ty where
  | int
  | size
  | vec (elem : Ty)

/-- An `int` that can be negated. -/
abbrev CInt := {n : Int // -2147483648 < n ∧ n < 2147483648}

/-- A `size_t` is not bounded here: none of its candidates is larger. -/
def Ty.Val : Ty → Type
  | int => CInt
  | size => Nat
  | vec elem => List elem.Val

/-! ## Candidates -/

/-- What is pushed, in that order, less `n` itself. -/
def shrinkInt (n : Int) : List Int :=
  let out :=
    (if n ≠ 0 then [0] else []) ++
    (if n < 0 then [-n] else []) ++
    (if n > 1 then [n.tdiv 2] else []) ++
    (if n < -1 then [n.tdiv 2] else []) ++
    (if n > 2 then [n - 1] else []) ++
    (if n < -2 then [n + 1] else [])
  out.filter fun c => c ≠ n

def shrinkSize (n : Nat) : List Nat :=
  (if n > 0 then [0] else []) ++ (if n > 1 then [n / 2] else []) ++ (if n > 1 then [n - 1] else [])

/-- The empty vector, the first half, the vector without one element, and the vector with one
element shrunk. At most so many elements are tried that a step of an eighth or a fifth of the size
allows. -/
def shrinkVector {α : Type} (shrink : α → List α) (v : List α) : List (List α) :=
  (if v ≠ [] then [[]] else []) ++
  (if v.length > 1 then [v.take (v.length / 2)] else []) ++
  (strides v.length (max 1 (v.length / 8)) 0).map (fun i => v.eraseIdx i) ++
  (strides v.length (max 1 (v.length / 5)) 0).flatMap fun i =>
    (v[i]?.toList.flatMap shrink).map fun smaller => v.set i smaller

theorem shrinkInt_cases {n c : Int} (hc : c ∈ shrinkInt n) :
    (n ≠ 0 ∧ c = 0) ∨ (n < 0 ∧ c = -n) ∨ ((n > 1 ∨ n < -1) ∧ c = n.tdiv 2) ∨
      (n > 2 ∧ c = n - 1) ∨ (n < -2 ∧ c = n + 1) := by
  simp only [shrinkInt, List.mem_filter, List.mem_append, List.mem_ite_nil_right,
    List.mem_singleton] at hc
  rcases hc with ⟨((((hc | hc) | hc) | hc) | hc) | hc, -⟩
  · exact .inl hc
  · exact .inr (.inl hc)
  · exact .inr (.inr (.inl ⟨.inl hc.1, hc.2⟩))
  · exact .inr (.inr (.inl ⟨.inr hc.1, hc.2⟩))
  · exact .inr (.inr (.inr (.inl hc)))
  · exact .inr (.inr (.inr (.inr hc)))

theorem natAbs_half (n : Int) : (n.tdiv 2).natAbs = n.natAbs / 2 := Int.natAbs_tdiv n 2

theorem natAbs_le_of_mem_shrinkInt {n c : Int} (hc : c ∈ shrinkInt n) : c.natAbs ≤ n.natAbs := by
  rcases shrinkInt_cases hc with ⟨-, rfl⟩ | ⟨-, rfl⟩ | ⟨-, rfl⟩ | ⟨_, rfl⟩ | ⟨_, rfl⟩
  · exact Nat.zero_le _
  · exact (Int.natAbs_neg n).le
  · rw [natAbs_half]
    exact Nat.div_le_self _ _
  · omega
  · omega

/-- A candidate can be negated as well. -/
def shrinkCInt (n : CInt) : List CInt :=
  (shrinkInt n.1).attach.map fun c => ⟨c.1, by
    have hle := natAbs_le_of_mem_shrinkInt c.2
    have hn := n.2
    omega⟩

def Ty.shrink : (t : Ty) → t.Val → List t.Val
  | int => shrinkCInt
  | size => shrinkSize
  | vec elem => shrinkVector elem.shrink

/-! ## The weight -/

/-- Of two integers that differ in sign the negative one weighs more. -/
def weightInt (n : Int) : Nat := 2 * n.natAbs + if n < 0 then 1 else 0

/-- Every element counts, and what it weighs. -/
def weightVector {α : Type} (f : α → Nat) (v : List α) : Nat := (v.map fun x => 1 + f x).sum

def Ty.weight : (t : Ty) → t.Val → Nat
  | int => fun n => weightInt n.1
  | size => fun n => n
  | vec elem => weightVector elem.weight

/-- The order in which values shrink. -/
def Ty.Smaller (t : Ty) (c v : t.Val) : Prop := t.weight c < t.weight v

theorem Ty.smaller_wf (t : Ty) : WellFounded t.Smaller := InvImage.wf t.weight Nat.lt_wfRel.wf

theorem weightInt_lt {n c : Int} (hc : c ∈ shrinkInt n) : weightInt c < weightInt n := by
  unfold weightInt
  rcases shrinkInt_cases hc with ⟨hn, rfl⟩ | ⟨hn, rfl⟩ | ⟨hn, rfl⟩ | ⟨hn, rfl⟩ | ⟨hn, rfl⟩
  · rw [if_neg (Int.lt_irrefl 0)]
    omega
  · rw [Int.natAbs_neg, if_pos hn, if_neg (by omega)]
    omega
  · -- the sign may stay, and half of two or more is less than the rest
    have hle : (if n.tdiv 2 < 0 then 1 else 0) ≤ 1 := by split <;> omega
    rw [natAbs_half]
    split <;> omega
  · rw [if_neg (by omega), if_neg (by omega)]
    omega
  · rw [if_pos (by omega), if_pos (by omega)]
    omega

theorem shrinkSize_lt {n c : Nat} (hc : c ∈ shrinkSize n) : c < n := by
  simp only [shrinkSize, List.mem_append, List.mem_ite_nil_right, List.mem_singleton] at hc
  rcases hc with (⟨hn, rfl⟩ | ⟨hn, rfl⟩) | ⟨hn, rfl⟩
  · exact hn
  · omega
  · omega

section Vector

variable {α : Type} {f : α → Nat} {v : List α} {i : Nat}

theorem weightVector_append (f : α → Nat) (v w : List α) :
    weightVector f (v ++ w) = weightVector f v + weightVector f w := by
  rw [weightVector, List.map_append, List.sum_append]
  rfl

theorem weightVector_pos (hv : v ≠ []) : 0 < weightVector f v := by
  cases v with
  | nil => exact absurd rfl hv
  | cons x v =>
      simp only [weightVector, List.map_cons, List.sum_cons]
      omega

theorem weightVector_perm {w : List α} (h : v.Perm w) : weightVector f v = weightVector f w :=
  (h.map _).sum_eq

theorem weightVector_eraseIdx (hi : i < v.length) :
    weightVector f v = 1 + f v[i] + weightVector f (v.eraseIdx i) := by
  rw [← weightVector_perm (List.getElem_cons_eraseIdx_perm hi)]
  rfl

theorem weightVector_set (hi : i < v.length) (x : α) :
    weightVector f (v.set i x) = 1 + f x + weightVector f (v.eraseIdx i) := by
  rw [weightVector_perm (List.set_perm_cons_eraseIdx hi x)]
  rfl

/-- When the candidates of the elements weigh less, those of the vector do. -/
theorem weightVector_lt {shrink : α → List α} (hshrink : ∀ x, ∀ c ∈ shrink x, f c < f x)
    {w : List α} (hw : w ∈ shrinkVector shrink v) : weightVector f w < weightVector f v := by
  simp only [shrinkVector, List.mem_append, List.mem_ite_nil_right, List.mem_singleton,
    List.mem_map, List.mem_flatMap, Option.mem_toList] at hw
  rcases hw with ((⟨hv, rfl⟩ | ⟨hv, rfl⟩) | ⟨i, hi, rfl⟩) | ⟨i, hi, c, ⟨x, hx, hc⟩, rfl⟩
  · exact weightVector_pos hv
  · have hrest : v.drop (v.length / 2) ≠ [] := by
      rw [ne_eq, List.drop_eq_nil_iff]
      omega
    have hsplit := weightVector_append f (v.take (v.length / 2)) (v.drop (v.length / 2))
    rw [List.take_append_drop] at hsplit
    have := weightVector_pos (f := f) hrest
    omega
  · have := weightVector_eraseIdx (f := f) (lt_of_mem_strides hi)
    omega
  · obtain ⟨hi, rfl⟩ := List.getElem?_eq_some_iff.mp hx
    have := hshrink _ c hc
    rw [weightVector_set hi, weightVector_eraseIdx hi]
    omega

end Vector

/-- Every candidate is smaller, whatever vectors are nested in vectors. -/
theorem Ty.smaller_of_mem_shrink (t : Ty) {v c : t.Val} (hc : c ∈ t.shrink v) : t.Smaller c v := by
  induction t with
  | int =>
      obtain ⟨c, -, rfl⟩ := List.mem_map.mp hc
      exact weightInt_lt c.2
  | size => exact shrinkSize_lt hc
  | vec elem ih => exact weightVector_lt (fun x c hc => ih hc) hc

end CrossMachine.Proptest
