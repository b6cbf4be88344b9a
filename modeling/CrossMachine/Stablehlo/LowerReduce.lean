import Mathlib.Algebra.BigOperators.Group.List.Basic
import Mathlib.Algebra.Order.Group.Int
import Mathlib.Algebra.Order.Ring.Int
import Mathlib.Data.List.Perm.Basic
import Mathlib.Data.List.Range

/-!
# The shape of a lowered reduction

`LowerReduce` of `StableHLOLowerPass.cpp`. The result of `stablehlo.reduce` has the shape of the
input without the reduced axes. The pass copies the shape and erases one axis after another, the
last one of the list first. When an axis is erased, those behind it move down by one; an axis
that is still to come is where it was just if it lies before all that are gone.

So the shape is right when the axes are listed in ascending order, and for no other list
(`lowerReduce_shape_iff`): every position that is erased is at or behind the axis it is erased
for, and only if all of them are the axes themselves is nothing else lost.
-/

namespace CrossMachine.Stablehlo

inductive ReduceKind where
  | sum
  | max
  | mean
  deriving DecidableEq

/-- The operations that a `runtime.reduce` becomes, with the shapes of their results. -/
structure Lowered where
  /-- `stablehlo.reduce`: the axes, whether it takes the maximum, and its result. -/
  axes : List Int
  isMax : Bool
  reducedShape : List Int
  /-- What a mean is divided by. -/
  count : Option Int
  /-- The shape that `keep_dims` brings it back to. -/
  reshape : Option (List Int)

/-- `reducedShape.erase(reducedShape.begin() + ax)`. Outside of the vector it is undefined. -/
def erase (reducedShape : List Int) (ax : Int) : Option (List Int) :=
  if 0 ≤ ax ∧ ax < reducedShape.length then some (reducedShape.eraseIdx ax.toNat) else none

/-- `LowerReduce::matchAndRewrite`. -/
def lowerReduce (inputShape resultShape axes : List Int) (kind : ReduceKind) (keepDims : Bool) :
    Option Lowered := do
  let reducedShape ← axes.reverse.foldlM erase inputShape
  some {
    axes := axes
    isMax := kind = .max
    reducedShape := reducedShape
    count := if kind = .mean then
        some ((axes.map fun ax => inputShape.getD ax.toNat 1).prod)
      else none
    reshape := if keepDims then some resultShape else none }

/-- The dimensions from the `i`th on whose positions are not among the axes. -/
def without (axes : List Int) : Nat → List Int → List Int
  | _, [] => []
  | i, d :: shape =>
      if (i : Int) ∈ axes then without axes (i + 1) shape else d :: without axes (i + 1) shape

variable {axes rest shape : List Int} {a : Int} {i n : Nat}

/-! ## Axes in ascending order -/

theorem without_append (axes front back : List Int) (i : Nat) :
    without axes i (front ++ back) =
      without axes i front ++ without axes (i + front.length) back := by
  induction front generalizing i with
  | nil => rfl
  | cons d front ih =>
      rw [List.cons_append, without, without, ih, List.length_cons, Nat.add_right_comm,
        Nat.add_assoc]
      split <;> rfl

/-- All axes are further behind. -/
theorem without_before (h : ∀ ax ∈ axes, ((i + shape.length : Nat) : Int) ≤ ax) :
    without axes i shape = shape := by
  induction shape generalizing i with
  | nil => rfl
  | cons d shape ih =>
      have hnot : (i : Int) ∉ axes := by
        intro hi
        have := h i hi
        simp only [List.length_cons] at this
        omega
      rw [without, if_neg hnot, ih fun ax hax => ?_]
      have := h ax hax
      rw [List.length_cons] at this
      omega

/-- An axis that lies before does not matter. -/
theorem without_cons_before (h : a < i) : without (a :: axes) i shape = without axes i shape := by
  induction shape generalizing i with
  | nil => rfl
  | cons d shape ih =>
      have hiff : (i : Int) ∈ a :: axes ↔ (i : Int) ∈ axes := by
        rw [List.mem_cons, or_iff_right (by omega)]
      rw [without, without, ih (by omega)]
      simp only [hiff]

/-- What the next axis to be erased finds, and what it leaves. -/
theorem erase_without (ha : 0 ≤ a) (hlt : a < shape.length) (h : ∀ ax ∈ axes, a < ax) :
    erase (without axes 0 shape) a = some (without (a :: axes) 0 shape) := by
  obtain ⟨p, rfl⟩ := Int.eq_ofNat_of_zero_le ha
  have hp : p < shape.length := by omega
  have hfront : (shape.take p).length = p := List.length_take_of_le hp.le
  obtain ⟨d, back, hback⟩ := List.exists_cons_of_length_pos (l := shape.drop p)
    (by rw [List.length_drop]; omega)
  have hsplit : shape = shape.take p ++ d :: back := by rw [← hback, List.take_append_drop]
  have hkeep : ∀ {axes : List Int}, (∀ ax ∈ axes, (p : Int) ≤ ax) →
      without axes 0 (shape.take p) = shape.take p := fun h =>
    without_before fun ax hax => by
      rw [hfront, Nat.zero_add]
      exact h ax hax
  -- the dimension of the axis is still at its position
  have hfind : without axes 0 shape = shape.take p ++ d :: without axes (p + 1) back := by
    have hnot : (p : Int) ∉ axes := fun hmem => lt_irrefl _ (h _ hmem)
    conv_lhs => rw [hsplit]
    rw [without_append, hfront, Nat.zero_add, without, if_neg hnot,
      hkeep fun ax hax => (h ax hax).le]
  have hleave : without (p :: axes) 0 shape = shape.take p ++ without axes (p + 1) back := by
    have hle : ∀ ax ∈ (p : Int) :: axes, (p : Int) ≤ ax :=
      List.forall_mem_cons.mpr ⟨le_refl _, fun ax hax => (h ax hax).le⟩
    conv_lhs => rw [hsplit]
    rw [without_append, hfront, Nat.zero_add, without, if_pos List.mem_cons_self, hkeep hle,
      without_cons_before (by omega)]
  have hlen : p < (shape.take p ++ d :: without axes (p + 1) back).length := by
    rw [List.length_append, hfront, List.length_cons]
    omega
  rw [hfind, hleave, erase, if_pos ⟨ha, by exact_mod_cast hlen⟩, Int.toNat_natCast,
    List.eraseIdx_append_of_length_le hfront.le, hfront, Nat.sub_self, List.eraseIdx_cons_zero]

/-- The first axis of the list is the last one to be erased. -/
theorem foldlM_erase_cons :
    (a :: axes).reverse.foldlM erase shape =
      (axes.reverse.foldlM erase shape).bind fun s => erase s a := by
  rw [List.reverse_cons, List.foldlM_append]
  refine congrArg _ (funext fun s => ?_)
  rw [List.foldlM_cons]
  exact Option.bind_fun_some _

theorem reduced_of_sorted (hrange : ∀ ax ∈ axes, 0 ≤ ax ∧ ax < shape.length)
    (hsorted : axes.Pairwise (· < ·)) :
    axes.reverse.foldlM erase shape = some (without axes 0 shape) := by
  induction axes with
  | nil => rw [without_before fun ax hax => absurd hax List.not_mem_nil]; rfl
  | cons a axes ih =>
      obtain ⟨hfirst, hlater⟩ := List.pairwise_cons.mp hsorted
      obtain ⟨ha, hlt⟩ := hrange a List.mem_cons_self
      rw [foldlM_erase_cons, ih (fun ax hax => hrange ax (List.mem_cons_of_mem a hax)) hlater]
      exact erase_without ha hlt hfirst

/-! ## Any other order -/

/-- Where the dimensions are numbered, a dimension's number is at least its position. -/
theorem getElem_gap {l : List Int} (hl : l.Pairwise (· < ·)) {j : Nat} (hj : j < l.length)
    (hij : i ≤ j) : l[i] + (j - i : Nat) ≤ l[j] := by
  induction j, hij using Nat.le_induction with
  | base => simp
  | succ j hij ih =>
      have hstep : l[j] < l[j + 1] :=
        List.pairwise_iff_getElem.mp hl j (j + 1) (by omega) hj (Nat.lt_succ_self j)
      have := ih (by omega)
      omega

theorem le_getElem {l : List Int} (hl : l.Pairwise (· < ·)) (hpos : ∀ x ∈ l, 0 ≤ x)
    (hi : i < l.length) : (i : Int) ≤ l[i] := by
  have hgap := getElem_gap hl hi (Nat.zero_le i)
  have hfirst := hpos l[0] (List.getElem_mem _)
  omega

/-- If the `a`th number is `a`, none is missing before it. -/
theorem mem_of_getElem_eq {l : List Int} (hl : l.Pairwise (· < ·)) (hpos : ∀ x ∈ l, 0 ≤ x)
    {p : Nat} (hp : p < l.length) (heq : l[p] = p) (hi : i ≤ p) : (i : Int) ∈ l := by
  have hgap := getElem_gap hl hp hi
  have hle := le_getElem hl hpos (show i < l.length by omega)
  have : l[i] = i := by omega
  exact this ▸ List.getElem_mem _

/-- A shape whose dimensions are their own positions. -/
def numbered (i n : Nat) : List Int := (List.range' i n).map fun j : Nat => (j : Int)

theorem mem_numbered {x : Int} : x ∈ numbered 0 n ↔ 0 ≤ x ∧ x < n := by
  rw [numbered, List.mem_map]
  constructor
  · rintro ⟨j, hj, rfl⟩
    have := (List.mem_range'_1.mp hj).2
    omega
  · rintro ⟨hx, hlt⟩
    exact ⟨x.toNat, List.mem_range'_1.mpr (by omega), by omega⟩

theorem numbered_pairwise : (numbered 0 n).Pairwise (· < ·) :=
  List.pairwise_map.mpr ((List.pairwise_lt_range' 1).imp fun h => by exact_mod_cast h)

theorem numbered_nodup : (numbered 0 n).Nodup :=
  numbered_pairwise.imp ne_of_lt

theorem without_numbered (axes : List Int) (i n : Nat) :
    without axes i (numbered i n) = (numbered i n).filter fun x => x ∉ axes := by
  induction n generalizing i with
  | zero => rfl
  | succ n ih =>
      rw [numbered, List.range'_succ, List.map_cons, without, List.filter_cons]
      have hlater := ih (i + 1)
      rw [numbered] at hlater
      by_cases hi : (i : Int) ∈ axes
      · simp [hi, hlater]
      · simp [hi, hlater]

/-- What is left and what is gone is what there was. -/
theorem sum_without (hnodup : axes.Nodup) (hrange : ∀ ax ∈ axes, 0 ≤ ax ∧ ax < n) :
    (without axes 0 (numbered 0 n)).sum + axes.sum = (numbered 0 n).sum := by
  have hgone : ((numbered 0 n).filter fun x => !decide (x ∉ axes)).Perm axes := by
    refine (List.perm_ext_iff_of_nodup (numbered_nodup.filter _) hnodup).mpr fun x => ?_
    rw [List.mem_filter, mem_numbered]
    simp only [decide_not, Bool.not_not, decide_eq_true_eq]
    exact and_iff_right_of_imp (hrange x)
  have hsplit := (List.filter_append_perm (fun x => decide (x ∉ axes)) (numbered 0 n)).sum_eq
  rw [List.sum_append, hgone.sum_eq] at hsplit
  rw [without_numbered]
  exact hsplit

/-- The numbers that are erased add up to the axes at least, and to no more only if these are in
ascending order. -/
theorem sorted_of_sum (hrange : ∀ ax ∈ axes, 0 ≤ ax ∧ ax < n) {l : List Int}
    (h : axes.reverse.foldlM erase (numbered 0 n) = some l) :
    l.Sublist (numbered 0 n) ∧ l.sum + axes.sum ≤ (numbered 0 n).sum ∧
      (l.sum + axes.sum = (numbered 0 n).sum → axes.Pairwise (· < ·)) := by
  induction axes generalizing l with
  | nil =>
      obtain rfl := Option.some.inj h
      exact ⟨List.Sublist.refl _, by simp, fun _ => List.Pairwise.nil⟩
  | cons a axes ih =>
      have hlater : ∀ ax ∈ axes, 0 ≤ ax ∧ ax < n := fun ax hax =>
        hrange ax (List.mem_cons_of_mem a hax)
      rw [foldlM_erase_cons] at h
      obtain ⟨s, hs, herase⟩ := Option.bind_eq_some_iff.mp h
      obtain ⟨hsub, hle, hsorted⟩ := ih hlater hs
      rw [erase] at herase
      split at herase
      case isFalse => exact absurd herase (by simp)
      rename_i hin
      obtain ⟨p, rfl⟩ := Int.eq_ofNat_of_zero_le hin.1
      have hp : p < s.length := by exact_mod_cast hin.2
      rw [Int.toNat_natCast] at herase
      obtain rfl := Option.some.inj herase
      have hs_lt : s.Pairwise (· < ·) := numbered_pairwise.sublist hsub
      have hs_pos : ∀ x ∈ s, 0 ≤ x := fun x hx => (mem_numbered.mp (hsub.subset hx)).1
      have herased := (List.getElem_cons_eraseIdx_perm hp).sum_eq
      have hge := le_getElem hs_lt hs_pos hp
      rw [List.sum_cons] at herased
      rw [List.sum_cons]
      refine ⟨(List.eraseIdx_sublist s p).trans hsub, by omega, fun heq => ?_⟩
      have hrest := hsorted (by omega)
      refine List.pairwise_cons.mpr ⟨fun ax hax => ?_, hrest⟩
      -- at its position is its number, so nothing before it is gone
      by_contra hnot
      have hshape : ∀ ax ∈ axes, 0 ≤ ax ∧ ax < (numbered 0 n).length := by
        simpa [numbered] using hlater
      have hwithout := (reduced_of_sorted hshape hrest).symm.trans hs
      rw [without_numbered] at hwithout
      obtain ⟨q, rfl⟩ := Int.eq_ofNat_of_zero_le (hlater ax hax).1
      have hmem := mem_of_getElem_eq hs_lt hs_pos hp (by omega) (show q ≤ p by omega)
      rw [← Option.some.inj hwithout, List.mem_filter] at hmem
      simp only [decide_eq_true_eq] at hmem
      exact hmem.2 hax

/-- The lowered reduction has the shape of the input without the reduced axes, for every input of
the rank, exactly when the axes are listed in ascending order. -/
theorem lowerReduce_shape_iff (hnodup : axes.Nodup) (hrange : ∀ ax ∈ axes, 0 ≤ ax ∧ ax < n)
    (resultShape : List Int) (kind : ReduceKind) (keepDims : Bool) :
    (∀ inputShape : List Int, inputShape.length = n →
      (lowerReduce inputShape resultShape axes kind keepDims).map Lowered.reducedShape =
        some (without axes 0 inputShape)) ↔
    axes.Pairwise (· < ·) := by
  have hshape (inputShape : List Int) :
      (lowerReduce inputShape resultShape axes kind keepDims).map Lowered.reducedShape =
        axes.reverse.foldlM erase inputShape := by
    rw [lowerReduce]
    cases axes.reverse.foldlM erase inputShape <;> rfl
  simp only [hshape]
  constructor
  · intro h
    have hreduced := h (numbered 0 n) (by simp [numbered])
    exact (sorted_of_sum hrange hreduced).2.2 (sum_without hnodup hrange)
  · rintro hsorted inputShape rfl
    exact reduced_of_sorted hrange hsorted

/-- Two of three dimensions, the first one first. -/
theorem lowerReduce_ascending :
    (∀ inputShape : List Int, inputShape.length = 3 →
      (lowerReduce inputShape [] [0, 2] .sum false).map Lowered.reducedShape =
        some (without [0, 2] 0 inputShape)) ↔
    [(0 : Int), 2].Pairwise (· < ·) :=
  lowerReduce_shape_iff (n := 3) (by decide) (by decide) [] .sum false

/-- The last one first: when it is its turn, the shape has only two dimensions. And of four, the
wrong one goes. -/
theorem lowerReduce_descending :
    lowerReduce [2, 3, 5] [] [2, 0] .sum false = none ∧
    (lowerReduce [2, 3, 5, 7] [] [2, 0] .sum false).map Lowered.reducedShape = some [3, 5] ∧
    without [2, 0] 0 [2, 3, 5, 7] = [3, 7] := by
  decide

end CrossMachine.Stablehlo
