import Mathlib.Algebra.BigOperators.Group.List.Basic
import Mathlib.Algebra.BigOperators.Ring.List
import Mathlib.Algebra.Order.BigOperators.GroupWithZero.List
import Mathlib.Algebra.Order.Ring.Int
import Mathlib.Data.Int.Order.Lemmas
import Mathlib.Data.List.Forall2
import Mathlib.Data.List.Perm.Basic
import Mathlib.Logic.Equiv.Basic
import Mathlib.Tactic.Linarith
import Mathlib.Tactic.Ring

/-!
# Strided arrays

An array in row-major order has its last dimension vary fastest: the element at an index is
the one at `ravel` of the index, and the element at a position the one at `unravel` of it.
The address of an element is linear in its index, by one stride for every dimension.

A view of such an array reorders its dimensions and takes some elements along each of them
(`Axis`). Strides that are those of a row-major array again say a lot about a view: that only
the outermost dimension of the array has been cut, and that what is left is one contiguous
part of it (`contiguous_window`). Dimensions may be negative there. An array with a negative
dimension has no elements, and a view of it may be turned into an array that has some.
-/

namespace CrossMachine.Lib

/-- `idx` is an index of an array of this shape. -/
def InRange (idx shape : List Int) : Prop := List.Forall₂ (fun i d => 0 ≤ i ∧ i < d) idx shape

/-- The position of an index in row-major order. -/
def ravel : List Int → List Int → Int
  | _ :: ds, i :: is => i * ds.prod + ravel ds is
  | _, _ => 0

/-- The index at a position. -/
def unravel : List Int → Int → List Int
  | [], _ => []
  | _ :: ds, n => n / ds.prod :: unravel ds (n % ds.prod)

/-- The strides of an array in row-major order, of elements of size `e`. -/
def rowStrides (e : Int) : List Int → List Int
  | [] => []
  | _ :: ds => e * ds.prod :: rowStrides e ds

/-- How far an index is from the index of zeros. -/
def dot (idx strides : List Int) : Int := (List.zipWith (· * ·) idx strides).sum

@[simp] theorem length_unravel (shape : List Int) (n : Int) :
    (unravel shape n).length = shape.length := by
  induction shape generalizing n with
  | nil => rfl
  | cons d ds ih => rw [unravel, List.length_cons, List.length_cons, ih]

@[simp] theorem length_rowStrides (e : Int) (shape : List Int) :
    (rowStrides e shape).length = shape.length := by
  induction shape with
  | nil => rfl
  | cons d ds ih => rw [rowStrides, List.length_cons, List.length_cons, ih]

variable {shape idx : List Int} {b : Nat}

/-- No dimension has to be positive for this. -/
theorem ravel_unravel {n : Int} (h : shape = [] → n = 0) : ravel shape (unravel shape n) = n := by
  induction shape generalizing n with
  | nil => exact (h rfl).symm
  | cons d ds ih =>
      have hrest : ds = [] → n % ds.prod = 0 := by
        rintro rfl
        exact Int.emod_one n
      rw [unravel, ravel, ih hrest]
      exact Int.ediv_mul_add_emod n _

theorem InRange.prod_pos (h : InRange idx shape) : 0 < shape.prod := by
  induction h with
  | nil => exact Int.one_pos
  | cons hi _ ih =>
      rw [List.prod_cons]
      exact Int.mul_pos (Int.lt_of_le_of_lt hi.1 hi.2) ih

theorem inRange_unravel (hpos : ∀ d ∈ shape, 0 < d) {n : Int} (hn : 0 ≤ n) (hlt : n < shape.prod) :
    InRange (unravel shape n) shape := by
  induction shape generalizing n with
  | nil => exact .nil
  | cons d ds ih =>
      have hds : ∀ d ∈ ds, 0 < d := fun d hd => hpos d (List.mem_cons_of_mem _ hd)
      have hprod : 0 < ds.prod := List.prod_pos hds
      rw [List.prod_cons] at hlt
      refine .cons ⟨Int.ediv_nonneg hn (Int.le_of_lt hprod), ?_⟩ ?_
      · exact Int.ediv_lt_of_lt_mul hprod hlt
      · exact ih hds (Int.emod_nonneg _ (Int.ne_of_gt hprod)) (Int.emod_lt_of_pos _ hprod)

theorem ravel_bounds (h : InRange idx shape) :
    0 ≤ ravel shape idx ∧ ravel shape idx < shape.prod := by
  induction h with
  | nil => exact ⟨Int.le_refl 0, Int.one_pos⟩
  | cons hi hrest ih =>
      rename_i i d is ds
      have hprod : 0 < ds.prod := InRange.prod_pos hrest
      rw [ravel, List.prod_cons]
      refine ⟨Int.add_nonneg (Int.mul_nonneg hi.1 (Int.le_of_lt hprod)) ih.1, ?_⟩
      calc i * ds.prod + ravel ds is
          < i * ds.prod + ds.prod := Int.add_lt_add_left ih.2 _
        _ = (i + 1) * ds.prod := by ring
        _ ≤ d * ds.prod := Int.mul_le_mul_of_nonneg_right hi.2 (Int.le_of_lt hprod)

/-- A row-major array has one index at each position. -/
theorem ravel_inj {idx' : List Int} (h : InRange idx shape) (h' : InRange idx' shape)
    (heq : ravel shape idx = ravel shape idx') : idx = idx' := by
  induction h generalizing idx' with
  | nil =>
      cases h'
      rfl
  | cons hi hrest ih =>
      rename_i i d is ds
      cases h' with
      | cons hi' hrest' =>
          rename_i i' is'
          obtain ⟨hlo, hhi⟩ := ravel_bounds hrest
          obtain ⟨hlo', hhi'⟩ := ravel_bounds hrest'
          rw [ravel, ravel] at heq
          have hi : i = i' := by
            by_contra hne
            rcases Int.lt_or_gt_of_ne hne with hlt | hlt
            · nlinarith [InRange.prod_pos hrest]
            · nlinarith [InRange.prod_pos hrest]
          subst hi
          rw [ih hrest' (Int.add_left_cancel heq)]

theorem dot_cons (i t : Int) (is ts : List Int) : dot (i :: is) (t :: ts) = i * t + dot is ts := by
  simp [dot]

theorem dot_rowStrides (e : Int) (h : idx.length = shape.length) :
    dot idx (rowStrides e shape) = e * ravel shape idx := by
  induction shape generalizing idx with
  | nil =>
      rw [List.length_eq_zero_iff.mp h]
      simp [dot, ravel]
  | cons d ds ih =>
      cases idx with
      | nil => exact absurd h (by simp)
      | cons i is =>
          have hrest : is.length = ds.length := by simpa using h
          rw [rowStrides, dot_cons, ih hrest, ravel]
          ring

theorem rowStrides_append (e : Int) (l : List Int) (d : Int) (r : List Int) :
    ∃ ts, ts.length = l.length ∧
      rowStrides e (l ++ d :: r) = ts ++ e * r.prod :: rowStrides e r := by
  induction l with
  | nil => exact ⟨[], rfl, rfl⟩
  | cons x l ih =>
      obtain ⟨ts, hlen, hts⟩ := ih
      refine ⟨e * (l ++ d :: r).prod :: ts, by rw [List.length_cons, hlen, List.length_cons], ?_⟩
      rw [List.cons_append, rowStrides, hts, List.cons_append]

/-! ## Indices of views -/

section Swap

variable {α β γ : Type*}

/-- The list with the elements at `a` and `b` exchanged. -/
def swapAt (l : List α) (a b : Nat) : List α :=
  match l[a]?, l[b]? with
  | some x, some y => (l.set a y).set b x
  | _, _ => l

variable {l : List α}

theorem swapAt_eq {a : Nat} (ha : a < l.length) (hb : b < l.length) :
    swapAt l a b = (l.set a l[b]).set b l[a] := by
  simp only [swapAt, List.getElem?_eq_getElem ha, List.getElem?_eq_getElem hb]

theorem swapAt_of_le {a : Nat} (h : l.length ≤ a ∨ l.length ≤ b) : swapAt l a b = l := by
  unfold swapAt
  split
  · rename_i hx hy
    have := (List.getElem?_eq_some_iff.mp hx).1
    have := (List.getElem?_eq_some_iff.mp hy).1
    omega
  · rfl

theorem swapAt_perm (l : List α) (a b : Nat) : (swapAt l a b).Perm l := by
  by_cases h : a < l.length ∧ b < l.length
  · rw [swapAt_eq h.1 h.2]
    exact List.set_set_perm h.1 h.2
  · rw [swapAt_of_le (by omega)]

@[simp] theorem length_swapAt (l : List α) (a b : Nat) : (swapAt l a b).length = l.length :=
  (swapAt_perm l a b).length_eq

theorem getElem?_swapAt {a : Nat} (ha : a < l.length) (hb : b < l.length) (k : Nat) :
    (swapAt l a b)[k]? = l[Equiv.swap a b k]? := by
  rw [swapAt_eq ha hb, List.getElem?_set, List.getElem?_set, List.length_set,
    Equiv.swap_apply_def]
  by_cases hkb : k = b
  · subst hkb
    rw [if_pos rfl, if_pos hb]
    split
    · rename_i hka
      subst hka
      exact (List.getElem?_eq_getElem ha).symm
    · rw [if_pos rfl, List.getElem?_eq_getElem ha]
  · rw [if_neg (Ne.symm hkb)]
    by_cases hka : k = a
    · subst hka
      rw [if_pos rfl, if_pos ha, if_pos rfl, List.getElem?_eq_getElem hb]
    · rw [if_neg (Ne.symm hka), if_neg hka, if_neg hkb]

theorem map_swapAt (f : α → β) (l : List α) (a b : Nat) :
    (swapAt l a b).map f = swapAt (l.map f) a b := by
  by_cases h : a < l.length ∧ b < l.length
  · rw [swapAt_eq h.1 h.2, swapAt_eq (by simpa using h.1) (by simpa using h.2), List.map_set,
      List.map_set, List.getElem_map, List.getElem_map]
  · rw [swapAt_of_le (by omega), swapAt_of_le (by rw [List.length_map]; omega)]

theorem zipWith_swapAt (f : α → β → γ) {m : List β} (h : l.length = m.length) (a b : Nat) :
    List.zipWith f (swapAt l a b) (swapAt m a b) = swapAt (List.zipWith f l m) a b := by
  by_cases hab : a < l.length ∧ b < l.length
  · refine List.ext_getElem? fun k => ?_
    have hlen : (List.zipWith f l m).length = l.length := by
      rw [List.length_zipWith, h, Nat.min_self]
    rw [List.getElem?_zipWith, getElem?_swapAt hab.1 hab.2,
      getElem?_swapAt (h ▸ hab.1) (h ▸ hab.2), getElem?_swapAt (hlen ▸ hab.1) (hlen ▸ hab.2),
      List.getElem?_zipWith]
  · have hzip : (List.zipWith f l m).length ≤ l.length := by
      rw [List.length_zipWith]
      exact Nat.min_le_left _ _
    rw [swapAt_of_le (by omega), swapAt_of_le (by omega), swapAt_of_le (by omega)]

theorem swapAt_swapAt (l : List α) (a b : Nat) : swapAt (swapAt l a b) a b = l := by
  by_cases h : a < l.length ∧ b < l.length
  · refine List.ext_getElem? fun k => ?_
    rw [getElem?_swapAt (by simpa using h.1) (by simpa using h.2), getElem?_swapAt h.1 h.2,
      Equiv.swap_apply_self]
  · rw [swapAt_of_le (by rw [length_swapAt]; omega), swapAt_of_le (by omega)]

end Swap

theorem dot_swapAt {ts : List Int} (h : idx.length = ts.length) (a b : Nat) :
    dot (swapAt idx a b) ts = dot idx (swapAt ts a b) := by
  have hswap : List.zipWith (· * ·) (swapAt idx a b) ts =
      swapAt (List.zipWith (· * ·) idx (swapAt ts a b)) a b := by
    rw [← zipWith_swapAt _ (by rw [length_swapAt, h]), swapAt_swapAt]
  rw [dot, hswap, (swapAt_perm _ a b).sum_eq, dot]

theorem InRange.swapAt {a : Nat} (h : InRange idx (swapAt shape a b)) :
    InRange (swapAt idx a b) shape := by
  obtain ⟨hlen, hmem⟩ := List.forall₂_iff_zip.mp h
  rw [length_swapAt] at hlen
  refine List.forall₂_iff_zip.mpr ⟨by rw [length_swapAt, hlen], fun {i d} hid => hmem ?_⟩
  have hzip : List.zip (CrossMachine.Lib.swapAt idx a b) shape =
      CrossMachine.Lib.swapAt (idx.zip (CrossMachine.Lib.swapAt shape a b)) a b := by
    change List.zipWith Prod.mk _ _ = CrossMachine.Lib.swapAt (List.zipWith Prod.mk _ _) a b
    rw [← zipWith_swapAt _ (by rw [length_swapAt, hlen]), swapAt_swapAt]
  rw [hzip, (swapAt_perm _ a b).mem_iff] at hid
  exact hid

theorem dot_modify {ts : List Int} (h : idx.length = ts.length) {k : Nat} {t : Int}
    (ht : ts[k]? = some t) (start step : Int) :
    dot (idx.modify k fun i => start + i * step) ts =
      start * t + dot idx (ts.set k (t * step)) := by
  induction k generalizing idx ts with
  | zero =>
      cases ts with
      | nil => exact absurd ht (by simp)
      | cons t' ts =>
          cases idx with
          | nil => exact absurd h (by simp)
          | cons i is =>
              obtain rfl : t' = t := by simpa using ht
              rw [List.modify_zero_cons, List.set_cons_zero, dot_cons, dot_cons]
              ring
  | succ k ih =>
      cases ts with
      | nil => exact absurd ht (by simp)
      | cons t' ts =>
          cases idx with
          | nil => exact absurd h (by simp)
          | cons i is =>
              rw [List.modify_succ_cons, List.set_cons_succ, dot_cons, dot_cons,
                ih (by simpa using h) (by simpa using ht)]
              ring

theorem InRange.modify {k : Nat} {c d : Int} {f : Int → Int} (h : InRange idx (shape.set k c))
    (hd : shape[k]? = some d) (hf : ∀ i, 0 ≤ i → i < c → 0 ≤ f i ∧ f i < d) :
    InRange (idx.modify k f) shape := by
  induction k generalizing idx shape with
  | zero =>
      cases shape with
      | nil => exact absurd hd (by simp)
      | cons d' ds =>
          obtain rfl : d' = d := by simpa using hd
          rw [List.set_cons_zero] at h
          cases h with
          | cons hi hrest => exact .cons (hf _ hi.1 hi.2) hrest
  | succ k ih =>
      cases shape with
      | nil => exact absurd hd (by simp)
      | cons d' ds =>
          rw [List.set_cons_succ] at h
          cases h with
          | cons hi hrest => exact .cons hi (ih hrest (by simpa using hd))

theorem modify_injective {α : Type*} {f : α → α} (hf : Function.Injective f) (k : Nat) :
    Function.Injective fun l : List α => l.modify k f := by
  intro l l' h
  refine List.ext_getElem? fun i => ?_
  have hi := congrArg (fun l : List α => l[i]?) h
  simp only [List.getElem?_modify] at hi
  by_cases hik : k = i
  · simp only [hik, if_true] at hi
    exact Option.map_injective hf hi
  · simp only [hik, if_false] at hi
    simpa using hi

/-! ## Views -/

/-- A dimension of an array and what a view takes along it: `count` elements from `start` on,
`step` apart. -/
structure Axis where
  size : Int
  stride : Int
  start : Int
  step : Int
  count : Int

namespace Axis

/-- The elements taken are there. A negative dimension cannot be cut. -/
structure Ok (a : Axis) : Prop where
  step_pos : 0 < a.step
  start_nonneg : 0 ≤ a.start
  inside : ∀ i, 0 ≤ i → i < a.count → a.start + i * a.step < a.size
  whole : a.count < 0 → a.start = 0 ∧ a.count = a.size

def dim (a : Axis) : Int × Int := (a.size, a.stride)

/-- The whole of a dimension. -/
def full (size stride : Int) : Axis := ⟨size, stride, 0, 1, size⟩

theorem ok_full (size stride : Int) : (full size stride).Ok where
  step_pos := Int.one_pos
  start_nonneg := Int.le_refl 0
  inside i _ hi := by
    change 0 + i * 1 < size
    rw [Int.mul_one, Int.zero_add]
    exact hi
  whole _ := ⟨rfl, rfl⟩

variable {a : Axis}

theorem Ok.add_count_le (h : a.Ok) (hc : 0 < a.count) : a.start + a.count ≤ a.size := by
  have hlast := h.inside (a.count - 1) (by omega) (by omega)
  have hstep : a.count - 1 ≤ (a.count - 1) * a.step :=
    le_mul_of_one_le_right (by omega) h.step_pos
  omega

theorem Ok.natAbs_le (h : a.Ok) (hc : a.count ≠ 0) : a.count.natAbs ≤ a.size.natAbs := by
  rcases Int.lt_or_gt_of_ne hc with hneg | hpos
  · rw [(h.whole hneg).2]
  · have := h.add_count_le hpos
    have := h.start_nonneg
    omega

/-- Nothing is cut from a dimension of which everything is left. -/
theorem Ok.eq_whole (h : a.Ok) (hc : a.count ≠ 0) (heq : a.count.natAbs = a.size.natAbs) :
    a.start = 0 ∧ a.count = a.size := by
  rcases Int.lt_or_gt_of_ne hc with hneg | hpos
  · exact h.whole hneg
  · have := h.add_count_le hpos
    have := h.start_nonneg
    omega

end Axis

theorem eq_of_prod_le {α : Type*} {f g : α → Nat} {l : List α}
    (h : ∀ a ∈ l, 0 < f a ∧ f a ≤ g a) (hprod : (l.map g).prod ≤ (l.map f).prod) :
    ∀ a ∈ l, f a = g a := by
  have hmono : ∀ l : List α, (∀ a ∈ l, 0 < f a ∧ f a ≤ g a) →
      0 < (l.map f).prod ∧ (l.map f).prod ≤ (l.map g).prod := by
    intro l hl
    induction l with
    | nil => exact ⟨Nat.one_pos, Nat.le_refl 1⟩
    | cons a l ih =>
        obtain ⟨hpos, hle⟩ := ih fun b hb => hl b (List.mem_cons_of_mem _ hb)
        obtain ⟨hfa, hga⟩ := hl a List.mem_cons_self
        simp only [List.map_cons, List.prod_cons]
        exact ⟨Nat.mul_pos hfa hpos, Nat.mul_le_mul hga hle⟩
  induction l with
  | nil => exact fun a ha => absurd ha List.not_mem_nil
  | cons b l ih =>
      have hl : ∀ a ∈ l, 0 < f a ∧ f a ≤ g a := fun a ha => h a (List.mem_cons_of_mem _ ha)
      obtain ⟨hpos, hle⟩ := hmono l hl
      obtain ⟨hfb, hgb⟩ := h b List.mem_cons_self
      simp only [List.map_cons, List.prod_cons] at hprod
      have hb : f b = g b := by
        by_contra hne
        nlinarith [Nat.lt_of_le_of_ne hgb hne]
      have hrest : (l.map g).prod ≤ (l.map f).prod := by
        rw [hb] at hprod
        exact Nat.le_of_mul_le_mul_left hprod (hb ▸ hfb)
      intro a ha
      rcases List.mem_cons.mp ha with rfl | ha
      · exact hb
      · exact ih hl hrest a ha

theorem natAbs_prod (l : List Int) : l.prod.natAbs = (l.map Int.natAbs).prod := by
  induction l with
  | nil => rfl
  | cons d l ih => rw [List.prod_cons, Int.natAbs_mul, ih, List.map_cons, List.prod_cons]

/-- **A view with the strides of a row-major array is a contiguous part** of the array that it
is a view of. Compare the stride of the outermost dimension with what is left of the others:
nothing can have been cut from those. -/
theorem contiguous_window {e : Int} (he : 0 < e) (hshape : 0 < shape.prod) {axes : List Axis}
    (hdims : (axes.map Axis.dim).Perm (shape.zip (rowStrides e shape))) (hok : ∀ a ∈ axes, a.Ok)
    (hlive : (axes.map Axis.count).prod ≠ 0)
    (hstrides : axes.map (fun a => a.stride * a.step) = rowStrides e (axes.map Axis.count)) :
    ∃ k, 0 ≤ k ∧ (axes.map fun a => a.start * a.stride).sum = e * k ∧
      0 < (axes.map Axis.count).prod ∧ k + (axes.map Axis.count).prod ≤ shape.prod := by
  cases shape with
  | nil =>
      have hnil : axes = [] := List.map_eq_nil_iff.mp hdims.eq_nil
      subst hnil
      exact ⟨0, Int.le_refl 0, (Int.mul_zero e).symm, Int.one_pos, Int.le_refl 1⟩
  | cons d ds =>
      rw [rowStrides, List.zip_cons_cons] at hdims
      -- the axis of the outermost dimension, and the others
      obtain ⟨a, ha, hadim⟩ : ∃ a ∈ axes, a.dim = (d, e * ds.prod) :=
        List.mem_map.mp (hdims.mem_iff.mpr List.mem_cons_self)
      obtain ⟨pre, post, rfl⟩ := List.append_of_mem ha
      obtain ⟨hsize, hstride⟩ : a.size = d ∧ a.stride = e * ds.prod := by
        simpa [Axis.dim] using hadim
      have hothers : ((pre ++ post).map Axis.dim).Perm (ds.zip (rowStrides e ds)) := by
        have hmid : ((pre ++ a :: post).map Axis.dim).Perm
            (a.dim :: (pre ++ post).map Axis.dim) := List.perm_middle.map _
        rw [hadim] at hmid
        exact (hmid.symm.trans hdims).cons_inv
      have hsizes : ((pre ++ post).map Axis.size).prod = ds.prod := by
        have hfst := (hothers.map Prod.fst).prod_eq
        rw [List.map_map, List.map_fst_zip (by rw [length_rowStrides])] at hfst
        exact hfst
      rw [List.prod_cons] at hshape
      have hds : ds.prod ≠ 0 := fun h => by simp [h] at hshape
      have hcounts : (((pre ++ a :: post)).map Axis.count).prod =
          a.count * ((pre ++ post).map Axis.count).prod := by
        simp only [List.map_append, List.map_cons, List.prod_append, List.prod_cons]
        ring
      rw [hcounts] at hlive ⊢
      obtain ⟨hac, hrestc⟩ : a.count ≠ 0 ∧ ((pre ++ post).map Axis.count).prod ≠ 0 :=
        ⟨left_ne_zero_of_mul hlive, right_ne_zero_of_mul hlive⟩
      have hne : ∀ b ∈ pre ++ post, b.count ≠ 0 := fun b hb hzero =>
        hrestc (List.prod_eq_zero (List.mem_map.mpr ⟨b, hb, hzero⟩))
      -- the stride of the outermost dimension
      have hpost : ds.prod * a.step = (post.map Axis.count).prod := by
        obtain ⟨ts, hlen, hts⟩ := rowStrides_append e (pre.map Axis.count) a.count
          (post.map Axis.count)
        rw [List.map_append, List.map_cons, List.map_append, List.map_cons, hts] at hstrides
        have hhead := (List.append_inj hstrides (by rw [List.length_map, hlen, List.length_map])).2
        rw [List.cons.injEq, hstride, Int.mul_assoc] at hhead
        exact Int.eq_of_mul_eq_mul_left (Int.ne_of_gt he) hhead.1
      have hoks : ∀ b ∈ pre ++ post, b.Ok := fun b hb => hok b (by
        simp only [List.mem_append, List.mem_cons] at hb ⊢
        tauto)
      have hwhole : ∀ b ∈ pre ++ post, b.start = 0 ∧ b.count = b.size := by
        have hbounds : ∀ b ∈ pre ++ post, 0 < b.count.natAbs ∧ b.count.natAbs ≤ b.size.natAbs :=
          fun b hb => ⟨Int.natAbs_pos.mpr (hne b hb), (hoks b hb).natAbs_le (hne b hb)⟩
        have hprod : ((pre ++ post).map fun b => b.size.natAbs).prod ≤
            ((pre ++ post).map fun b => b.count.natAbs).prod := by
          have habs : ∀ f : Axis → Int, ((pre ++ post).map fun b => (f b).natAbs).prod =
              ((pre ++ post).map f).prod.natAbs := fun f => by
            rw [natAbs_prod, List.map_map]
            rfl
          rw [habs Axis.size, habs Axis.count, hsizes]
          have hpre : 1 ≤ (pre.map Axis.count).prod.natAbs := Int.natAbs_pos.mpr fun h => by
            rw [List.map_append, List.prod_append, h, zero_mul] at hrestc
            exact hrestc rfl
          calc ds.prod.natAbs ≤ ds.prod.natAbs * a.step.natAbs :=
                Nat.le_mul_of_pos_right _ (Int.natAbs_pos.mpr (Int.ne_of_gt (hok a ha).step_pos))
            _ = (post.map Axis.count).prod.natAbs := by rw [← Int.natAbs_mul, hpost]
            _ ≤ (pre.map Axis.count).prod.natAbs * (post.map Axis.count).prod.natAbs :=
                Nat.le_mul_of_pos_left _ hpre
            _ = ((pre ++ post).map Axis.count).prod.natAbs := by
                rw [List.map_append, List.prod_append, Int.natAbs_mul]
        intro b hb
        exact (hoks b hb).eq_whole (hne b hb) (eq_of_prod_le hbounds hprod b hb)
      have hrest : ((pre ++ post).map Axis.count).prod = ds.prod := by
        rw [← hsizes]
        exact congrArg List.prod (List.map_congr_left fun b hb => (hwhole b hb).2)
      have hstarts : ((pre ++ a :: post).map fun b => b.start * b.stride).sum =
          a.start * a.stride := by
        have hzero : ((pre ++ post).map fun b => b.start * b.stride).sum = 0 := by
          refine List.sum_eq_zero fun x hx => ?_
          obtain ⟨b, hb, rfl⟩ := List.mem_map.mp hx
          rw [(hwhole b hb).1, zero_mul]
        rw [(List.perm_middle.map fun b : Axis => b.start * b.stride).sum_eq, List.map_cons,
          List.sum_cons, hzero, add_zero]
      rw [hstarts, hrest, hstride, List.prod_cons]
      have ha := hok a ha
      rcases Int.lt_or_gt_of_ne hac with hneg | hpos
      · obtain ⟨hstart, hcount⟩ := ha.whole hneg
        rw [hstart, hcount, hsize, zero_mul]
        exact ⟨0, Int.le_refl 0, (Int.mul_zero e).symm, hshape, by omega⟩
      · have hle : a.start + a.count ≤ d := hsize ▸ ha.add_count_le hpos
        have hstart := ha.start_nonneg
        have hrow : 0 < ds.prod := pos_of_mul_pos_right hshape (by omega)
        refine ⟨a.start * ds.prod, Int.mul_nonneg hstart (Int.le_of_lt hrow), by ring,
          Int.mul_pos hpos hrow, ?_⟩
        rw [← Int.add_mul]
        exact Int.mul_le_mul_of_nonneg_right hle (Int.le_of_lt hrow)

end CrossMachine.Lib
