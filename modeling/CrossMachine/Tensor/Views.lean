import CrossMachine.Tensor.Handle

/-!
# What a view reaches

A chain of views of a tensor reaches, at every index of the last one, the element that the
calls designate, and that lies within the allocation (`view_reaches`).

`transpose` and `slice` map the indices of their result to indices of their operand, so for
them the elements reached are among those of the operand. `reshape` goes by position: it puts
its elements one behind the other from `data_` on, whatever the strides were. For that the
operand has to be row-major, and to be so is more than to have the right strides by chance:
they have to be what is left of the array that the last `reshape` made, or `empty` (its
*frame*), and `contiguous_window` says that what is left is then one part of the frame.
An array with negative sizes has no elements, and only the frame carries over it.
-/

namespace CrossMachine.Tensor

open Lib

theorem Dtype.size_pos (dtype : Dtype) : (0 : Int) < dtype.size := by
  cases dtype <;> decide

namespace TensorHandle

theorem numelOf_eq_prod (shape : List Int) : numelOf shape = shape.prod :=
  List.prod_eq_foldl.symm

theorem contiguousStrides_eq (shape : List Int) (dtype : Dtype) :
    contiguousStrides shape dtype = rowStrides dtype.size shape := by
  have hfrom : contiguousStridesFrom shape dtype =
      (rowStrides dtype.size shape, dtype.size * shape.prod) := by
    induction shape with
    | nil => simp [contiguousStridesFrom, rowStrides]
    | cons d ds ih =>
        rw [contiguousStridesFrom, List.foldr_cons, ← contiguousStridesFrom, ih]
        simp only [rowStrides, List.prod_cons]
        congr 1
        ring
  rw [contiguousStrides, hfrom]

/-- The address of an index. -/
def addr (t : TensorHandle) (idx : List Int) : Int := t.data + dot idx t.strides

variable {t f base t' : TensorHandle} {idx shape : List Int} {axes : List Axis}
  {start stop step : Int} {place : List Int → List Int}

theorem bytePtr_eq (h : InRange idx t.shape) : t.bytePtr idx = some (t.addr idx) := by
  unfold InRange at h
  rw [bytePtr, if_pos h, addr, dot, List.sum_eq_foldl]

/-! ## `is_contiguous` -/

theorem isContiguousFrom_append (l : List (Int × Int)) (d t expected : Int)
    (hlive : ∀ x ∈ l, x.1 ≠ 0) (hd : d ≠ 0)
    (h : isContiguousFrom (l ++ [(d, t)]) expected = true) :
    isContiguousFrom l expected = true ∧ t = expected * (l.map Prod.fst).prod := by
  induction l generalizing expected with
  | nil =>
      simp only [List.nil_append, isContiguousFrom, if_neg hd] at h
      split at h
      · exact absurd h (by decide)
      · rename_i ht
        exact ⟨rfl, by simpa using ht⟩
  | cons x l ih =>
      obtain ⟨s, t'⟩ := x
      have hs : s ≠ 0 := hlive (s, t') List.mem_cons_self
      simp only [List.cons_append, isContiguousFrom, if_neg hs] at h ⊢
      split at h
      · exact absurd h (by decide)
      · rename_i ht
        rw [if_neg ht]
        obtain ⟨hrest, hlast⟩ := ih (expected * s) (fun x hx =>
          hlive x (List.mem_cons_of_mem _ hx)) h
        refine ⟨hrest, ?_⟩
        rw [hlast, List.map_cons, List.prod_cons]
        ring

/-- A handle with elements that is contiguous has the strides of a row-major array. -/
theorem strides_of_isContiguous (hlen : t.strides.length = t.shape.length)
    (hlive : t.shape.prod ≠ 0) (h : t.isContiguous = true) :
    t.strides = rowStrides t.dtype.size t.shape := by
  have hloop : ∀ {shape strides : List Int}, strides.length = shape.length → shape.prod ≠ 0 →
      isContiguousFrom (shape.zip strides).reverse t.dtype.size = true →
      strides = rowStrides t.dtype.size shape := by
    intro shape
    induction shape with
    | nil => intro strides hlen _ _; exact List.length_eq_zero_iff.mp hlen
    | cons d ds ih =>
        intro strides hlen hlive h
        cases strides with
        | nil => exact absurd hlen (by simp)
        | cons x ts =>
            have hlen' : ts.length = ds.length := by simpa using hlen
            rw [List.prod_cons] at hlive
            have hds : ds.prod ≠ 0 := right_ne_zero_of_mul hlive
            rw [List.zip_cons_cons, List.reverse_cons] at h
            obtain ⟨hrest, hx⟩ := isContiguousFrom_append _ d x _ (fun y hy hzero => by
              have hmem : y.1 ∈ ds := (List.of_mem_zip (List.mem_reverse.mp hy)).1
              exact hds (List.prod_eq_zero (hzero ▸ hmem))) (left_ne_zero_of_mul hlive) h
            rw [ih hlen' hds hrest, hx, List.map_reverse, (List.reverse_perm _).prod_eq,
              List.map_fst_zip (by rw [hlen']), rowStrides]
  unfold isContiguous at h
  split at h
  · rename_i hnil
    rw [hnil] at hlen ⊢
    exact List.length_eq_zero_iff.mp hlen
  · exact hloop hlen hlive h

/-! ## Views of a frame -/

/-- `t` is what the axes take of the array `f`. -/
structure Cut (f t : TensorHandle) (axes : List Axis) : Prop where
  dims : (axes.map Axis.dim).Perm (f.shape.zip f.strides)
  ok : ∀ a ∈ axes, a.Ok
  data : t.data = f.data + (axes.map fun a => a.start * a.stride).sum
  shape : t.shape = axes.map Axis.count
  strides : t.strides = axes.map fun a => a.stride * a.step

theorem Cut.self (h : t.strides.length = t.shape.length) :
    Cut t t ((t.shape.zip t.strides).map fun p => Axis.full p.1 p.2) where
  dims := by
    rw [List.map_map]
    exact .of_eq (List.map_id _)
  ok a ha := by
    obtain ⟨p, _, rfl⟩ := List.mem_map.mp ha
    exact Axis.ok_full p.1 p.2
  data := by
    rw [List.map_map, List.sum_eq_zero, Int.add_zero]
    intro x hx
    obtain ⟨p, _, rfl⟩ := List.mem_map.mp hx
    exact Int.zero_mul _
  shape := by
    rw [List.map_map]
    exact (List.map_fst_zip (Nat.le_of_eq h.symm)).symm
  strides := by
    rw [List.map_map]
    simp only [Function.comp_def, Axis.full, Int.mul_one]
    exact (List.map_snd_zip (Nat.le_of_eq h)).symm

theorem Cut.transpose (h : Cut f t axes) (a b : Nat) :
    Cut f { t with shape := swapAt t.shape a b, strides := swapAt t.strides a b }
      (swapAt axes a b) where
  dims := ((swapAt_perm axes a b).map _).trans h.dims
  ok x hx := h.ok x ((swapAt_perm axes a b).mem_iff.mp hx)
  data := by
    rw [h.data, ((swapAt_perm axes a b).map _).sum_eq]
  shape := by rw [h.shape, map_swapAt]
  strides := by rw [h.strides, map_swapAt]

/-- The elements that a slice takes of what an axis takes. -/
def sliceAxis (a : Axis) (start stop step : Int) : Axis :=
  ⟨a.size, a.stride, a.start + start * a.step, a.step * step, (stop - start + step - 1) / step⟩

theorem slice_lt (hstep : 0 < step) {i : Int} (hi : i < (stop - start + step - 1) / step) :
    start + i * step < stop := by
  have hmul : (i + 1) * step ≤ stop - start + step - 1 := by
    calc (i + 1) * step ≤ (stop - start + step - 1) / step * step :=
          Int.mul_le_mul_of_nonneg_right hi (Int.le_of_lt hstep)
      _ ≤ stop - start + step - 1 := Int.ediv_mul_le _ (Int.ne_of_gt hstep)
  linarith [Int.add_mul i 1 step]

theorem slice_count_nonneg (hstep : 0 < step) (hle : start ≤ stop) :
    0 ≤ (stop - start + step - 1) / step :=
  Int.ediv_nonneg (by omega) (Int.le_of_lt hstep)

theorem ok_sliceAxis {a : Axis} (h : a.Ok) (hstep : 0 < step) (hstart : 0 ≤ start)
    (hle : start ≤ stop) (hstop : stop ≤ a.count) :
    (sliceAxis a start stop step).Ok where
  step_pos := Int.mul_pos h.step_pos hstep
  start_nonneg := Int.add_nonneg h.start_nonneg
    (Int.mul_nonneg hstart (Int.le_of_lt h.step_pos))
  inside i hi hlt := by
    have hin := h.inside (start + i * step)
      (Int.add_nonneg hstart (Int.mul_nonneg hi (Int.le_of_lt hstep)))
      (Int.lt_of_lt_of_le (slice_lt hstep hlt) hstop)
    change a.start + start * a.step + i * (a.step * step) < a.size
    linarith [Int.add_mul start (i * step) a.step, Int.mul_comm a.step step,
      Int.mul_assoc i step a.step]
  whole hneg := absurd (slice_count_nonneg hstep hle) (Int.not_le.mpr hneg)

theorem Cut.slice (h : Cut f t axes) {d : Nat} {size stride : Int} (hsize : t.shape[d]? = some size)
    (hstride : t.strides[d]? = some stride) (hstep : 0 < step) (hstart : 0 ≤ start)
    (hle : start ≤ stop) (hstop : stop ≤ size) :
    ∃ axes', Cut f { t with
      data := t.data + start * stride
      shape := t.shape.set d ((stop - start + step - 1) / step)
      strides := t.strides.set d (stride * step) } axes' := by
  obtain ⟨hdims, hok, hdata, hshape, hstrides⟩ := h
  have hd : d < axes.length := by
    have := (List.getElem?_eq_some_iff.mp hsize).1
    rwa [hshape, List.length_map] at this
  obtain ⟨pre, a, post, rfl, rfl⟩ : ∃ pre a post, axes = pre ++ a :: post ∧ pre.length = d :=
    ⟨axes.take d, axes[d], axes.drop (d + 1), by simp, by simp; omega⟩
  have hsize : a.count = size := by simpa [hshape] using hsize
  have hstride : a.stride * a.step = stride := by simpa [hstrides] using hstride
  have ha : a.Ok := hok a (by simp)
  refine ⟨pre ++ sliceAxis a start stop step :: post, ?_⟩
  refine
    { dims := ?dims
      ok := fun b hb => ?ok
      data := ?data
      shape := by simp [hshape, sliceAxis]
      strides := by simp [hstrides, ← hstride, sliceAxis, Int.mul_assoc] }
  case dims =>
    simpa [Axis.dim, sliceAxis] using hdims
  case ok =>
    rcases List.mem_append.mp hb with hb | hb
    · exact hok b (List.mem_append_left _ hb)
    · rcases List.mem_cons.mp hb with rfl | hb
      · exact ok_sliceAxis ha hstep hstart hle (hsize ▸ hstop)
      · exact hok b (List.mem_append_right _ (List.mem_cons_of_mem _ hb))
  case data =>
    simp only [hdata, ← hstride, List.map_append, List.map_cons, List.sum_append, List.sum_cons,
      sliceAxis]
    ring

/-- A row-major view of a row-major array is a part of it. -/
theorem Cut.window (h : Cut f t axes) {e : Int} (he : 0 < e) (hf : f.strides = rowStrides e f.shape)
    (hlive : 0 < f.shape.prod) (ht : t.strides = rowStrides e t.shape) (hprod : t.shape.prod ≠ 0) :
    ∃ k, 0 ≤ k ∧ t.data = f.data + e * k ∧ 0 < t.shape.prod ∧
      k + t.shape.prod ≤ f.shape.prod := by
  have hdims := h.dims
  rw [hf] at hdims
  have hstrides := h.strides
  rw [ht, h.shape] at hstrides
  rw [h.shape] at hprod
  obtain ⟨k, hk, hsum, hpos, hle⟩ := contiguous_window he hlive hdims h.ok hprod hstrides.symm
  rw [h.shape, h.data, hsum]
  exact ⟨k, hk, rfl, hpos, hle⟩

/-! ## The invariant -/

/-- `idx` is an index of `base`, and the element there is the one at `p`. -/
def Reaches (base : TensorHandle) (idx : List Int) (p : Int) : Prop :=
  InRange idx base.shape ∧ base.addr idx = p

/-- What a chain of views has led to: `t`, a view of `f`, whose index `idx` designates the
index `place idx` of `base`. -/
structure Live (base f t : TensorHandle) (place : List Int → List Int) : Prop where
  dtype : t.dtype = base.dtype
  length : t.strides.length = t.shape.length
  row : f.strides = rowStrides base.dtype.size f.shape
  live : 0 < f.shape.prod
  cut : ∃ axes, Cut f t axes
  /-- The elements of a view are elements of its frame, -/
  hits : ∀ idx, InRange idx t.shape →
    ∃ k, 0 ≤ k ∧ k < f.shape.prod ∧ t.addr idx = f.data + base.dtype.size * k
  /-- different ones for different indices. -/
  inj : ∀ idx idx', InRange idx t.shape → InRange idx' t.shape → t.addr idx = t.addr idx' →
    idx = idx'
  /-- Before the first `reshape`, the indices of a view are known to designate what they reach.
  Afterwards whatever reaches an element of the frame does. -/
  lands : ((∀ d ∈ t.shape, 0 ≤ d) ∧
      ∀ idx, InRange idx t.shape → Reaches base (place idx) (t.addr idx)) ∨
    ∀ idx, idx.length = t.shape.length →
      ∀ k, 0 ≤ k → k < f.shape.prod → t.addr idx = f.data + base.dtype.size * k →
        Reaches base (place idx) (t.addr idx)

theorem Live.reaches (h : Live base f t place) (hidx : InRange idx t.shape) :
    Reaches base (place idx) (t.addr idx) := by
  rcases h.lands with ⟨_, hlands⟩ | hlands
  · exact hlands idx hidx
  · obtain ⟨k, hk, hlt, haddr⟩ := h.hits idx hidx
    exact hlands idx hidx.length_eq k hk hlt haddr

theorem addr_row {e : Int} (ht : t.strides = rowStrides e t.shape)
    (hlen : idx.length = t.shape.length) : t.addr idx = t.data + e * ravel t.shape idx := by
  rw [addr, ht, dot_rowStrides e hlen]

/-- A row-major array is its own frame. -/
theorem live_row (hdtype : t.dtype = base.dtype)
    (ht : t.strides = rowStrides base.dtype.size t.shape) (hlive : 0 < t.shape.prod)
    (hlands : ((∀ d ∈ t.shape, 0 ≤ d) ∧
        ∀ idx, InRange idx t.shape → Reaches base (place idx) (t.addr idx)) ∨
      ∀ idx, idx.length = t.shape.length →
        ∀ k, 0 ≤ k → k < t.shape.prod → t.addr idx = t.data + base.dtype.size * k →
          Reaches base (place idx) (t.addr idx)) : Live base t t place where
  dtype := hdtype
  length := by rw [ht, length_rowStrides]
  row := ht
  live := hlive
  cut := ⟨_, .self (by rw [ht, length_rowStrides])⟩
  hits idx hidx :=
    ⟨ravel t.shape idx, (ravel_bounds hidx).1, (ravel_bounds hidx).2, addr_row ht hidx.length_eq⟩
  inj idx idx' hidx hidx' heq := by
    rw [addr_row ht hidx.length_eq, addr_row ht hidx'.length_eq] at heq
    have hmul := Int.add_left_cancel heq
    exact ravel_inj hidx hidx'
      (Int.eq_of_mul_eq_mul_left (Int.ne_of_gt base.dtype.size_pos) hmul)
  lands := hlands

/-- A call that maps the indices of its result to those of its operand, and reaches the same
elements. -/
theorem Live.mapped {index : List Int → List Int} (h : Live base f t place)
    (hdtype : t'.dtype = t.dtype) (hlength : t'.strides.length = t'.shape.length)
    (hcut : ∃ axes, Cut f t' axes) (hsigns : (∀ d ∈ t.shape, 0 ≤ d) → ∀ d ∈ t'.shape, 0 ≤ d)
    (hrange : ∀ idx, InRange idx t'.shape → InRange (index idx) t.shape)
    (hlen : ∀ idx, idx.length = t'.shape.length → (index idx).length = t.shape.length)
    (haddr : ∀ idx, idx.length = t'.shape.length → t'.addr idx = t.addr (index idx))
    (hinj : Function.Injective index) : Live base f t' (place ∘ index) where
  dtype := hdtype.trans h.dtype
  length := hlength
  row := h.row
  live := h.live
  cut := hcut
  hits idx hidx := by
    rw [haddr idx hidx.length_eq]
    exact h.hits _ (hrange idx hidx)
  inj idx idx' hidx hidx' heq := by
    rw [haddr idx hidx.length_eq, haddr idx' hidx'.length_eq] at heq
    exact hinj (h.inj _ _ (hrange idx hidx) (hrange idx' hidx') heq)
  lands := by
    rcases h.lands with ⟨hnonneg, hlands⟩ | hlands
    · refine .inl ⟨hsigns hnonneg, fun idx hidx => ?_⟩
      rw [haddr idx hidx.length_eq]
      exact hlands _ (hrange idx hidx)
    · refine .inr fun idx hidx k hk hlt heq => ?_
      rw [haddr idx hidx] at heq ⊢
      exact hlands _ (hlen idx hidx) k hk hlt heq

/-- The invariant of a chain: there are no elements, or the elements are those designated. -/
def Inv (base t : TensorHandle) (place : List Int → List Int) : Prop :=
  t.shape.prod = 0 ∨ ∃ f, Live base f t place

theorem inv_transpose (h : Inv base t place) {d0 d1 : Int} (ht : t.transpose d0 d1 = some t') :
    Inv base t' (place ∘ (View.transpose d0 d1).index t.shape) := by
  unfold transpose at ht
  split at ht
  · obtain rfl := Option.some.inj ht
    rcases h with hzero | ⟨f, hlive⟩
    · exact .inl ((swapAt_perm _ _ _).prod_eq.trans hzero)
    · obtain ⟨axes, hcut⟩ := hlive.cut
      refine .inr ⟨f, hlive.mapped rfl ?_ ⟨_, hcut.transpose _ _⟩ (fun hnonneg d hd => ?_)
        (fun idx hidx => hidx.swapAt) (fun idx hidx => ?_) (fun idx hidx => ?_) ?_⟩
      · simp only [length_swapAt, hlive.length]
      · exact hnonneg d ((swapAt_perm _ _ _).mem_iff.mp hd)
      · simpa [View.index] using hidx
      · rw [length_swapAt] at hidx
        simp only [addr, View.index]
        rw [dot_swapAt (hidx.trans hlive.length.symm)]
      · intro idx idx' heq
        have hback := congrArg (fun l => swapAt l d0.toNat d1.toNat) heq
        simpa only [View.index, swapAt_swapAt] using hback
  · exact absurd ht (by simp)

theorem inv_slice (h : Inv base t place) {dim : Int} (ht : t.slice dim start stop step = some t') :
    Inv base t' (place ∘ (View.slice dim start stop step).index t.shape) := by
  unfold slice at ht
  split at ht
  · simp only [Option.bind_eq_bind, Option.bind_eq_some_iff] at ht
    obtain ⟨size, hsize, stride, hstride, ht⟩ := ht
    split at ht
    · rename_i hargs
      obtain ⟨hstep, hstart, hle, hstop⟩ := hargs
      rw [Int.tdiv_eq_ediv_of_nonneg (by omega)] at ht
      obtain rfl := Option.some.inj ht
      rcases h with hzero | ⟨f, hlive⟩
      · refine .inl (List.prod_eq_zero ?_)
        have hempty : size = 0 → (stop - start + step - 1) / step = 0 := fun hsize =>
          Int.ediv_eq_zero_of_lt (by omega) (by omega)
        obtain ⟨m, hm, hget⟩ := List.getElem_of_mem (List.prod_eq_zero_iff.mp hzero)
        refine List.mem_iff_getElem.mpr ⟨m, by rw [List.length_set]; exact hm, ?_⟩
        rw [List.getElem_set]
        split
        · rename_i heq
          rw [heq, List.getElem?_eq_getElem hm, hget, Option.some.injEq] at hsize
          exact hempty hsize.symm
        · exact hget
      · obtain ⟨axes, hcut⟩ := hlive.cut
        refine .inr ⟨f, hlive.mapped rfl ?_ (hcut.slice hsize hstride hstep hstart hle hstop)
          (fun hnonneg d hd => ?_) (fun idx hidx => ?_) (fun idx hidx => ?_)
          (fun idx hidx => ?_) ?_⟩
        · simp only [List.length_set, hlive.length]
        · rcases List.mem_or_eq_of_mem_set hd with hd | rfl
          · exact hnonneg d hd
          · exact slice_count_nonneg hstep hle
        · refine hidx.modify hsize fun i hi hlt => ⟨?_, ?_⟩
          · exact Int.add_nonneg hstart (Int.mul_nonneg hi (Int.le_of_lt hstep))
          · exact Int.lt_of_lt_of_le (slice_lt hstep hlt) hstop
        · simpa [View.index] using hidx
        · rw [List.length_set] at hidx
          simp only [addr, View.index]
          rw [dot_modify (hidx.trans hlive.length.symm) hstride]
          ring
        · refine modify_injective (fun i i' heq => ?_) _
          exact Int.eq_of_mul_eq_mul_right (Int.ne_of_gt hstep) (Int.add_left_cancel heq)
    · exact absurd ht (by simp)
  · exact absurd ht (by simp)

theorem inv_reshape (h : Inv base t place) {newShape : List Int}
    (ht : t.reshape newShape = some t') :
    Inv base t' (place ∘ (View.reshape newShape).index t.shape) := by
  unfold reshape at ht
  split at ht
  · rename_i hargs
    obtain ⟨-, hcontig, hnumel⟩ := hargs
    rw [numelOf_eq_prod, numel, numelOf_eq_prod] at hnumel
    rw [contiguousStrides_eq] at ht
    obtain rfl := Option.some.inj ht
    by_cases hprod : t.shape.prod = 0
    · exact .inl (hnumel.trans hprod)
    · obtain ⟨f, hlive⟩ := h.resolve_left hprod
      have hrow := strides_of_isContiguous hlive.length hprod hcontig
      rw [hlive.dtype] at hrow
      obtain ⟨axes, hcut⟩ := hlive.cut
      obtain ⟨k₀, hk₀, hdata, hpos, hle⟩ :=
        hcut.window base.dtype.size_pos hlive.row hlive.live hrow hprod
      refine .inr ⟨_, live_row hlive.dtype (by rw [hlive.dtype]) (hnumel ▸ hpos) (.inr ?_)⟩
      intro idx hidx k hk₁ hlt haddr
      have hrow' : addr ⟨t.data, newShape, rowStrides t.dtype.size newShape, t.dtype⟩ idx =
          t.data + base.dtype.size * ravel newShape idx :=
        addr_row (by rw [hlive.dtype]) hidx
      -- the position is that of the new index
      have hk : ravel newShape idx = k := by
        rw [hrow'] at haddr
        exact Int.eq_of_mul_eq_mul_left (Int.ne_of_gt base.dtype.size_pos)
          (Int.add_left_cancel haddr)
      have hu : ravel t.shape (unravel t.shape k) = k := ravel_unravel fun hnil => by
        simp only [hnumel, hnil, List.prod_nil] at hlt
        omega
      have hold : t.addr (unravel t.shape k) = t.data + base.dtype.size * k := by
        rw [addr_row hrow (length_unravel _ _), hu]
      have hsame : Reaches base (place (unravel t.shape k)) (t.addr (unravel t.shape k)) := by
        rcases hlive.lands with ⟨hnonneg, hlands⟩ | hlands
        · have hall : ∀ d ∈ t.shape, 0 < d := fun d hd =>
            lt_of_le_of_ne (hnonneg d hd) fun h => hprod (List.prod_eq_zero (h ▸ hd))
          exact hlands _ (inRange_unravel hall hk₁ (hnumel ▸ hlt))
        · refine hlands _ (length_unravel _ _) (k₀ + k) (Int.add_nonneg hk₀ hk₁) ?_ ?_
          · simp only [hnumel] at hlt
            omega
          · rw [hold, hdata]
            ring
      rw [hold] at hsame
      simpa only [Function.comp_apply, View.index, hk, haddr] using hsame
  · exact absurd ht (by simp)

theorem inv_apply (h : Inv base t place) {v : View} (ht : v.apply t = some t') :
    Inv base t' (place ∘ v.index t.shape) := by
  cases v with
  | transpose d0 d1 => exact inv_transpose h ht
  | slice dim start stop step => exact inv_slice h ht
  | reshape newShape => exact inv_reshape h ht

theorem shape_apply {v : View} (ht : v.apply t = some t') : t'.shape = v.shape t.shape := by
  cases v with
  | transpose d0 d1 =>
      simp only [View.apply, transpose] at ht
      split at ht
      · rw [← Option.some.inj ht]
        rfl
      · exact absurd ht (by simp)
  | slice dim start stop step =>
      simp only [View.apply, slice] at ht
      split at ht
      · simp only [Option.bind_eq_bind, Option.bind_eq_some_iff] at ht
        obtain ⟨size, _, stride, _, ht⟩ := ht
        split at ht
        · rw [← Option.some.inj ht, View.shape, ← Int.tdiv_eq_ediv_of_nonneg (by omega)]
        · exact absurd ht (by simp)
      · exact absurd ht (by simp)
  | reshape newShape =>
      simp only [View.apply, reshape] at ht
      split at ht
      · rw [← Option.some.inj ht]
        rfl
      · exact absurd ht (by simp)

/-- The run lemma: a chain keeps the invariant. -/
theorem inv_views {vs : List View} (h : Inv base t place) (ht : views vs t = some t') :
    Inv base t' (place ∘ designated vs t.shape) := by
  induction vs generalizing t place with
  | nil =>
      obtain rfl : t = t' := by simpa [views] using ht
      exact h
  | cons v vs ih =>
      rw [views, List.foldlM_cons, Option.bind_eq_bind, Option.bind_eq_some_iff] at ht
      obtain ⟨t₁, hv, hvs⟩ := ht
      have hrest := ih (inv_apply h hv) hvs
      rw [shape_apply hv] at hrest
      exact hrest

/-- A tensor that is allocated is row-major. -/
theorem inv_empty {raw : Int} (hraw : raw ≠ 0) (hshape : ∀ d ∈ shape, 0 ≤ d) (dtype : Dtype) :
    Inv (empty raw shape dtype) (empty raw shape dtype) id := by
  rw [empty, if_neg hraw]
  rcases Int.lt_or_eq_of_le (List.prod_nonneg hshape) with hpos | hzero
  · refine .inr ⟨_, live_row rfl (contiguousStrides_eq shape dtype) hpos (.inl ⟨hshape, ?_⟩)⟩
    exact fun idx hidx => ⟨hidx, rfl⟩
  · exact .inl hzero.symm

/-- Where the elements of an allocated tensor are. -/
theorem addr_empty {raw : Int} (hraw : raw ≠ 0) {dtype : Dtype}
    (hidx : InRange idx (empty raw shape dtype).shape) :
    InRange idx shape ∧
      (empty raw shape dtype).addr idx = raw + dtype.size * ravel shape idx := by
  rw [empty, if_neg hraw] at hidx ⊢
  exact ⟨hidx, addr_row (contiguousStrides_eq shape dtype) hidx.length_eq⟩

theorem allocated_eq (h : 0 < shape.prod) (dtype : Dtype) :
    (allocated shape dtype : Int) = dtype.size * shape.prod := by
  have hsize := dtype.size_pos
  have hbytes : shape.prod.toNat * dtype.size ≠ 0 := Nat.mul_ne_zero (by omega) (by omega)
  rw [allocated, numelOf_eq_prod]
  simp only [if_neg hbytes]
  rw [Int.natCast_mul, Int.toNat_of_nonneg (Int.le_of_lt h), Int.mul_comm]

end TensorHandle

open TensorHandle

/-- **Views reach what they designate**: after any chain of calls whose assertions hold, every
index of the view is that of an element within the allocation, the one that the calls
designate, and different indices are those of elements that do not overlap. -/
theorem view_reaches {raw : Int} (hraw : raw ≠ 0) {shape : List Int}
    (hshape : ∀ d ∈ shape, 0 ≤ d) {dtype : Dtype} {vs : List View} {t : TensorHandle}
    (ht : views vs (empty raw shape dtype) = some t) :
    (∀ idx, InRange idx t.shape → ∃ p, t.bytePtr idx = some p ∧
      raw ≤ p ∧ p + t.dtype.size ≤ raw + allocated shape dtype ∧
      (empty raw shape dtype).bytePtr (designated vs shape idx) = some p) ∧
    ∀ idx idx' p p', t.bytePtr idx = some p → t.bytePtr idx' = some p' → idx ≠ idx' →
      p + t.dtype.size ≤ p' ∨ p' + t.dtype.size ≤ p := by
  have hshape₀ : (empty raw shape dtype).shape = shape := by rw [empty, if_neg hraw]
  have hdtype₀ : (empty raw shape dtype).dtype = dtype := by rw [empty, if_neg hraw]
  have hinv := inv_views (inv_empty hraw hshape dtype) ht
  rw [hshape₀, Function.id_comp] at hinv
  have hlive : ∀ {idx}, InRange idx t.shape →
      ∃ f, Live (empty raw shape dtype) f t (designated vs shape) := fun hidx =>
    hinv.resolve_left (Int.ne_of_gt hidx.prod_pos)
  have he := dtype.size_pos
  refine ⟨fun idx hidx => ?_, fun idx idx' p p' hp hp' hne => ?_⟩
  · obtain ⟨f, hlive⟩ := hlive hidx
    obtain ⟨hin, haddr⟩ := hlive.reaches hidx
    obtain ⟨hin', hbase⟩ := addr_empty hraw hin
    obtain ⟨hlo, hhi⟩ := ravel_bounds hin'
    have hbytes := allocated_eq hin'.prod_pos dtype
    refine ⟨t.addr idx, bytePtr_eq hidx, ?_, ?_, by rw [bytePtr_eq hin, haddr]⟩
    · rw [← haddr, hbase]
      exact le_add_of_nonneg_right (Int.mul_nonneg (Int.le_of_lt he) hlo)
    · rw [← haddr, hbase, hlive.dtype, hdtype₀, hbytes]
      nlinarith
  · have hin : ∀ {idx p}, t.bytePtr idx = some p → InRange idx t.shape ∧ t.addr idx = p := by
      intro idx p hp
      have hidx : InRange idx t.shape := by
        by_contra hout
        unfold InRange at hout
        rw [bytePtr, if_neg hout] at hp
        exact absurd hp (by simp)
      exact ⟨hidx, Option.some.inj ((bytePtr_eq hidx).symm.trans hp)⟩
    obtain ⟨hidx, rfl⟩ := hin hp
    obtain ⟨hidx', rfl⟩ := hin hp'
    obtain ⟨f, hlive⟩ := hlive hidx
    have hdiff : t.addr idx ≠ t.addr idx' := fun h => hne (hlive.inj idx idx' hidx hidx' h)
    obtain ⟨hreach, haddr⟩ := hlive.reaches hidx
    obtain ⟨hreach', haddr'⟩ := hlive.reaches hidx'
    rw [hlive.dtype, hdtype₀]
    rw [← haddr, ← haddr', (addr_empty hraw hreach).2, (addr_empty hraw hreach').2] at hdiff ⊢
    rcases Int.lt_trichotomy (ravel shape (designated vs shape idx))
      (ravel shape (designated vs shape idx')) with hlt | heq | hlt
    · exact .inl (by nlinarith)
    · exact absurd (by rw [heq]) hdiff
    · exact .inr (by nlinarith)

/-- A transpose, a step along what was the last dimension, and back to one dimension. -/
theorem view_reaches_evens :
    ∃ p, (TensorHandle.mk 16 [2, 2] [8, 12] .float32).bytePtr [1, 1] = some p ∧ 16 ≤ p ∧
      p + 4 ≤ 16 + allocated [2, 3] .float32 ∧
      (empty 16 [2, 3] .float32).bytePtr
        (designated [.transpose 0 1, .slice 0 0 3 2] [2, 3] [1, 1]) = some p := by
  have ht : views [.transpose 0 1, .slice 0 0 3 2] (empty 16 [2, 3] .float32) =
      some ⟨16, [2, 2], [8, 12], .float32⟩ := by decide
  exact (view_reaches (by decide) (by decide) ht).1 [1, 1]
    (.cons (by decide) (.cons (by decide) .nil))

end CrossMachine.Tensor
