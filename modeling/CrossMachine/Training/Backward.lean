import CrossMachine.Lib.Postorder
import CrossMachine.Lib.Prefix
import CrossMachine.Training.Autograd

/-!
# `backward` computes the derivative

A tape is a directed acyclic graph in the sense of reverse accumulation (`tapeDag`), with the
elements of the values as components and `Op.deriv` as the local derivatives; that these are
the derivatives of what the operations compute is `Op.deriv_left` and `Op.deriv_right`.

Two things are left to show. `topo_sort` is a depth-first visit (`topoSort_eq`), whose order,
backwards, has every node before its parents, whatever is shared. And one `backward_fn` is one
step of the sweep, with all its assertions holding (`backwardFn_spec`).
-/

namespace CrossMachine.Training

open Lib

variable {F : Type*} [CommRing F]

/-! ## Sums over places -/

/-- A sum over places in which only one row counts. -/
theorem sum_places_row (m : Matrix F) (i : Nat) (f : Nat × Nat → F) :
    ∑ k ∈ m.places, (if i = k.1 then f k else 0) =
      if i < m.height then ∑ j ∈ Finset.range m.cols, f (i, j) else 0 := by
  have hrow : ∀ r, ∑ j ∈ Finset.range m.cols, (if i = r then f (r, j) else 0) =
      if i = r then ∑ j ∈ Finset.range m.cols, f (r, j) else 0 := fun r => by
    split <;> simp
  rw [Matrix.places, Finset.sum_product, Finset.sum_congr rfl fun r _ => hrow r,
    Finset.sum_ite_eq]
  simp only [Finset.mem_range]

/-- A sum over places in which only one column counts. -/
theorem sum_places_col (m : Matrix F) (j : Nat) (f : Nat × Nat → F) :
    ∑ k ∈ m.places, (if j = k.2 then f k else 0) =
      if j < m.cols then ∑ i ∈ Finset.range m.height, f (i, j) else 0 := by
  have hcol : ∀ c, ∑ i ∈ Finset.range m.height, (if j = c then f (i, c) else 0) =
      if j = c then ∑ i ∈ Finset.range m.height, f (i, c) else 0 := fun c => by
    split <;> simp
  rw [Matrix.places, Finset.sum_product_right, Finset.sum_congr rfl fun c _ => hcol c,
    Finset.sum_ite_eq]
  simp only [Finset.mem_range]

/-- A sum over places in which only one place counts. -/
theorem sum_places_one (m : Matrix F) (i : Nat × Nat) (f : Nat × Nat → F) :
    ∑ k ∈ m.places, (if i = k then f k else 0) = if i ∈ m.places then f i else 0 :=
  Finset.sum_ite_eq ..

variable {m c x y : Matrix F} {ns : List (Node F)} {u p : Nat} {nd : Node F}

theorem entry_of_not_mem {k : Nat × Nat} (hk : k ∉ m.places) : m.entry k.1 k.2 = 0 := by
  rw [Matrix.mem_places, not_and_or] at hk
  rcases hk with hk | hk
  · exact Matrix.entry_of_height_le (Nat.le_of_not_lt hk) _
  · exact Matrix.entry_of_cols_le (Nat.le_of_not_lt hk) _

omit [CommRing F] in
theorem places_eq {m' : Matrix F} (h : m.SameShape m') : m.places = m'.places := by
  rw [Matrix.places, Matrix.places, h.1, h.2]

/-- A matrix that is made where a condition holds. -/
theorem ofFn_of_guard {P : Prop} [Decidable P] {h w : Nat} {f : Nat → Nat → F}
    (hc : (if P then some (Matrix.ofFn h w f) else none) = some c) :
    P ∧ (c.height = h ∧ c.cols = w) ∧ ∀ k ∈ c.places, c.entry k.1 k.2 = f k.1 k.2 := by
  split at hc
  · rename_i hP
    obtain rfl := Option.some.inj hc
    refine ⟨hP, ⟨Matrix.height_ofFn _ _ _, rfl⟩, fun k hk => ?_⟩
    rw [Matrix.mem_places, Matrix.height_ofFn, Matrix.cols_ofFn] at hk
    rw [Matrix.entry_ofFn, if_pos hk]
  · cases hc

theorem plus_eq_some (h : x.plus y = some c) :
    x.SameShape y ∧ c.SameShape x ∧
      ∀ k ∈ c.places, c.entry k.1 k.2 = x.entry k.1 k.2 + y.entry k.1 k.2 := by
  unfold Matrix.plus at h
  exact ofFn_of_guard h

theorem addRowBroadcast_eq_some (h : x.addRowBroadcast y = some c) :
    (y.height = 1 ∧ y.cols = x.cols) ∧ c.SameShape x ∧
      ∀ k ∈ c.places, c.entry k.1 k.2 = x.entry k.1 k.2 + y.entry 0 k.2 := by
  unfold Matrix.addRowBroadcast at h
  exact ofFn_of_guard h

/-- Where the left operand is only added to, its change is that of the value. -/
theorem entry_of_moved {x' c' : Matrix F} {g : Nat × Nat → F} (hx : x'.SameShape x)
    (hcx : c.SameShape x) (hcx' : c'.SameShape x')
    (hc : ∀ k ∈ c.places, c.entry k.1 k.2 = x.entry k.1 k.2 + g k)
    (hc' : ∀ k ∈ c'.places, c'.entry k.1 k.2 = x'.entry k.1 k.2 + g k) {i : Nat × Nat}
    (hi : i ∈ c.places) :
    c'.entry i.1 i.2 = c.entry i.1 i.2 +
      ∑ k ∈ x.places, if i = k then x'.entry k.1 k.2 - x.entry k.1 k.2 else 0 := by
  have hplaces : c'.places = c.places := by
    rw [places_eq hcx', places_eq hx, places_eq hcx]
  rw [sum_places_one x i fun k => x'.entry k.1 k.2 - x.entry k.1 k.2,
    if_pos (places_eq hcx ▸ hi), hc' i (hplaces ▸ hi), hc i hi]
  ring

def valueOf (ns : List (Node F)) (p : Nat) : Matrix F :=
  match ns[p]? with
  | some nd => nd.value
  | none => .zeros 0 0

theorem valueOf_eq (h : ns[u]? = some nd) : valueOf ns u = nd.value := by
  simp only [valueOf, h]

theorem valueOf_append (hp : p < ns.length) (nd : Node F) :
    valueOf (ns ++ [nd]) p = valueOf ns p := by
  rw [valueOf, List.getElem?_append_left hp, valueOf]

/-- What is held, pulled back along a slot that hands everything on. -/
theorem pull_id (m : Matrix F) (k : Nat × Nat) :
    ∑ i ∈ m.places, m.entry i.1 i.2 * (if i = k then 1 else 0) = m.entry k.1 k.2 := by
  simp only [mul_ite, mul_one, mul_zero, eq_comm (b := k)]
  rw [sum_places_one m k fun i => m.entry i.1 i.2]
  split
  · rfl
  · rename_i hout
    exact (entry_of_not_mem hout).symm

/-- `on->grad.sum_rows()`. -/
theorem pull_sumRows (m : Matrix F) (k : Nat × Nat) :
    m.sumRows.entry k.1 k.2 =
      ∑ i ∈ m.places, m.entry i.1 i.2 * (if k = (0, i.2) then 1 else 0) := by
  obtain ⟨r, j⟩ := k
  simp only [Prod.mk.injEq, mul_ite, mul_one, mul_zero, Matrix.entry_sumRows]
  by_cases hr : r = 0
  · simp only [hr, if_true, true_and]
    rw [sum_places_col m j fun i => m.entry i.1 i.2]
    split
    · rfl
    · rename_i hout
      simp only [Matrix.entry_of_cols_le (Nat.le_of_not_lt hout), Finset.sum_const_zero]
  · simp [hr]

section Tape

variable [DecidableEq F]

/-! ## The local derivatives -/

theorem matmul_some (h : x.matmul y = some c) :
    x.cols = y.height ∧ c.height = x.height ∧ c.cols = y.cols ∧
      ∀ i j, c.entry i j = ∑ k ∈ Finset.range x.cols, x.entry i k * y.entry k j := by
  have hfit : x.cols = y.height := by
    by_contra hne
    rw [Matrix.matmul, if_neg hne] at h
    exact absurd h (by simp)
  obtain ⟨c', hc', hspec⟩ := Matrix.matmul_eq_some hfit
  obtain rfl := Option.some.inj (h.symm.trans hc')
  exact ⟨hfit, hspec⟩

variable {g : Grads F} {op : Op}

/-- The operations are linear in their left operand, and `deriv` at slot 0 is by how much:
if the operand changes and nothing else, the value changes by that times the change. -/
theorem Op.deriv_left {x' : Matrix F} (h : op.apply x y = some c) (hx : x'.SameShape x) :
    ∃ c', op.apply x' y = some c' ∧ ∀ i ∈ c.places, c'.entry i.1 i.2 = c.entry i.1 i.2 +
      ∑ k ∈ x.places, op.deriv x y 0 i k * (x'.entry k.1 k.2 - x.entry k.1 k.2) := by
  cases op with
  | leaf => exact absurd h (by simp [apply])
  | matmul a b =>
      obtain ⟨hfit, hheight, -, hc⟩ := matmul_some h
      obtain ⟨c', hc', -, -, hspec⟩ := Matrix.matmul_eq_some (a := x') (b := y) (hx.2.trans hfit)
      refine ⟨c', hc', fun i hi => ?_⟩
      have hrow : i.1 < x.height := hheight ▸ (Matrix.mem_places.mp hi).1
      simp only [deriv, ite_mul, zero_mul]
      rw [sum_places_row x i.1 fun k =>
        y.entry k.2 i.2 * (x'.entry k.1 k.2 - x.entry k.1 k.2), if_pos hrow, hspec, hc, hx.2,
        ← Finset.sum_add_distrib]
      exact Finset.sum_congr rfl fun k _ => by ring
  | add a b =>
      obtain ⟨hshape, hcx, hc⟩ := plus_eq_some h
      obtain ⟨c', hc'⟩ : ∃ c', x'.plus y = some c' := ⟨_, if_pos ⟨hx.1.trans hshape.1,
        hx.2.trans hshape.2⟩⟩
      obtain ⟨-, hcx', hspec⟩ := plus_eq_some hc'
      refine ⟨c', hc', fun i hi => ?_⟩
      simp only [deriv, ite_mul, zero_mul, one_mul]
      exact entry_of_moved hx hcx hcx' hc hspec hi
  | addBias a bias =>
      obtain ⟨hshape, hcx, hc⟩ := addRowBroadcast_eq_some h
      obtain ⟨c', hc'⟩ : ∃ c', x'.addRowBroadcast y = some c' :=
        ⟨_, if_pos ⟨hshape.1, hshape.2.trans hx.2.symm⟩⟩
      obtain ⟨-, hcx', hspec⟩ := addRowBroadcast_eq_some hc'
      refine ⟨c', hc', fun i hi => ?_⟩
      simp only [deriv, ite_mul, zero_mul, one_mul]
      exact entry_of_moved hx hcx hcx' hc hspec hi

/-- The same for the right operand, and slot 1. -/
theorem Op.deriv_right {y' : Matrix F} (h : op.apply x y = some c) (hy : y'.SameShape y) :
    ∃ c', op.apply x y' = some c' ∧ ∀ i ∈ c.places, c'.entry i.1 i.2 = c.entry i.1 i.2 +
      ∑ k ∈ y.places, op.deriv x y 1 i k * (y'.entry k.1 k.2 - y.entry k.1 k.2) := by
  cases op with
  | leaf => exact absurd h (by simp [apply])
  | matmul a b =>
      obtain ⟨hfit, -, hcols, hc⟩ := matmul_some h
      obtain ⟨c', hc', -, -, hspec⟩ :=
        Matrix.matmul_eq_some (a := x) (b := y') (hfit.trans hy.1.symm)
      refine ⟨c', hc', fun i hi => ?_⟩
      have hcol : i.2 < y.cols := hcols ▸ (Matrix.mem_places.mp hi).2
      simp only [deriv, ite_mul, zero_mul]
      rw [sum_places_col y i.2 fun k =>
        x.entry i.1 k.1 * (y'.entry k.1 k.2 - y.entry k.1 k.2), if_pos hcol, hspec, hc, hfit,
        ← Finset.sum_add_distrib]
      exact Finset.sum_congr rfl fun k _ => by ring
  | add a b =>
      obtain ⟨hshape, hcx, hc⟩ := plus_eq_some h
      obtain ⟨c', hc'⟩ : ∃ c', x.plus y' = some c' := ⟨_, if_pos ⟨hshape.1.trans hy.1.symm,
        hshape.2.trans hy.2.symm⟩⟩
      obtain ⟨-, hcx', hspec⟩ := plus_eq_some hc'
      refine ⟨c', hc', fun i hi => ?_⟩
      have hplaces : c'.places = c.places := by rw [places_eq hcx', places_eq hcx]
      have hiy : i ∈ y.places := by rw [← places_eq hshape, ← places_eq hcx]; exact hi
      simp only [deriv, ite_mul, zero_mul, one_mul]
      rw [sum_places_one y i fun k => y'.entry k.1 k.2 - y.entry k.1 k.2, if_pos hiy,
        hspec i (hplaces ▸ hi), hc i hi]
      ring
  | addBias a bias =>
      obtain ⟨hshape, hcx, hc⟩ := addRowBroadcast_eq_some h
      obtain ⟨c', hc'⟩ : ∃ c', x.addRowBroadcast y' = some c' :=
        ⟨_, if_pos ⟨hy.1.trans hshape.1, hy.2.trans hshape.2⟩⟩
      obtain ⟨-, hcx', hspec⟩ := addRowBroadcast_eq_some hc'
      refine ⟨c', hc', fun i hi => ?_⟩
      have hplaces : c'.places = c.places := by rw [places_eq hcx', places_eq hcx]
      have hcol : i.2 < y.cols := by
        rw [hshape.2, ← hcx.2]
        exact (Matrix.mem_places.mp hi).2
      have hiy : (0, i.2) ∈ y.places := Matrix.mem_places.mpr ⟨by omega, hcol⟩
      simp only [deriv, ite_mul, zero_mul, one_mul, eq_comm (b := (0, i.2))]
      rw [sum_places_one y (0, i.2) fun k => y'.entry k.1 k.2 - y.entry k.1 k.2, if_pos hiy,
        hspec i (hplaces ▸ hi), hc i hi]
      ring

theorem Op.deriv_exact {op : Op} {x y c : Matrix F} (h : op.apply x y = some c) :
    (∀ x', x'.SameShape x → ∃ c', op.apply x' y = some c' ∧
      ∀ i ∈ c.places, c'.entry i.1 i.2 = c.entry i.1 i.2 +
        ∑ k ∈ x.places, op.deriv x y 0 i k * (x'.entry k.1 k.2 - x.entry k.1 k.2)) ∧
    (∀ y', y'.SameShape y → ∃ c', op.apply x y' = some c' ∧
      ∀ i ∈ c.places, c'.entry i.1 i.2 = c.entry i.1 i.2 +
        ∑ k ∈ y.places, op.deriv x y 1 i k * (y'.entry k.1 k.2 - y.entry k.1 k.2)) :=
  ⟨fun _ hx => op.deriv_left h hx, fun _ hy => op.deriv_right h hy⟩

theorem Op.deriv_exact_product :
    let x : Matrix ℤ := ⟨2, [#v[1, 2], #v[3, 4]]⟩
    let x' : Matrix ℤ := ⟨2, [#v[1, 9], #v[3, 4]]⟩
    let y : Matrix ℤ := ⟨2, [#v[5, 6], #v[7, 8]]⟩
    let c : Matrix ℤ := ⟨2, [#v[19, 22], #v[43, 50]]⟩
    ∃ c', (Op.matmul 0 1).apply x' y = some c' ∧
      ∀ i ∈ c.places, c'.entry i.1 i.2 = c.entry i.1 i.2 +
        ∑ k ∈ x.places, (Op.matmul 0 1).deriv x y 0 i k *
          (x'.entry k.1 k.2 - x.entry k.1 k.2) := by
  intro x x' y c
  have h : (Op.matmul 0 1).apply x y = some c := rfl
  exact (Op.deriv_exact h).1 x' ⟨rfl, rfl⟩

/-! ## The tape as a graph -/

/-- The local derivatives of node `u`, at the values that it was computed from. -/
def localDeriv (ns : List (Node F)) (u s : Nat) (i k : Nat × Nat) : F :=
  match ns[u]? with
  | some nd => nd.op.deriv (valueOf ns (nd.op.parents.getD 0 0))
      (valueOf ns (nd.op.parents.getD 1 0)) s i k
  | none => 0

theorem Op.eval_eq_some {value : Matrix F} (h : op.eval ns = some value) :
    ∃ a b, op.parents = [a, b] ∧ a < ns.length ∧ b < ns.length ∧
      op.apply (valueOf ns a) (valueOf ns b) = some value := by
  have hpair : ∀ a b, (do
      let an ← ns[a]?
      let bn ← ns[b]?
      op.apply an.value bn.value) = some value →
      a < ns.length ∧ b < ns.length ∧
        op.apply (valueOf ns a) (valueOf ns b) = some value := by
    intro a b hab
    simp only [Option.bind_eq_bind, Option.bind_eq_some_iff] at hab
    obtain ⟨an, han, bn, hbn, hval⟩ := hab
    refine ⟨(List.getElem?_eq_some_iff.mp han).1, (List.getElem?_eq_some_iff.mp hbn).1, ?_⟩
    rw [valueOf_eq han, valueOf_eq hbn]
    exact hval
  cases op with
  | leaf => exact absurd h (by simp [eval])
  | matmul a b => exact ⟨a, b, rfl, hpair a b h⟩
  | add a b => exact ⟨a, b, rfl, hpair a b h⟩
  | addBias a bias => exact ⟨a, bias, rfl, hpair a bias h⟩

/-- How node `u` of a tape was made. -/
def Made (ns : List (Node F)) (u : Nat) (nd : Node F) : Prop :=
  nd.op = .leaf ∨ ∃ a b, nd.op.parents = [a, b] ∧ a < u ∧ b < u ∧
    nd.op.apply (valueOf ns a) (valueOf ns b) = some nd.value

theorem Made.append (h : Made ns u nd) (hu : u < ns.length) (nd' : Node F) :
    Made (ns ++ [nd']) u nd := by
  rcases h with hleaf | ⟨a, b, hparents, ha, hb, hval⟩
  · exact .inl hleaf
  · refine .inr ⟨a, b, hparents, ha, hb, ?_⟩
    rw [valueOf_append (ha.trans hu), valueOf_append (hb.trans hu)]
    exact hval

theorem Built.made (h : Built ns) (hu : ns[u]? = some nd) : Made ns u nd := by
  induction h with
  | nil => exact absurd hu (by simp)
  | leaf value hb ih =>
      rcases getElem?_snoc hu with ⟨hold, hu⟩ | ⟨-, rfl⟩
      · exact (ih hu).append hold _
      · exact .inl rfl
  | node hb heval ih =>
      rcases getElem?_snoc hu with ⟨hold, hu⟩ | ⟨rfl, rfl⟩
      · exact (ih hu).append hold _
      · obtain ⟨a, b, hparents, ha, hb, hval⟩ := Op.eval_eq_some heval
        refine .inr ⟨a, b, hparents, ha, hb, ?_⟩
        rw [valueOf_append ha, valueOf_append hb]
        exact hval

/-- A node was made after its parents. -/
theorem Built.parents_lt (h : Built ns) (hp : p ∈ parentsOf ns u) : p < u := by
  unfold parentsOf at hp
  split at hp
  · rename_i nd hu
    rcases h.made hu with hleaf | ⟨a, b, hparents, ha, hb, -⟩
    · rw [hleaf] at hp
      exact absurd hp List.not_mem_nil
    · rw [hparents] at hp
      rcases List.mem_pair.mp hp with rfl | rfl
      · exact ha
      · exact hb
  · exact absurd hp List.not_mem_nil

/-- The tape as a graph: its nodes, their parents and their local derivatives. -/
def tapeDag (ns : List (Node F)) (h : Built ns) : Dag (Nat × Nat) F where
  slots := parentsOf ns
  dom u := (valueOf ns u).places
  deriv := localDeriv ns
  lt _ _ hp := h.parents_lt hp

/-! ## One step of the sweep -/

/-- The gradients, element by element. -/
def entries (g : Grads F) : Nat → Nat × Nat → F := fun v k => (g v).entry k.1 k.2

/-- Every gradient has the shape of its value. -/
def Shaped (ns : List (Node F)) (g : Grads F) : Prop := ∀ v, (g v).SameShape (valueOf ns v)

omit [DecidableEq F] in
theorem addGrad_spec (hg : Shaped ns g) (hm : m.SameShape (valueOf ns p)) :
    ∃ g', addGrad g p m = some g' ∧ Shaped ns g' ∧ (∀ v, v ≠ p → g' v = g v) ∧
      entries g' = Dag.addTo (entries g) p fun k => m.entry k.1 k.2 := by
  obtain ⟨sum, hsum, hshape, hentry⟩ := Matrix.addInplace_eq_some (a := g p) (b := m)
    ⟨(hg p).1.trans hm.1.symm, (hg p).2.trans hm.2.symm⟩
  refine ⟨Function.update g p sum, by rw [addGrad, hsum]; rfl, fun v => ?_, fun v hv => ?_, ?_⟩
  · by_cases hv : v = p
    · subst hv
      rw [Function.update_self]
      exact ⟨hshape.1.trans (hg v).1, hshape.2.trans (hg v).2⟩
    · rw [Function.update_of_ne hv]
      exact hg v
  · exact Function.update_of_ne hv _ _
  · funext v k
    by_cases hv : v = p
    · subst hv
      rw [entries, Function.update_self, Dag.addTo, Function.update_self]
      exact hentry _ _
    · rw [entries, Function.update_of_ne hv, Dag.addTo, Function.update_of_ne hv]
      rfl

/-- `on->grad.matmul(bn->value.transpose())`. -/
theorem pull_matmul_left (hm : m.cols = y.cols) :
    ∃ c, m.matmul y.transpose = some c ∧ c.height = m.height ∧ c.cols = y.height ∧
      ∀ k : Nat × Nat, c.entry k.1 k.2 =
        ∑ i ∈ m.places, m.entry i.1 i.2 * (if i.1 = k.1 then y.entry k.2 i.2 else 0) := by
  obtain ⟨c, hc, hheight, hcols, hentry⟩ :=
    Matrix.matmul_eq_some (a := m) (b := y.transpose) (hm.trans (Matrix.height_ofFn ..).symm)
  refine ⟨c, hc, hheight, hcols, fun k => ?_⟩
  simp only [mul_ite, mul_zero, eq_comm (b := k.1)]
  rw [sum_places_row m k.1 fun i => m.entry i.1 i.2 * y.entry k.2 i.2, hentry]
  simp only [Matrix.entry_transpose]
  split
  · rfl
  · rename_i hout
    simp only [Matrix.entry_of_height_le (Nat.le_of_not_lt hout), zero_mul,
      Finset.sum_const_zero]

/-- `an->value.transpose().matmul(on->grad)`. -/
theorem pull_matmul_right (hm : m.height = x.height) :
    ∃ c, x.transpose.matmul m = some c ∧ c.height = x.cols ∧ c.cols = m.cols ∧
      ∀ k : Nat × Nat, c.entry k.1 k.2 =
        ∑ i ∈ m.places, m.entry i.1 i.2 * (if i.2 = k.2 then x.entry i.1 k.1 else 0) := by
  obtain ⟨c, hc, hheight, hcols, hentry⟩ :=
    Matrix.matmul_eq_some (a := x.transpose) (b := m) hm.symm
  refine ⟨c, hc, hheight.trans (Matrix.height_ofFn ..), hcols, fun k => ?_⟩
  simp only [mul_ite, mul_zero, eq_comm (b := k.2)]
  rw [sum_places_col m k.2 fun i => m.entry i.1 i.2 * x.entry i.1 k.1, hentry, hm]
  simp only [Matrix.entry_transpose]
  split
  · exact Finset.sum_congr rfl fun i _ => mul_comm _ _
  · rename_i hout
    simp only [Matrix.entry_of_cols_le (Nat.le_of_not_lt hout), mul_zero,
      Finset.sum_const_zero]

/-- A slot pulls back with the derivative of its operation. -/
theorem pull_eq (h : Built ns) (hg : Shaped ns g) (hnd : ns[u]? = some nd) (s : Nat)
    (k : Nat × Nat) :
    (tapeDag ns h).pull u s (entries g u) k =
      ∑ i ∈ (g u).places, (g u).entry i.1 i.2 * nd.op.deriv (valueOf ns (nd.op.parents.getD 0 0))
        (valueOf ns (nd.op.parents.getD 1 0)) s i k := by
  rw [places_eq (hg u)]
  simp only [Dag.pull, tapeDag, localDeriv, hnd]
  rfl

/-- Two slots, two contributions, the second of which sees the gradient of `u` unchanged. -/
theorem addGrad_pair (h : Built ns) (hg : Shaped ns g) (hnd : ns[u]? = some nd) {a b : Nat}
    (hparents : nd.op.parents = [a, b]) (ha : a < u) (da db : Matrix F)
    (hda : da.SameShape (valueOf ns a)) (hdb : db.SameShape (valueOf ns b))
    (hpa : ∀ k : Nat × Nat, da.entry k.1 k.2 = (tapeDag ns h).pull u 0 (entries g u) k)
    (hpb : ∀ k : Nat × Nat, db.entry k.1 k.2 = (tapeDag ns h).pull u 1 (entries g u) k) :
    ∃ g₁ g₂, addGrad g a da = some g₁ ∧ g₁ u = g u ∧ addGrad g₁ b db = some g₂ ∧
      Shaped ns g₂ ∧ entries g₂ = (tapeDag ns h).accumulate (entries g) u := by
  obtain ⟨g₁, hg₁, hshaped₁, hsame, hentries₁⟩ := addGrad_spec hg hda
  obtain ⟨g₂, hg₂, hshaped₂, -, hentries₂⟩ := addGrad_spec hshaped₁ hdb
  refine ⟨g₁, g₂, hg₁, hsame u (Nat.ne_of_gt ha), hg₂, hshaped₂, ?_⟩
  have hslots : (tapeDag ns h).slots u = [a, b] := by
    rw [← hparents]
    simp only [tapeDag, parentsOf, hnd]
  rw [hentries₂, hentries₁, Dag.accumulate, hslots, funext hpa, funext hpb]
  rfl

/-- **One `backward_fn` is one step of the sweep**, and none of its assertions fails. -/
theorem backwardFn_spec (h : Built ns) (hg : Shaped ns g) (hu : u < ns.length) :
    ∃ g', backwardFn ns g u = some g' ∧ Shaped ns g' ∧
      entries g' = (tapeDag ns h).accumulate (entries g) u := by
  obtain ⟨nd, hnd⟩ : ∃ nd, ns[u]? = some nd := ⟨ns[u], List.getElem?_eq_getElem hu⟩
  have hpull := pull_eq h hg hnd
  have hval : valueOf ns u = nd.value := valueOf_eq hnd
  rcases h.made hnd with hleaf | ⟨a, b, hparents, ha, hb, happly⟩
  · refine ⟨g, ?_, hg, ?_⟩
    · simp only [backwardFn, hnd, hleaf, Option.bind_eq_bind, Option.bind_some]
    · have hslots : (tapeDag ns h).slots u = [] := by
        simp only [tapeDag, parentsOf, hnd, hleaf, Op.parents]
      rw [Dag.accumulate, hslots]
      rfl
  have hshape : (g u).SameShape nd.value := hval ▸ hg u
  rw [hparents] at hpull
  have hgetA : ∃ an, ns[a]? = some an := ⟨ns[a], List.getElem?_eq_getElem (ha.trans hu)⟩
  have hgetB : ∃ bn, ns[b]? = some bn := ⟨ns[b], List.getElem?_eq_getElem (hb.trans hu)⟩
  obtain ⟨an, han⟩ := hgetA
  obtain ⟨bn, hbn⟩ := hgetB
  cases hop : nd.op with
  | leaf =>
      rw [hop] at hparents
      exact absurd hparents (by simp [Op.parents])
  | matmul a' b' =>
      rw [hop] at hparents happly hpull
      obtain ⟨rfl, rfl⟩ : a' = a ∧ b' = b := by simpa [Op.parents] using hparents
      rw [valueOf_eq han, valueOf_eq hbn] at happly
      obtain ⟨hfit, hheight, hcols, -⟩ := matmul_some happly
      obtain ⟨da, hda, hdaH, hdaC, hdaE⟩ :=
        pull_matmul_left (m := g u) (y := bn.value) (hshape.2.trans hcols)
      obtain ⟨db, hdb, hdbH, hdbC, hdbE⟩ :=
        pull_matmul_right (m := g u) (x := an.value) (hshape.1.trans hheight)
      obtain ⟨g₁, g₂, hg₁, hsame, hg₂, hshaped, hentries⟩ :=
        addGrad_pair h hg hnd (by rw [hop]; rfl) ha da db
          (by
            rw [valueOf_eq han]
            exact ⟨hdaH.trans (hshape.1.trans hheight), hdaC.trans hfit.symm⟩)
          (by rw [valueOf_eq hbn]; exact ⟨hdbH.trans hfit, hdbC.trans (hshape.2.trans hcols)⟩)
          (fun k => by
            rw [hdaE, hpull]
            simp only [Op.deriv, List.getD_cons_succ, List.getD_cons_zero, valueOf_eq hbn])
          (fun k => by
            rw [hdbE, hpull]
            simp only [Op.deriv, List.getD_cons_zero, valueOf_eq han])
      refine ⟨g₂, ?_, hshaped, hentries⟩
      simp only [backwardFn, hnd, hop, han, hbn, hda, hg₁, hsame, hdb, hg₂,
        Option.bind_eq_bind, Option.bind_some]
  | add a' b' =>
      rw [hop] at hparents happly hpull
      obtain ⟨rfl, rfl⟩ : a' = a ∧ b' = b := by simpa [Op.parents] using hparents
      obtain ⟨hfit, hcx, -⟩ := plus_eq_some happly
      have hx : (g u).SameShape (valueOf ns a') := ⟨hshape.1.trans hcx.1, hshape.2.trans hcx.2⟩
      have hy : (g u).SameShape (valueOf ns b') := ⟨hx.1.trans hfit.1, hx.2.trans hfit.2⟩
      obtain ⟨g₁, g₂, hg₁, hsame, hg₂, hshaped, hentries⟩ :=
        addGrad_pair h hg hnd (by rw [hop]; rfl) ha (g u) (g u) hx hy
          (fun k => by rw [hpull]; exact (pull_id (g u) k).symm)
          (fun k => by rw [hpull]; exact (pull_id (g u) k).symm)
      refine ⟨g₂, ?_, hshaped, hentries⟩
      simp only [backwardFn, hnd, hop, hg₁, hsame, hg₂, Option.bind_eq_bind, Option.bind_some]
  | addBias a' bias =>
      rw [hop] at hparents happly hpull
      obtain ⟨rfl, rfl⟩ : a' = a ∧ bias = b := by simpa [Op.parents] using hparents
      obtain ⟨hfit, hcx, -⟩ := addRowBroadcast_eq_some happly
      have hx : (g u).SameShape (valueOf ns a') := ⟨hshape.1.trans hcx.1, hshape.2.trans hcx.2⟩
      obtain ⟨g₁, g₂, hg₁, hsame, hg₂, hshaped, hentries⟩ :=
        addGrad_pair h hg hnd (by rw [hop]; rfl) ha (g u) (g u).sumRows hx
          ⟨(Matrix.height_ofFn ..).trans hfit.1.symm, hx.2.trans hfit.2.symm⟩
          (fun k => by rw [hpull]; exact (pull_id (g u) k).symm)
          (fun k => by rw [hpull]; exact pull_sumRows (g u) k)
      refine ⟨g₂, ?_, hshaped, hentries⟩
      simp only [backwardFn, hnd, hop, hg₁, hsame, hg₂, Option.bind_eq_bind, Option.bind_some]

/-! ## The order of the sweep -/

omit [CommRing F] [DecidableEq F] in
/-- `topo_sort` visits depth first, the parents of a node before the node. -/
theorem topoSort_eq (ns : List (Node F)) (fuel n : Nat) (s : List Nat × List Nat) :
    topoSort ns fuel n s = Dag.postorder (parentsOf ns) fuel n s := by
  induction fuel generalizing n s with
  | zero => rfl
  | succ fuel ih =>
      have hcall : (fun s p => topoSort ns fuel p s) =
          fun s p => Dag.postorder (parentsOf ns) fuel p s := funext₂ fun s p => ih p s
      obtain ⟨visited, order⟩ := s
      rw [topoSort, Dag.postorder, hcall]

/-! ## `backward` -/

omit [DecidableEq F] in
/-- Steps of a sweep one after the other, on gradients of the right shape. -/
theorem foldlM_accumulate {d : Dag (Nat × Nat) F} {step : Grads F → Nat → Option (Grads F)}
    (hstep : ∀ g u, Shaped ns g → u < ns.length → ∃ g', step g u = some g' ∧ Shaped ns g' ∧
      entries g' = d.accumulate (entries g) u) (L : List Nat) (hL : ∀ u ∈ L, u < ns.length)
    (hg : Shaped ns g) :
    ∃ g', L.foldlM step g = some g' ∧ Shaped ns g' ∧
      entries g' = L.foldl d.accumulate (entries g) := by
  induction L generalizing g with
  | nil => exact ⟨g, rfl, hg, rfl⟩
  | cons u L ih =>
      obtain ⟨g₁, hg₁, hshaped, hentries⟩ := hstep g u hg (hL u List.mem_cons_self)
      obtain ⟨g₂, hg₂, hshaped₂, hentries₂⟩ :=
        ih (fun w hw => hL w (List.mem_cons_of_mem _ hw)) hshaped
      refine ⟨g₂, ?_, hshaped₂, ?_⟩
      · simp only [List.foldlM_cons, hg₁, Option.bind_eq_bind, Option.bind_some]
        exact hg₂
      · rw [hentries₂, hentries, List.foldl_cons]

/-- The gradient that the output starts with. -/
def seed : Nat × Nat → F := fun k => if k = (0, 0) then 1 else 0

omit [DecidableEq F] in
/-- What is got out of the seed is the derivative of the output. -/
theorem total_seed {d : Dag (Nat × Nat) F} {out : Nat} (hone : d.dom out = {(0, 0)}) (v : Nat)
    (k : Nat × Nat) : d.total v k out seed = d.pathSum out v (0, 0) k := by
  rw [Dag.total, hone, Finset.sum_singleton, seed, if_pos rfl, one_mul]

omit [DecidableEq F] in
theorem shaped_fresh (ns : List (Node F)) :
    Shaped ns (fresh ns) ∧ entries (fresh ns) = fun _ _ => 0 := by
  have hfresh : ∀ v, fresh ns v = .zeros (valueOf ns v).height (valueOf ns v).cols := by
    intro v
    unfold fresh valueOf
    cases ns[v]? <;> rfl
  refine ⟨fun v => ?_, ?_⟩
  · rw [hfresh]
    exact ⟨Matrix.height_ofFn .., rfl⟩
  · funext v k
    rw [entries, hfresh, Matrix.entry_zeros]

omit [DecidableEq F] in
/-- The output gets its seed, in place of what it holds. -/
theorem shaped_start {out : Nat} {o : Node F} (ho : ns[out]? = some o)
    (hscalar : o.value.height = 1 ∧ o.value.cols = 1) (hg : Shaped ns g) :
    Shaped ns (Function.update g out (.ofFn 1 1 fun _ _ => 1)) ∧
      entries (Function.update g out (.ofFn 1 1 fun _ _ => 1)) =
        Function.update (entries g) out (seed (F := F)) := by
  refine ⟨fun v => ?_, ?_⟩
  · by_cases hv : v = out
    · subst hv
      rw [Function.update_self, valueOf_eq ho]
      exact ⟨(Matrix.height_ofFn ..).trans hscalar.1.symm, hscalar.2.symm⟩
    · rw [Function.update_of_ne hv]
      exact hg v
  · funext v k
    by_cases hv : v = out
    · subst hv
      rw [entries, Function.update_self, Function.update_self, Matrix.entry_ofFn, seed]
      refine if_congr ?_ rfl rfl
      rw [Prod.ext_iff]
      omega
    · rw [entries, Function.update_of_ne hv, Function.update_of_ne hv]
      rfl

/-- **`backward` gives every node the total derivative of the output by it**: on every tape,
from a scalar output, no assertion fails, and an element of a gradient ends up as the sum over
all paths from the output down to its node of the products of the local derivatives. -/
theorem backward_eq_pathSum {ns : List (Node F)} (h : Built ns) {out : Nat} {o : Node F}
    (ho : ns[out]? = some o) (hscalar : o.value.height = 1 ∧ o.value.cols = 1) :
    ∃ g, backward ns out = some g ∧ ∀ v nd, ns[v]? = some nd → (g v).SameShape nd.value ∧
      ∀ k ∈ nd.value.places,
        (g v).entry k.1 k.2 = (tapeDag ns h).pathSum out v (0, 0) k := by
  obtain ⟨visited, order, horder, htopo, hmem⟩ := (tapeDag ns h).postorder_from out
  have hout : out < ns.length := (List.getElem?_eq_some_iff.mp ho).1
  have hvalid : ∀ u ∈ order.reverse, u < ns.length := fun u hu =>
    Nat.lt_of_le_of_lt ((hmem u).mp hu).le hout
  obtain ⟨hfresh, hzero⟩ := shaped_fresh ns
  obtain ⟨hshaped, hseed⟩ := shaped_start ho hscalar hfresh
  obtain ⟨g, hg, hshaped', hentries⟩ :=
    foldlM_accumulate (fun _ _ hg hu => backwardFn_spec h hg hu) order.reverse hvalid hshaped
  refine ⟨g, ?_, fun v nd hv => ⟨?_, fun k hk => ?_⟩⟩
  · have hsort : topoSort ns (out + 1) out ([], []) = some (visited, order) :=
      (topoSort_eq ns _ _ _).trans horder
    simp only [backward, ho, if_pos hscalar, hsort, Option.bind_eq_bind, Option.bind_some]
    exact hg
  · rw [← valueOf_eq hv]
    exact hshaped' v
  · have hdom : k ∈ (tapeDag ns h).dom v := by
      simp only [tapeDag, valueOf_eq hv]
      exact hk
    have hone : (tapeDag ns h).dom out = {(0, 0)} := by
      simp only [tapeDag, valueOf_eq ho, Matrix.places, hscalar]
      rfl
    have hstart : Function.update (fun _ _ => 0) out seed =
        Dag.addTo (fun _ _ => 0) out (seed (F := F)) := by
      simp only [Dag.addTo, zero_add]
    calc (g v).entry k.1 k.2
        = order.reverse.foldl (tapeDag ns h).accumulate (Dag.addTo (fun _ _ => 0) out seed)
            v k := by
          rw [← hstart, ← hzero, ← hseed, ← hentries]
          rfl
      _ = (tapeDag ns h).total v k out seed :=
          (tapeDag ns h).sweep_eq_total htopo ((hmem out).mpr (.refl _ out)) seed hdom
      _ = (tapeDag ns h).pathSum out v (0, 0) k := total_seed hone v k

end Tape

/-- `x`, `add(x, x)` and `matmul` of that and `x`, at `x = 3`. -/
def sharedTape : List (Node ℤ) :=
  [⟨⟨1, [#v[3]]⟩, .leaf⟩, ⟨⟨1, [#v[6]]⟩, .add 0 0⟩, ⟨⟨1, [#v[18]]⟩, .matmul 1 0⟩]

theorem sharedTape_built : Built sharedTape :=
  have hsum : Built (sharedTape.take 2) :=
    .node (.leaf _ .nil) (show (Op.add 0 0).eval _ = _ from rfl)
  .node hsum (show (Op.matmul 1 0).eval _ = _ from rfl)

theorem backward_eq_pathSum_shared :
    ∃ g, backward sharedTape 2 = some g ∧ ∀ v nd, sharedTape[v]? = some nd →
      (g v).SameShape nd.value ∧ ∀ k ∈ nd.value.places,
        (g v).entry k.1 k.2 = (tapeDag sharedTape sharedTape_built).pathSum 2 v (0, 0) k :=
  backward_eq_pathSum sharedTape_built rfl ⟨rfl, rfl⟩

/-- The derivative of `2 * x * x` at 3, over three paths. -/
example : ((backward sharedTape 2).map fun g => (g 0).entry 0 0) = some 12 := by decide

end CrossMachine.Training
