import CrossMachine.Lib.Resweep
import CrossMachine.Training.Tape

/-!
# Calling `backward` twice

The gradient of a node is kept when `backward` is done, and the next call adds to it. In a leaf
that is what is wanted: the gradients of two outputs add up. But a node with operands hands on
all that it holds, also what it got, and has handed on, in the call before; and the second
output gets its seed in place of what it held.

So two calls leave in a leaf the sum of the two gradients, and besides it what the nodes that
both outputs share below the second one were left with by the first, pulled back to the leaf
once more (`retained`, `backward_twice`). The sum alone is left exactly when these cancel, and
when the second output is no leaf that the first depends on (`backward_twice_iff`); where
no such node is shared there is nothing to cancel (`retained_of_unshared`).
-/

namespace CrossMachine.Training.Tape

open Lib

variable {F : Type*} {ns : List (Node F)}

/-! ## The tape as a graph -/

theorem plain_getElem? (ns : List (Node F)) (u : Nat) :
    (plain ns)[u]? = ns[u]?.map Node.plain :=
  List.getElem?_map

theorem plain_append (ns : List (Node F)) (nd : Node F) :
    plain (ns ++ [nd]) = plain ns ++ [nd.plain] :=
  List.map_append

@[simp] theorem plain_length (ns : List (Node F)) : (plain ns).length = ns.length :=
  List.length_map _

@[simp] theorem plain_value (nd : Node F) : nd.plain.value = nd.value := by
  unfold Node.plain
  split <;> rfl

variable {u : Nat} {nd : Node F} {g : Grads F}

theorem parentsOf_eq (hu : ns[u]? = some nd) : parentsOf ns u = nd.op.parents := by
  simp only [parentsOf, hu]

theorem plain_base {value : Matrix F} {op : Training.Op} (hu : ns[u]? = some ⟨value, .base op⟩) :
    (plain ns)[u]? = some ⟨value, op⟩ := by
  rw [plain_getElem?, hu]
  rfl

variable [Field F] [LinearOrder F] {fns : Cmath F}

omit [LinearOrder F] in
theorem valueOf_plain (hu : ns[u]? = some nd) : valueOf (plain ns) u = nd.value := by
  have hplain : (plain ns)[u]? = some nd.plain := by
    rw [plain_getElem?, hu]
    rfl
  rw [valueOf_eq hplain, plain_value]

/-- To the operations of `Autograd` the tape is one of theirs. -/
theorem Taped.built (h : Taped fns ns) : Built (plain ns) := by
  induction h with
  | nil => exact .nil
  | leaf value _ ih => exact plain_append _ _ ▸ .leaf value ih
  | base _ heval ih => exact plain_append _ _ ▸ .node ih heval
  | relu _ _ ih => exact plain_append _ _ ▸ .leaf _ ih
  | softmaxCrossEntropy _ _ _ ih => exact plain_append _ _ ▸ .leaf _ ih

/-- What the other operations leave in node `u`, to go by when it hands its gradient on. -/
def Fits (ns : List (Node F)) (u : Nat) (nd : Node F) : Prop :=
  match nd.op with
  | .base _ => True
  | .relu a => a < u ∧ nd.value.SameShape (valueOf (plain ns) a)
  | .softmaxCrossEntropy logits _ probs =>
      logits < u ∧ probs.SameShape (valueOf (plain ns) logits) ∧
        nd.value.height = 1 ∧ nd.value.cols = 1

omit [LinearOrder F] in
theorem Fits.append (h : Fits ns u nd) (hu : u < ns.length) (nd' : Node F) :
    Fits (ns ++ [nd']) u nd := by
  have hkeep : ∀ p < u, valueOf (plain (ns ++ [nd'])) p = valueOf (plain ns) p := by
    intro p hp
    rw [plain_append, valueOf_append (by rw [plain_length]; omega)]
  unfold Fits at h ⊢
  split
  · trivial
  · rename_i hop
    simp only [hop] at h
    rw [hkeep _ h.1]
    exact h
  · rename_i hop
    simp only [hop] at h
    rw [hkeep _ h.1]
    exact h

theorem softmaxCrossEntropy_eq_some {z loss probs : Matrix F} {labels : List Int}
    (h : softmaxCrossEntropy fns z labels = some (loss, probs)) :
    probs.SameShape z ∧ loss.height = 1 ∧ loss.cols = 1 := by
  unfold softmaxCrossEntropy at h
  split at h
  · simp only [Option.bind_eq_bind, Option.bind_eq_some_iff, Option.some.injEq,
      Prod.mk.injEq] at h
    obtain ⟨total, -, rfl, rfl⟩ := h
    exact ⟨⟨Matrix.height_ofFn .., rfl⟩, Matrix.height_ofFn .., rfl⟩
  · exact absurd h (by simp)

theorem Taped.fits (h : Taped fns ns) (hu : ns[u]? = some nd) : Fits ns u nd := by
  induction h with
  | nil => exact absurd hu (by simp)
  | leaf value _ ih | base _ _ ih =>
      rcases getElem?_snoc hu with ⟨hold, hu⟩ | ⟨-, rfl⟩
      · exact (ih hu).append hold _
      · trivial
  | @relu ms a an _ ha ih =>
      rcases getElem?_snoc hu with ⟨hold, hu⟩ | ⟨rfl, rfl⟩
      · exact (ih hu).append hold _
      · have hlt : a < ms.length := lt_length_of_getElem? ha
        refine ⟨hlt, ?_⟩
        rw [plain_append, valueOf_append (by rwa [plain_length]), valueOf_plain ha]
        exact ⟨Matrix.height_ofFn .., rfl⟩
  | @softmaxCrossEntropy ms logits ln _ loss probs _ hz hval ih =>
      rcases getElem?_snoc hu with ⟨hold, hu⟩ | ⟨rfl, rfl⟩
      · exact (ih hu).append hold _
      · have hlt : logits < ms.length := lt_length_of_getElem? hz
        refine ⟨hlt, ?_⟩
        rw [plain_append, valueOf_append (by rwa [plain_length]), valueOf_plain hz]
        exact softmaxCrossEntropy_eq_some hval

/-- A node was made after its parents. -/
theorem Taped.parents_lt (h : Taped fns ns) {p : Nat} (hp : p ∈ parentsOf ns u) : p < u := by
  cases hu : ns[u]? with
  | none =>
      simp only [parentsOf, hu] at hp
      exact absurd hp List.not_mem_nil
  | some nd =>
      rw [parentsOf_eq hu] at hp
      obtain ⟨value, op⟩ := nd
      have hfits := h.fits hu
      cases op with
      | base op =>
          refine h.built.parents_lt (u := u) ?_
          simp only [Training.parentsOf, plain_base hu]
          exact hp
      | relu a => exact List.mem_singleton.mp hp ▸ hfits.1
      | softmaxCrossEntropy logits labels probs => exact List.mem_singleton.mp hp ▸ hfits.1

/-- What element `k` of the operand in slot `s` gets out of element `i` of the gradient. -/
def localDeriv (ns : List (Node F)) (u s : Nat) (i k : Nat × Nat) : F :=
  match ns[u]? with
  | some nd =>
      match nd.op with
      | .base _ => Training.localDeriv (plain ns) u s i k
      | .relu a => if i = k then (mask (valueOf (plain ns) a)).entry k.1 k.2 else 0
      | .softmaxCrossEntropy _ labels probs => (dlogits labels probs 1).entry k.1 k.2
  | none => 0

/-- The tape as a graph: its nodes, their parents and their local derivatives. -/
def graph (ns : List (Node F)) (h : Taped fns ns) : Dag (Nat × Nat) F where
  slots := parentsOf ns
  dom u := (valueOf (plain ns) u).places
  deriv := localDeriv ns
  lt _ _ hp := h.parents_lt hp

/-! ## One step of the sweep -/

/-- A node of `Autograd` does on this graph what it does on that of its own tape. -/
theorem accumulate_base (h : Taped fns ns) {value : Matrix F} {op : Training.Op}
    (hu : ns[u]? = some ⟨value, .base op⟩) (E : Nat → Nat × Nat → F) :
    (tapeDag (plain ns) h.built).accumulate E u = (graph ns h).accumulate E u := by
  have hslots : (tapeDag (plain ns) h.built).slots u = (graph ns h).slots u := by
    simp only [tapeDag, graph, Training.parentsOf, plain_base hu, parentsOf_eq hu, Op.parents]
  have hpull : ∀ s E, (tapeDag (plain ns) h.built).pull u s E = (graph ns h).pull u s E := by
    intro s E
    funext k
    refine Finset.sum_congr rfl fun i _ => ?_
    simp only [tapeDag, graph, localDeriv, hu]
  simp only [Dag.accumulate, hslots, hpull]

/-- One slot, one contribution. -/
theorem addGrad_single (h : Taped fns ns) (hg : Shaped (plain ns) g) (hu : ns[u]? = some nd)
    {a : Nat} (hparents : nd.op.parents = [a]) {m : Matrix F}
    (hm : m.SameShape (valueOf (plain ns) a))
    (hpull : ∀ k : Nat × Nat, m.entry k.1 k.2 = (graph ns h).pull u 0 (entries g u) k) :
    ∃ g', addGrad g a m = some g' ∧ Shaped (plain ns) g' ∧
      entries g' = (graph ns h).accumulate (entries g) u := by
  obtain ⟨g', hg', hshaped, -, hentries⟩ := addGrad_spec hg hm
  refine ⟨g', hg', hshaped, ?_⟩
  have hslots : (graph ns h).slots u = [a] := (parentsOf_eq hu).trans hparents
  rw [hentries, Dag.accumulate, hslots, funext hpull]
  rfl

omit [LinearOrder F] in
theorem elementwiseMul_eq_some {a b : Matrix F} (h : a.SameShape b) :
    ∃ c, a.elementwiseMul b = some c ∧ c.SameShape a ∧
      ∀ i j, c.entry i j = a.entry i j * b.entry i j := by
  refine ⟨_, if_pos h, ⟨Matrix.height_ofFn _ _ _, rfl⟩, fun i j => ?_⟩
  rw [Matrix.entry_ofFn]
  split
  · rfl
  · rename_i hout
    rw [entry_of_not_mem (k := (i, j)) fun hin => hout (Matrix.mem_places.mp hin), zero_mul]

/-- `on->grad.elementwise_mul(mask)`. -/
theorem pull_mask (m x : Matrix F) (k : Nat × Nat) :
    m.entry k.1 k.2 * (mask x).entry k.1 k.2 =
      ∑ i ∈ m.places, m.entry i.1 i.2 * (if i = k then (mask x).entry k.1 k.2 else 0) := by
  simp only [mul_ite, mul_zero, eq_comm (b := k)]
  rw [sum_places_one m k fun i => m.entry i.1 i.2 * (mask x).entry k.1 k.2]
  split
  · rfl
  · rename_i hout
    rw [entry_of_not_mem hout, zero_mul]

omit [LinearOrder F] in
/-- The gradient of the logits is proportional to the seed. -/
theorem entry_dlogits (labels : List Int) (probs : Matrix F) (s : F) (i j : Nat) :
    (dlogits labels probs s).entry i j = s * (dlogits labels probs 1).entry i j := by
  simp only [dlogits, Matrix.entry_ofFn, mul_one]
  split
  · exact mul_comm _ _
  · exact (mul_zero s).symm

/-- **One `backward_fn` is one step of the sweep**, and none of its assertions fails. -/
theorem backwardFn_spec (h : Taped fns ns) (hg : Shaped (plain ns) g) (hu : u < ns.length) :
    ∃ g', backwardFn ns g u = some g' ∧ Shaped (plain ns) g' ∧
      entries g' = (graph ns h).accumulate (entries g) u := by
  obtain ⟨nd, hnd⟩ : ∃ nd, ns[u]? = some nd := ⟨ns[u], List.getElem?_eq_getElem hu⟩
  have hfits := h.fits hnd
  have hshape : (g u).SameShape nd.value := valueOf_plain hnd ▸ hg u
  have hdom : (graph ns h).dom u = (g u).places := (places_eq (hg u)).symm
  obtain ⟨value, op⟩ := nd
  cases op with
  | base op =>
      obtain ⟨g', hg', hshaped, hentries⟩ :=
        Training.backwardFn_spec h.built hg (u := u) (by rwa [plain_length])
      refine ⟨g', ?_, hshaped, hentries.trans (accumulate_base h hnd _)⟩
      simp only [backwardFn, hnd, Option.bind_eq_bind, Option.bind_some]
      exact hg'
  | relu a =>
      obtain ⟨hlt, hvalue⟩ := hfits
      obtain ⟨an, han⟩ : ∃ an, ns[a]? = some an :=
        ⟨ns[a], List.getElem?_eq_getElem (hlt.trans hu)⟩
      rw [valueOf_plain han] at hvalue
      have hmask : (g u).SameShape (mask an.value) :=
        ⟨hshape.1.trans (hvalue.1.trans (Matrix.height_ofFn ..).symm), hshape.2.trans hvalue.2⟩
      obtain ⟨d, hd, hdshape, hdentry⟩ := elementwiseMul_eq_some hmask
      have hd' : d.SameShape (valueOf (plain ns) a) := by
        rw [valueOf_plain han]
        exact ⟨hdshape.1.trans (hshape.1.trans hvalue.1), hdshape.2.trans (hshape.2.trans hvalue.2)⟩
      obtain ⟨g', hg', hshaped, hentries⟩ := addGrad_single h hg hnd rfl hd' fun k => by
        rw [hdentry, pull_mask, Dag.pull, hdom]
        simp only [graph, localDeriv, hnd, valueOf_plain han]
        rfl
      refine ⟨g', ?_, hshaped, hentries⟩
      simp only [backwardFn, hnd, han, hd, Option.bind_eq_bind, Option.bind_some]
      exact hg'
  | softmaxCrossEntropy logits labels probs =>
      obtain ⟨hlt, hprobs, hscalar⟩ := hfits
      have hone : (graph ns h).dom u = {(0, 0)} := by
        rw [hdom, Matrix.places, hshape.1, hshape.2, hscalar.1, hscalar.2]
        rfl
      have hd : (dlogits labels probs ((g u).entry 0 0)).SameShape (valueOf (plain ns) logits) :=
        ⟨(Matrix.height_ofFn ..).trans hprobs.1, hprobs.2⟩
      obtain ⟨g', hg', hshaped, hentries⟩ := addGrad_single h hg hnd rfl hd fun k => by
        rw [entry_dlogits, Dag.pull, hone, Finset.sum_singleton]
        simp only [graph, localDeriv, hnd]
        rfl
      refine ⟨g', ?_, hshaped, hentries⟩
      simp only [backwardFn, hnd, Option.bind_eq_bind, Option.bind_some]
      exact hg'

/-! ## One call -/

/-- A call of `backward`, whatever the nodes hold: the output gets its seed, and all that it
reaches is swept. -/
theorem backward_spec (h : Taped fns ns) (hg : Shaped (plain ns) g) {out : Nat} {o : Node F}
    (ho : ns[out]? = some o) (hscalar : o.value.height = 1 ∧ o.value.cols = 1) :
    ∃ L g', backward ns g out = some g' ∧ Shaped (plain ns) g' ∧ (graph ns h).Topological L ∧
      (∀ x, x ∈ L ↔ (graph ns h).Reaches out x) ∧
      entries g' = L.foldl (graph ns h).accumulate (Function.update (entries g) out seed) := by
  obtain ⟨visited, order, horder, htopo, hmem⟩ := (graph ns h).postorder_from out
  have hout : out < ns.length := lt_length_of_getElem? ho
  have hvalid : ∀ u ∈ order.reverse, u < (plain ns).length := fun u hu => by
    rw [plain_length]
    exact Nat.lt_of_le_of_lt ((hmem u).mp hu).le hout
  have ho' : (plain ns)[out]? = some o.plain := by
    rw [plain_getElem?, ho]
    rfl
  obtain ⟨hshaped, hseed⟩ := shaped_start ho' (by rwa [plain_value]) hg
  obtain ⟨g', hg', hshaped', hentries⟩ := foldlM_accumulate (d := graph ns h)
    (fun _ _ hg hu => backwardFn_spec h hg (by rwa [plain_length] at hu)) _ hvalid hshaped
  refine ⟨order.reverse, g', ?_, hshaped', htopo, hmem, hseed ▸ hentries⟩
  have hsort : topoSort ns (out + 1) out ([], []) = some (visited, order) := horder
  simp only [backward, ho, if_pos hscalar, hsort, Option.bind_eq_bind, Option.bind_some]
  exact hg'

theorem graph_dom (h : Taped fns ns) (hu : ns[u]? = some nd) :
    (graph ns h).dom u = nd.value.places := by
  simp only [graph, valueOf_plain hu]

theorem graph_dom_scalar (h : Taped fns ns) (hu : ns[u]? = some nd)
    (hscalar : nd.value.height = 1 ∧ nd.value.cols = 1) : (graph ns h).dom u = {(0, 0)} := by
  rw [graph_dom h hu, Matrix.places, hscalar.1, hscalar.2]
  rfl

/-- On fresh gradients every node gets the derivative of the output. -/
theorem backward_fresh (h : Taped fns ns) {out : Nat} {o : Node F} (ho : ns[out]? = some o)
    (hscalar : o.value.height = 1 ∧ o.value.cols = 1) :
    ∃ g, backward ns (fresh (plain ns)) out = some g ∧ Shaped (plain ns) g ∧
      ∀ v, ∀ k ∈ (graph ns h).dom v, entries g v k = (graph ns h).pathSum out v (0, 0) k := by
  obtain ⟨hfresh, hzero⟩ := shaped_fresh (plain ns)
  obtain ⟨L, g, hg, hshaped, htopo, hmem, hentries⟩ := backward_spec h hfresh ho hscalar
  refine ⟨g, hg, hshaped, fun v k hk => ?_⟩
  have hstart : Function.update (fun _ _ => 0) out seed =
      Dag.addTo (fun _ _ => 0) out (seed (F := F)) := by
    simp only [Dag.addTo, zero_add]
  rw [hentries, hzero, hstart,
    (graph ns h).sweep_eq_total htopo ((hmem out).mpr (.refl _ out)) seed hk,
    total_seed (graph_dom_scalar h ho hscalar)]

/-! ## Two calls -/

/-- What the leaf `ℓ` gets of the gradient of `u` once more when `backward` of `v` follows: the
nodes below `v` still hold theirs, and hand it on again. -/
def retained (d : Dag (Nat × Nat) F) (u v ℓ : Nat) (k : Nat × Nat) : F :=
  ∑ w ∈ d.below v, ∑ i ∈ d.dom w, d.pathSum u w (0, 0) i * d.pathSum w ℓ i k

omit [LinearOrder F] in
/-- Nothing is retained of `u` below `v` if the two share no node with operands there. -/
theorem retained_of_unshared {d : Dag (Nat × Nat) F} {v : Nat}
    (hshare : ∀ w ∈ d.below v, ¬ d.Reaches u w) (ℓ : Nat) (k : Nat × Nat) :
    retained d u v ℓ k = 0 := by
  refine Finset.sum_eq_zero fun w hw => Finset.sum_eq_zero fun i _ => ?_
  rw [d.pathSum_of_not_reaches (hshare w hw), zero_mul]

/-- What two calls leave in the leaves. One that is the second output itself loses what it had. -/
theorem backward_twice (h : Taped fns ns) {v : Nat} {un vn : Node F} (hu : ns[u]? = some un)
    (hv : ns[v]? = some vn) (hus : un.value.height = 1 ∧ un.value.cols = 1)
    (hvs : vn.value.height = 1 ∧ vn.value.cols = 1) :
    ∃ gu gv g, backward ns (fresh (plain ns)) u = some gu ∧
      backward ns (fresh (plain ns)) v = some gv ∧ backward ns gu v = some g ∧
      (∀ ℓ nd, ns[ℓ]? = some nd → nd.op = .base .leaf → ℓ ≠ v → ∀ k ∈ nd.value.places,
        entries g ℓ k = entries gu ℓ k + entries gv ℓ k + retained (graph ns h) u v ℓ k) ∧
      (vn.op = .base .leaf → entries g v (0, 0) = entries gv v (0, 0) ∧
        entries gu v (0, 0) = (graph ns h).pathSum u v (0, 0) (0, 0)) := by
  obtain ⟨gu, hgu, hshaped, hgu'⟩ := backward_fresh h hu hus
  obtain ⟨gv, hgv, -, hgv'⟩ := backward_fresh h hv hvs
  obtain ⟨L, g, hg, -, htopo, hmem, hentries⟩ := backward_spec h hshaped hv hvs
  have hone : (graph ns h).dom v = {(0, 0)} := graph_dom_scalar h hv hvs
  have hslots : ∀ ℓ nd, ns[ℓ]? = some nd → nd.op = .base .leaf → (graph ns h).slots ℓ = [] := by
    intro ℓ nd hnd hleaf
    refine (parentsOf_eq hnd).trans ?_
    rw [hleaf]
    rfl
  refine ⟨gu, gv, g, hgu, hgv, hg, fun ℓ nd hnd hleaf hne k hk => ?_, fun hleaf => ?_⟩
  · rw [← graph_dom h hnd] at hk
    rw [hentries, (graph ns h).resweep_leaf htopo hmem hk (hslots ℓ nd hnd hleaf) hne,
      total_seed hone, hgv' ℓ k hk]
    refine congrArg _ (Finset.sum_congr rfl fun w _ => Finset.sum_congr rfl fun i hi => ?_)
    rw [hgu' w i hi]
  · have hk : (0, 0) ∈ (graph ns h).dom v := hone ▸ Finset.mem_singleton_self _
    refine ⟨?_, hgu' v _ hk⟩
    have hself : (graph ns h).pathSum v v (0, 0) (0, 0) = 1 := by
      rw [← total_seed hone, (graph ns h).total_leaf hk (hslots v vn hv hleaf), if_pos rfl, seed,
        if_pos rfl]
    rw [hentries, (graph ns h).resweep_self htopo hmem hk (hslots v vn hv hleaf), hgv' v _ hk,
      hself, seed, if_pos rfl]

/-- **When gradients add up**: two calls leave the sum of the two gradients in every leaf if and
only if what is retained between them cancels in each, and the second output, if it is a leaf,
had no gradient to lose. -/
theorem backward_twice_iff (h : Taped fns ns) {u v : Nat} {un vn : Node F}
    (hu : ns[u]? = some un) (hv : ns[v]? = some vn)
    (hus : un.value.height = 1 ∧ un.value.cols = 1)
    (hvs : vn.value.height = 1 ∧ vn.value.cols = 1) :
    ∃ gu gv g, backward ns (fresh (plain ns)) u = some gu ∧
      backward ns (fresh (plain ns)) v = some gv ∧ backward ns gu v = some g ∧
      ((∀ ℓ nd, ns[ℓ]? = some nd → nd.op = .base .leaf → ∀ k ∈ nd.value.places,
          (g ℓ).entry k.1 k.2 = (gu ℓ).entry k.1 k.2 + (gv ℓ).entry k.1 k.2) ↔
        (∀ ℓ nd, ns[ℓ]? = some nd → nd.op = .base .leaf → ℓ ≠ v → ∀ k ∈ nd.value.places,
          retained (graph ns h) u v ℓ k = 0) ∧
        (vn.op = .base .leaf → (graph ns h).pathSum u v (0, 0) (0, 0) = 0)) := by
  obtain ⟨gu, gv, g, hgu, hgv, hg, hleaves, hself⟩ := backward_twice h hu hv hus hvs
  refine ⟨gu, gv, g, hgu, hgv, hg, fun hsum => ⟨?_, fun hleaf => ?_⟩, fun ⟨hcancel, hlost⟩ => ?_⟩
  · intro ℓ nd hnd hleaf hne k hk
    have hboth := (hleaves ℓ nd hnd hleaf hne k hk).symm.trans (hsum ℓ nd hnd hleaf k hk)
    exact add_eq_left.mp hboth
  · obtain ⟨hover, hfirst⟩ := hself hleaf
    have hk : (0, 0) ∈ vn.value.places := Matrix.mem_places.mpr (by simp [hvs])
    have hboth := hover.symm.trans (hsum v vn hv hleaf (0, 0) hk)
    exact hfirst ▸ right_eq_add.mp hboth
  · intro ℓ nd hnd hleaf k hk
    by_cases hne : ℓ = v
    · subst hne
      obtain rfl := Option.some.inj (hnd.symm.trans hv)
      obtain ⟨hover, hfirst⟩ := hself hleaf
      have hk0 : k = (0, 0) := by
        rw [Matrix.mem_places, hvs.1, hvs.2] at hk
        exact Prod.ext (by omega) (by omega)
      subst hk0
      exact hover.trans (right_eq_add.mpr (hfirst.trans (hlost hleaf)))
    · exact (hleaves ℓ nd hnd hleaf hne k hk).trans
        (add_eq_left.mpr (hcancel ℓ nd hnd hleaf hne k hk))

/-- `x`, `add(x, x)` and `matmul` of that and `x`, at `x = 3`. -/
def squareTape : List (Node ℚ) :=
  [⟨⟨1, [#v[3]]⟩, .base .leaf⟩, ⟨⟨1, [#v[6]]⟩, .base (.add 0 0)⟩,
    ⟨⟨1, [#v[18]]⟩, .base (.matmul 1 0)⟩]

theorem squareTape_taped (fns : Cmath ℚ) : Taped fns squareTape := by
  have hsum : Taped fns (squareTape.take 2) :=
    .base (.leaf _ .nil) (show (Training.Op.add 0 0).eval _ = _ by with_unfolding_all rfl)
  exact .base hsum (show (Training.Op.matmul 1 0).eval _ = _ by with_unfolding_all rfl)

theorem backward_twice_iff_square :
    ∃ gu gv g, backward squareTape (fresh (plain squareTape)) 2 = some gu ∧
      backward squareTape (fresh (plain squareTape)) 1 = some gv ∧
      backward squareTape gu 1 = some g ∧
      ((∀ ℓ nd, squareTape[ℓ]? = some nd → nd.op = .base .leaf → ∀ k ∈ nd.value.places,
          (g ℓ).entry k.1 k.2 = (gu ℓ).entry k.1 k.2 + (gv ℓ).entry k.1 k.2) ↔
        (∀ ℓ nd, squareTape[ℓ]? = some nd → nd.op = .base .leaf → ℓ ≠ 1 →
          ∀ k ∈ nd.value.places,
            retained (graph squareTape (squareTape_taped ⟨id, id⟩)) 2 1 ℓ k = 0) ∧
        (Op.base (.add 0 0) = (.base .leaf : Op ℚ) →
          (graph squareTape (squareTape_taped ⟨id, id⟩)).pathSum 2 1 (0, 0) (0, 0) = 0)) :=
  have hsum : squareTape[1]? = some ⟨⟨1, [#v[6]]⟩, .base (.add 0 0)⟩ := rfl
  have hsquare : squareTape[2]? = some ⟨⟨1, [#v[18]]⟩, .base (.matmul 1 0)⟩ := rfl
  backward_twice_iff (squareTape_taped ⟨id, id⟩) hsquare hsum ⟨rfl, rfl⟩ ⟨rfl, rfl⟩

/-- The derivative of `2 * x * x` at 3 is 12. A second call leaves 30 in `x`, and not 24: the sum
`add(x, x)` still holds 3, which reaches `x` twice. -/
theorem square_twice :
    (∀ fns, Taped fns squareTape) ∧
      ∃ gu g, backward squareTape (fresh (plain squareTape)) 2 = some gu ∧
        backward squareTape gu 2 = some g ∧ (gu 0).entry 0 0 = 12 ∧
        (g 0).entry 0 0 ≠ (gu 0).entry 0 0 + (gu 0).entry 0 0 := by
  refine ⟨squareTape_taped, ?_⟩
  have hrun : ((backward squareTape (fresh (plain squareTape)) 2).bind fun gu =>
      (backward squareTape gu 2).map fun g => ((gu 0).entry 0 0, (g 0).entry 0 0)) =
      some (12, 30) := by decide +kernel
  obtain ⟨gu, hgu, hrun⟩ := Option.bind_eq_some_iff.mp hrun
  obtain ⟨g, hg, hrun⟩ := Option.map_eq_some_iff.mp hrun
  obtain ⟨hfirst, hsecond⟩ := Prod.mk.inj hrun
  refine ⟨gu, g, hgu, hg, hfirst, ?_⟩
  rw [hfirst, hsecond]
  decide +kernel

end CrossMachine.Training.Tape
