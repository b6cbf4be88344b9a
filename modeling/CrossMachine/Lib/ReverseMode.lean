import Mathlib.Algebra.BigOperators.Group.Finset.Sigma
import Mathlib.Algebra.BigOperators.Ring.Finset
import Mathlib.Data.List.Nodup
import Mathlib.Tactic.Ring

/-!
# Reverse accumulation

A computation is a directed acyclic graph: a node is computed from the operands
in its slots, each of which was there before it, and every component of a node
has a local derivative by every component of each operand. The derivative of one
node by another is the sum, over all paths that lead from the one down to the
other, of the products of the local derivatives on the way (`pathSum`).

A sweep visits nodes one after the other, and lets each add to its operands what
it holds itself, pulled back along the slot. Visited in an order in which every
node comes before its operands, the nodes end up with the derivatives of the
node that the sweep began at (`sweep_eq_total`). Nothing here knows what the
nodes compute.
-/

namespace CrossMachine.Lib

variable {ι F : Type*}

/-- The operands of each node, its components, and the derivative of component `i` of node
`u` by component `k` of the operand in slot `s`. -/
structure Dag (ι F : Type*) where
  slots : Nat → List Nat
  dom : Nat → Finset ι
  deriv : Nat → Nat → ι → ι → F
  lt : ∀ u, ∀ p ∈ slots u, p < u

/-- A path downwards: the node, the slot and the operand of each of its steps. -/
abbrev Path := List (Nat × Nat × Nat)

namespace Dag

/-- The paths from `u` down to `v`. -/
inductive IsPath (d : Dag ι F) : Nat → Nat → Path → Prop where
  | nil {u : Nat} : IsPath d u u []
  | cons {u v s p : Nat} {q : Path} :
      (d.slots u)[s]? = some p → IsPath d p v q → IsPath d u v ((u, s, p) :: q)

def pathsAux (d : Dag ι F) (v : Nat) : Nat → Nat → List Path
  | 0, _ => []
  | fuel + 1, u =>
      (if u = v then [[]] else []) ++
        (d.slots u).zipIdx.flatMap fun e => (d.pathsAux v fuel e.1).map ((u, e.2, e.1) :: ·)

/-- All paths from `u` down to `v`. -/
def paths (d : Dag ι F) (u v : Nat) : List Path := d.pathsAux v (u + 1) u

variable {v u : Nat}

section Paths

variable (d : Dag ι F)

theorem pathsAux_eq {f f' : Nat} (hf : u < f) (hf' : u < f') :
    d.pathsAux v f u = d.pathsAux v f' u := by
  induction f generalizing f' u with
  | zero => omega
  | succ f ih =>
      obtain ⟨f', rfl⟩ : ∃ k, f' = k + 1 := ⟨f' - 1, by omega⟩
      rw [pathsAux, pathsAux]
      refine congrArg _ (List.flatMap_congr fun e he => ?_)
      have hlt : e.1 < u := d.lt u e.1 (List.fst_mem_of_mem_zipIdx he)
      have hrest : d.pathsAux v f e.1 = d.pathsAux v f' e.1 := ih (by omega) (by omega)
      rw [hrest]

/-- A path is empty, or goes down through one of the slots. -/
theorem paths_eq (u v : Nat) :
    d.paths u v = (if u = v then [[]] else []) ++
      (d.slots u).zipIdx.flatMap fun e => (d.paths e.1 v).map ((u, e.2, e.1) :: ·) := by
  rw [paths, pathsAux]
  refine congrArg _ (List.flatMap_congr fun e he => ?_)
  have hlt : e.1 < u := d.lt u e.1 (List.fst_mem_of_mem_zipIdx he)
  rw [paths, d.pathsAux_eq hlt (Nat.lt_succ_self _)]

/-- The list holds every path, -/
theorem mem_paths {q : Path} : q ∈ d.paths u v ↔ d.IsPath u v q := by
  constructor
  · intro hq
    induction u using Nat.strong_induction_on generalizing q with
    | _ u ih =>
        rw [paths_eq, List.mem_append, List.mem_flatMap] at hq
        rcases hq with hnil | ⟨e, he, hq⟩
        · split at hnil
          · rename_i huv
            rw [List.mem_singleton.mp hnil, huv]
            exact .nil
          · exact absurd hnil List.not_mem_nil
        · obtain ⟨r, hr, rfl⟩ := List.mem_map.mp hq
          have hlt : e.1 < u := d.lt u e.1 (List.fst_mem_of_mem_zipIdx he)
          exact .cons (List.mem_zipIdx_iff_getElem?.mp he) (ih e.1 hlt hr)
  · intro hq
    induction hq with
    | nil => rw [paths_eq, if_pos rfl]; exact List.mem_append_left _ (List.mem_singleton_self _)
    | cons hs _ ih =>
        rename_i u v s p q _
        rw [paths_eq]
        refine List.mem_append_right _ (List.mem_flatMap.mpr ⟨(p, s), ?_, ?_⟩)
        · exact List.mem_zipIdx_iff_getElem?.mpr hs
        · exact List.mem_map.mpr ⟨q, ih, rfl⟩

end Paths

/-! ## The derivative along paths -/

section Derivatives

variable [CommSemiring F] [DecidableEq ι] (d : Dag ι F)

/-- The product of the local derivatives along a path, a product of matrices: component `i`
of the upper end by component `k` of the lower one. -/
def pathDeriv : Path → ι → ι → F
  | [], i, k => if i = k then 1 else 0
  | (u, s, p) :: q, i, k => ∑ j ∈ d.dom p, d.deriv u s i j * pathDeriv q j k

/-- The sum over all paths of the products of the local derivatives. -/
def pathSum (u v : Nat) (i k : ι) : F := ((d.paths u v).map fun q => d.pathDeriv q i k).sum

/-- What `u` holds, pulled back along the slot `s`. -/
def pull (u s : Nat) (E : ι → F) (k : ι) : F := ∑ i ∈ d.dom u, E i * d.deriv u s i k

/-- What the component `k` of `v` gets out of `E` at `u`. -/
def total (v : Nat) (k : ι) (u : Nat) (E : ι → F) : F := ∑ i ∈ d.dom u, E i * d.pathSum u v i k

omit [DecidableEq ι] in
theorem sum_map_sum {α : Type*} (l : List α) (s : Finset ι) (f : α → ι → F) :
    (l.map fun a => ∑ i ∈ s, f a i).sum = ∑ i ∈ s, (l.map fun a => f a i).sum := by
  induction l with
  | nil => simp
  | cons a l ih => simp only [List.map_cons, List.sum_cons, ih, Finset.sum_add_distrib]

/-- A derivative is taken through one of the slots, unless there is nothing left to take. -/
theorem pathSum_eq (u v : Nat) (i k : ι) :
    d.pathSum u v i k = (if u = v then if i = k then 1 else 0 else 0) +
      ((d.slots u).zipIdx.map fun e =>
        ∑ j ∈ d.dom e.1, d.deriv u e.2 i j * d.pathSum e.1 v j k).sum := by
  have hstep : ∀ e : Nat × Nat,
      (((d.paths e.1 v).map ((u, e.2, e.1) :: ·)).map fun q => d.pathDeriv q i k).sum =
        ∑ j ∈ d.dom e.1, d.deriv u e.2 i j * d.pathSum e.1 v j k := by
    intro e
    simp only [List.map_map, Function.comp_def, pathDeriv, pathSum, sum_map_sum,
      List.sum_map_mul_left]
  rw [pathSum, paths_eq, List.map_append, List.sum_append]
  congr 1
  · split <;> simp [pathDeriv]
  · rw [List.map_flatMap, List.flatMap_def, List.sum_flatten, List.map_map]
    simp only [Function.comp_def, hstep]

theorem total_add (v : Nat) (k : ι) (u : Nat) (E E' : ι → F) :
    d.total v k u (fun i => E i + E' i) = d.total v k u E + d.total v k u E' := by
  simp only [total, add_mul, Finset.sum_add_distrib]

theorem total_zero (v : Nat) (k : ι) (u : Nat) : d.total v k u (fun _ => 0) = 0 := by
  simp [total]

variable {k : ι} {L : List Nat}

/-- What a component gets out of a node is what the node holds for it, and what it gets out
of the node's operands after the pull. -/
theorem total_eq (hk : k ∈ d.dom v) (u : Nat) (E : ι → F) :
    d.total v k u E = (if u = v then E k else 0) +
      ((d.slots u).zipIdx.map fun e => d.total v k e.1 (d.pull u e.2 E)).sum := by
  have hhere : ∑ i ∈ d.dom u, E i * (if u = v then if i = k then 1 else 0 else 0) =
      if u = v then E k else 0 := by
    split
    · rename_i huv
      subst huv
      simp [hk]
    · simp
  have hslot : ∀ e : Nat × Nat,
      ∑ i ∈ d.dom u, E i * ∑ j ∈ d.dom e.1, d.deriv u e.2 i j * d.pathSum e.1 v j k =
        d.total v k e.1 (d.pull u e.2 E) := by
    intro e
    simp only [total, pull, Finset.mul_sum, Finset.sum_mul]
    rw [Finset.sum_comm]
    simp only [mul_assoc]
  rw [total]
  simp only [pathSum_eq d u v _ k, mul_add, Finset.sum_add_distrib, hhere]
  congr 1
  rw [← List.map_congr_left fun e _ => hslot e, sum_map_sum]
  simp only [List.sum_map_mul_left]

/-! ## Sweeping -/

omit [DecidableEq ι] in
/-- Add `M` to what `p` holds. -/
def addTo (g : Nat → ι → F) (p : Nat) (M : ι → F) : Nat → ι → F :=
  Function.update g p fun k => g p k + M k

/-- Node `u` adds to its operands what it holds, slot by slot. -/
def accumulate (g : Nat → ι → F) (u : Nat) : Nat → ι → F :=
  (d.slots u).zipIdx.foldl (fun h e => addTo h e.1 (d.pull u e.2 (g u))) g

/-- An order in which every node comes once, before its operands, and they come too. -/
inductive Topological : List Nat → Prop where
  | nil : Topological []
  | cons {u : Nat} {L : List Nat} :
      u ∉ L → (∀ p ∈ d.slots u, p ∈ L) → Topological L → Topological (u :: L)

/-- What component `k` of `v` has got, and will get from the nodes of `L`. -/
def potential (v : Nat) (k : ι) (L : List Nat) (g : Nat → ι → F) : F :=
  (L.map fun w => d.total v k w (g w)).sum + if v ∈ L then 0 else g v k

omit [CommSemiring F] [DecidableEq ι] in
theorem Topological.nodup {d : Dag ι F} (h : d.Topological L) : L.Nodup := by
  induction h with
  | nil => exact List.nodup_nil
  | cons hu _ _ ih => exact List.nodup_cons.mpr ⟨hu, ih⟩

/-- To add to a node still to come is to add what the component gets out of it. -/
theorem potential_addTo (hL : L.Nodup) {p : Nat} (hp : p ∈ L) (g : Nat → ι → F) (M : ι → F) :
    d.potential v k L (addTo g p M) = d.potential v k L g + d.total v k p M := by
  have hsum : (L.map fun w => d.total v k w (addTo g p M w)).sum =
      (L.map fun w => d.total v k w (g w)).sum + d.total v k p M := by
    induction L with
    | nil => exact absurd hp List.not_mem_nil
    | cons w L ih =>
        rw [List.nodup_cons] at hL
        simp only [List.map_cons, List.sum_cons]
        by_cases hw : w = p
        · subst hw
          have hrest : (L.map fun x => d.total v k x (addTo g w M x)) =
              L.map fun x => d.total v k x (g x) := by
            refine List.map_congr_left fun x hx => ?_
            have hne : x ≠ w := fun h => hL.1 (h ▸ hx)
            rw [addTo, Function.update_of_ne hne]
          rw [hrest, addTo, Function.update_self, total_add]
          ring
        · have hpL : p ∈ L := (List.mem_cons.mp hp).resolve_left (Ne.symm hw)
          rw [ih hL.2 hpL, addTo, Function.update_of_ne hw]
          ring
  rw [potential, potential, hsum]
  split
  · ring
  · rename_i hv
    have hne : v ≠ p := fun h => hv (h ▸ hp)
    rw [addTo, Function.update_of_ne hne]
    ring

/-- The step lemma: a node that is visited hands on what is expected of it. -/
theorem potential_accumulate (hk : k ∈ d.dom v) (hu : u ∉ L) (hslots : ∀ p ∈ d.slots u, p ∈ L)
    (hL : L.Nodup) (g : Nat → ι → F) :
    d.potential v k L (d.accumulate g u) = d.potential v k (u :: L) g := by
  have hfold : ∀ (es : List (Nat × Nat)) (h : Nat → ι → F), (∀ e ∈ es, e.1 ∈ L) →
      d.potential v k L (es.foldl (fun h e => addTo h e.1 (d.pull u e.2 (g u))) h) =
        d.potential v k L h + (es.map fun e => d.total v k e.1 (d.pull u e.2 (g u))).sum := by
    intro es
    induction es with
    | nil => intro h _; simp
    | cons e es ih =>
        intro h hes
        rw [List.foldl_cons, ih _ fun e' he' => hes e' (List.mem_cons_of_mem _ he'),
          d.potential_addTo hL (hes e List.mem_cons_self), List.map_cons, List.sum_cons, add_assoc]
  rw [accumulate, hfold _ g fun e he => hslots e.1 (List.fst_mem_of_mem_zipIdx he),
    potential, potential, List.map_cons, List.sum_cons, d.total_eq hk u]
  by_cases huv : u = v
  · subst huv
    rw [if_pos rfl, if_pos List.mem_cons_self, if_neg hu]
    ring
  · have hmem : v ∈ u :: L ↔ v ∈ L := by simp [List.mem_cons, Ne.symm huv]
    rw [if_neg huv, if_congr hmem rfl rfl]
    ring

/-- The run lemma: a component ends up with what it has, and what is expected of the nodes that
are visited. -/
theorem foldl_accumulate (hL : d.Topological L) (hk : k ∈ d.dom v) (g : Nat → ι → F) :
    L.foldl d.accumulate g v k = d.potential v k L g := by
  induction hL generalizing g with
  | nil => simp [potential]
  | cons hu hslots hrest ih =>
      rw [List.foldl_cons, ih, d.potential_accumulate hk hu hslots hrest.nodup]

/-- **A sweep computes the derivative**: begun with a seed at `out` and nothing elsewhere, it
ends with every node holding the seed pulled back along all paths. -/
theorem sweep_eq_total (hL : d.Topological L) {out : Nat} (hout : out ∈ L) (seed : ι → F)
    (hk : k ∈ d.dom v) :
    L.foldl d.accumulate (addTo (fun _ _ => 0) out seed) v k = d.total v k out seed := by
  have hzero : d.potential v k L (fun _ _ => 0) = 0 := by
    simp [potential, total_zero]
  rw [d.foldl_accumulate hL hk, d.potential_addTo hL.nodup hout, hzero, zero_add]

end Derivatives

end Dag

end CrossMachine.Lib
