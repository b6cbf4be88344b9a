import CrossMachine.Knn.Neighbors
import CrossMachine.Lib.Instances
import CrossMachine.Lib.StrictOrder
import Mathlib.Algebra.Order.BigOperators.Ring.Finset
import Mathlib.Algebra.Order.Field.Basic
import Mathlib.Analysis.Real.Sqrt
import Mathlib.Tactic.Linarith

/-!
# The ball tree

`BallTree` of `knn.cpp`. A node has a ball that all of its points are in, and its points are
split by which of two pivots they are closer to. If that leaves one side empty, they are split
in the middle, so that both sides are smaller, whatever the points are: that is why `build`
ends (`build_spec`).

The search passes over a ball that is further away than the worst of the `k` candidates that
it has. By the triangle inequality (`root_triangle`) so is everything in it. How the pivots are
found, and where the centre is, does not matter for that.

Coordinates are elements of an ordered field with square roots, such as the real numbers.
-/

namespace CrossMachine.Knn

open Lib

/-- Square roots of what is not negative. -/
structure Root (K : Type*) [Field K] [LinearOrder K] where
  run : K → K
  nonneg : ∀ x, 0 ≤ run x
  sq : ∀ x, 0 ≤ x → run x * run x = x

variable {K : Type*} {n m : Nat}

/-- `BallTree::Node`; a node has either both children or none. -/
inductive BallNode (K : Type*) (n m : Nat) where
  | leaf (center : Point K n) (radius : K) (pointIndices : List (Fin m))
  | node (center : Point K n) (radius : K) (left right : BallNode K n m)

namespace BallNode

def center : BallNode K n m → Point K n
  | .leaf center _ _ => center
  | .node center _ _ _ => center

def radius : BallNode K n m → K
  | .leaf _ radius _ => radius
  | .node _ radius _ _ => radius

/-- The points at each leaf. -/
def leaves : BallNode K n m → List (List (Fin m))
  | .leaf _ _ pointIndices => [pointIndices]
  | .node _ _ left right => left.leaves ++ right.leaves

/-- The points of a subtree. -/
def indices (t : BallNode K n m) : List (Fin m) := t.leaves.flatten

theorem indices_node (center : Point K n) (radius : K) (left right : BallNode K n m) :
    (BallNode.node center radius left right).indices = left.indices ++ right.indices :=
  List.flatten_append

variable [Field K] [LinearOrder K]

/-! ## Building -/

section Build

/-- The mean of the points. -/
def centroid (points : Features K n m) (indices : List (Fin m)) : Point K n :=
  Vector.ofFn fun d => indices.foldl (fun sum i => sum + (points.get i).get d) 0 / indices.length

/-- The loop that finds the radius. -/
def radiusOf (root : Root K) (points : Features K n m) (center : Point K n)
    (indices : List (Fin m)) : K :=
  indices.foldl (fun radius i => max radius (root.run (squaredDistance center (points.get i)))) 0

/-- The loop that finds the first of the points that are farthest from `a`. -/
def farthest (points : Features K n m) (a : Point K n) (indices : List (Fin m)) (first : Fin m) :
    Fin m :=
  (indices.foldl (fun (best, p) i =>
    let d := squaredDistance a (points.get i)
    if d > best then (d, i) else (best, p)) ((-1 : K), first)).2

/-- `build`, of the points at `indices`. The recursion goes no deeper than `fuel`; it is
`none` if that does not suffice. -/
def build (root : Root K) (part : Partitioner (Fin m)) (points : Features K n m)
    (leafSize : Int) : Nat → List (Fin m) → Option (BallNode K n m)
  | 0, _ => none
  | fuel + 1, indices =>
      let center := centroid points indices
      let radius := radiusOf root points center indices
      if indices.length ≤ leafSize then some (.leaf center radius indices)
      else match indices with
        | [] => none
        | first :: _ =>
            let p1 := farthest points center indices first
            let p2 := farthest points (points.get p1) indices first
            let (yes, no) := part.run (fun idx =>
              let d1 := squaredDistance (points.get p1) (points.get idx)
              let d2 := squaredDistance (points.get p2) (points.get idx)
              d1 ≤ d2) indices
            let mid := if yes.length = 0 ∨ no.length = 0 then indices.length / 2 else yes.length
            let indices := yes ++ no
            do
              let left ← build root part points leafSize fuel (indices.take mid)
              let right ← build root part points leafSize fuel (indices.drop mid)
              some (.node center radius left right)

/-- The points of every node are in its ball. -/
def Contains (root : Root K) (points : Features K n m) : BallNode K n m → Prop
  | .leaf center radius pointIndices =>
      ∀ i ∈ pointIndices, root.run (squaredDistance center (points.get i)) ≤ radius
  | .node center radius left right =>
      (∀ i ∈ (BallNode.node center radius left right).indices,
        root.run (squaredDistance center (points.get i)) ≤ radius) ∧
        left.Contains root points ∧ right.Contains root points

theorem le_radiusOf (root : Root K) (points : Features K n m) (center : Point K n)
    (indices : List (Fin m)) : ∀ i ∈ indices,
      root.run (squaredDistance center (points.get i)) ≤ radiusOf root points center indices := by
  have hfold : ∀ (is : List (Fin m)) (r : K),
      r ≤ is.foldl
        (fun radius i => max radius (root.run (squaredDistance center (points.get i)))) r ∧
      ∀ i ∈ is, root.run (squaredDistance center (points.get i)) ≤ is.foldl
        (fun radius i => max radius (root.run (squaredDistance center (points.get i)))) r := by
    intro is
    induction is with
    | nil => exact fun r => ⟨le_refl r, fun i hi => absurd hi List.not_mem_nil⟩
    | cons j is ih =>
        intro r
        obtain ⟨hle, hall⟩ := ih (max r (root.run (squaredDistance center (points.get j))))
        refine ⟨(le_max_left _ _).trans hle, fun i hi => ?_⟩
        rcases List.mem_cons.mp hi with rfl | hi
        · exact (le_max_right _ _).trans hle
        · exact hall i hi
  exact (hfold indices 0).2

/-- **Building ends**, with leaves that hold each point once and balls that hold their points. -/
theorem build_spec (root : Root K) (part : Partitioner (Fin m)) (points : Features K n m)
    {leafSize : Int} (hleaf : 1 ≤ leafSize) (is : List (Fin m)) (hne : is ≠ []) :
    ∃ t, (∀ fuel, is.length ≤ fuel → build root part points leafSize fuel is = some t) ∧
      t.indices.Perm is ∧ (∀ leaf ∈ t.leaves, leaf ≠ [] ∧ leaf.length ≤ leafSize) ∧
      t.Contains root points := by
  induction hlen : is.length using Nat.strong_induction_on generalizing is with
  | _ count ih =>
      have hpos : 0 < is.length := List.length_pos_iff.mpr hne
      have hball := le_radiusOf root points (centroid points is) is
      by_cases hsmall : (is.length : Int) ≤ leafSize
      · refine ⟨.leaf (centroid points is) (radiusOf root points (centroid points is) is) is,
          fun fuel hfuel => ?_, .of_eq (List.append_nil is), fun leaf hmem => ?_, hball⟩
        · obtain ⟨fuel, rfl⟩ : ∃ f, fuel = f + 1 := ⟨fuel - 1, by omega⟩
          rw [build.eq_def]
          simp only [if_pos hsmall]
        · rw [List.mem_singleton.mp hmem]
          exact ⟨hne, hsmall⟩
      · obtain ⟨first, rest, rfl⟩ := List.exists_cons_of_ne_nil hne
        -- the two sides of the split
        have hsides : ∀ yes no : List (Fin m), (yes ++ no).Perm (first :: rest) →
            ∃ mid, (if yes.length = 0 ∨ no.length = 0 then (first :: rest).length / 2
              else yes.length) = mid ∧ 0 < mid ∧ mid < (first :: rest).length := by
          intro yes no hperm
          have htotal := hperm.length_eq
          rw [List.length_append] at htotal
          refine ⟨_, rfl, ?_⟩
          split <;> omega
        generalize hp1 : farthest points (centroid points (first :: rest)) (first :: rest) first =
          p1
        generalize hp2 : farthest points (points.get p1) (first :: rest) first = p2
        obtain ⟨yes, no, hrun⟩ : ∃ yes no, part.run (fun idx =>
            squaredDistance (points.get p1) (points.get idx) ≤
              squaredDistance (points.get p2) (points.get idx)) (first :: rest) = (yes, no) :=
          ⟨_, _, rfl⟩
        have hperm : (yes ++ no).Perm (first :: rest) := by
          have h := part.perm (fun idx =>
            squaredDistance (points.get p1) (points.get idx) ≤
              squaredDistance (points.get p2) (points.get idx)) (first :: rest)
          rw [hrun] at h
          exact h
        obtain ⟨mid, hmid, hmid₀, hmid₁⟩ := hsides yes no hperm
        have hwhole := hperm.length_eq
        have hltake : ((yes ++ no).take mid).length = mid := by
          rw [List.length_take]
          omega
        have hldrop : ((yes ++ no).drop mid).length = (first :: rest).length - mid := by
          rw [List.length_drop]
          omega
        obtain ⟨left, hleft, hlperm, hlleaf, hlball⟩ := ih mid (by omega) ((yes ++ no).take mid)
          (List.length_pos_iff.mp (by omega)) hltake
        obtain ⟨right, hright, hrperm, hrleaf, hrball⟩ :=
          ih ((first :: rest).length - mid) (by omega) ((yes ++ no).drop mid)
            (List.length_pos_iff.mp (by omega)) hldrop
        have hnode : (BallNode.node (centroid points (first :: rest))
            (radiusOf root points (centroid points (first :: rest)) (first :: rest)) left
            right).indices.Perm (first :: rest) := by
          rw [indices_node]
          refine (hlperm.append hrperm).trans ?_
          rw [List.take_append_drop]
          exact hperm
        refine ⟨_, fun fuel hfuel => ?_, hnode, fun leaf hmem => ?_,
          fun i hi => hball i (hnode.mem_iff.mp hi), hlball, hrball⟩
        · obtain ⟨fuel, rfl⟩ : ∃ f, fuel = f + 1 := ⟨fuel - 1, by omega⟩
          rw [build, if_neg hsmall]
          simp only [hp1, hp2, hrun, hmid, hleft fuel (by omega), hright fuel (by omega),
            Option.bind_eq_bind, Option.bind_some]
        · rcases List.mem_append.mp hmem with hmem | hmem
          · exact hlleaf leaf hmem
          · exact hrleaf leaf hmem

end Build

/-! ## Searching -/

section Search

/-- The loop over the points of a leaf. -/
def offerAll (ops : DistHeap K m) (points : Features K n m) (query : Point K n) (k : Nat)
    (pointIndices : List (Fin m)) (heap : List (NeighborResult K m)) :
    List (NeighborResult K m) :=
  pointIndices.foldl (fun heap idx => offer ops k heap (candidate points query idx)) heap

/-- The test at the start of `search_exact`. -/
def prunes (root : Root K) (query center : Point K n) (radius : K) (k : Nat)
    (heap : List (NeighborResult K m)) : Bool :=
  let distToCenter := root.run (squaredDistance center query)
  let lowerBound := distToCenter - radius
  let lowerBoundSq := if lowerBound > 0 then lowerBound * lowerBound else 0
  heap.length ≥ k && aboveFront lowerBoundSq heap

def searchExact (root : Root K) (ops : DistHeap K m) (points : Features K n m)
    (query : Point K n) (k : Nat) :
    BallNode K n m → List (NeighborResult K m) → List (NeighborResult K m)
  | .leaf center radius pointIndices, heap =>
      if prunes root query center radius k heap then heap
      else offerAll ops points query k pointIndices heap
  | .node center radius left right, heap =>
      if prunes root query center radius k heap then heap
      else
        let distLeft := squaredDistance left.center query
        let distRight := squaredDistance right.center query
        if distLeft ≤ distRight then
          searchExact root ops points query k right
            (searchExact root ops points query k left heap)
        else
          searchExact root ops points query k left
            (searchExact root ops points query k right heap)

def searchDefeatist (ops : DistHeap K m) (points : Features K n m) (query : Point K n) (k : Nat) :
    BallNode K n m → List (NeighborResult K m) → List (NeighborResult K m)
  | .leaf _ _ pointIndices, heap => offerAll ops points query k pointIndices heap
  | .node _ _ left right, heap =>
      let distLeft := squaredDistance left.center query
      let distRight := squaredDistance right.center query
      if distLeft ≤ distRight then searchDefeatist ops points query k left heap
      else searchDefeatist ops points query k right heap

/-- `query_knn` of the tree with this root. -/
def queryKnn (root : Root K) (ops : DistHeap K m) (sort : DistSort K m) (points : Features K n m)
    (t : BallNode K n m) (query : Point K n) (k : Nat) (approximate : Bool) :
    List (NeighborResult K m) :=
  heapToSorted sort
    (if approximate then searchDefeatist ops points query k t []
      else searchExact root ops points query k t [])

variable {ops : DistHeap K m} {points : Features K n m} {query : Point K n} {k : Nat}
variable {seen heap : List (NeighborResult K m)}

theorem kept_offerAll (hk : 1 ≤ k) (is : List (Fin m)) (h : Kept k seen heap) :
    Kept k (is.map (candidate points query) ++ seen) (offerAll ops points query k is heap) := by
  induction is generalizing seen heap with
  | nil => exact h
  | cons i is ih =>
      have hoffer : Kept k (candidate points query i :: seen)
          (offer ops k heap (candidate points query i)) := h.offer hk
      exact (ih hoffer).perm List.perm_middle.symm

variable [IsStrictOrderedRing K]

open scoped CrossMachine.Lib.StrictOrder

theorem squaredDistance_nonneg (a b : Point K n) : 0 ≤ squaredDistance a b := by
  rw [squaredDistance_eq]
  exact Finset.sum_nonneg fun i _ => sq_nonneg _

/-- The triangle inequality, from that of Cauchy and Schwarz. -/
theorem root_triangle (root : Root K) (a p q : Point K n) :
    root.run (squaredDistance a q) ≤
      root.run (squaredDistance a p) + root.run (squaredDistance p q) := by
  have hcs := Finset.sum_mul_sq_le_sq_mul_sq Finset.univ (fun i : Fin n => a.get i - p.get i)
    (fun i : Fin n => p.get i - q.get i)
  rw [← squaredDistance_eq, ← squaredDistance_eq] at hcs
  have hsplit : squaredDistance a q = squaredDistance a p + squaredDistance p q +
      2 * ∑ i : Fin n, (a.get i - p.get i) * (p.get i - q.get i) := by
    rw [squaredDistance_eq, squaredDistance_eq, squaredDistance_eq, Finset.mul_sum,
      ← Finset.sum_add_distrib, ← Finset.sum_add_distrib]
    exact Finset.sum_congr rfl fun i _ => by ring
  generalize ∑ i : Fin n, (a.get i - p.get i) * (p.get i - q.get i) = s at hcs hsplit
  have hap := root.sq _ (squaredDistance_nonneg a p)
  have hpq := root.sq _ (squaredDistance_nonneg p q)
  have haq := root.sq _ (squaredDistance_nonneg a q)
  have hap₀ := root.nonneg (squaredDistance a p)
  have hpq₀ := root.nonneg (squaredDistance p q)
  have hs : s ≤ root.run (squaredDistance a p) * root.run (squaredDistance p q) := by
    refine nonneg_le_nonneg_of_sq_le_sq (mul_nonneg hap₀ hpq₀) ?_
    calc s * s = s ^ 2 := (sq s).symm
      _ ≤ squaredDistance a p * squaredDistance p q := hcs
      _ = _ := by rw [mul_mul_mul_comm, hap, hpq]
  refine nonneg_le_nonneg_of_sq_le_sq (add_nonneg hap₀ hpq₀) ?_
  rw [haq, hsplit, add_mul_self_eq, hap, hpq]
  linarith only [hs]

/-- A point of a ball that is pruned is further away than the worst candidate. -/
theorem below_of_prunes (root : Root K) {center : Point K n} {radius : K}
    (hprunes : prunes root query center radius k heap = true) {i : Fin m}
    (hi : root.run (squaredDistance center (points.get i)) ≤ radius) :
    k ≤ heap.length ∧ belowFront (candidate points query i).distSq heap = false := by
  unfold prunes at hprunes
  simp only [Bool.and_eq_true, decide_eq_true_eq] at hprunes
  obtain ⟨hfull, habove⟩ := hprunes
  refine ⟨hfull, ?_⟩
  cases heap with
  | nil => rfl
  | cons top rest =>
      simp only [aboveFront, belowFront, decide_eq_true_eq, decide_eq_false_iff_not,
        not_lt] at habove ⊢
      have hroot := root.nonneg (squaredDistance (points.get i) query)
      have hsq := root.sq _ (squaredDistance_nonneg (points.get i) query)
      have htriangle := root_triangle root center (points.get i) query
      have hdist : (candidate points query i).distSq = squaredDistance (points.get i) query := rfl
      refine le_of_lt (lt_of_lt_of_le habove ?_)
      rw [hdist, ← hsq]
      split
      · rename_i hpos
        exact mul_self_le_mul_self (le_of_lt hpos) (by linarith)
      · exact mul_self_nonneg _

/-- A subtree is searched, or passed over, with the same outcome. -/
theorem kept_pruned (root : Root K) {t : BallNode K n m} {found : List (NeighborResult K m)}
    (h : Kept k seen heap)
    (hball : ∀ i ∈ t.indices, root.run (squaredDistance t.center (points.get i)) ≤ t.radius)
    (hfound : Kept k (t.indices.map (candidate points query) ++ seen) found) :
    Kept k (t.indices.map (candidate points query) ++ seen)
      (if prunes root query t.center t.radius k heap then heap else found) := by
  split
  · rename_i hprunes
    cases hcs : t.indices with
    | nil => exact h
    | cons i is =>
        rw [← hcs]
        have hi := below_of_prunes root hprunes (hball i (hcs ▸ List.mem_cons_self))
        refine h.skip hi.1 fun c hc => ?_
        obtain ⟨j, hj, rfl⟩ := List.mem_map.mp hc
        exact (below_of_prunes root hprunes (hball j hj)).2
  · exact hfound

/-- **A search of a subtree keeps the best** of what has been seen and its own points. -/
theorem kept_searchExact (root : Root K) (hk : 1 ≤ k) {t : BallNode K n m}
    (ht : t.Contains root points) (h : Kept k seen heap) :
    Kept k (t.indices.map (candidate points query) ++ seen)
      (t.searchExact root ops points query k heap) := by
  induction t generalizing seen heap with
  | leaf center radius is =>
      have hindices : (BallNode.leaf center radius is).indices = is := List.append_nil is
      refine kept_pruned root (t := .leaf center radius is) h (fun i hi => ?_) ?_
      · rw [hindices] at hi
        exact ht i hi
      rw [hindices]
      exact kept_offerAll hk is h
  | node center radius left right ihl ihr =>
      obtain ⟨hball, hleft, hright⟩ := ht
      refine kept_pruned root h hball ?_
      rw [indices_node, List.map_append]
      simp only
      split
      · refine (ihr hright (ihl hleft h)).perm ?_
        rw [← List.append_assoc]
        exact List.perm_append_comm.append_right seen
      · refine (ihl hleft (ihr hright h)).perm ?_
        rw [List.append_assoc]

end Search

end BallNode

section Query

variable [Field K] [LinearOrder K] [IsStrictOrderedRing K]

/-- **The ball tree is exact**: of points that there are, with leaves of at least one point, a
tree is built. Its leaves are a partition of the points, each of its balls holds its points, and
a query returns points at the distances at which a brute-force search finds its own. -/
theorem ballTree_answers (root : Root K) (ops : DistHeap K m) (sort : DistSort K m)
    (part : Partitioner (Fin m)) (points : Features K n m) (hm : 0 < m) {leafSize : Int}
    (hleaf : 1 ≤ leafSize) :
    ∃ t, (∀ fuel, m ≤ fuel →
        BallNode.build root part points leafSize fuel (List.finRange m) = some t) ∧
      t.leaves.flatten.Perm (List.finRange m) ∧
      (∀ leaf ∈ t.leaves, leaf ≠ [] ∧ leaf.length ≤ leafSize) ∧ t.Contains root points ∧
      ∀ query k, 1 ≤ k →
        Answers points query k (t.queryKnn root ops sort points query k false) := by
  have hne : List.finRange m ≠ [] := by
    rw [← List.length_pos_iff, List.length_finRange]
    exact hm
  obtain ⟨t, hbuild, hperm, hleaves, hball⟩ :=
    BallNode.build_spec root part points hleaf (List.finRange m) hne
  rw [List.length_finRange] at hbuild
  refine ⟨t, hbuild, hperm, hleaves, hball, fun query k hk => ?_⟩
  have hkept : Kept k (t.indices.map (candidate points query) ++ [])
      (t.searchExact root ops points query k []) := BallNode.kept_searchExact root hk hball .nil
  rw [List.append_nil] at hkept
  exact (hkept.perm (hperm.map _).symm).answers sort

end Query

/-- The real square root. -/
noncomputable def Root.real : Root ℝ where
  run := Real.sqrt
  nonneg := Real.sqrt_nonneg
  sq _ hx := Real.mul_self_sqrt hx

/-- Three points in the same place, with leaves of one point. -/
theorem ballTree_answers_same : ∃ t : BallNode ℝ 2 3,
    BallNode.build .real (.stable _) #v[#v[1, 2], #v[1, 2], #v[1, 2]] 1 3 (List.finRange 3) =
      some t ∧ t.leaves.flatten.Perm (List.finRange 3) ∧
    Answers #v[#v[1, 2], #v[1, 2], #v[1, 2]] #v[0, 0] 2
      (t.queryKnn .real (.descending _) (.stable _) #v[#v[1, 2], #v[1, 2], #v[1, 2]] #v[0, 0] 2
        false) := by
  obtain ⟨t, hbuild, hperm, -, -, hanswers⟩ := ballTree_answers .real (.descending _)
    (.stable _) (.stable _) (#v[#v[1, 2], #v[1, 2], #v[1, 2]] : Features ℝ 2 3) (by decide)
    (le_refl 1)
  exact ⟨t, hbuild 3 (le_refl 3), hperm, hanswers #v[0, 0] 2 (by decide)⟩

end CrossMachine.Knn
