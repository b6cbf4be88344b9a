import CrossMachine.Knn.Neighbors
import CrossMachine.Lib.Instances
import Mathlib.Algebra.Order.BigOperators.Ring.Finset
import Mathlib.Data.Fin.Basic
import Mathlib.Tactic.Linarith

/-!
# The k-d tree

`KDTree` of `knn.cpp`. `build` splits the points at the median of one coordinate after the
other. `std::nth_element` decides where points with the median's coordinate go, so they may be
on either side. The ranges of the index array that the recursion works on are lists here.

The search passes over a side of the plane when the plane is not closer than the worst of the
`k` candidates that it has. Every point on that side is at least as far away as the plane
(`plane_le`), ties included, so it would not have been kept.
-/

namespace CrossMachine.Knn

open Lib

variable {K : Type*} {n m : Nat}

/-- `KDTree::Node`, or null. -/
inductive KdNode (n m : Nat) where
  | nil
  | node (splitDim : Fin n) (pointIdx : Fin m) (left right : KdNode n m)

namespace KdNode

section Build

variable [LinearOrder K] [NeZero n]

/-- `build`, of the points at `indices`. -/
def build (nth : Selector (Fin m) K) (points : Features K n m) (indices : List (Fin m))
    (depth : Nat) : KdNode n m :=
  if indices = [] then .nil
  else
    let splitDim := Fin.ofNat n depth
    let mid := indices.length / 2
    let selected := nth.run (fun i => (points.get i).get splitDim) mid indices
    match selected[mid]? with
    | none => .nil
    | some pointIdx =>
        .node splitDim pointIdx (build nth points (selected.take mid) (depth + 1))
          (build nth points (selected.drop (mid + 1)) (depth + 1))
termination_by indices.length
decreasing_by
  all_goals
    have hpos : 0 < indices.length := List.length_pos_iff.mpr ‹¬indices = []›
    simp only [List.length_take, List.length_drop, (nth.perm _ _ _).length_eq]
    omega

/-- The points of a subtree. -/
def indices : KdNode n m → List (Fin m)
  | .nil => []
  | .node _ pointIdx left right => pointIdx :: (left.indices ++ right.indices)

/-- Every point is on the side of the plane that its subtree is on, or in the plane. -/
def Split (points : Features K n m) : KdNode n m → Prop
  | .nil => True
  | .node splitDim pointIdx left right =>
      (∀ i ∈ left.indices, (points.get i).get splitDim ≤ (points.get pointIdx).get splitDim) ∧
        (∀ i ∈ right.indices, (points.get pointIdx).get splitDim ≤ (points.get i).get splitDim) ∧
        left.Split points ∧ right.Split points

/-- The tree has the points it was built from, split. -/
theorem build_spec (nth : Selector (Fin m) K) (points : Features K n m) (is : List (Fin m))
    (depth : Nat) : (build nth points is depth).indices.Perm is ∧
      (build nth points is depth).Split points := by
  induction is, depth using build.induct nth points with
  | case1 depth =>
      rw [build, if_pos rfl]
      exact ⟨.refl _, trivial⟩
  | case2 is depth hne splitDim mid selected hnone =>
      -- the middle of a list that is not empty is in it
      have hpos : 0 < is.length := List.length_pos_iff.mpr hne
      have hlen : selected.length = is.length := (nth.perm _ _ _).length_eq
      have hout := List.getElem?_eq_none_iff.mp hnone
      omega
  | case3 is depth hne splitDim mid selected pointIdx hsome ihl ihr =>
      have htree : build nth points is depth =
          .node splitDim pointIdx (build nth points (selected.take mid) (depth + 1))
            (build nth points (selected.drop (mid + 1)) (depth + 1)) := by
        rw [build, if_neg hne]
        simp only [hsome, splitDim, mid, selected]
      rw [htree]
      obtain ⟨hlperm, hlsplit⟩ := ihl
      obtain ⟨hrperm, hrsplit⟩ := ihr
      refine ⟨?_, fun i hi => ?_, fun i hi => ?_, hlsplit, hrsplit⟩
      · have hmid : (pointIdx :: (selected.take mid ++ selected.drop (mid + 1))).Perm selected := by
          obtain ⟨hlt, rfl⟩ := List.getElem?_eq_some_iff.mp hsome
          refine List.perm_middle.symm.trans (.of_eq ?_)
          rw [List.getElem_cons_drop, List.take_append_drop]
        exact ((hlperm.append hrperm).cons pointIdx).trans (hmid.trans (nth.perm _ _ _))
      · exact nth.left _ mid is pointIdx hsome i (hlperm.mem_iff.mp hi)
      · exact nth.right _ mid is pointIdx hsome i (hrperm.mem_iff.mp hi)

end Build

/-! ## Searching -/

section Search

variable [CommRing K] [LinearOrder K]

def search (ops : DistHeap K m) (points : Features K n m)
    (query : Point K n) (k : Nat) :
    KdNode n m → List (NeighborResult K m) → List (NeighborResult K m)
  | .nil, heap => heap
  | .node splitDim pointIdx left right, heap =>
      let heap := offer ops k heap (candidate points query pointIdx)
      let diff := query.get splitDim - (points.get pointIdx).get splitDim
      let heap :=
        if diff < 0 then search ops points query k left heap
        else search ops points query k right heap
      let planeDistSq := diff * diff
      if heap.length < k ∨ belowFront planeDistSq heap then
        if diff < 0 then search ops points query k right heap
        else search ops points query k left heap
      else heap

/-- `query_knn` of the tree with this root. -/
def queryKnn (ops : DistHeap K m)
    (sort : DistSort K m) (points : Features K n m)
    (root : KdNode n m) (query : Point K n) (k : Nat) : List (NeighborResult K m) :=
  heapToSorted sort (search ops points query k root [])

variable [IsStrictOrderedRing K]

/-- The distance is at least that in one coordinate. -/
theorem sq_le_squaredDistance (a b : Point K n) (d : Fin n) :
    (a.get d - b.get d) * (a.get d - b.get d) ≤ squaredDistance a b := by
  rw [squaredDistance_eq, ← sq]
  exact Finset.single_le_sum (f := fun i : Fin n => (a.get i - b.get i) ^ 2)
    (fun i _ => sq_nonneg _) (Finset.mem_univ d)

/-- What lies beyond a plane is at least as far away as the plane. -/
theorem plane_le {x p q : K} (h : q < p ∧ p ≤ x ∨ p ≤ q ∧ x ≤ p) :
    (q - p) * (q - p) ≤ (x - q) * (x - q) := by
  rcases h with ⟨hq, hx⟩ | ⟨hq, hx⟩
  · nlinarith
  · nlinarith

variable {ops : DistHeap K m} {points : Features K n m}
variable {query : Point K n} {k : Nat}

/-- The far side, searched or not. -/
theorem kept_far {far : KdNode n m} {splitDim : Fin n} {pointIdx : Fin m}
    {seen heap : List (NeighborResult K m)} (h : Kept k seen heap)
    (hsearch : ∀ {seen heap}, Kept k seen heap →
      Kept k (far.indices.map (candidate points query) ++ seen)
        (far.search ops points query k heap))
    (hside : ∀ i ∈ far.indices,
      query.get splitDim < (points.get pointIdx).get splitDim ∧
          (points.get pointIdx).get splitDim ≤ (points.get i).get splitDim ∨
        (points.get pointIdx).get splitDim ≤ query.get splitDim ∧
          (points.get i).get splitDim ≤ (points.get pointIdx).get splitDim) :
    Kept k (far.indices.map (candidate points query) ++ seen)
      (if heap.length < k ∨ belowFront ((query.get splitDim - (points.get pointIdx).get splitDim) *
          (query.get splitDim - (points.get pointIdx).get splitDim)) heap then
        far.search ops points query k heap else heap) := by
  split
  · exact hsearch h
  · rename_i hprune
    rw [not_or] at hprune
    refine h.skip (Nat.le_of_not_lt hprune.1) fun c hc => ?_
    obtain ⟨i, hi, rfl⟩ := List.mem_map.mp hc
    refine belowFront_mono ?_ (Bool.eq_false_iff.mpr hprune.2)
    exact (plane_le (hside i hi)).trans (sq_le_squaredDistance (points.get i) query splitDim)

/-- **A search of a subtree keeps the best** of what has been seen and its own points. -/
theorem kept_search (ops : DistHeap K m) (query : Point K n) (hk : 1 ≤ k) {t : KdNode n m}
    (ht : t.Split points) {seen heap : List (NeighborResult K m)} (h : Kept k seen heap) :
    Kept k (t.indices.map (candidate points query) ++ seen)
      (t.search ops points query k heap) := by
  induction t generalizing seen heap with
  | nil => exact h
  | node splitDim pointIdx left right ihl ihr =>
      obtain ⟨hl, hr, hleft, hright⟩ := ht
      have hoffer : Kept k (candidate points query pointIdx :: seen)
          (offer ops k heap (candidate points query pointIdx)) := h.offer hk
      have hperm : ∀ near far : List (Fin m), (near ++ far).Perm (left.indices ++ right.indices) →
          ((pointIdx :: (left.indices ++ right.indices)).map (candidate points query) ++ seen).Perm
            (far.map (candidate points query) ++ (near.map (candidate points query) ++
              candidate points query pointIdx :: seen)) := by
        intro near far hnf
        have hnodes : (far ++ near).Perm (left.indices ++ right.indices) :=
          List.perm_append_comm.trans hnf
        rw [List.map_cons, List.cons_append, ← List.append_assoc, ← List.map_append]
        exact (((hnodes.map _).symm.append_right seen).cons _).trans List.perm_middle.symm
      simp only [search]
      by_cases hdiff : query.get splitDim - (points.get pointIdx).get splitDim < 0
      · have hlt := sub_neg.mp hdiff
        simp only [if_pos hdiff]
        refine (kept_far (ihl hleft hoffer) (fun h => ihr hright h) fun i hi =>
          .inl ⟨hlt, hr i hi⟩).perm ?_
        exact hperm left.indices right.indices (.refl _)
      · have hle := sub_nonneg.mp (not_lt.mp hdiff)
        simp only [if_neg hdiff]
        refine (kept_far (ihr hright hoffer) (fun h => ihl hleft h) fun i hi =>
          .inr ⟨hle, hl i hi⟩).perm ?_
        exact hperm right.indices left.indices List.perm_append_comm

end Search

end KdNode

section Query

variable [CommRing K] [LinearOrder K] [IsStrictOrderedRing K] [NeZero n]

/-- The root that `KDTree(points)` builds. -/
def kdTree (nth : Selector (Fin m) K) (points : Features K n m) : KdNode n m :=
  KdNode.build nth points (List.finRange m) 0

/-- **The k-d tree is exact**: a query returns as many points as there are, up to `k`, none
twice, at the distances at which a brute-force search finds its own, whatever the selection
does with ties. -/
theorem kdTree_answers (ops : DistHeap K m)
    (sort : DistSort K m) (nth : Selector (Fin m) K)
    (points : Features K n m) (query : Point K n) {k : Nat} (hk : 1 ≤ k) :
    Answers points query k (KdNode.queryKnn ops sort points (kdTree nth points) query k) := by
  obtain ⟨hperm, hsplit⟩ := KdNode.build_spec nth points (List.finRange m) 0
  have hkept := KdNode.kept_search ops query hk hsplit Kept.nil
  rw [List.append_nil] at hkept
  exact (hkept.perm ((hperm.map _).symm)).answers sort

/-- Four points, three of which have the same first coordinate. -/
def fourPoints : Features ℤ 2 4 := #v[#v[1, 0], #v[1, 2], #v[1, 5], #v[3, 1]]

theorem kdTree_answers_fourPoints : Answers fourPoints #v[1, 1] 2
    (KdNode.queryKnn (.descending _) (.stable _) fourPoints
      (kdTree (.sorting _ _) fourPoints) #v[1, 1] 2) :=
  kdTree_answers _ _ _ fourPoints #v[1, 1] (Nat.le_succ 1)

end Query

end CrossMachine.Knn
