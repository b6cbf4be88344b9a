import CrossMachine.Lib.Heap
import CrossMachine.Lib.Smallest
import Mathlib.Algebra.BigOperators.Fin
import Mathlib.Algebra.Order.Ring.Defs
import Mathlib.Tactic.Ring

/-!
# Nearest neighbours

What the two trees of `knn.cpp` share: the distance, and the bounded heap of the candidates
that are closest so far. Coordinates are elements of an ordered ring where it matters that
arithmetic is exact. The operations of the standard library on heaps, and its sort, are
whichever ones do what they promise.

A brute-force search sorts all points by their distance and keeps the first ones. With ties
there is more than one such list, but there is only one list of distances (`Smallest.map_run_eq`).
-/

namespace CrossMachine.Knn

open Lib

/-- A point of `n` coordinates. -/
abbrev Point (K : Type*) (n : Nat) := Vector K n

/-- `m` points. -/
abbrev Features (K : Type*) (n m : Nat) := Vector (Point K n) m

structure NeighborResult (K : Type*) (m : Nat) where
  index : Fin m
  distSq : K
  deriving DecidableEq, Repr

variable {K : Type*} {n m : Nat}

section Distance

variable [Zero K] [Add K] [Sub K] [Mul K]

def squaredDistance (a b : Point K n) : K :=
  (List.finRange n).foldl (fun sum i =>
    let d := a.get i - b.get i
    sum + d * d) 0

/-- A point as a candidate. -/
def candidate (points : Features K n m) (query : Point K n) (i : Fin m) : NeighborResult K m :=
  ⟨i, squaredDistance (points.get i) query⟩

end Distance

theorem squaredDistance_eq [CommRing K] (a b : Point K n) :
    squaredDistance a b = ∑ i : Fin n, (a.get i - b.get i) ^ 2 := by
  have hfold : ∀ (l : List (Fin n)) (x : K),
      l.foldl (fun sum i => sum + (a.get i - b.get i) * (a.get i - b.get i)) x =
        x + (l.map fun i => (a.get i - b.get i) ^ 2).sum := by
    intro l
    induction l with
    | nil => intro x; simp
    | cons i l ih =>
        intro x
        rw [List.foldl_cons, ih, List.map_cons, List.sum_cons]
        ring
  rw [squaredDistance, hfold, zero_add, ← List.ofFn_eq_map, List.sum_ofFn]

section Heap

variable [LinearOrder K]

/-- Heap operations that compare distances. -/
abbrev DistHeap (K : Type*) (m : Nat) [LinearOrder K] :=
  HeapOps (NeighborResult.distSq : NeighborResult K m → K)

/-- A sort by distance. -/
abbrev DistSort (K : Type*) (m : Nat) [LinearOrder K] :=
  Sorter (NeighborResult.distSq : NeighborResult K m → K)

/-- `offer`. The heap is not empty when it is full, as `k` is positive. -/
def offer (ops : DistHeap K m) (k : Nat)
    (heap : List (NeighborResult K m)) (r : NeighborResult K m) : List (NeighborResult K m) :=
  if heap.length < k then ops.push (heap ++ [r])
  else match heap with
    | [] => []
    | top :: _ =>
        if r.distSq < top.distSq then ops.push ((ops.pop heap).dropLast ++ [r])
        else heap

/-- `heap.front().dist_sq`, compared with something. -/
def belowFront (x : K) : List (NeighborResult K m) → Bool
  | [] => false
  | top :: _ => x < top.distSq

/-- The same comparison the other way. -/
def aboveFront (x : K) : List (NeighborResult K m) → Bool
  | [] => false
  | top :: _ => x > top.distSq

/-- `heap_to_sorted`. -/
def heapToSorted (sort : DistSort K m)
    (heap : List (NeighborResult K m)) : List (NeighborResult K m) := sort.run heap

/-- What a search keeps of the candidates that it has seen. -/
structure Kept (k : Nat) (seen heap : List (NeighborResult K m)) : Prop where
  isHeap : IsHeap NeighborResult.distSq heap
  smallest : Smallest NeighborResult.distSq k seen heap

variable {ops : DistHeap K m} {k : Nat}
variable {seen heap cs : List (NeighborResult K m)} {r : NeighborResult K m}

theorem Kept.nil : Kept (K := K) (m := m) k [] [] := ⟨.nil, .nil⟩

theorem Kept.perm {seen' : List (NeighborResult K m)} (h : Kept k seen heap)
    (hseen : seen'.Perm seen) : Kept k seen' heap := ⟨h.isHeap, h.smallest.perm (.refl _) hseen⟩

theorem Kept.offer (h : Kept k seen heap) (hk : 1 ≤ k) :
    Kept k (r :: seen) (offer ops k heap r) := by
  unfold Knn.offer
  split
  · rename_i hlt
    have hperm : (ops.push (heap ++ [r])).Perm (r :: heap) :=
      (ops.push_perm _).trans (List.perm_append_singleton r heap)
    exact ⟨ops.push_heap _ _ h.isHeap, (h.smallest.push hlt).perm hperm (.refl _)⟩
  · rename_i hfull
    cases heap with
    | nil => exact absurd hk (by simpa using hfull)
    | cons top rest =>
        simp only
        have hmax := h.isHeap.le_head
        split
        · rename_i hlt
          obtain ⟨rest', hpop, hrest, hheap⟩ := ops.pop_heap top rest h.isHeap
          rw [hpop, List.dropLast_concat]
          have hperm : (ops.push (rest' ++ [r])).Perm (r :: rest) :=
            (ops.push_perm _).trans ((List.perm_append_singleton r rest').trans (hrest.cons r))
          refine ⟨ops.push_heap _ _ hheap, Smallest.perm ?_ hperm (.refl _)⟩
          exact h.smallest.replace (Nat.le_of_not_lt hfull)
            (fun x hx => hmax x (List.mem_cons_of_mem _ hx)) hlt
        · rename_i hge
          have hge : ∀ c ∈ [r], ∀ x ∈ top :: rest, x.distSq ≤ c.distSq := by
            intro c hc x hx
            rw [List.mem_singleton.mp hc]
            exact (hmax x hx).trans (not_lt.mp hge)
          exact ⟨h.isHeap, h.smallest.skip (Nat.le_of_not_lt hfull) hge⟩

/-- A full heap keeps what it has if nothing that is passed over is below its front. -/
theorem Kept.skip (h : Kept k seen heap) (hfull : k ≤ heap.length)
    (hcs : ∀ c ∈ cs, belowFront c.distSq heap = false) : Kept k (cs ++ seen) heap := by
  refine ⟨h.isHeap, h.smallest.skip hfull fun c hc x hx => ?_⟩
  cases heap with
  | nil => exact absurd hx List.not_mem_nil
  | cons top rest =>
      have hge : ¬ c.distSq < top.distSq := by simpa [belowFront] using hcs c hc
      exact (h.isHeap.le_head x hx).trans (not_lt.mp hge)

theorem belowFront_mono {x y : K} (hxy : x ≤ y) (h : belowFront x heap = false) :
    belowFront y heap = false := by
  cases heap with
  | nil => rfl
  | cons top rest =>
      simp only [belowFront, decide_eq_false_iff_not, not_lt] at h ⊢
      exact h.trans hxy

end Heap

/-! ## What a query is to answer -/

section Query

variable [CommRing K] [LinearOrder K]

/-- All points as candidates. -/
def candidates (points : Features K n m) (query : Point K n) : List (NeighborResult K m) :=
  (List.finRange m).map (candidate points query)

/-- Sort all points by their distance, and keep `k`. -/
def bruteForce (sort : DistSort K m)
    (points : Features K n m) (query : Point K n) (k : Nat) : List (NeighborResult K m) :=
  (sort.run (candidates points query)).take k

/-- `rs` are as close to the query as the points that a brute-force search finds. -/
structure Answers (points : Features K n m) (query : Point K n) (k : Nat)
    (rs : List (NeighborResult K m)) : Prop where
  length : rs.length = min k m
  nodup : (rs.map NeighborResult.index).Nodup
  distSq : ∀ r ∈ rs, r.distSq = squaredDistance (points.get r.index) query
  same : ∀ sort, rs.map NeighborResult.distSq =
    (bruteForce sort points query k).map NeighborResult.distSq

/-- What is kept of all candidates answers the query. -/
theorem Kept.answers {points : Features K n m} {query : Point K n} {k : Nat}
    {heap : List (NeighborResult K m)} (h : Kept k (candidates points query) heap)
    (sort : DistSort K m) :
    Answers points query k (heapToSorted sort heap) := by
  obtain ⟨rest, hperm, -⟩ := h.smallest.split
  have hsort := sort.perm heap
  refine
    { length := ?length
      nodup := ?nodup
      distSq := fun r hr => ?distSq
      same := fun sort' => h.smallest.map_run_eq sort sort' }
  case length =>
    rw [heapToSorted, hsort.length_eq, h.smallest.length, candidates, List.length_map,
      List.length_finRange]
  case nodup =>
    have hindex : (candidates points query).map NeighborResult.index = List.finRange m := by
      rw [candidates, List.map_map]
      exact List.map_id _
    have hall : ((heap ++ rest).map NeighborResult.index).Nodup :=
      (hperm.map _).nodup_iff.mpr (hindex ▸ List.nodup_finRange m)
    rw [List.map_append] at hall
    exact (hsort.map _).nodup_iff.mpr (List.Nodup.of_append_left hall)
  case distSq =>
    have hmem : r ∈ candidates points query :=
      hperm.mem_iff.mp (List.mem_append_left _ (hsort.mem_iff.mp hr))
    obtain ⟨i, -, rfl⟩ := List.mem_map.mp hmem
    rfl

end Query

end CrossMachine.Knn
