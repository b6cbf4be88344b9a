import CrossMachine.Lib.Loops
import CrossMachine.Lib.Warshall
import Mathlib.Algebra.Order.Monoid.WithTop
import Mathlib.Data.List.FinRange
import Mathlib.Order.WithBot

/-!
# What it costs to get from one node to another

`allPairsCost` is Floyd and Warshall's algorithm in place, with the cost of a link the reciprocal of
its bandwidth and infinity where no path is known. The placement only ever asks whether one cost is
below another. A cost below infinity is that of a path (`allPairsCost_reaches`), and a path of so
many links has one if so many costs cannot come to infinity (`allPairsCost_le`).

That much does not depend on the costs being right. A turn of the loops makes no cost larger, and
after the turn for `i` and `j` at pivot `k` the cost is at most the sum of the two it adds.
-/

namespace CrossMachine.Topology

open Lib

/-- What is computed with costs. They are `double`s, of which infinity is one, so a result may be
rounded, and it may be infinite. -/
structure CostOps (K : Type*) where
  /-- `1.0 / bandwidth_gbs` -/
  recip : K → WithTop K
  add : WithTop K → WithTop K → WithTop K
  top_add : ∀ c, add ⊤ c = ⊤
  add_top : ∀ c, add c ⊤ = ⊤

/-- A link, as the node it leaves sees it; `dest` is `Edge::to`. -/
structure Edge (n : Nat) (K : Type*) [Zero K] [LT K] where
  dest : Fin n
  bandwidthGbs : K
  pos : 0 < bandwidthGbs

/-- Node `i`'s neighbours are `links i`. -/
structure TopologyGraph (K : Type*) [Zero K] [LT K] where
  nodeNames : List String
  links : Fin nodeNames.length → List (Edge nodeNames.length K)

variable {K : Type*}

abbrev TopologyGraph.numNodes [Zero K] [LT K] (g : TopologyGraph K) : Nat := g.nodeNames.length

/-- The matrix of costs. -/
abbrev Cost (n : Nat) (K : Type*) := Fin n → Fin n → WithTop K

variable {n : Nat}

/-- `cost[i][j] = c`. -/
def Cost.set (cost : Cost n K) (i j : Fin n) (c : WithTop K) : Cost n K := fun i' j' =>
  if i' = i ∧ j' = j then c else cost i' j'

/-- `0` on the diagonal, infinity elsewhere. -/
def Cost.init (n : Nat) (K : Type*) [Zero K] : Cost n K := fun i j => if i = j then 0 else ⊤

theorem Cost.set_self {cost : Cost n K} {i j : Fin n} {c : WithTop K} :
    cost.set i j c i j = c := if_pos ⟨rfl, rfl⟩

section

variable [Zero K] [LinearOrder K] (ops : CostOps K)

def linkCost (cost : Cost n K) (i : Fin n) (e : Edge n K) : Cost n K :=
  cost.set i e.dest (min (cost i e.dest) (ops.recip e.bandwidthGbs))

def relax (k i : Fin n) (cost : Cost n K) (j : Fin n) : Cost n K :=
  if ops.add (cost i k) (cost k j) < cost i j then
    cost.set i j (ops.add (cost i k) (cost k j))
  else cost

/-- The two inner loops. -/
def relaxAll (cost : Cost n K) (k : Fin n) : Cost n K :=
  (List.finRange n).foldl (fun cost i => (List.finRange n).foldl (relax ops k i) cost) cost

def linkCosts (g : TopologyGraph K) : Cost g.numNodes K :=
  (List.finRange g.numNodes).foldl (fun cost i => (g.links i).foldl (linkCost ops · i) cost)
    (Cost.init g.numNodes K)

def allPairsCost (g : TopologyGraph K) : Cost g.numNodes K :=
  (List.finRange g.numNodes).foldl (relaxAll ops) (linkCosts ops g)

/-! ## Paths -/

def TopologyGraph.Linked (g : TopologyGraph K) (a b : Fin g.numNodes) : Prop :=
  ∃ e ∈ g.links a, e.dest = b

/-- A path of so many links. -/
inductive TopologyGraph.Path (g : TopologyGraph K) : Nat → Fin g.numNodes → Fin g.numNodes → Prop
  | nil {a} : g.Path 0 a a
  | tail {n a b c} : g.Path n a b → g.Linked b c → g.Path (n + 1) a c

/-- There is a path from `a` to `b`. -/
def TopologyGraph.Reaches (g : TopologyGraph K) (a b : Fin g.numNodes) : Prop :=
  Relation.ReflTransGen g.Linked a b

theorem TopologyGraph.Path.reaches {g : TopologyGraph K} {n : Nat} {a b : Fin g.numNodes}
    (h : g.Path n a b) : g.Reaches a b := by
  induction h with
  | nil => exact .refl
  | tail _ hlink ih => exact .tail ih hlink

/-- The costs that are not infinite are between nodes joined by a path. -/
def Cost.Sound (g : TopologyGraph K) (cost : Cost g.numNodes K) : Prop :=
  ∀ a b, cost a b ≠ ⊤ → g.Reaches a b

/-- What `n` costs of links come to, however they are added up, is at most `bound n`. -/
structure CostOps.Bounded (ops : CostOps K) (g : TopologyGraph K) (bound : Nat → WithTop K) :
    Prop where
  zero : 0 ≤ bound 0
  recip : ∀ i, ∀ e ∈ g.links i, ops.recip e.bandwidthGbs ≤ bound 1
  add : ∀ l l' n c d, l + l' ≤ n → c ≤ bound l → d ≤ bound l' → ops.add c d ≤ bound n

variable {ops} {g : TopologyGraph K} {cost : Cost g.numNodes K} {i j k a b : Fin g.numNodes}
  {c : WithTop K} {e : Edge g.numNodes K} {bound : Nat → WithTop K} {l l' n : Nat}

/-! ## A finite cost is the cost of a path -/

theorem Cost.Sound.set (h : Cost.Sound g cost) (hij : g.Reaches i j) :
    Cost.Sound g (cost.set i j c) := by
  intro a b hab
  unfold Cost.set at hab
  split at hab
  · next hs => rw [hs.1, hs.2]; exact hij
  · exact h a b hab

theorem Cost.Sound.init : Cost.Sound g (Cost.init g.numNodes K) := by
  intro a b hab
  unfold Cost.init at hab
  split at hab
  · next heq => rw [heq]; exact .refl
  · exact absurd rfl hab

theorem Cost.Sound.linkCosts : Cost.Sound g (linkCosts ops g) :=
  List.foldlRecOn _ _ Cost.Sound.init fun _ hs _ _ =>
    List.foldlRecOn _ _ hs fun _ hs e he => hs.set (.single ⟨e, he, rfl⟩)

theorem Cost.Sound.relax (h : Cost.Sound g cost) : Cost.Sound g (relax ops k i cost j) := by
  unfold Topology.relax
  split
  · next hlt =>
      have hsum := ne_top_of_lt hlt
      have hik : cost i k ≠ ⊤ := fun heq => hsum (by rw [heq, ops.top_add])
      have hkj : cost k j ≠ ⊤ := fun heq => hsum (by rw [heq, ops.add_top])
      exact h.set ((h i k hik).trans (h k j hkj))
  · exact h

theorem Cost.Sound.relaxAll (h : Cost.Sound g cost) : Cost.Sound g (relaxAll ops cost k) :=
  List.foldlRecOn _ _ h fun _ hs _ _ => List.foldlRecOn _ _ hs fun _ hs _ _ => hs.relax

theorem allPairsCost_reaches (h : allPairsCost ops g a b ≠ ⊤) : g.Reaches a b :=
  List.foldlRecOn (motive := Cost.Sound g) _ _ .linkCosts (fun _ hs _ _ => hs.relaxAll) a b h

/-! ## What a path costs at most -/

theorem linkCost_le : linkCost ops cost i e a b ≤ cost a b := by
  unfold linkCost Cost.set
  split
  · next hs =>
      rw [← hs.1, ← hs.2]
      exact min_le_left _ _
  · exact le_rfl

theorem linkCost_self_le : linkCost ops cost i e i e.dest ≤ ops.recip e.bandwidthGbs := by
  rw [linkCost, Cost.set_self]
  exact min_le_right _ _

theorem relax_le : relax ops k i cost j a b ≤ cost a b := by
  unfold relax
  split
  · next hlt =>
      unfold Cost.set
      split
      · next hs =>
          rw [hs.1, hs.2]
          exact hlt.le
      · exact le_rfl
  · exact le_rfl

theorem relax_self_le :
    relax ops k i cost j i j ≤ ops.add (cost i k) (cost k j) := by
  unfold relax
  split
  · exact Cost.set_self.le
  · next h => exact not_lt.mp h

theorem relaxAll_le (h : cost a b ≤ c) : relaxAll ops cost k a b ≤ c :=
  List.foldlRecOn (motive := fun cost : Cost g.numNodes K => cost a b ≤ c) _ _ h fun _ hc _ _ =>
    List.foldlRecOn (motive := fun cost : Cost g.numNodes K => cost a b ≤ c) _ _ hc
      fun _ hc _ _ => relax_le.trans hc

theorem relaxAll_join (hbound : ops.Bounded g bound) (hle : l + l' ≤ n)
    (hak : cost a k ≤ bound l) (hkb : cost k b ≤ bound l') :
    relaxAll ops cost k a b ≤ bound n := by
  -- the two summands get no larger until the turn for `a` and `b` comes
  let I : Cost g.numNodes K → Prop := fun c => c a k ≤ bound l ∧ c k b ≤ bound l'
  have hrelax : ∀ i (c : Cost g.numNodes K) j, I c → I (relax ops k i c j) :=
    fun _ _ _ hc => ⟨relax_le.trans hc.1, relax_le.trans hc.2⟩
  have hrow : ∀ (c : Cost g.numNodes K) i, I c →
      I ((List.finRange g.numNodes).foldl (relax ops k i) c) :=
    fun c i hc => List.foldlRecOn _ _ hc fun _ hc j _ => hrelax i _ j hc
  refine foldl_of_mem (I := I) (P := fun c => c a b ≤ bound n) (fun c i _ => hrow c i) ?_ ?_
    (List.mem_finRange a) ⟨hak, hkb⟩
  · intro c i _ hc
    exact List.foldlRecOn (motive := fun c : Cost g.numNodes K => c a b ≤ bound n) _ _ hc
      fun _ hc _ _ => relax_le.trans hc
  · intro c hc
    exact foldl_of_mem (I := I) (P := fun c => c a b ≤ bound n) (fun c j _ => hrelax a c j)
      (fun _ _ _ => relax_le.trans)
      (fun _ hc => relax_self_le.trans (hbound.add l l' n _ _ hle hc.1 hc.2))
      (List.mem_finRange b) hc

theorem linkCosts_self : linkCosts ops g a a ≤ 0 := by
  refine List.foldlRecOn (motive := fun c : Cost g.numNodes K => c a a ≤ 0) _ _ ?_
    fun c hc i _ => List.foldlRecOn (motive := fun c : Cost g.numNodes K => c a a ≤ 0) _ _ hc
      fun _ hc _ _ => linkCost_le.trans hc
  exact (if_pos rfl).le

theorem linkCosts_of_linked (hbound : ops.Bounded g bound) (h : g.Linked a b) :
    linkCosts ops g a b ≤ bound 1 := by
  obtain ⟨e, he, rfl⟩ := h
  refine foldl_of_mem (I := fun _ => True) (P := fun c : Cost g.numNodes K => c a e.dest ≤ bound 1)
    (fun _ _ _ _ => trivial) ?_ ?_ (List.mem_finRange a) trivial
  · intro c i _ hc
    exact List.foldlRecOn (motive := fun c : Cost g.numNodes K => c a e.dest ≤ bound 1) _ _ hc
      fun _ hc _ _ => linkCost_le.trans hc
  · intro c _
    exact foldl_of_mem (f := (linkCost ops · a)) (I := fun _ => True)
      (P := fun c : Cost g.numNodes K => c a e.dest ≤ bound 1) (fun _ _ _ _ => trivial)
      (fun _ _ _ => linkCost_le.trans) (fun _ _ => linkCost_self_le.trans (hbound.recip a e he)) he
      trivial

theorem allPairsCost_le (hbound : ops.Bounded g bound) (h : g.Path n a b) :
    allPairsCost ops g a b ≤ bound n := by
  refine foldl_through (fun (c : Cost g.numNodes K) n a b => c a b ≤ bound n)
    (fun _ _ _ _ _ => relaxAll_le) (fun _ _ _ _ _ _ _ => relaxAll_join hbound) ?_
  induction h with
  | nil => exact .direct (linkCosts_self.trans hbound.zero)
  | tail _ hlink ih =>
      exact .join (List.mem_finRange _) ih (.direct (linkCosts_of_linked hbound hlink))

end

end CrossMachine.Topology
