import CrossMachine.Knn.Neighbors
import CrossMachine.Lib.CInt
import Mathlib.Logic.Function.Basic
import Mathlib.Order.OrderDual

/-!
# The small-world graph

`HNSW` of `hnsw.cpp`: a graph on the points with several layers. A point has a random top layer
and lists of neighbours on that and all layers below. A search goes down from the entry point,
one layer after the other, and looks on each for points that are closer.

The nodes live in an array that is as long as there are points, so a node that has not been
inserted is there and has no layers. To read a layer that a node does not have is `none` here,
and so is to take the first of no results; in the C++ neither is checked. An exception is `none`
as well. A search of a layer ends when it has seen all points at the latest, which is what its
fuel is for.

Nothing is assumed about the arithmetic on the coordinates, only that distances can be compared.
The random levels are arguments.
-/

namespace CrossMachine.Rag

open Knn Lib

/-- `HNSW::Params`, less the seed. -/
structure Params where
  M : Nat
  efConstruction : Nat
  efSearch : Nat
  deriving DecidableEq, Repr

/-- `nodes_`: the layers of every node, layer 0 first. -/
abbrev Nodes (m : Nat) := Fin m → List (List (Fin m))

structure HNSW (m : Nat) where
  nodes : Nodes m
  /-- `entry_point_`; `none` is -1. -/
  entryPoint : Option (Fin m)
  /-- `max_layer_`, which is not read while there is no entry point. -/
  maxLayer : Nat

/-- The neighbours of `v` on a layer. -/
def Nodes.layer {m : Nat} (nodes : Nodes m) (v : Fin m) (lc : Nat) : Option (List (Fin m)) :=
  (nodes v)[lc]?

/-- Give `v` layers up to `level`; the new ones are empty. -/
def Nodes.resize {m : Nat} (nodes : Nodes m) (v : Fin m) (level : Nat) : Nodes m :=
  Function.update nodes v
    ((nodes v).take (level + 1) ++ List.replicate (level + 1 - (nodes v).length) [])

/-- Assign to a layer of `v`. -/
def Nodes.setLayer {m : Nat} (nodes : Nodes m) (v : Fin m) (lc : Nat) (L : List (Fin m)) :
    Nodes m :=
  Function.update nodes v ((nodes v).set lc L)

variable {K : Type} {n m : Nat}

/-- What `search_layer` works on. -/
structure Search (K : Type) (m : Nat) where
  candidates : List (NeighborResult K m)
  found : List (NeighborResult K m)
  visited : List (Fin m)

variable [LinearOrder K]

/-- The operations of the queue that has the closest candidate in front. -/
abbrev ClosestHeap (K : Type) (m : Nat) [LinearOrder K] :=
  HeapOps fun r : NeighborResult K m => OrderDual.toDual r.distSq

/-- The library operations that the graph uses. -/
structure Ops (K : Type) (m : Nat) [LinearOrder K] where
  closest : ClosestHeap K m
  farthest : DistHeap K m
  sort : DistSort K m

/-- The closest ones. -/
def nearest (sort : DistSort K m) (candidates : List (NeighborResult K m)) (M : Nat) :
    List (Fin m) :=
  ((sort.run candidates).take M).map NeighborResult.index

/-- `select_neighbors_simple`; `resize` throws if it is asked for a negative number. -/
def selectNeighborsSimple (sort : DistSort K m) (candidates : List (NeighborResult K m))
    (M : Int) : Option (List (Fin m)) :=
  if candidates.length > M then
    if M < 0 then none else some (nearest sort candidates M.toNat)
  else some ((sort.run candidates).map NeighborResult.index)

variable [Zero K] [Add K] [Sub K] [Mul K]

section SearchLayer

variable (ops : Ops K m) (points : Features K n m) (query : Point K n) (ef : Nat)

/-- One turn of the loop over the entry points. -/
def start (s : Search K m) (ep : Fin m) : Search K m where
  candidates := ops.closest.enqueue s.candidates (candidate points query ep)
  found := ops.farthest.enqueue s.found (candidate points query ep)
  visited := s.visited.insert ep

/-- One turn of the loop over the neighbours of a candidate. -/
def visit (s : Search K m) (neighbor : Fin m) : Search K m :=
  if neighbor ∈ s.visited then s
  else
    let r := candidate points query neighbor
    let visited := neighbor :: s.visited
    if s.found.length < ef ∨ belowFront r.distSq s.found then
      let found := ops.farthest.enqueue s.found r
      { candidates := ops.closest.enqueue s.candidates r
        found := if found.length > ef then ops.farthest.dequeue found else found
        visited := visited }
    else { s with visited := visited }

/-- The loop over the candidates. -/
def searchLoop (nodes : Nodes m) (layer : Nat) : Nat → Search K m → Option (Search K m)
  | 0, _ => none
  | fuel + 1, s =>
      match s.candidates with
      | [] => some s
      | c :: _ =>
          let s := { s with candidates := ops.closest.dequeue s.candidates }
          if s.found.length ≥ ef ∧ aboveFront c.distSq s.found then some s
          else do
            let neighbors ← nodes.layer c.index layer
            searchLoop nodes layer fuel (neighbors.foldl (visit ops points query ef) s)

def searchLayer (nodes : Nodes m) (entryPoints : List (Fin m)) (layer : Nat) :
    Option (List (NeighborResult K m)) := do
  let s ← searchLoop ops points query ef nodes layer (m + 1)
    (entryPoints.foldl (start ops points query) ⟨[], [], []⟩)
  some (ops.sort.run (ops.farthest.drain s.found.length s.found))

end SearchLayer

variable (ops : Ops K m) (params : Params) (points : Features K n m)

/-- `lc` from `hi` down to the last one above `lo`. -/
def layersDown (hi lo : Nat) : List Nat := (List.range' (lo + 1) (hi - lo)).reverse

/-- The loop that goes down from the entry point, with one result for each layer. -/
def descend (query : Point K n) (nodes : Nodes m) (layers : List Nat) (ep : List (Fin m)) :
    Option (List (Fin m)) :=
  layers.foldlM (fun ep lc => do
    let found ← searchLayer ops points query 1 nodes ep lc
    match found with
    | [] => none
    | first :: _ => some [first.index]) ep

/-- `int m = (lc == 0) ? params_.M * 2 : params_.M`. -/
def linkCap (lc : Nat) : Int := if lc = 0 then int32 (params.M * 2) else params.M

/-- The link back from a neighbour `nb`. -/
def link (idx : Fin m) (lc : Nat) (nodes : Nodes m) (nb : Fin m) : Option (Nodes m) := do
  let nbLayer ← nodes.layer nb lc
  let nbLayer := nbLayer ++ [idx]
  if nbLayer.length > linkCap params lc then do
    let nbLayer ← selectNeighborsSimple ops.sort
      (nbLayer.map (candidate points (points.get nb))) (linkCap params lc)
    some (nodes.setLayer nb lc nbLayer)
  else some (nodes.setLayer nb lc nbLayer)

/-- One turn of the loop over the layers of a new node. -/
def insertLayer (idx : Fin m) (s : Nodes m × List (Fin m)) (lc : Nat) :
    Option (Nodes m × List (Fin m)) := do
  let (nodes, ep) := s
  let candidates ← searchLayer ops points (points.get idx) params.efConstruction nodes ep lc
  let selected ← selectNeighborsSimple ops.sort candidates (linkCap params lc)
  let _ ← nodes.layer idx lc
  let nodes ← selected.foldlM (link ops params points idx lc) (nodes.setLayer idx lc selected)
  some (nodes, candidates.map NeighborResult.index)

/-- `insert` with the level `level`. -/
def insert (level : Nat) (h : HNSW m) (idx : Fin m) : Option (HNSW m) :=
  match h.entryPoint with
  | none => some ⟨h.nodes.resize idx level, some idx, level⟩
  | some entryPoint => do
      let ep ← descend ops points (points.get idx) h.nodes (layersDown h.maxLayer level)
        [entryPoint]
      let (nodes, _) ← (List.range (min level h.maxLayer + 1)).reverse.foldlM
        (insertLayer ops params points idx) (h.nodes.resize idx level, ep)
      if level > h.maxLayer then some ⟨nodes, some idx, level⟩
      else some { h with nodes := nodes }

/-- The first points of the constructor's loop, with these levels. -/
def construct (levels : Fin m → Nat) (is : List (Fin m)) : Option (HNSW m) :=
  is.foldlM (fun h i => insert ops params points (levels i) h i) ⟨fun _ => [], none, 0⟩

def queryKnn (h : HNSW m) (query : Point K n) (k : Nat) : Option (List (NeighborResult K m)) :=
  match h.entryPoint with
  | none => some []
  | some entryPoint => do
      let ep ← descend ops points query h.nodes (layersDown h.maxLayer 0) [entryPoint]
      let found ← searchLayer ops points query (max params.efSearch k) h.nodes ep 0
      some (found.take k)

end CrossMachine.Rag
