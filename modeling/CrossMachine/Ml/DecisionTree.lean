import Mathlib.Algebra.Field.Defs
import Mathlib.Data.List.Sort
import Mathlib.Data.Nat.Cast.Defs
import Mathlib.Order.Defs.LinearOrder

/-!
# Decision trees

`decision_tree.cpp`: a tree is grown from a data set by splitting the samples of a node in two,
where a feature and a threshold lower the impurity most. A split is looked for along the sorted
values of a feature, between two that differ; the samples are then told apart by comparing with
the middle of the two.

Feature values are of any linear order, and the middle is an operation on them. Impurities are
in an ordered field with a logarithm. The recursion has fuel, and out of fuel it is `none`.
-/

namespace CrossMachine.Ml

/-- What the code has from elsewhere: the middle of two feature values as it is computed,
`std::log2`, and a draw from `lo` to `hi`. -/
structure Platform (V K σ : Type) where
  mid : V → V → V
  log2 : K → K
  pick : Nat → Nat → σ → Nat × σ

inductive Criterion where
  | gini
  | entropy
  deriving DecidableEq

structure TreeParams (K : Type) where
  maxDepth : Int
  minSamplesLeaf : Int
  minSamplesSplit : Int
  minImpurityDecrease : K
  criterion : Criterion
  maxFeatures : Int

/-- Samples with a class each. The number of features is read off the first sample. -/
structure Dataset (V : Type) where
  samples : Nat
  features : Nat
  x : Vector (Vector V features) samples
  y : Vector Nat samples
  empty : samples = 0 → features = 0

structure TreeNode (V K : Type) (features : Nat) where
  predictedClass : Nat
  nSamples : Nat
  impurity : K
  /-- What a node that is no leaf has: `feature_idx`, `threshold`, `left` and `right`. -/
  inner : Option (Fin features × V × Nat × Nat)

/-- The tree while it grows. -/
structure Growth (V K σ : Type) (features : Nat) where
  nodes : List (TreeNode V K features)
  importanceAccum : List K
  rng : σ

/-- `best_feature`, `best_threshold` and `best_decrease`. -/
structure Best (V K : Type) (features : Nat) where
  split : Option (Fin features × V)
  decrease : K

structure Split (V K : Type) (samples features : Nat) where
  feature : Fin features
  threshold : V
  decrease : K
  left : List (Fin samples)
  right : List (Fin samples)

variable {V K σ : Type}

/-- How often each class occurs. -/
def classCounts (classes : Nat) (labels : List Nat) : List Nat :=
  labels.foldl (fun counts c => counts.modify c (· + 1)) (List.replicate classes 0)

/-- The first of the classes that occur most. -/
def majorityClass (counts : List Nat) : Nat := counts.idxOf (counts.foldl max 0)

/-- `std::pair`'s order. -/
def pairLe [LinearOrder V] (a b : V × Nat) : Prop := a.1 < b.1 ∨ a.1 = b.1 ∧ a.2 ≤ b.2

instance [LinearOrder V] : DecidableRel (pairLe (V := V)) := fun _ _ =>
  inferInstanceAs (Decidable (_ ∨ _))

/-! ## The features of a split -/

def swapAt {α : Type} (l : List α) (i j : Nat) : List α :=
  match l[i]?, l[j]? with
  | some a, some b => (l.set i b).set j a
  | _, _ => l

/-- All features, or as many as `max_features` says, drawn anew for every node. -/
def candidateFeatures (p : Platform V K σ) (params : TreeParams K) (features : Nat) (rng : σ) :
    List (Fin features) × σ :=
  if 0 < params.maxFeatures ∧ params.maxFeatures < features then
    let (drawn, rng) := (List.range params.maxFeatures.toNat).foldl (fun (l, rng) f =>
      let (j, rng) := p.pick f (features - 1) rng
      (swapAt l f j, rng)) (List.finRange features, rng)
    (drawn.take params.maxFeatures.toNat, rng)
  else (List.finRange features, rng)

section

variable [Field K] [LinearOrder K]

def nodeImpurity (p : Platform V K σ) (params : TreeParams K) (classCounts : List Nat)
    (total : Nat) : K :=
  if total = 0 then 0
  else match params.criterion with
    | .gini =>
        1 - classCounts.foldl (fun sumSq c => sumSq + (c / total : K) * (c / total : K)) 0
    | .entropy =>
        classCounts.foldl (fun impurity c =>
          if c = 0 then impurity else impurity - (c / total : K) * p.log2 (c / total : K)) 0

variable [LinearOrder V]

/-- The loop over the sorted values of `feature`: `x` is the last on the left, `y` the first on
the right. -/
def sweep (p : Platform V K σ) (params : TreeParams K) {features : Nat} (totalCounts : List Nat)
    (n : Nat) (parentImpurity : K) (feature : Fin features) :
    List (V × Nat) → List Nat → Nat → Best V K features → Best V K features
  | x :: y :: rest, leftCounts, leftTotal, best =>
      let leftCounts := leftCounts.modify x.2 (· + 1)
      let leftTotal := leftTotal + 1
      let rightTotal := n - leftTotal
      let best :=
        if x.1 = y.1 then best
        else if leftTotal < params.minSamplesLeaf ∨ rightTotal < params.minSamplesLeaf then best
        else
          let rightCounts := List.zipWith (· - ·) totalCounts leftCounts
          let leftImp := nodeImpurity p params leftCounts leftTotal
          let rightImp := nodeImpurity p params rightCounts rightTotal
          let weighted := (leftTotal * leftImp + rightTotal * rightImp) / n
          let decrease := parentImpurity - weighted
          if decrease > best.decrease then ⟨some (feature, p.mid x.1 y.1), decrease⟩ else best
      sweep p params totalCounts n parentImpurity feature (y :: rest) leftCounts leftTotal best
  | _, _, _, best => best

/-- The values of a feature with the classes, sorted. -/
def sortedPairs (data : Dataset V) (indices : List (Fin data.samples))
    (feature : Fin data.features) : List (V × Nat) :=
  (indices.map fun i => ((data.x.get i).get feature, data.y.get i)).insertionSort pairLe

/-- The loop over the features of a split. -/
def bestOf (p : Platform V K σ) (params : TreeParams K) (data : Dataset V) (classes : Nat)
    (indices : List (Fin data.samples)) (parentImpurity : K) (candidates : List (Fin data.features))
    (best : Best V K data.features) : Best V K data.features :=
  let totalCounts := classCounts classes (indices.map fun i => data.y.get i)
  candidates.foldl (fun best feature =>
    sweep p params totalCounts indices.length parentImpurity feature
      (sortedPairs data indices feature) (List.replicate classes 0) 0 best) best

/-- The split that lowers the impurity most, and the generator afterwards. -/
def findBestSplit (p : Platform V K σ) (params : TreeParams K) (data : Dataset V) (classes : Nat)
    (indices : List (Fin data.samples)) (parentImpurity : K) (rng : σ) :
    Option (Split V K data.samples data.features) × σ :=
  let (candidates, rng) := candidateFeatures p params data.features rng
  let best := bestOf p params data classes indices parentImpurity candidates ⟨none, 0⟩
  match best.split with
  | none => (none, rng)
  | some (feature, threshold) =>
      (some
        { feature := feature
          threshold := threshold
          decrease := best.decrease
          left := indices.filter fun i => (data.x.get i).get feature ≤ threshold
          right := indices.filter fun i => ¬ (data.x.get i).get feature ≤ threshold }, rng)

/-! ## Growing -/

/-- The split of a node, where it is to have one. -/
def nodeSplit (p : Platform V K σ) (params : TreeParams K) (data : Dataset V) (classes : Nat)
    (indices : List (Fin data.samples)) (depth : Int) (impurity : K) (rng : σ) :
    Option (Split V K data.samples data.features) × σ :=
  if (params.maxDepth < 0 ∨ depth < params.maxDepth) ∧
      indices.length ≥ params.minSamplesSplit ∧ impurity > 0 then
    let (found, rng) := findBestSplit p params data classes indices impurity rng
    (found.filter fun s => s.decrease ≥ params.minImpurityDecrease, rng)
  else (none, rng)

/-- The node that is made, and the tree with it and what is below it. -/
def buildNode (p : Platform V K σ) (params : TreeParams K) (data : Dataset V) (classes : Nat) :
    Nat → List (Fin data.samples) → Int → Growth V K σ data.features →
      Option (Nat × Growth V K σ data.features)
  | 0, _, _, _ => none
  | fuel + 1, indices, depth, s =>
      let counts := classCounts classes (indices.map fun i => data.y.get i)
      let n := indices.length
      let impurity := nodeImpurity p params counts n
      let node : TreeNode V K data.features := ⟨majorityClass counts, n, impurity, none⟩
      let (split, rng) := nodeSplit p params data classes indices depth impurity s.rng
      let thisIdx := s.nodes.length
      let s := { s with nodes := s.nodes ++ [node], rng := rng }
      match split with
      | none => some (thisIdx, s)
      | some b => do
          let s := { s with importanceAccum :=
            s.importanceAccum.modify b.feature (· + n * b.decrease) }
          let (left, s) ← buildNode p params data classes fuel b.left (depth + 1) s
          let (right, s) ← buildNode p params data classes fuel b.right (depth + 1) s
          let nodes := s.nodes.modify thisIdx fun node =>
            { node with inner := some (b.feature, b.threshold, left, right) }
          return (thisIdx, { s with nodes := nodes })

def fit (p : Platform V K σ) (params : TreeParams K) (data : Dataset V) (rng : σ) (fuel : Nat) :
    Option (Nat × Growth V K σ data.features) :=
  let classes := data.y.toList.foldl max 0 + 1
  buildNode p params data classes fuel (List.finRange data.samples) 0
    ⟨[], List.replicate data.features 0, rng⟩

end

/-! ## Asking the tree -/

section

variable {features : Nat}

/-- The loop of `predict_one`: from a node on, the leaf that a row comes to. -/
def leafIdx [LinearOrder V] (nodes : List (TreeNode V K features)) (row : Vector V features) :
    Nat → Nat → Option Nat
  | 0, _ => none
  | fuel + 1, nodeIdx => do
      let node ← nodes[nodeIdx]?
      match node.inner with
      | none => some nodeIdx
      | some (feature, threshold, left, right) =>
          leafIdx nodes row fuel (if row.get feature ≤ threshold then left else right)

def predictOne [LinearOrder V] (nodes : List (TreeNode V K features)) (row : Vector V features)
    (fuel : Nat) : Option Nat := do
  let nodeIdx ← leafIdx nodes row fuel 0
  let node ← nodes[nodeIdx]?
  return node.predictedClass

def predict [LinearOrder V] (nodes : List (TreeNode V K features))
    (x : List (Vector V features)) (fuel : Nat) : Option (List Nat) :=
  x.mapM fun row => predictOne nodes row fuel

/-- The share of the samples whose class is predicted. -/
def score [LinearOrder V] [Field K] (nodes : List (TreeNode V K features))
    (x : List (Vector V features)) (y : List Nat) (fuel : Nat) : Option K :=
  if y = [] then some 0
  else do
    let pred ← predict nodes x fuel
    let correct := (List.zipWith (fun p c => p == c) pred y).count true
    return correct / y.length

/-- The loop of `depth`; the back of the stack is at the front. -/
def depthLoop (nodes : List (TreeNode V K features)) :
    Nat → List Nat → List Nat → Nat → Option Nat
  | _, [], _, maxDepth => some maxDepth
  | 0, _ :: _, _, _ => none
  | fuel + 1, idx :: stack, nodeDepth, maxDepth => do
      let depth ← nodeDepth[idx]?
      let node ← nodes[idx]?
      let maxDepth := max maxDepth depth
      match node.inner with
      | none => depthLoop nodes fuel stack nodeDepth maxDepth
      | some (_, _, left, right) =>
          let nodeDepth := (nodeDepth.set left (depth + 1)).set right (depth + 1)
          depthLoop nodes fuel (right :: left :: stack) nodeDepth maxDepth

def depth (nodes : List (TreeNode V K features)) (fuel : Nat) : Option Nat :=
  depthLoop nodes fuel [0] (List.replicate nodes.length 0) 0

end

end CrossMachine.Ml
