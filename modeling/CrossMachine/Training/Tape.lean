import CrossMachine.Lib.Instances
import CrossMachine.Training.Backward
import Mathlib.Algebra.Order.Field.Basic

/-!
# The tape with all its operations

`autograd.h` once more, with `relu` and `softmax_cross_entropy` beside `matmul`, `add` and
`add_bias`, and with a `backward` that starts from whatever gradients the nodes hold, as it
does when it is called a second time.

To the three operations of `Autograd` the other nodes are leaves (`plain`): `backward_fn` of a
node is either that of `Autograd` on the plain tape, or one contribution to one parent.
`exp` and `log` are those of `<cmath>`, and nothing is assumed of them.
-/

namespace CrossMachine.Training

open Lib

namespace Tape

/-- The functions that the loss is made of. -/
structure Cmath (F : Type*) where
  exp : F → F
  log : F → F

/-- How a node was made. The closure of a loss keeps the labels and the probabilities. -/
inductive Op (F : Type*) where
  | base (op : Training.Op)
  | relu (a : Nat)
  | softmaxCrossEntropy (logits : Nat) (labels : List Int) (probs : Matrix F)

/-- `parents`. -/
def Op.parents {F : Type*} : Op F → List Nat
  | .base op => op.parents
  | .relu a => [a]
  | .softmaxCrossEntropy logits _ _ => [logits]

structure Node (F : Type*) where
  value : Matrix F
  op : Op F

/-- A node as `Autograd` sees it. -/
def Node.plain {F : Type*} (nd : Node F) : Training.Node F :=
  match nd.op with
  | .base op => ⟨nd.value, op⟩
  | _ => ⟨nd.value, .leaf⟩

/-- The tape as `Autograd` sees it. -/
def plain {F : Type*} (ns : List (Node F)) : List (Training.Node F) := ns.map Node.plain

variable {F : Type*} [Field F] [LinearOrder F]

/-! ## What the operations compute -/

/-- The value of `relu`. -/
def relu (x : Matrix F) : Matrix F := x.apply fun v => if v > 0 then v else 0

/-- `max_logit` of row `i`. -/
def maxLogit (z : Matrix F) (i : Nat) : F :=
  (List.range' 1 (z.cols - 1)).foldl (fun m j => max m (z.entry i j)) (z.entry i 0)

/-- `denom` of row `i`. -/
def denom (fns : Cmath F) (z : Matrix F) (i : Nat) : F :=
  (List.range z.cols).foldl (fun d j => d + fns.exp (z.entry i j - maxLogit z i)) 0

/-- `probs`. -/
def softmax (fns : Cmath F) (z : Matrix F) : Matrix F :=
  .ofFn z.height z.cols fun i j => fns.exp (z.entry i j - maxLogit z i) / denom fns z i

/-- `total_loss`. A row without a label, or whose label is not a column, is never read. -/
def totalLoss (fns : Cmath F) (probs : Matrix F) (labels : List Int) : Option F :=
  (List.range probs.height).foldlM (fun total i =>
    match (labels[i]? : Option Int) with
    | some label =>
        if 0 ≤ label ∧ label < probs.cols then
          some (total + -fns.log (max (probs.entry i label.toNat) (1 / 10 ^ 9)))
        else none
    | none => none) 0

/-- The loss of `softmax_cross_entropy`, and the probabilities. The code reads `z(i, 0)` of every
row, and of no rows at all the mean is no number. -/
def softmaxCrossEntropy (fns : Cmath F) (z : Matrix F) (labels : List Int) :
    Option (Matrix F × Matrix F) := do
  if 0 < z.height ∧ 0 < z.cols then
    let probs := softmax fns z
    let total ← totalLoss fns probs labels
    some (.ofFn 1 1 fun _ _ => total / z.height, probs)
  else none

/-- The tapes that can be built. -/
inductive Taped (fns : Cmath F) : List (Node F) → Prop where
  | nil : Taped fns []
  /-- `Tensor(value)`. -/
  | leaf {ns : List (Node F)} (value : Matrix F) :
      Taped fns ns → Taped fns (ns ++ [⟨value, .base .leaf⟩])
  /-- `matmul`, `add` and `add_bias`. -/
  | base {ns : List (Node F)} {op : Training.Op} {value : Matrix F} :
      Taped fns ns → op.eval (plain ns) = some value → Taped fns (ns ++ [⟨value, .base op⟩])
  | relu {ns : List (Node F)} {a : Nat} {an : Node F} :
      Taped fns ns → ns[a]? = some an → Taped fns (ns ++ [⟨Tape.relu an.value, .relu a⟩])
  | softmaxCrossEntropy {ns : List (Node F)} {logits : Nat} {ln : Node F} {labels : List Int}
      {loss probs : Matrix F} : Taped fns ns → ns[logits]? = some ln →
      Tape.softmaxCrossEntropy fns ln.value labels = some (loss, probs) →
      Taped fns (ns ++ [⟨loss, .softmaxCrossEntropy logits labels probs⟩])

/-! ## `backward` -/

/-- What `relu` multiplies its gradient by. -/
def mask (x : Matrix F) : Matrix F := x.apply fun v => if v > 0 then 1 else 0

/-- How much of the seed the logit `(i, j)` gets. -/
def dlogit (labels : List Int) (probs : Matrix F) (i j : Nat) : F :=
  let onehot : F := if labels[i]? = some (j : Int) then 1 else 0
  (probs.entry i j - onehot) / probs.height

/-- `dlogits`. -/
def dlogits (labels : List Int) (probs : Matrix F) (seed : F) : Matrix F :=
  .ofFn probs.height probs.cols fun i j => dlogit labels probs i j * seed

/-- The `backward_fn` of node `u`, if it has one. -/
def backwardFn (ns : List (Node F)) (g : Grads F) (u : Nat) : Option (Grads F) := do
  let on ← ns[u]?
  match on.op with
  | .base _ => Training.backwardFn (plain ns) g u
  | .relu a =>
      let an ← ns[a]?
      let d ← (g u).elementwiseMul (mask an.value)
      addGrad g a d
  | .softmaxCrossEntropy logits labels probs =>
      addGrad g logits (dlogits labels probs ((g u).entry 0 0))

def parentsOf (ns : List (Node F)) (u : Nat) : List Nat :=
  match ns[u]? with
  | some nd => nd.op.parents
  | none => []

/-- `topo_sort`. -/
def topoSort (ns : List (Node F)) : Nat → Nat → List Nat × List Nat →
    Option (List Nat × List Nat) :=
  Dag.postorder (parentsOf ns)

/-- `backward` of node `out`, when the nodes hold the gradients `g`. -/
def backward (ns : List (Node F)) (g : Grads F) (out : Nat) : Option (Grads F) := do
  let o ← ns[out]?
  if o.value.height = 1 ∧ o.value.cols = 1 then
    let g := Function.update g out (.ofFn 1 1 fun _ _ => 1)
    (topoSort ns (out + 1) out ([], [])).bind fun (_, order) =>
      order.reverse.foldlM (backwardFn ns) g
  else none

end Tape

end CrossMachine.Training
