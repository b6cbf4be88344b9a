import CrossMachine.Lib.ReverseMode
import CrossMachine.Training.Matrix

/-!
# The autograd tape

`autograd.h`: every operation makes a node that keeps its value, its parents and what it
takes to hand its gradient on to them. `backward` sorts the ancestors of a scalar node and
lets each of them do that, the node itself first.

Nodes are numbered in the order in which they were made, so a parent has a smaller number
than its consumer (`Built`). A node's `backward_fn` reads the values of its parents and its
own gradient, all of which a closure captures by pointer; what it does is therefore a
function of the tape and of the gradients.

A failed assertion is `none`. That none fails is part of what is proved in `Backward`.
-/

namespace CrossMachine.Training

/-- How a node was made; a leaf has no parents. -/
inductive Op where
  | leaf
  | matmul (a b : Nat)
  | add (a b : Nat)
  | addBias (a bias : Nat)
  deriving DecidableEq, Repr

/-- `parents`. -/
def Op.parents : Op → List Nat
  | .leaf => []
  | .matmul a b => [a, b]
  | .add a b => [a, b]
  | .addBias a bias => [a, bias]

structure Node (F : Type*) where
  value : Matrix F
  op : Op

variable {F : Type*} [CommRing F] [DecidableEq F]

/-- The value that an operation computes from the values of its parents. -/
def Op.apply (op : Op) (x y : Matrix F) : Option (Matrix F) :=
  match op with
  | .leaf => none
  | .matmul .. => x.matmul y
  | .add .. => x.plus y
  | .addBias .. => x.addRowBroadcast y

/-- The value of a new node. -/
def Op.eval (ns : List (Node F)) (op : Op) : Option (Matrix F) :=
  match op with
  | .leaf => none
  | .matmul a b | .add a b | .addBias a b => do
      let an ← ns[a]?
      let bn ← ns[b]?
      op.apply an.value bn.value

/-- The tapes that can be built. -/
inductive Built : List (Node F) → Prop where
  | nil : Built []
  /-- `Tensor(value)`. -/
  | leaf {ns : List (Node F)} (value : Matrix F) : Built ns → Built (ns ++ [⟨value, .leaf⟩])
  /-- `matmul`, `add` and `add_bias`. -/
  | node {ns : List (Node F)} {op : Op} {value : Matrix F} :
      Built ns → op.eval ns = some value → Built (ns ++ [⟨value, op⟩])

/-! ## `backward` -/

/-- The gradient of every node. -/
abbrev Grads (F : Type*) := Nat → Matrix F

/-- The gradients that the nodes are made with. -/
def fresh (ns : List (Node F)) : Grads F := fun i =>
  match ns[i]? with
  | some nd => .zeros nd.value.height nd.value.cols
  | none => .zeros 0 0

/-- `grad.add_inplace` of one node. -/
def addGrad (g : Grads F) (p : Nat) (m : Matrix F) : Option (Grads F) := do
  let sum ← (g p).addInplace m
  some (Function.update g p sum)

/-- The `backward_fn` of node `u`, if it has one. -/
def backwardFn (ns : List (Node F)) (g : Grads F) (u : Nat) : Option (Grads F) := do
  let on ← ns[u]?
  match on.op with
  | .leaf => some g
  | .matmul a b =>
      let an ← ns[a]?
      let bn ← ns[b]?
      let da ← (g u).matmul bn.value.transpose
      let g ← addGrad g a da
      let db ← an.value.transpose.matmul (g u)
      addGrad g b db
  | .add a b =>
      let g ← addGrad g a (g u)
      addGrad g b (g u)
  | .addBias a bias =>
      let g ← addGrad g a (g u)
      addGrad g bias (g u).sumRows

def parentsOf (ns : List (Node F)) (u : Nat) : List Nat :=
  match ns[u]? with
  | some nd => nd.op.parents
  | none => []

/-- `topo_sort` of node `n`, on `visited` and `order`. The recursion goes no deeper than
`fuel`; it is `none` if that does not suffice. -/
def topoSort (ns : List (Node F)) : Nat → Nat → List Nat × List Nat →
    Option (List Nat × List Nat)
  | 0, _, _ => none
  | fuel + 1, n, (visited, order) =>
      if n ∈ visited then some (visited, order)
      else do
        let (visited, order) ←
          (parentsOf ns n).foldlM (fun s p => topoSort ns fuel p s) (n :: visited, order)
        some (visited, order ++ [n])

/-- `backward` of node `out`. -/
def backward (ns : List (Node F)) (out : Nat) : Option (Grads F) := do
  let o ← ns[out]?
  if o.value.height = 1 ∧ o.value.cols = 1 then
    let g := Function.update (fresh ns) out (.ofFn 1 1 fun _ _ => 1)
    (topoSort ns (out + 1) out ([], [])).bind fun (_, order) =>
      order.reverse.foldlM (backwardFn ns) g
  else none

/-! ## Local derivatives -/

/-- The derivative of element `i` of an operation's value by element `k` of the operand in
slot `s`, at operands `x` and `y`. -/
def Op.deriv (op : Op) (x y : Matrix F) (s : Nat) (i k : Nat × Nat) : F :=
  match op, s with
  | .matmul .., 0 => if i.1 = k.1 then y.entry k.2 i.2 else 0
  | .matmul .., 1 => if i.2 = k.2 then x.entry i.1 k.1 else 0
  | .add .., 0 | .add .., 1 | .addBias .., 0 => if i = k then 1 else 0
  | .addBias .., 1 => if k = (0, i.2) then 1 else 0
  | _, _ => 0

end CrossMachine.Training
