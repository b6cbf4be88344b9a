import CrossMachine.Compiler.Ir
import CrossMachine.Lib.Run
import Mathlib.Algebra.Order.Ring.Int

/-!
# Shape inference

`ShapeInferencePass` keeps a worklist of operations. It visits one, asks `inferReturnTypes`
for its type, and takes the answer only if it strictly refines the type the result has; then
the users of the result are visited again.

A function is its operations in program order and the declared types of its values. The
operations inside of the groups are among them, since the walk of the source goes through
them as well, and so are the arguments of their blocks among the arguments. Every operation
that can be inferred has one result.

The pass visits the operation that was inserted last. The results are about any order: a run
is a sequence of visits, each of some operation that is on the worklist. The order in which the
users of a result are put on it is that of its use list, which is left open.
-/

namespace CrossMachine.Compiler.Shape

open Lib

/-! ## Types -/

/-- `ShapedType::kDynamic`, the least 64-bit integer. -/
def kDynamic : Int := -2 ^ 63

def isDynamic (d : Int) : Bool := d = kDynamic

inductive TensorTy
  | ranked (shape : List Int) (elem : Elem)
  | unranked (elem : Elem)
  deriving DecidableEq, Repr

/-- `RankedTensorType::hasStaticShape`, and false for what is not ranked. -/
def TensorTy.isStatic : TensorTy → Bool
  | .ranked shape _ => shape.all fun d => !isDynamic d
  | .unranked _ => false

def isUnresolved (ty : TensorTy) : Bool := !ty.isStatic

/-- The loop of `isRefinement` over the dimensions, with the flag `strictlyBetter`. -/
def refineLoop : Bool → List (Int × Int) → Bool
  | strictlyBetter, [] => strictlyBetter
  | strictlyBetter, (o, n) :: dims =>
      if o = n then refineLoop strictlyBetter dims
      else if isDynamic o && !isDynamic n then refineLoop true dims
      else false

/-- The new type is ranked, and the old one is not or has fewer static dimensions. The
element types are not looked at. -/
def isRefinement : TensorTy → TensorTy → Bool
  | _, .unranked _ => false
  | .unranked _, .ranked .. => true
  | .ranked old _, .ranked new _ =>
      if old.length ≠ new.length then false else refineLoop false (old.zip new)

/-! ## `inferReturnTypes` -/

/-- The operations of the dialect as shape inference tells them apart. `softmax`, `transfer`
and the collectives have the trait `SameOperandsAndResultType`; `foreign` is every operation
that does not implement `InferTypeOpInterface`. -/
inductive ShapeKind
  | matmul (transposeLhs transposeRhs : Bool)
  | conv (strides padding dilations : List Int)
  | relu
  | gelu
  | sigmoid
  | add
  | mul
  | sub
  | softmax
  | transfer
  | allGather
  | reduceScatter
  | foreign
  deriving DecidableEq, Repr

/-- `isa<InferTypeOpInterface>`. -/
def infers : ShapeKind → Bool
  | .foreign => false
  | _ => true

def broadcastDim (l r : Int) : Int :=
  if l = r then l else if l = 1 then r else if r = 1 then l else kDynamic

def inferElementwiseResult : TensorTy → TensorTy → TensorTy
  | .ranked lhs elem, .ranked rhs _ =>
      if lhs.length ≠ rhs.length then
        .ranked (List.replicate (max lhs.length rhs.length) kDynamic) elem
      else .ranked (List.zipWith broadcastDim lhs rhs) elem
  | lhs, _ => lhs

def inferMatmul (transposeLhs transposeRhs : Bool) : TensorTy → TensorTy → TensorTy
  | .ranked lhs elem, .ranked rhs _ =>
      if lhs.length < 2 ∨ rhs.length < 2 then .ranked lhs elem
      else
        let m := if transposeLhs then lhs.getD (lhs.length - 1) 0 else lhs.getD (lhs.length - 2) 0
        let n := if transposeRhs then rhs.getD (rhs.length - 2) 0 else rhs.getD (rhs.length - 1) 0
        .ranked (lhs.take (lhs.length - 2) ++ [m, n]) elem
  | lhs, _ => lhs

/-- Arithmetic of `int64_t`. -/
def i64 (x : Int) : Int := Int.bmod x (2 ^ 64)

/-- The lambda `spatialOut`. Only the dimension of the input is checked for being dynamic. -/
def spatialOut (strides padding dilations : List Int) (inDim kDim : Int) (idx : Nat) : Int :=
  if isDynamic inDim then kDynamic
  else
    let effK := i64 (i64 (i64 (kDim - 1) * dilations.getD idx 0) + 1)
    i64 (Int.tdiv (i64 (i64 (inDim + i64 (2 * padding.getD idx 0)) - effK))
      (strides.getD idx 0) + 1)

def inferConv (strides padding dilations : List Int) : TensorTy → TensorTy → TensorTy
  | .ranked input elem, .ranked filter _ =>
      if input.length ≠ 4 ∨ filter.length ≠ 4 then .ranked input elem
      else
        .ranked [input.getD 0 0, filter.getD 0 0,
          spatialOut strides padding dilations (input.getD 2 0) (filter.getD 2 0) 0,
          spatialOut strides padding dilations (input.getD 3 0) (filter.getD 3 0) 1] elem
  | input, _ => input

/-- `inferReturnTypes` of all kinds, on the types of the operands. -/
def inferReturnTypes : ShapeKind → List TensorTy → Option TensorTy
  | .matmul tl tr, lhs :: rhs :: _ => some (inferMatmul tl tr lhs rhs)
  | .conv s p d, input :: filter :: _ => some (inferConv s p d input filter)
  | .relu, x :: _ | .gelu, x :: _ | .sigmoid, x :: _ | .softmax, x :: _ | .transfer, x :: _
  | .allGather, x :: _ | .reduceScatter, x :: _ => some x
  | .add, lhs :: rhs :: _ | .mul, lhs :: rhs :: _ | .sub, lhs :: rhs :: _ =>
      some (inferElementwiseResult lhs rhs)
  | _, _ => none

/-! ## The pass -/

structure ShapeOp where
  id : Nat
  kind : ShapeKind
  operands : List Val
  deriving DecidableEq, Repr

structure State where
  types : Val → TensorTy
  worklist : List Nat

/-- `SetVector::insert`. -/
def insertOp (worklist : List Nat) (op : Nat) : List Nat :=
  if op ∈ worklist then worklist else worklist ++ [op]

/-- The users of the result of an operation that can be inferred themselves. -/
def inferringUsers (ops : List ShapeOp) (op : Nat) : List Nat :=
  (ops.filter fun o => infers o.kind ∧ .res op 0 ∈ o.operands).map ShapeOp.id

/-- Those users as `getUsers` gives them: in the order of the use list, whatever that is, and a
user of which two operands are the value twice. -/
structure UseLists (ops : List ShapeOp) where
  getUsers : Nat → List Nat
  mem_getUsers : ∀ op i, i ∈ getUsers op ↔ i ∈ inferringUsers ops op

/-- The last user first. -/
def UseLists.newestFirst (ops : List ShapeOp) : UseLists ops where
  getUsers op := (inferringUsers ops op).reverse
  mem_getUsers _ _ := List.mem_reverse

variable {ops : List ShapeOp}

/-- The worklist with every operation whose type is not known, in program order. -/
def start (ops : List ShapeOp) (declared : Val → TensorTy) : State where
  types := declared
  worklist := (ops.filter fun o => infers o.kind ∧ isUnresolved (declared (.res o.id 0))).map
    ShapeOp.id

/-- The body of the loop for one operation that has left the worklist. -/
def refineResult (uses : UseLists ops) (st : State) (op : ShapeOp) : State :=
  match inferReturnTypes op.kind (op.operands.map st.types) with
  | none => st
  | some newTy =>
      if isRefinement (st.types (.res op.id 0)) newTy then
        { types := Function.update st.types (.res op.id 0) newTy
          worklist := (uses.getUsers op.id).foldl insertOp st.worklist }
      else st

/-- The visit of an operation on the worklist. -/
def visit (uses : UseLists ops) (st : State) (op : ShapeOp) : Option (State × List Nat) :=
  if op ∈ ops ∧ op.id ∈ st.worklist then
    some (refineResult uses { st with worklist := st.worklist.erase op.id } op, [op.id])
  else none

/-- The loop with `pop_back_val`, cut off after `maxIters` visits. -/
def inferLoop (uses : UseLists ops) : Nat → State → State
  | 0, st => st
  | maxIters + 1, st =>
      match st.worklist.getLast?.bind fun i => ops.find? fun o => o.id = i with
      | none => st
      | some op =>
          inferLoop uses maxIters
            (refineResult uses { st with worklist := st.worklist.erase op.id } op)

def runOnOperation (uses : UseLists ops) (declared : Val → TensorTy) : State :=
  let st := start ops declared
  inferLoop uses (4 * max 1 st.worklist.length) st

end CrossMachine.Compiler.Shape
