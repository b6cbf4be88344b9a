import CrossMachine.Compiler.Ir

/-!
# Operations with regions and devices

The passes that place operations and lower them to kernels walk whole modules: operations
with regions inside regions, each with the attribute `runtime.device` that placement gives
it. A value carries its type, as an MLIR value does.

The arguments of the blocks of a region are written as results of the id of their block, so
that the arguments of the function are the only `arg`s. Regions and blocks of one operation
come one after another in its body: no pass of this development asks which of them an
operation is in.
-/

namespace CrossMachine.Compiler

/-- `DeviceKind`, whose zero is the CPU. -/
inductive DeviceKind
  | cpu
  | gpu
  | fpga
  | tpu
  | npu
  | unassigned
  deriving DecidableEq, Repr

structure FunctionType where
  inputs : List Ty
  results : List Ty
  deriving DecidableEq, Repr

structure Value where
  ref : Val
  ty : Ty
  deriving DecidableEq, Repr

/-- The operations of the dialect, functions, other symbols of a module, and operations of
any other dialect. -/
inductive TKind
  | matmul
  | conv
  | relu
  | gelu
  | sigmoid
  | add
  | mul
  | sub
  | softmax
  | reduce
  | gather
  | scatter
  | yield
  | fusionGroup (fusionKind : String)
  | transfer (src dst : DeviceKind)
  | allGather
  | reduceScatter
  | kernelCall (callee : String) (device : DeviceKind)
  | func (name : String) (type : FunctionType)
  | symbol (name : String)
  | foreign (tag : Nat)
  deriving DecidableEq, Repr

/-- `op->getDialect()->getNamespace() == "runtime"`. -/
def TKind.isRuntime : TKind → Bool
  | .func .. | .symbol _ | .foreign _ => false
  | _ => true

inductive TOp
  | mk (id : Nat) (kind : TKind) (device : Option DeviceKind) (operands : List Value)
      (results : List Ty) (blocks : List Nat) (body : List TOp)

namespace TOp

def id : TOp → Nat
  | .mk id .. => id

def kind : TOp → TKind
  | .mk _ kind .. => kind

/-- The attribute `runtime.device`; one that is no `DeviceAttr` is read as `unassigned`. -/
def device : TOp → Option DeviceKind
  | .mk _ _ device .. => device

def operands : TOp → List Value
  | .mk _ _ _ operands .. => operands

def results : TOp → List Ty
  | .mk _ _ _ _ results .. => results

/-- The blocks of its regions. -/
def blocks : TOp → List Nat
  | .mk _ _ _ _ _ blocks _ => blocks

def body : TOp → List TOp
  | .mk _ _ _ _ _ _ body => body

/-- `getAssignedDevice`. -/
def assignedDevice (o : TOp) : DeviceKind := o.device.getD .unassigned

/-- `getFunctionType` of the operand types and the result types. -/
def fnType (o : TOp) : FunctionType := ⟨o.operands.map Value.ty, o.results⟩

end TOp

end CrossMachine.Compiler
