import CrossMachine.Compiler.Tree

/-!
# Kernel specialisation: operations into calls of declared kernels

`KernelSpecPass` replaces every placed operation that has a kernel on its device by a call of
that kernel, and declares the kernel in the module. The walk is post-order, so the operations
of a fusion group are replaced before the group is; when the group is replaced too, they are
erased with it.

The name of a kernel depends on the kind of the operation and its device only, and a kernel
is declared once, with the types of the first operation that calls it. Later calls do not
look at that type. So a call has the declared type exactly when its operation has the types
of that first one, or of the function the module had under the name before the pass.

A call takes the place and the id of the operation it replaces: `replaceAllUsesWith` gives
each use the result of the same number and of the same type.
-/

namespace CrossMachine.Compiler.KernelSpec

/-- `lookupSymbol`: the kernel of an operation on a device, empty when there is none. -/
def lookupSymbol : TKind → DeviceKind → String
  | .matmul, .cpu => "cpu_engine::avx512::matvec_f32"
  | .matmul, .gpu => "gpu_engine::kernels::gemm_wmma"
  | .matmul, .fpga => "fpga_engine::dot_product"
  | .conv, .cpu => "cpu_engine::avx512::conv2d_f32"
  | .conv, .gpu => "gpu_engine::kernels::conv2d"
  | .relu, .cpu => "cpu_engine::branchless::relu_f32"
  | .relu, .gpu => "gpu_engine::kernels::relu"
  | .relu, .fpga => "fpga_engine::dot_product"
  | .gelu, .gpu => "gpu_engine::kernels::gelu"
  | .sigmoid, .gpu => "gpu_engine::kernels::sigmoid"
  | .add, .cpu => "cpu_engine::avx512::add_f32"
  | .add, .gpu => "gpu_engine::kernels::elementwise_add"
  | .softmax, .gpu => "gpu_engine::kernels::softmax"
  | _, _ => ""

/-- `lookupFusedSymbol`. -/
def lookupFusedSymbol (fusionKind : String) (device : DeviceKind) : String :=
  if device ≠ .gpu then ""
  else if fusionKind = "matmul_bias_relu" then "gpu_engine::kernels::gemm_bias_relu"
  else if fusionKind = "matmul_bias_gelu" then "gpu_engine::kernels::gemm_bias_gelu"
  else ""

/-- The operations that `runOnOperation` collects. -/
def isCandidate (o : TOp) : Bool :=
  o.kind.isRuntime && o.device.isSome &&
    match o.kind with
    | .kernelCall .. | .transfer .. | .allGather | .reduceScatter => false
    | _ => true

/-- The symbol of a candidate. -/
def symbolFor (o : TOp) : String :=
  match o.kind with
  | .fusionGroup fusionKind => lookupFusedSymbol fusionKind o.assignedDevice
  | kind => lookupSymbol kind o.assignedDevice

/-- A symbol of the module: its name, and its type if it is a function. -/
abbrev Symbols := List (String × Option FunctionType)

/-- The symbols at the top of a module, in order. -/
def symbolsOf (ops : List TOp) : Symbols :=
  ops.filterMap fun o => match o.kind with
    | .func name type => some (name, some type)
    | .symbol name => some (name, none)
    | _ => none

/-- `module.lookupSymbol<func::FuncOp>`: the first symbol of that name, if it is a function. -/
def lookupFunc (symbols : Symbols) (name : String) : Option FunctionType :=
  (symbols.lookup name).join

/-- `getOrCreateDecl`: a function of that name is kept whatever its type, and a new
declaration goes to the front of the module. -/
def getOrCreateDecl (symbols : Symbols) (name : String) (type : FunctionType) : Symbols :=
  if (lookupFunc symbols name).isSome then symbols else (name, some type) :: symbols

/-- An operation after the pass: a call that the pass put there, or any other operation. -/
inductive Lowered
  | call (id : Nat) (callee : String) (device : DeviceKind) (operands : List Value)
      (results : List Ty)
  | kept (id : Nat) (kind : TKind) (device : Option DeviceKind) (operands : List Value)
      (results : List Ty) (blocks : List Nat) (body : List Lowered)

/-- The module's symbols, and the counts for `runtime.kernels_lowered` and
`runtime.kernels_skipped`. -/
structure State where
  symbols : Symbols
  lowered : Nat
  skipped : Nat

mutual

/-- The loop over the candidates, one operation after those in its regions. -/
def lowerOp (s : State) : TOp → State × Lowered
  | .mk id kind device operands results blocks body =>
      let o := TOp.mk id kind device operands results blocks body
      let (s, body) := lowerOps s body
      if isCandidate o then
        if symbolFor o = "" then
          ({ s with skipped := s.skipped + 1 },
            .kept id kind device operands results blocks body)
        else
          ({ s with
              symbols := getOrCreateDecl s.symbols (symbolFor o) o.fnType
              lowered := s.lowered + 1 },
            .call id (symbolFor o) o.assignedDevice operands results)
      else (s, .kept id kind device operands results blocks body)

def lowerOps (s : State) : List TOp → State × List Lowered
  | [] => (s, [])
  | o :: ops =>
      let (s, o) := lowerOp s o
      let (s, ops) := lowerOps s ops
      (s, o :: ops)

end

/-- `runOnOperation` on a module. -/
def kernelSpec (ops : List TOp) : State × List Lowered :=
  lowerOps ⟨symbolsOf ops, 0, 0⟩ ops

/-- A kernel's name with the types it is used at. -/
structure Use where
  callee : String
  type : FunctionType
  deriving DecidableEq, Repr

mutual

/-- The calls of the module that the pass emitted: the name each has, and the types of its
operands and results. -/
def Lowered.calls : Lowered → List Use
  | .call _ callee _ operands results => [⟨callee, ⟨operands.map Value.ty, results⟩⟩]
  | .kept _ _ _ _ _ _ body => callsOf body

def callsOf : List Lowered → List Use
  | [] => []
  | o :: ops => o.calls ++ callsOf ops

end

/-- The kernel that an operation is specialised to. -/
def kernelOf (o : TOp) : Option Use :=
  if isCandidate o ∧ symbolFor o ≠ "" then some ⟨symbolFor o, o.fnType⟩ else none

mutual

/-- The specialised operations, in the order of the walk. -/
def specialised : TOp → List Use
  | .mk id kind device operands results blocks body =>
      specialisedIn body ++
        (kernelOf (.mk id kind device operands results blocks body)).toList

def specialisedIn : List TOp → List Use
  | [] => []
  | o :: ops => specialised o ++ specialisedIn ops

end

mutual

/-- The specialised operations that are in no other specialised operation. -/
def outermost : TOp → List Use
  | .mk id kind device operands results blocks body =>
      match kernelOf (.mk id kind device operands results blocks body) with
      | some u => [u]
      | none => outermostIn body

def outermostIn : List TOp → List Use
  | [] => []
  | o :: ops => outermost o ++ outermostIn ops

end

/-- The type under which a kernel is first known: that of the function which the module has
under its name, else that of the first specialised operation which calls it. -/
def firstType (ops : List TOp) (name : String) : Option FunctionType :=
  (lookupFunc (symbolsOf ops) name).or
    (((specialisedIn ops).find? fun u => u.callee = name).map Use.type)

/-! ## What a walk does -/

/-- The declarations that a list of specialised operations leads to. -/
def declare (symbols : Symbols) (uses : List Use) : Symbols :=
  uses.foldl (fun symbols u => getOrCreateDecl symbols u.callee u.type) symbols

theorem declare_append (symbols : Symbols) (uses uses' : List Use) :
    declare symbols (uses ++ uses') = declare (declare symbols uses) uses' :=
  List.foldl_append

mutual

/-- Walking an operation declares the kernels of the specialised operations in it, and leaves
the calls of the outermost. -/
theorem lowerOp_spec (s : State) : (o : TOp) →
    (lowerOp s o).1.symbols = declare s.symbols (specialised o) ∧
      (lowerOp s o).2.calls = outermost o
  | .mk id kind device operands results blocks body => by
      obtain ⟨hsymbols, hcalls⟩ := lowerOps_spec s body
      rw [lowerOp, specialised, outermost, kernelOf, declare_append, ← hsymbols]
      by_cases hcand : isCandidate (.mk id kind device operands results blocks body)
      · by_cases hsym : symbolFor (.mk id kind device operands results blocks body) = ""
        · simp only [hcand, hsym, if_true, ne_eq, not_true_eq_false, and_false, if_false]
          exact ⟨rfl, hcalls⟩
        · simp only [hcand, hsym, if_true, ne_eq, not_false_eq_true, and_self, if_false]
          exact ⟨rfl, rfl⟩
      · simp only [hcand, Bool.false_eq_true, false_and, if_false]
        exact ⟨rfl, hcalls⟩

theorem lowerOps_spec (s : State) : (ops : List TOp) →
    (lowerOps s ops).1.symbols = declare s.symbols (specialisedIn ops) ∧
      callsOf (lowerOps s ops).2 = outermostIn ops
  | [] => ⟨rfl, rfl⟩
  | o :: ops => by
      obtain ⟨hsymbols, hcalls⟩ := lowerOp_spec s o
      obtain ⟨hsymbols', hcalls'⟩ := lowerOps_spec (lowerOp s o).1 ops
      rw [lowerOps, specialisedIn, outermostIn, callsOf, declare_append, ← hsymbols, ← hcalls]
      exact ⟨hsymbols', congrArg _ hcalls'⟩

end

/-! ## What a name is declared as -/

theorem lookupFunc_getOrCreateDecl (symbols : Symbols) (name callee : String)
    (type : FunctionType) :
    lookupFunc (getOrCreateDecl symbols callee type) name =
      (lookupFunc symbols name).or (if callee = name then some type else none) := by
  rw [getOrCreateDecl]
  by_cases hname : callee = name
  · subst hname
    cases hold : lookupFunc symbols callee with
    | none => simp [lookupFunc]
    | some type' => simp [hold]
  · rw [if_neg hname, Option.or_none]
    split
    · rfl
    · have hbeq : (name == callee) = false := by simpa using Ne.symm hname
      simp [lookupFunc, List.lookup_cons, hbeq]

/-- A declaration is never changed, and the first use makes it. -/
theorem lookupFunc_declare (symbols : Symbols) (uses : List Use) (name : String) :
    lookupFunc (declare symbols uses) name =
      (lookupFunc symbols name).or
        ((uses.find? fun u => u.callee = name).map Use.type) := by
  induction uses generalizing symbols with
  | nil => simp [declare]
  | cons u uses ih =>
      have hstep : declare symbols (u :: uses) =
          declare (getOrCreateDecl symbols u.callee u.type) uses := rfl
      rw [hstep, ih, lookupFunc_getOrCreateDecl, Option.or_assoc]
      by_cases hname : u.callee = name
      · simp [hname]
      · simp [hname]

/-- The pass emits well-typed calls exactly when every outermost specialised operation has
the type under which its kernel is first known. -/
theorem kernelSpec_typed_iff (ops : List TOp) :
    (∀ c ∈ callsOf (kernelSpec ops).2,
      lookupFunc (kernelSpec ops).1.symbols c.callee = some c.type) ↔
    ∀ u ∈ outermostIn ops, firstType ops u.callee = some u.type := by
  obtain ⟨hsymbols, hcalls⟩ := lowerOps_spec ⟨symbolsOf ops, 0, 0⟩ ops
  rw [kernelSpec, hcalls, hsymbols]
  simp only [lookupFunc_declare]
  rfl

/-- Two placed activations of different shapes. -/
def twoShapes : List TOp :=
  let vec (n : Nat) : Ty := .tensor [some n] (.float 32)
  [.mk 0 (.func "main" ⟨[vec 4, vec 8], []⟩) none [] [] [0]
    [.mk 1 .relu (some .cpu) [⟨.arg 0, vec 4⟩] [vec 4] [] [],
      .mk 2 .relu (some .cpu) [⟨.arg 1, vec 8⟩] [vec 8] [] []]]

/-- The second call names a kernel that is declared with the types of the first. -/
theorem twoShapes_mistyped :
    ¬ ∀ c ∈ callsOf (kernelSpec twoShapes).2,
      lookupFunc (kernelSpec twoShapes).1.symbols c.callee = some c.type := by
  decide

end CrossMachine.Compiler.KernelSpec
