import CrossMachine.Compiler.Eval
import Mathlib.Algebra.Order.Ring.Int

/-!
# Fusion: chains of operations into isolated groups

`FusionPass` looks for an activation whose input comes, through an optional bias add, from a
matmul or a convolution, every operation of the chain with one use. A match is replaced by a
`runtime.fusion_group`: the chain is cloned into the region of the group, its external inputs
become the operands of the group and the arguments of the region's block, and the operations
of the chain are erased.

The region is isolated from above, so it has values of its own. Argument `i` of the block of
a region is written as result `i` of the id of that block; an argument of the function is
never one of them, and neither is a result of an operation outside. A well-formed group
mentions its own values only.

Which ids the new operations get is up to the context that allocates them: they are any that
come after all ids the block has.
-/

namespace CrossMachine.Compiler

/-- The operations that fusion tells apart beyond the elementwise ones. -/
inductive Extra
  | matmul (transposeLhs transposeRhs : Bool)
  | conv (strides padding dilations : List Int)
  | yield
  | fusionGroup (fusionKind : String) (block : Nat) (args : List Ty) (body : List (Op Extra))
  | blockArgs
  | foreign (tag : Nat)

abbrev GOp := Op Extra

abbrev GKind := Kind Extra

/-- The arguments of the block of a region, as an operation that has them as its results. -/
def header (block : Nat) (args : List Ty) : GOp where
  id := block
  kind := .other .blockArgs
  operands := []
  results := args
  bufferOffset := none

def isMatmulLike : GKind → Bool
  | .other (.matmul ..) | .other (.conv ..) => true
  | _ => false

def isMatmul : GKind → Bool
  | .other (.matmul ..) => true
  | _ => false

def isAdd : GKind → Bool
  | .add => true
  | _ => false

/-- The name under which `runOnOperation` adds the pattern for an activation. -/
def actName : GKind → Option String
  | .relu => some "relu"
  | .gelu => some "gelu"
  | .sigmoid => some "sigmoid"
  | _ => none

/-! ## Matching -/

/-- `Value::getDefiningOp`, which a block argument does not have. -/
def definingOp (body : List GOp) : Val → Option GOp
  | .arg _ => none
  | .res op _ => body.find? fun o => o.id = op

/-- The value is a result of the operation. -/
def isResultOf (op : Nat) : Val → Bool
  | .arg _ => false
  | .res op' _ => op' = op

/-- The uses of an operation's results in one operation. -/
def usesIn (op : Nat) (o : GOp) : Nat := o.operands.countP (isResultOf op)

/-- `Operation::hasOneUse`. -/
def singleUse (body : List GOp) (o : GOp) : Bool := (body.map (usesIn o.id)).sum = 1

structure MatchedChain where
  root : GOp
  bias : Option GOp
  kind : String

/-- The table `kindNames`. -/
def kindName (matmul bias : Bool) : String :=
  match matmul, bias with
  | true, true => "matmul_bias_"
  | true, false => "matmul_"
  | false, true => "conv_bias_"
  | false, false => "conv_"

def mkChain (root : GOp) (bias : Option GOp) (act : String) : MatchedChain where
  root := root
  bias := bias
  kind := kindName (isMatmul root.kind) bias.isSome ++ act

/-- The matmul or convolution behind an add: the one on the left if there is one, else the
one on the right. -/
def matmulBehind (body : List GOp) (add : GOp) : Option GOp :=
  let lhsDef := add.operands[0]?.bind (definingOp body)
  let rhsDef := add.operands[1]?.bind (definingOp body)
  if lhsDef.any fun o => isMatmulLike o.kind then lhsDef
  else if rhsDef.any fun o => isMatmulLike o.kind then rhsDef
  else none

def matchChain (body : List GOp) (act : GOp) (name : String) : Option MatchedChain :=
  match act.operands[0]?.bind (definingOp body) with
  | none => none
  | some producer =>
      if isAdd producer.kind then
        if singleUse body producer then
          match matmulBehind body producer with
          | none => none
          | some root =>
              if singleUse body root then some (mkChain root (some producer) name) else none
        else none
      else if isMatmulLike producer.kind then
        if singleUse body producer then some (mkChain producer none name) else none
      else none

/-! ## Rewriting -/

/-- `biasExternal`: the operand of the add that is not the root. -/
def biasExternal (chain : MatchedChain) (add : GOp) : List Val :=
  if add.operands[0]? = some (.res chain.root.id 0) then add.operands[1]?.toList
  else add.operands[0]?.toList

/-- The two first operands of the root, and the bias of the add. -/
def externalInputs (chain : MatchedChain) : List Val :=
  chain.root.operands.take 2 ++ chain.bias.toList.flatMap (biasExternal chain)

/-- `IRMapping::lookupOrDefault`; what was mapped last is found first. -/
def mapVal (m : List (Val × Val)) (v : Val) : Val := (m.lookup v).getD v

/-- The external inputs mapped to the arguments of the block. -/
def argMapping (block : Nat) (exts : List Val) : List (Val × Val) :=
  (exts.zipIdx.map fun p => (p.1, Val.res block p.2)).reverse

/-- The clones of some operations, each under the mapping that the clones before it have
left. -/
def cloneOps : List (Val × Val) → Nat → List GOp → List GOp
  | _, _, [] => []
  | m, c, o :: ops =>
      { o with id := c, operands := o.operands.map (mapVal m) } ::
        cloneOps ((.res o.id 0, .res c 0) :: m) (c + 1) ops

/-- The operations of the chain in order, the activation last. -/
def chainOps (chain : MatchedChain) (act : GOp) : List GOp :=
  chain.root :: (chain.bias.toList ++ [act])

def yieldOp (id : Nat) (v : Val) : GOp where
  id := id
  kind := .other .yield
  operands := [v]
  results := []
  bufferOffset := none

/-- The block of the group: the clones and the yield of the last one. Its id is `n + 1`, the
clones have the ids from `n + 2` on. -/
def groupBody (n : Nat) (chain : MatchedChain) (act : GOp) : List GOp :=
  let ops := chainOps chain act
  cloneOps (argMapping (n + 1) (externalInputs chain)) (n + 2) ops ++
    [yieldOp (n + 2 + ops.length) (.res (n + 1 + ops.length) 0)]

/-- `Value::getType`. -/
def typeOf (args : List Ty) (block : List GOp) : Val → Option Ty
  | .arg i => args[i]?
  | .res op k => (block.find? fun o => o.id = op).bind fun o => o.results[k]?

/-- `create<FusionGroupOp>` and the filling of its region. -/
def groupOp (n : Nat) (args : List Ty) (block : List GOp) (chain : MatchedChain) (act : GOp) :
    GOp where
  id := n
  kind := .other (.fusionGroup chain.kind (n + 1)
    ((externalInputs chain).filterMap (typeOf args block)) (groupBody n chain act))
  operands := externalInputs chain
  results := act.results
  bufferOffset := none

def insertBefore (op : Nat) (new : GOp) (body : List GOp) : List GOp :=
  body.flatMap fun o => if o.id = op then [new, o] else [o]

def replaceAllUses (v v' : Val) (body : List GOp) : List GOp := body.map fun o => o.rewire v v'

def eraseOp (op : Nat) (body : List GOp) : List GOp := body.filter fun o => o.id ≠ op

/-- `matchAndRewrite` after a match: `group` goes in front of the activation and takes over
its uses, then the activation, the add and the root are erased. -/
def fuse (group : GOp) (chain : MatchedChain) (act : GOp) (body : List GOp) : List GOp :=
  let body := insertBefore act.id group body
  let body := eraseOp act.id (replaceAllUses (.res act.id 0) (.res group.id 0) body)
  let body := chain.bias.elim body fun add => eraseOp add.id body
  eraseOp chain.root.id body

/-- The ids that a block has or mentions. -/
def usedIds (block : List GOp) : List Nat :=
  ids block ++ (block.flatMap Op.operands).filterMap fun
    | .arg _ => none
    | .res op _ => some op

/-- One rewrite, of a match in the block or in a region of it. The block has the arguments
`args` of a function, or `seen`, the header of a region. -/
inductive FuseStep : List Ty → List GOp → List GOp → MatchedChain → List GOp → Prop
  | here {args : List Ty} {seen body : List GOp} {act : GOp} {name : String}
      {chain : MatchedChain} {n : Nat} (hact : act ∈ body) (hname : actName act.kind = some name)
      (hmatch : matchChain body act name = some chain)
      (hfresh : ∀ i ∈ usedIds (seen ++ body), i < n) :
      FuseStep args seen body chain
        (fuse (groupOp n args (seen ++ body) chain act) chain act body)
  | inside {args tys : List Ty} {seen pre post inner inner' : List GOp} {o : GOp}
      {fusionKind : String} {block : Nat} {chain : MatchedChain}
      (hkind : o.kind = .other (.fusionGroup fusionKind block tys inner))
      (hstep : FuseStep [] [header block tys] inner chain inner') :
      FuseStep args seen (pre ++ o :: post) chain
        (pre ++ { o with kind := .other (.fusionGroup fusionKind block tys inner') } :: post)

/-! ## Meaning -/

/-- What every operation without a region does, and the value of what is not defined. -/
structure LeafSem (V σ : Type) where
  exec : GKind → List V → σ → (Nat → V) × σ
  undef : V

variable {V σ : Type}

/-- The environment of a region: the arguments of its block, and nothing from outside. -/
def regionEnv (undef : V) (block : Nat) (vs : List V) : Val → V
  | .arg _ => undef
  | .res op i => if op = block then vs.getD i undef else undef

mutual

/-- A group runs its block on its operands; its results are the operands of the yield. -/
def execExtra (L : LeafSem V σ) : Extra → List V → σ → (Nat → V) × σ
  | .fusionGroup _ block _ body, vs, s =>
      let st := evalBlock L body (regionEnv L.undef block vs, s)
      (fun k => ((body.getLast?.map fun o => o.operands.map st.1).getD []).getD k L.undef, st.2)
  | k, vs, s => L.exec (.other k) vs s

def execKind (L : LeafSem V σ) : GKind → List V → σ → (Nat → V) × σ
  | .other k, vs, s => execExtra L k vs s
  | k, vs, s => L.exec k vs s

def evalOne (L : LeafSem V σ) : GOp → (Val → V) × σ → (Val → V) × σ
  | ⟨id, kind, operands, _, _⟩, st =>
      let r := execKind L kind (operands.map st.1) st.2
      (bindResults st.1 id r.1, r.2)

def evalBlock (L : LeafSem V σ) : List GOp → (Val → V) × σ → (Val → V) × σ
  | [], st => st
  | o :: body, st => evalBlock L body (evalOne L o st)

end

/-- The meaning of all operations. -/
def LeafSem.sem (L : LeafSem V σ) : Sem Extra V σ := ⟨execKind L⟩

/-- The operations that the dialect declares `Pure` and that a chain is made of. -/
def LeafSem.Pure (L : LeafSem V σ) : Prop :=
  ∀ k : GKind, (actName k).isSome ∨ isAdd k = true ∨ isMatmulLike k = true ∨ k = .other .yield →
    ∀ vs s s', (L.exec k vs s).2 = s ∧ (L.exec k vs s).1 = (L.exec k vs s').1

/-! ## Well-formed functions -/

/-- The number of operands and results that the dialect fixes. The arguments of a block are
no operation. -/
def Arity (o : GOp) : Prop :=
  match o.kind with
  | .relu | .gelu | .sigmoid => o.operands.length = 1 ∧ o.results.length = 1
  | .add | .mul | .sub => o.operands.length = 2 ∧ o.results.length = 1
  | .other (.matmul ..) | .other (.conv ..) =>
      (o.operands.length = 2 ∨ o.operands.length = 3) ∧ o.results.length = 1
  | .other .yield => o.results = []
  | .other .blockArgs => False
  | .other (.fusionGroup ..) | .other (.foreign _) => True

/-- The types of the operands are as the operation demands. The block of a group has an
argument for every operand, a yield takes anything, and for the others `verify` is what the
verifiers of the dialects check. -/
def Accepts (verify : GKind → List Ty → List Ty → Prop) (o : GOp) (tys : List Ty) : Prop :=
  match o.kind with
  | .other (.fusionGroup _ _ args _) => tys = args
  | .other .yield => True
  | k => verify k tys o.results

structure OpOk (verify : GKind → List Ty → List Ty → Prop) (args : List Ty) (block : List GOp)
    (o : GOp) : Prop where
  arity : Arity o
  types : ∃ tys, o.operands.map (typeOf args block) = tys.map some ∧ Accepts verify o tys

/-- A function ends in a terminator of its own dialect, the block of a group in the yield of
the group's results. -/
def Ends (args : List Ty) (block : List GOp) (t : GOp) : Option (List Ty) → Prop
  | none => ∃ tag, t.kind = .other (.foreign tag)
  | some tys => t.kind = .other .yield ∧ t.operands.map (typeOf args block) = tys.map some

structure Terminated (args : List Ty) (block body : List GOp) (yields : Option (List Ty)) :
    Prop where
  last : ∃ t, body.getLast? = some t ∧ Ends args block t yields
  yields : ∀ o ∈ body.dropLast, o.kind ≠ .other .yield

/-- A block that may use the arguments `args` and what `seen` defines, and nothing else from
outside. A region has no arguments of a function, and sees its own header only. -/
inductive WfBlock (verify : GKind → List Ty → List Ty → Prop) :
    List Ty → List GOp → List GOp → Option (List Ty) → Prop
  | intro {args : List Ty} {seen body : List GOp} {yields : Option (List Ty)}
      (ssa : Ssa args.length (seen ++ body))
      (ops : ∀ o ∈ body, OpOk verify args (seen ++ body) o)
      (terminated : Terminated args (seen ++ body) body yields)
      (regions : ∀ o ∈ body, ∀ fusionKind block tys inner,
        o.kind = .other (.fusionGroup fusionKind block tys inner) →
        WfBlock verify [] [header block tys] inner (some o.results)) :
      WfBlock verify args seen body yields

/-- The pattern matches an activation of the block or of a region in it. -/
inductive HasMatch : List GOp → Prop
  | here {body : List GOp} {act : GOp} {name : String} {chain : MatchedChain} (hact : act ∈ body)
      (hname : actName act.kind = some name) (hmatch : matchChain body act name = some chain) :
      HasMatch body
  | inside {body inner : List GOp} {o : GOp} {fusionKind : String} {block : Nat} {tys : List Ty}
      (ho : o ∈ body) (hkind : o.kind = .other (.fusionGroup fusionKind block tys inner))
      (hinner : HasMatch inner) : HasMatch body

/-- Every operand of the root is an external input: the root has no optional operand, or
the optional operand is also one of the others, or the bias of the add. -/
def InputsMapped (chain : MatchedChain) : Prop :=
  ∀ v ∈ chain.root.operands, v ∈ externalInputs chain

instance (chain : MatchedChain) : Decidable (InputsMapped chain) :=
  inferInstanceAs (Decidable (∀ v ∈ chain.root.operands, v ∈ externalInputs chain))

end CrossMachine.Compiler
