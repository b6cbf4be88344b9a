import CrossMachine.Compiler.Ir

/-!
# What a block computes

A block runs its operations in order, over an environment that gives every value and a state
that stands for whatever else an operation may read or change. What an operation does with
its operands is a parameter; an operation is pure when it neither reads nor changes the
state.

In SSA form a value never changes once it is there, so the environment at the end has every
value that was ever read, and the result of a pure operation is at any later point what the
operation would compute there again. `eval_pure` says that, and it is all that makes copying
an operation sound.
-/

namespace CrossMachine.Compiler

/-- The values of all results of the operation, by number, and the state after it. -/
structure Sem (κ V σ : Type) where
  exec : Kind κ → List V → σ → (Nat → V) × σ

variable {κ V σ : Type}

/-- The kind neither reads nor changes the state. -/
def Sem.Pure (S : Sem κ V σ) (k : Kind κ) : Prop :=
  ∀ vs s s', (S.exec k vs s).2 = s ∧ (S.exec k vs s).1 = (S.exec k vs s').1

/-- The environment with the results of one operation. -/
def bindResults (env : Val → V) (op : Nat) (rs : Nat → V) : Val → V
  | .arg i => env (.arg i)
  | .res op' k => if op' = op then rs k else env (.res op' k)

/-- One operation. -/
def evalOp (S : Sem κ V σ) (st : (Val → V) × σ) (o : Op κ) : (Val → V) × σ :=
  let r := S.exec o.kind (o.operands.map st.1) st.2
  (bindResults st.1 o.id r.1, r.2)

def eval (S : Sem κ V σ) (body : List (Op κ)) (st : (Val → V) × σ) : (Val → V) × σ :=
  body.foldl (evalOp S) st

/-- The operands of the terminator. -/
def returned (S : Sem κ V σ) (body : List (Op κ)) (st : (Val → V) × σ) : Option (List V) :=
  body.getLast?.map fun o => o.operands.map (eval S body st).1

variable {S : Sem κ V σ} {body pre post : List (Op κ)} {o : Op κ} {v : Val} {nargs : Nat}
  {st : (Val → V) × σ} {c : Nat}

theorem eval_append : eval S (pre ++ post) st = eval S post (eval S pre st) :=
  List.foldl_append

theorem eval_cons : eval S (o :: post) st = eval S post (evalOp S st o) := rfl

theorem evalOp_env : (evalOp S st o).1 =
    bindResults st.1 o.id (S.exec o.kind (o.operands.map st.1) st.2).1 := rfl

variable {env : Val → V} {op i : Nat} {rs : Nat → V} {seen : List (Op κ)}

@[simp] theorem bindResults_self {k : Nat} :
    bindResults env op rs (.res op k) = rs k := if_pos rfl

/-- The value is no result of the operation. -/
def NotOf (op : Nat) (v : Val) : Prop := ∀ k, v ≠ .res op k

theorem bindResults_of_notOf (h : NotOf op v) : bindResults env op rs v = env v := by
  cases v with
  | arg i => rfl
  | res op' k => exact if_neg fun heq : op' = op => h k (by rw [heq])

/-- Operations leave every value alone that is none of their results. -/
theorem eval_of_notOf (h : ∀ i ∈ ids body, NotOf i v) : (eval S body st).1 v = st.1 v := by
  induction body generalizing st with
  | nil => rfl
  | cons o body ih =>
      obtain ⟨ho, hbody⟩ := List.forall_mem_cons.mp h
      rw [eval_cons, ih hbody, evalOp_env, bindResults_of_notOf ho]

/-- A value that some operations define is no result of the operations after them. -/
theorem notOf_of_defined (h : Defined nargs seen v) (hnot : i ∉ ids seen) : NotOf i v := by
  rintro k rfl
  obtain ⟨o, ho, rfl, -⟩ := h
  exact hnot (mem_ids ho)

/-- What stands in SSA form before an operation and is read by it. -/
theorem Ssa.operands_defined (h : Ssa nargs (pre ++ o :: post)) :
    ∀ v ∈ o.operands, Defined nargs pre v := by
  have := (definedFirst_append.mp h.first).2
  simpa [DefinedFirst] using this.1

theorem Ssa.left (h : Ssa nargs (pre ++ post)) : Ssa nargs pre where
  nodup := by
    have := h.nodup
    rw [ids, List.map_append] at this
    exact (List.nodup_append.mp this).1
  first := (definedFirst_append.mp h.first).1

/-- The ids of two parts of a block have nothing in common. -/
theorem Ssa.notMem_of_mem (h : Ssa nargs (pre ++ post)) (hi : i ∈ ids post) : i ∉ ids pre := by
  have := h.nodup
  rw [ids, List.map_append] at this
  exact fun hpre => (List.nodup_append.mp this).2.2 i hpre i hi rfl

/-- After a block in SSA form the operands of an operation are as it has read them. The block
may run on top of values that `seen` stands for. -/
theorem Ssa.eval_operands (h : Ssa nargs (seen ++ (pre ++ o :: post))) :
    o.operands.map (eval S (pre ++ o :: post) st).1 = o.operands.map (eval S pre st).1 := by
  rw [← List.append_assoc] at h
  refine List.map_congr_left fun v hv => ?_
  rw [eval_append]
  exact eval_of_notOf fun i hi =>
    notOf_of_defined (h.operands_defined v hv) (h.notMem_of_mem hi)

/-- The result of a pure operation is what it would compute from its operands at the end. -/
theorem eval_pure_seen (h : Ssa nargs (seen ++ body)) (ho : o ∈ body) (hpure : S.Pure o.kind)
    (k : Nat) (s : σ) :
    (eval S body st).1 (.res o.id k) =
      (S.exec o.kind (o.operands.map (eval S body st).1) s).1 k := by
  obtain ⟨pre, post, rfl⟩ := List.append_of_mem ho
  have hrest : (eval S (pre ++ o :: post) st).1 (.res o.id k) =
      (evalOp S (eval S pre st) o).1 (.res o.id k) := by
    rw [eval_append, eval_cons]
    refine eval_of_notOf fun i hi k' heq => ?_
    obtain ⟨rfl, -⟩ := Val.res.inj heq
    have hsplit : Ssa nargs ((seen ++ pre ++ [o]) ++ post) := by simpa using h
    exact hsplit.notMem_of_mem hi (by simp [ids])
  rw [hrest, h.eval_operands, evalOp_env, bindResults_self]
  exact congrFun (hpure _ _ _).2 k

theorem eval_pure (h : Ssa nargs body) (ho : o ∈ body) (hpure : S.Pure o.kind) (k : Nat) (s : σ) :
    (eval S body st).1 (.res o.id k) =
      (S.exec o.kind (o.operands.map (eval S body st).1) s).1 k := by
  rw [← List.nil_append body] at h
  exact eval_pure_seen h ho hpure k s

/-- Nobody reads what is not there. -/
theorem Ssa.notOf (h : Ssa nargs body) (hc : c ∉ ids body) (ho : o ∈ body)
    (hv : v ∈ o.operands) : NotOf c v := by
  obtain ⟨pre, post, rfl⟩ := List.append_of_mem ho
  refine notOf_of_defined (h.operands_defined v hv) fun hin => hc ?_
  rw [ids, List.map_append]
  exact List.mem_append_left _ hin

/-- What is read is there. -/
theorem Ssa.operand_mem (h : Ssa nargs body) (ho : o ∈ body) {k : Nat}
    (hv : .res i k ∈ o.operands) : i ∈ ids body := by
  by_contra hnot
  exact h.notOf hnot ho hv k rfl

/-- What two environments that agree but for one operation have in common is not lost when
both are given the same results. -/
theorem bindResults_agree {env' : Val → V} (h : NotOf c v → env' v = env v) (hv : NotOf c v) :
    bindResults env' op rs v = bindResults env op rs v := by
  cases v with
  | arg i => exact h hv
  | res op' k =>
      by_cases hop : op' = op
      · rw [hop, bindResults_self, bindResults_self]
      · have hnot : NotOf op (.res op' k) := fun k' heq => hop (Val.res.inj heq).1
        rw [bindResults_of_notOf hnot, bindResults_of_notOf hnot, h hv]

/-- Environments that agree but for the results of one operation that nobody reads lead to
such environments and the same state. -/
theorem eval_agree {st st' : (Val → V) × σ} (hstate : st'.2 = st.2)
    (henv : ∀ v, NotOf c v → st'.1 v = st.1 v)
    (hreads : ∀ o ∈ body, ∀ v ∈ o.operands, NotOf c v) :
    (eval S body st').2 = (eval S body st).2 ∧
      ∀ v, NotOf c v → (eval S body st').1 v = (eval S body st).1 v := by
  induction body generalizing st st' with
  | nil => exact ⟨hstate, henv⟩
  | cons o body ih =>
      obtain ⟨ho, hbody⟩ := List.forall_mem_cons.mp hreads
      have hargs : o.operands.map st'.1 = o.operands.map st.1 :=
        List.map_congr_left fun v hv => henv v (ho v hv)
      refine ih ?_ (fun v hv => ?_) hbody
      · rw [evalOp, evalOp, hargs, hstate]
      · rw [evalOp_env, evalOp_env, hargs, hstate]
        exact bindResults_agree (henv v) hv

end CrossMachine.Compiler
