import CrossMachine.Compiler.Eval

/-!
# Edits of a block

The three edits that a rewrite pattern makes: an operation is put in, the uses of one value
are given to another, an operation is erased. Each keeps SSA form under the obvious
condition, and a block after it computes what it computed before when the operation is pure
and dead, or the two values are equal.

A block may stand behind `seen`, which defines values but is not run with it.
-/

namespace CrossMachine.Compiler

variable {κ V σ : Type} {S : Sem κ V σ} {nargs : Nat} {seen pre post body body' : List (Op κ)}
  {o p q : Op κ} {v v' w : Val} {st : (Val → V) × σ}

/-- The blocks leave the same state and return the same values. -/
def SameMeaning (S : Sem κ V σ) (body body' : List (Op κ)) : Prop :=
  ∀ st, (eval S body' st).2 = (eval S body st).2 ∧ returned S body' st = returned S body st

theorem SameMeaning.symm (h : SameMeaning S body body') : SameMeaning S body' body :=
  fun st => ⟨(h st).1.symm, (h st).2.symm⟩

theorem SameMeaning.trans {body'' : List (Op κ)} (h : SameMeaning S body body')
    (h' : SameMeaning S body' body'') : SameMeaning S body body'' :=
  fun st => ⟨(h' st).1.trans (h st).1, (h' st).2.trans (h st).2⟩

/-- Nobody among the operations reads a result of `op`. -/
def Dead (op : Nat) (body : List (Op κ)) : Prop := ∀ q ∈ body, ∀ v ∈ q.operands, NotOf op v

/-! ## SSA form -/

theorem Ssa.insert (h : Ssa nargs (pre ++ post)) (hid : o.id ∉ ids (pre ++ post))
    (hops : ∀ v ∈ o.operands, Defined nargs pre v) : Ssa nargs (pre ++ o :: post) where
  nodup := by
    have hnodup := h.nodup
    simp only [ids, List.map_append, List.map_cons] at hnodup hid ⊢
    exact List.nodup_middle.mpr (List.nodup_cons.mpr ⟨hid, hnodup⟩)
  first := by
    obtain ⟨hpre, hpost⟩ := definedFirst_append.mp h.first
    refine definedFirst_append.mpr ⟨hpre, hops, hpost.mono fun q hq => ?_⟩
    exact ⟨q, List.mem_append_left _ hq, rfl, rfl⟩

/-- A value that is no result of `o` is defined without `o`. -/
theorem Defined.drop (h : Defined nargs (pre ++ o :: post) v) (hv : NotOf o.id v) :
    Defined nargs (pre ++ post) v := by
  cases v with
  | arg i => exact h
  | res op k =>
      obtain ⟨q, hq, hid, hk⟩ := h
      refine ⟨q, ?_, hid, hk⟩
      rcases List.mem_append.mp hq with hq | hq
      · exact List.mem_append_left _ hq
      · rcases List.mem_cons.mp hq with rfl | hq
        · exact absurd rfl (hid ▸ hv k)
        · exact List.mem_append_right _ hq

theorem definedFirst_drop (h : DefinedFirst nargs (pre ++ o :: post) body)
    (hdead : Dead o.id body) :
    DefinedFirst nargs (pre ++ post) body := by
  induction body generalizing post with
  | nil => trivial
  | cons q body ih =>
      obtain ⟨hq, hbody⟩ := List.forall_mem_cons.mp hdead
      refine ⟨fun v hv => (h.1 v hv).drop (hq v hv), ?_⟩
      have hrest := h.2
      rw [List.append_assoc, List.cons_append] at hrest
      rw [List.append_assoc]
      exact ih hrest hbody

theorem Ssa.erase (h : Ssa nargs (pre ++ o :: post)) (hdead : Dead o.id post) :
    Ssa nargs (pre ++ post) where
  nodup := by
    have hnodup := h.nodup
    simp only [ids, List.map_append, List.map_cons] at hnodup ⊢
    exact (List.nodup_cons.mp (List.nodup_middle.mp hnodup)).2
  first := by
    obtain ⟨hpre, hrest⟩ := definedFirst_append.mp h.first
    refine definedFirst_append.mpr ⟨hpre, ?_⟩
    rw [List.nil_append] at hrest ⊢
    have hdrop : DefinedFirst nargs (pre ++ []) post := definedFirst_drop hrest.2 hdead
    rwa [List.append_nil] at hdrop

theorem definedFirst_rewire (h : DefinedFirst nargs pre body) (hv' : Defined nargs pre v') :
    DefinedFirst nargs pre (body.map fun o => o.rewire v v') := by
  induction body generalizing pre with
  | nil => trivial
  | cons o body ih =>
      refine ⟨fun w hw => ?_, ?_⟩
      · obtain ⟨x, hx, rfl⟩ := List.mem_map.mp hw
        split
        · exact hv'
        · exact h.1 x hx
      · have hmono : ∀ {w}, Defined nargs pre w → Defined nargs (pre ++ [o.rewire v v']) w :=
          fun hw => hw.mono fun q hq => ⟨q, List.mem_append_left _ hq, rfl, rfl⟩
        refine ih (h.2.mono fun q hq => ?_) (hmono hv')
        rcases List.mem_append.mp hq with hq | hq
        · exact ⟨q, List.mem_append_left _ hq, rfl, rfl⟩
        · rw [List.mem_singleton.mp hq]
          exact ⟨o.rewire v v', by simp, rfl, rfl⟩

theorem ids_rewire : ids (body.map fun o => o.rewire v v') = ids body := by
  rw [ids, List.map_map]
  rfl

theorem Ssa.rewire (h : Ssa nargs (pre ++ post)) (hv' : Defined nargs pre v') :
    Ssa nargs (pre ++ post.map fun o => o.rewire v v') where
  nodup := by
    have hnodup := h.nodup
    rw [ids, List.map_append] at hnodup ⊢
    have hpost : (post.map fun o => o.rewire v v').map Op.id = post.map Op.id := ids_rewire
    rw [hpost]
    exact hnodup
  first := by
    obtain ⟨hpre, hrest⟩ := definedFirst_append.mp h.first
    exact definedFirst_append.mpr ⟨hpre, definedFirst_rewire hrest hv'⟩

/-! ## Meaning -/

/-- An operation that is pure and dead makes no difference but for its own results. -/
theorem eval_dead (hpure : S.Pure o.kind) (hdead : Dead o.id post) :
    (eval S (pre ++ o :: post) st).2 = (eval S (pre ++ post) st).2 ∧
      ∀ v, NotOf o.id v →
        (eval S (pre ++ o :: post) st).1 v = (eval S (pre ++ post) st).1 v := by
  rw [eval_append, eval_append, eval_cons]
  refine eval_agree ?_ (fun v hv => ?_) hdead
  · exact (hpure _ _ (eval S pre st).2).1
  · rw [evalOp_env, bindResults_of_notOf hv]

theorem getLast?_append_cons (hpost : post ≠ []) :
    (pre ++ o :: post).getLast? = (pre ++ post).getLast? := by
  obtain ⟨q, rest, rfl⟩ := List.exists_cons_of_ne_nil hpost
  simp [List.getLast?_append, List.getLast?_cons_cons]

theorem sameMeaning_erase (hpure : S.Pure o.kind) (hdead : Dead o.id post) (hpost : post ≠ []) :
    SameMeaning S (pre ++ o :: post) (pre ++ post) := by
  intro st
  obtain ⟨hstate, henv⟩ : _ ∧ ∀ v, NotOf o.id v →
      (eval S (pre ++ o :: post) st).1 v = (eval S (pre ++ post) st).1 v :=
    eval_dead hpure hdead
  refine ⟨hstate.symm, ?_⟩
  rw [returned, returned, getLast?_append_cons hpost, List.getLast?_append_of_ne_nil _ hpost]
  -- the terminator comes after the operation, so it does not read it
  cases ht : post.getLast? with
  | none => rfl
  | some t =>
      refine congrArg some (List.map_congr_left fun v hv => ?_)
      exact (henv v (hdead t (List.mem_of_getLast? ht) v hv)).symm

/-- Uses may go over to a value that is equal. -/
theorem map_rewire {env : Val → V} (heq : env v' = env v) :
    (o.rewire v v').operands.map env = o.operands.map env := by
  rw [Op.rewire, List.map_map]
  refine List.map_congr_left fun w _ => ?_
  rw [Function.comp_apply]
  split
  case isTrue hw => rw [heq, hw]
  case isFalse => rfl

theorem eval_rewire (heq : st.1 v' = st.1 v) (hv : ∀ i ∈ ids body, NotOf i v)
    (hv' : ∀ i ∈ ids body, NotOf i v') :
    eval S (body.map fun o => o.rewire v v') st = eval S body st := by
  induction body generalizing st with
  | nil => rfl
  | cons o body ih =>
      obtain ⟨ho, hbody⟩ := List.forall_mem_cons.mp hv
      obtain ⟨ho', hbody'⟩ := List.forall_mem_cons.mp hv'
      have hstep : evalOp S st (o.rewire v v') = evalOp S st o := by
        rw [evalOp, map_rewire heq]
        rfl
      rw [List.map_cons, eval_cons, eval_cons, hstep]
      refine ih ?_ hbody hbody'
      rw [evalOp_env, bindResults_of_notOf ho, bindResults_of_notOf ho', heq]

theorem sameMeaning_rewire (h : Ssa nargs (seen ++ pre ++ post))
    (hv : Defined nargs (seen ++ pre) v) (hv' : Defined nargs (seen ++ pre) v')
    (heq : ∀ st, (eval S pre st).1 v' = (eval S pre st).1 v) :
    SameMeaning S (pre ++ post) (pre ++ post.map fun o => o.rewire v v') := by
  intro st
  have hnot : ∀ i ∈ ids post, NotOf i v := fun i hi => notOf_of_defined hv (h.notMem_of_mem hi)
  have hnot' : ∀ i ∈ ids post, NotOf i v' := fun i hi => notOf_of_defined hv' (h.notMem_of_mem hi)
  have heval : eval S (pre ++ post.map fun o => o.rewire v v') st = eval S (pre ++ post) st := by
    rw [eval_append, eval_append]
    exact eval_rewire (heq st) hnot hnot'
  refine ⟨by rw [heval], ?_⟩
  have hsame : (eval S (pre ++ post) st).1 v' = (eval S (pre ++ post) st).1 v := by
    rw [eval_append, eval_of_notOf hnot, eval_of_notOf hnot', heq]
  rw [returned, returned, heval, List.getLast?_append, List.getLast?_append, List.getLast?_map]
  cases post.getLast? with
  | none => rfl
  | some t => exact congrArg some (map_rewire hsame)

end CrossMachine.Compiler
