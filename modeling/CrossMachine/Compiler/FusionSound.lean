import CrossMachine.Compiler.Group

/-!
# One rewrite of the fusion pass

A rewrite is five edits: the group goes in, the uses of the activation go over to it, and the
activation, the add and the root are erased. The group is pure and new, so it may go in; it
computes what the activation does, so it may take over the uses; and since every operation
of the chain has a single use, each is dead once its user is gone.

All of this needs the block of the group to be well-formed, and it is when every operand of
the root is an external input. The pattern takes the first two operands of the root only, so
the optional bias of a matmul or a convolution stays behind as a reference to a value outside
of the region, unless it happens to be one of the other inputs too.
-/

namespace CrossMachine.Compiler

variable {verify : GKind → List Ty → List Ty → Prop} {args : List Ty}
  {seen pre post body body' : List GOp} {o p q act : GOp} {v v' : Val} {yields : Option (List Ty)}
  {chain : MatchedChain} {name : String} {n u op k : Nat}

/-! ## Edits by id -/

theorem ne_id_of_split (hnodup : (ids (pre ++ o :: post)).Nodup) :
    ∀ q ∈ pre ++ post, q.id ≠ o.id := by
  simp only [ids, List.map_append, List.map_cons] at hnodup
  have hnot := (List.nodup_cons.mp (List.nodup_middle.mp hnodup)).1
  rw [← List.map_append] at hnot
  exact fun q hq heq => hnot (heq ▸ List.mem_map_of_mem hq)

theorem eraseOp_split (hnodup : (ids (pre ++ o :: post)).Nodup) :
    eraseOp o.id (pre ++ o :: post) = pre ++ post := by
  have hkeep : ∀ l : List GOp, (∀ q ∈ l, q.id ≠ o.id) → eraseOp o.id l = l := fun l hl =>
    List.filter_eq_self.mpr (by simpa using hl)
  have hdrop : eraseOp o.id (o :: post) = eraseOp o.id post :=
    List.filter_cons_of_neg (by simp)
  have hne := ne_id_of_split hnodup
  rw [eraseOp, List.filter_append, ← eraseOp, ← eraseOp, hdrop,
    hkeep pre fun q hq => hne q (List.mem_append_left _ hq),
    hkeep post fun q hq => hne q (List.mem_append_right _ hq)]

theorem insertBefore_split (hnodup : (ids (pre ++ o :: post)).Nodup) :
    insertBefore o.id p (pre ++ o :: post) = pre ++ p :: o :: post := by
  have hkeep : ∀ l : List GOp, (∀ q ∈ l, q.id ≠ o.id) →
      (l.flatMap fun q => if q.id = o.id then [p, q] else [q]) = l := by
    intro l hl
    induction l with
    | nil => rfl
    | cons q l ih =>
        obtain ⟨hq, hl⟩ := List.forall_mem_cons.mp hl
        rw [List.flatMap_cons, if_neg hq, ih hl]
        rfl
  have hne := ne_id_of_split hnodup
  rw [insertBefore, List.flatMap_append, List.flatMap_cons, if_pos rfl,
    hkeep pre fun q hq => hne q (List.mem_append_left _ hq),
    hkeep post fun q hq => hne q (List.mem_append_right _ hq)]
  rfl

theorem replaceAllUses_self (h : ∀ o ∈ body, v ∉ o.operands) :
    replaceAllUses v v' body = body := by
  have hop : ∀ o ∈ body, o.rewire v v' = o := by
    intro o ho
    have hmap : (o.operands.map fun w => if w = v then v' else w) = o.operands := by
      refine (List.map_congr_left fun w hw => ?_).trans (List.map_id _)
      rw [if_neg fun heq : w = v => h o ho (heq ▸ hw)]
      rfl
    rw [Op.rewire, hmap]
  rw [replaceAllUses, List.map_congr_left hop]
  exact List.map_id' _

theorem mem_eraseOp : q ∈ eraseOp op body ↔ q ∈ body ∧ q.id ≠ op := by
  simp [eraseOp]

/-! ## Dead operations -/

/-- What only one operation reads is dead without it. -/
theorem ReadBy.dead (h : ReadBy u op body) : Dead op (eraseOp u body) := by
  intro q hq v hv
  obtain ⟨hq, hne⟩ := mem_eraseOp.mp hq
  exact h q hq hne v hv

theorem ReadBy.eraseOp (h : ReadBy u op body) (o : Nat) : ReadBy u op (eraseOp o body) :=
  fun q hq => h q (mem_eraseOp.mp hq).1

theorem refines_eraseOp (h : WfBlock verify args seen body yields) (ho : o ∈ body)
    (hdead : Dead o.id body) (hin : InChain o.kind) :
    Refines verify args seen yields body (eraseOp o.id body) := by
  obtain ⟨pre, post, rfl⟩ := List.append_of_mem ho
  rw [eraseOp_split h.nodup]
  refine refines_erase h (h.post_ne_nil ?_) (fun q hq => hdead q ?_)
    fun V σ L hL => pure_of_inChain hL hin
  · exact hin.not_terminator
  · exact List.mem_append_right _ (List.mem_cons_of_mem _ hq)

/-- The operations of a chain go one after the other, each once its user is gone. -/
theorem refines_erases (h : WfBlock verify args seen body yields) (hact : act ∈ body)
    (hroot : chain.root ∈ body) (hne : chain.root.id ≠ act.id) (hinAct : InChain act.kind)
    (hinRoot : InChain chain.root.kind) (hdead : Dead act.id body)
    (hbias : ∀ add, chain.bias = some add → add ∈ body ∧ add.id ≠ act.id ∧
      chain.root.id ≠ add.id ∧ InChain add.kind ∧ ReadBy act.id add.id body ∧
      ReadBy add.id chain.root.id body)
    (hnone : chain.bias = none → ReadBy act.id chain.root.id body) :
    Refines verify args seen yields body
      (let body := eraseOp act.id body
       eraseOp chain.root.id (chain.bias.elim body fun add => eraseOp add.id body)) := by
  have hfirst := refines_eraseOp h hact hdead hinAct
  refine hfirst.trans ?_
  cases hb : chain.bias with
  | none =>
      exact refines_eraseOp hfirst.wf (mem_eraseOp.mpr ⟨hroot, hne⟩) (hnone hb).dead hinRoot
  | some add =>
      obtain ⟨hadd, hneAct, hneRoot, hinAdd, hreadAdd, hreadRoot⟩ := hbias add hb
      have hsecond := refines_eraseOp hfirst.wf (mem_eraseOp.mpr ⟨hadd, hneAct⟩) hreadAdd.dead
        hinAdd
      refine hsecond.trans (refines_eraseOp hsecond.wf ?_ (hreadRoot.eraseOp act.id).dead hinRoot)
      exact mem_eraseOp.mpr ⟨mem_eraseOp.mpr ⟨hroot, hne⟩, hneRoot⟩

/-! ## The edits of a rewrite -/

/-- What an operation reads of its own block stands before it. -/
theorem Ssa.mem_before {nargs : Nat} (h : Ssa nargs (seen ++ (pre ++ o :: post)))
    (hp : p ∈ pre ++ o :: post) (hread : .res p.id k ∈ o.operands) : p ∈ pre := by
  have hbefore : Ssa nargs ((seen ++ pre) ++ o :: post) := by simpa using h
  obtain ⟨q, hq, hid, -⟩ := hbefore.operands_defined _ hread
  have heq : q = p := by
    refine eq_of_id hbefore.nodup (List.mem_append_left _ hq) ?_ hid
    rw [List.append_assoc]
    exact List.mem_append_right _ hp
  rcases List.mem_append.mp (heq ▸ hq) with hseen | hpre
  · exact absurd (mem_ids hseen) (h.notMem_of_mem (mem_ids hp))
  · exact hpre

/-- Up to its own place nobody reads an operation. -/
theorem Ssa.notOf_before {nargs : Nat} (h : Ssa nargs (pre ++ o :: post)) :
    ∀ q ∈ pre ++ [o], ∀ v ∈ q.operands, NotOf o.id v := by
  have hnot : o.id ∉ ids pre := h.notMem_of_mem (by simp [ids])
  intro q hq v hv
  rcases List.mem_append.mp hq with hq | hq
  · exact h.left.notOf hnot hq hv
  · rw [List.mem_singleton.mp hq] at hv
    exact notOf_of_defined (h.operands_defined v hv) hnot

theorem mem_rewire {w : Val} (hw : w ∈ (o.rewire v v').operands) :
    w = v' ∨ (w ≠ v ∧ w ∈ o.operands) := by
  obtain ⟨x, hx, rfl⟩ := List.mem_map.mp hw
  split
  case isTrue => exact Or.inl rfl
  case isFalse hne => exact Or.inr ⟨hne, hx⟩

/-- The group that the rewrite builds. -/
abbrev groupFor (n : Nat) (args : List Ty) (seen body : List GOp) (chain : MatchedChain)
    (act : GOp) : GOp :=
  groupOp n args (seen ++ body) chain act

section Stages

variable (h : WfBlock verify args seen (pre ++ act :: post) yields)
  (hname : (actName act.kind).isSome) (hlinked : Linked (pre ++ act :: post) chain act)
  (hfresh : ∀ i ∈ usedIds (seen ++ (pre ++ act :: post)), i < n)

include h hlinked in
theorem producer_mem : chain.producer ∈ pre := by
  refine h.ssa.mem_before ?_ (k := 0) (by simp [hlinked.act])
  rw [MatchedChain.producer]
  cases hb : chain.bias with
  | none => exact hlinked.root_mem
  | some add => exact (hlinked.bias add hb).1

include h hlinked in
theorem add_mem {add : GOp} (hadd : chain.bias = some add) : add ∈ pre := by
  have hmem := producer_mem h hlinked
  rwa [MatchedChain.producer, hadd] at hmem

theorem AddOf.root_mem {root add : GOp} {x : Val} (hx : AddOf root add x) :
    .res root.id 0 ∈ add.operands := by
  rcases hx.1 with hops | hops <;> simp [hops]

include h hlinked in
theorem root_mem : chain.root ∈ pre ∧ ∀ add, chain.bias = some add → chain.root.id ≠ add.id := by
  cases hb : chain.bias with
  | none =>
      have hmem := producer_mem h hlinked
      rw [MatchedChain.producer, hb] at hmem
      exact ⟨hmem, fun add hadd => by cases hadd⟩
  | some add =>
      obtain ⟨x, hx⟩ := (hlinked.bias add hb).2.2.2
      have hadd := add_mem h hlinked hb
      obtain ⟨front, back, rfl⟩ := List.append_of_mem hadd
      have hssa : Ssa args.length (seen ++ (front ++ add :: (back ++ act :: post))) := by
        simpa using h.ssa
      have hroot : chain.root ∈ front :=
        hssa.mem_before (by simpa using hlinked.root_mem) hx.root_mem
      refine ⟨List.mem_append_left _ hroot, ?_⟩
      rintro _ ⟨⟩ heq
      have hsplit : Ssa args.length ((seen ++ front) ++ add :: (back ++ act :: post)) := by
        simpa using hssa
      refine hsplit.notMem_of_mem (i := add.id) (by simp [ids]) ?_
      rw [← heq]
      exact mem_ids (List.mem_append_right _ hroot)

include h hlinked in
theorem defined_externalInputs (hv : v ∈ externalInputs chain) :
    Defined args.length (seen ++ pre) v := by
  have hssa : Ssa args.length ((seen ++ pre) ++ act :: post) := by simpa using h.ssa
  rcases mem_externalInputs hlinked hv with hroot | ⟨add, hadd, hof⟩
  · exact hssa.left.defined (List.mem_append_right _ (root_mem h hlinked).1) hroot
  · exact hssa.left.defined (List.mem_append_right _ (add_mem h hlinked hadd)) hof.mem

include hfresh in
theorem fresh_id : n ∉ ids (seen ++ (pre ++ act :: post)) :=
  fun hmem => absurd (hfresh n (List.mem_append_left _ hmem)) (lt_irrefl n)

include h hname hlinked hfresh in
/-- The group goes in. -/
theorem refines_group (hmapped : InputsMapped chain) :
    Refines verify args seen yields (pre ++ act :: post)
      (pre ++ groupFor n args seen (pre ++ act :: post) chain act :: act :: post) := by
  refine refines_insert h (by simp) (fresh_id hfresh)
    (fun v hv => defined_externalInputs h hlinked hv) (ok_groupOp h hlinked) nofun ?_ ?_
  · intro fusionKind block tys inner hkind
    cases hkind
    exact wf_groupBody h (by simp) hname hlinked hmapped
  · exact fun V σ L hL => pure_groupOp hL hname hlinked

include h hname hlinked in
/-- Behind the group and the activation both have the same value. -/
theorem group_value (hmapped : InputsMapped chain) {V σ : Type} {L : LeafSem V σ} (hL : L.Pure)
    {g : GOp} (hg : groupFor n args seen (pre ++ act :: post) chain act = g)
    (hssa : Ssa args.length (seen ++ (pre ++ [g, act]))) (st : (Val → V) × σ) :
    (eval L.sem (pre ++ [g, act]) st).1 (.res g.id 0) =
      (eval L.sem (pre ++ [g, act]) st).1 (.res act.id 0) := by
  have hpure : L.sem.Pure g.kind := hg ▸ pure_groupOp hL hname hlinked
  rw [eval_pure_seen hssa (by simp) hpure 0 st.2, ← hg]
  refine exec_groupOp hlinked hmapped fun o ho s => ?_
  rw [hg]
  refine eval_pure_seen hssa ?_ (pure_of_inChain hL (hlinked.inChain hname ho)) 0 s
  rcases mem_chainOps.mp ho with rfl | hadd | rfl
  · exact List.mem_append_left _ (root_mem h hlinked).1
  · exact List.mem_append_left _ (add_mem h hlinked hadd)
  · simp

include h hname hlinked hfresh in
/-- The uses of the activation go over to the group. -/
theorem refines_uses (hmapped : InputsMapped chain) :
    Refines verify args seen yields (pre ++ act :: post)
      (pre ++ groupFor n args seen (pre ++ act :: post) chain act :: act ::
        replaceAllUses (.res act.id 0) (.res n 0) post) := by
  have hgroup := refines_group h hname hlinked hfresh hmapped
  refine hgroup.trans ?_
  have hwf := hgroup.wf
  generalize hg : groupFor n args seen (pre ++ act :: post) chain act = g at hwf ⊢
  have hid : g.id = n := by rw [← hg]; rfl
  have hres : g.results = act.results := by rw [← hg]; rfl
  obtain ⟨ty, hty⟩ := List.length_eq_one_iff.mp
    (one_result (h.ops act (by simp)).arity (Or.inl hname))
  rw [show pre ++ g :: act :: post = (pre ++ [g, act]) ++ post by simp] at hwf ⊢
  have hssa : Ssa args.length (seen ++ (pre ++ [g, act])) := by
    have hall := hwf.ssa
    rw [← List.append_assoc] at hall
    exact hall.left
  have hrewire : Refines verify args seen yields ((pre ++ [g, act]) ++ post)
      ((pre ++ [g, act]) ++ post.map fun o => o.rewire (.res act.id 0) (.res g.id 0)) := by
    refine refines_rewire hwf ⟨act, by simp, rfl, by simp [hty]⟩
      ⟨g, by simp, rfl, by simp [hres, hty]⟩ ?_ ?_
    · rw [typeOf_res hssa.nodup (by simp), typeOf_res hssa.nodup (by simp), hres]
    · exact fun V σ L hL st => group_value h hname hlinked hmapped hL hg hssa st
  rw [hid] at hrewire
  rw [replaceAllUses]
  simpa using hrewire

include h hname hlinked hfresh in
theorem fuse_eq (hmapped : InputsMapped chain) {g : GOp}
    (hg : groupFor n args seen (pre ++ act :: post) chain act = g) :
    fuse g chain act (pre ++ act :: post) =
      let body := eraseOp act.id
        (pre ++ g :: act :: replaceAllUses (.res act.id 0) (.res g.id 0) post)
      eraseOp chain.root.id (chain.bias.elim body fun add => eraseOp add.id body) := by
  have hwf := (refines_group h hname hlinked hfresh hmapped).wf
  rw [hg] at hwf
  have hbefore : Ssa args.length ((seen ++ (pre ++ [g])) ++ act :: post) := by
    simpa using hwf.ssa
  have hself : replaceAllUses (.res act.id 0) (.res g.id 0) (pre ++ [g, act]) =
      pre ++ [g, act] := by
    refine replaceAllUses_self fun q hq hread => hbefore.notOf_before q ?_ _ hread 0 rfl
    simpa using Or.inr hq
  have huses : replaceAllUses (.res act.id 0) (.res g.id 0) (pre ++ g :: act :: post) =
      pre ++ g :: act :: replaceAllUses (.res act.id 0) (.res g.id 0) post := by
    rw [show pre ++ g :: act :: post = (pre ++ [g, act]) ++ post by simp]
    rw [replaceAllUses, List.map_append, ← replaceAllUses, ← replaceAllUses, hself]
    simp
  rw [fuse, insertBefore_split h.nodup, huses]

include h hname hlinked hfresh in
/-- After its uses have gone over to the group nobody reads the activation. -/
theorem dead_act (hmapped : InputsMapped chain) : Dead act.id
    (pre ++ groupFor n args seen (pre ++ act :: post) chain act :: act ::
      replaceAllUses (.res act.id 0) (.res n 0) post) := by
  have hwf := (refines_group h hname hlinked hfresh hmapped).wf
  generalize groupFor n args seen (pre ++ act :: post) chain act = g at hwf ⊢
  have hbefore : Ssa args.length ((seen ++ (pre ++ [g])) ++ act :: post) := by
    simpa using hwf.ssa
  have hres := one_result (h.ops act (by simp)).arity (Or.inl hname)
  intro q hq w hw
  rw [show ∀ l, pre ++ g :: act :: l = (pre ++ [g, act]) ++ l by simp] at hq
  rcases List.mem_append.mp hq with hq | hq
  · exact hbefore.notOf_before q (by simpa using Or.inr hq) w hw
  · obtain ⟨p, hp, rfl⟩ := List.mem_map.mp hq
    rintro k rfl
    rcases mem_rewire hw with heq | ⟨hne, hread⟩
    · have hlt := hfresh act.id (List.mem_append_left _ (by simp [ids]))
      have := (Val.res.inj heq).1
      omega
    · refine hne ?_
      rw [h.res_zero (by simp) hres (List.mem_append_right _ (List.mem_cons_of_mem _ hp)) hread]

include hfresh in
/-- What one operation reads alone is still so, if the group does not read it. -/
theorem readBy_uses {p : GOp} (hread : ReadBy u p.id (pre ++ act :: post))
    (hp : p ∈ pre ++ act :: post) (hexts : ∀ v ∈ externalInputs chain, NotOf p.id v) :
    ReadBy u p.id (pre ++ groupFor n args seen (pre ++ act :: post) chain act :: act ::
      replaceAllUses (.res act.id 0) (.res n 0) post) := by
  intro q hq hne w hw
  rcases List.mem_append.mp hq with hq | hq
  · exact hread q (List.mem_append_left _ hq) hne w hw
  rcases List.mem_cons.mp hq with rfl | hq
  · exact hexts w hw
  rcases List.mem_cons.mp hq with rfl | hq
  · exact hread q (by simp) hne w hw
  obtain ⟨r, hr, rfl⟩ := List.mem_map.mp hq
  rcases mem_rewire hw with rfl | ⟨-, hw⟩
  · intro k heq
    have hlt := hfresh p.id (List.mem_append_left _ (mem_ids (List.mem_append_right _ hp)))
    have := (Val.res.inj heq).1
    omega
  · exact hread r (List.mem_append_right _ (List.mem_cons_of_mem _ hr)) hne w hw

include h in
/-- An operation before the activation is another one. -/
theorem ne_act {p : GOp} (hp : p ∈ pre) : p.id ≠ act.id := by
  have hssa : Ssa args.length ((seen ++ pre) ++ act :: post) := by simpa using h.ssa
  intro heq
  refine hssa.notMem_of_mem (by simp [ids]) ?_ (i := act.id)
  exact heq ▸ mem_ids (List.mem_append_right _ hp)

include hlinked in
/-- The user of the root reads it alone, and the group does not read it. -/
theorem readBy_root (hread : .res chain.root.id 0 ∈ o.operands) (ho : o ∈ pre ++ act :: post)
    (hne : chain.root.id ≠ o.id) : ReadBy o.id chain.root.id (pre ++ act :: post) ∧
      ∀ v ∈ externalInputs chain, NotOf chain.root.id v := by
  have halone := readBy_of_singleUse hlinked.root_single ho hread
  refine ⟨halone, fun v hv => ?_⟩
  rcases mem_externalInputs hlinked hv with hroot | ⟨add, -, hof⟩
  · exact halone _ hlinked.root_mem hne v hroot
  · exact hof.2

include h hlinked in
theorem readBy_add {add : GOp} (hadd : chain.bias = some add) :
    ReadBy act.id add.id (pre ++ act :: post) ∧
      ∀ v ∈ externalInputs chain, NotOf add.id v := by
  obtain ⟨hmem, -, hsingle, -⟩ := hlinked.bias add hadd
  have hact := hlinked.act
  rw [MatchedChain.producer, hadd, Option.getD_some] at hact
  have halone : ReadBy act.id add.id (pre ++ act :: post) :=
    readBy_of_singleUse hsingle (by simp) (by rw [hact]; exact List.mem_singleton.mpr rfl)
  refine ⟨halone, fun v hv => ?_⟩
  rcases mem_externalInputs hlinked hv with hroot | ⟨add', hadd', hof⟩
  · exact halone _ hlinked.root_mem (ne_act h (root_mem h hlinked).1) v hroot
  · obtain rfl : add = add' := Option.some.inj (hadd.symm.trans hadd')
    exact halone _ hmem (ne_act h (add_mem h hlinked hadd)) v hof.mem

include h hname hlinked hfresh in
/-- The whole rewrite. -/
theorem refines_fuse (hmapped : InputsMapped chain) :
    Refines verify args seen yields (pre ++ act :: post)
      (fuse (groupFor n args seen (pre ++ act :: post) chain act) chain act
        (pre ++ act :: post)) := by
  have huses := refines_uses h hname hlinked hfresh hmapped
  have hact := hlinked.act
  have hroot := root_mem h hlinked
  have hne := ne_act h hroot.1
  rw [fuse_eq h hname hlinked hfresh hmapped rfl]
  refine huses.trans (refines_erases huses.wf (by simp) (List.mem_append_left _ hroot.1) hne
    (Or.inl hname) (Or.inr (Or.inr hlinked.root_like))
    (dead_act h hname hlinked hfresh hmapped) (fun add hadd => ?_) (fun hnone => ?_))
  · obtain ⟨hmem, hkind, -, x, hx⟩ := hlinked.bias add hadd
    have halone := readBy_root hlinked hx.root_mem hmem (hroot.2 add hadd)
    have haddAlone := readBy_add h hlinked hadd
    have hpre := add_mem h hlinked hadd
    exact ⟨List.mem_append_left _ hpre, ne_act h hpre, hroot.2 add hadd, Or.inr (Or.inl hkind),
      readBy_uses hfresh haddAlone.1 hmem haddAlone.2,
      readBy_uses hfresh halone.1 hlinked.root_mem halone.2⟩
  · rw [MatchedChain.producer, hnone, Option.getD_none] at hact
    have halone := readBy_root hlinked (o := act) (by simp [hact]) (by simp) hne
    exact readBy_uses hfresh halone.1 hlinked.root_mem halone.2

end Stages

/-! ## A rewrite anywhere -/

/-- A rewrite refines when the operands of the root are all mapped. -/
theorem FuseStep.refines (hstep : FuseStep args seen body chain body')
    (h : WfBlock verify args seen body yields) (hmapped : InputsMapped chain) :
    Refines verify args seen yields body body' := by
  induction hstep generalizing yields with
  | here hact hname hmatch hfresh =>
      have hlinked := linked_of_match h hact hname hmatch
      obtain ⟨pre, post, rfl⟩ := List.append_of_mem hact
      exact refines_fuse h (by rw [hname]; rfl) hlinked hfresh hmapped
  | inside hkind hstep ih =>
      refine refines_inside h hkind (ih ?_ hmapped)
      exact h.regions _ (by simp) _ _ _ _ hkind

/-- The group stands in the block after the rewrite. -/
theorem mem_fuse {g : GOp} (hact : act ∈ body) (hlinked : Linked body chain act)
    (hid : g.id ∉ ids body) :
    g.rewire (.res act.id 0) (.res g.id 0) ∈ fuse g chain act body := by
  have hne : ∀ p ∈ body, g.id ≠ p.id := fun p hp heq => hid (heq ▸ mem_ids hp)
  have hin : g ∈ insertBefore act.id g body :=
    List.mem_flatMap.mpr ⟨act, hact, by simp⟩
  have hfirst : g.rewire (.res act.id 0) (.res g.id 0) ∈
      eraseOp act.id (replaceAllUses (.res act.id 0) (.res g.id 0) (insertBefore act.id g body)) :=
    mem_eraseOp.mpr ⟨List.mem_map_of_mem hin, hne act hact⟩
  rw [fuse]
  refine mem_eraseOp.mpr ⟨?_, hne _ hlinked.root_mem⟩
  cases hb : chain.bias with
  | none => exact hfirst
  | some add => exact mem_eraseOp.mpr ⟨hfirst, hne add (hlinked.bias add hb).1⟩

theorem mem_usedIds (ho : o ∈ body) (hread : .res op k ∈ o.operands) : op ∈ usedIds body :=
  List.mem_append_right _ (List.mem_filterMap.mpr ⟨_, List.mem_flatMap.mpr ⟨o, ho, hread⟩, rfl⟩)

/-- A rewrite that leaves a well-formed block has mapped all operands of the root: what the
copy of the root reads is an argument of its block, and no operand of the root is one. -/
theorem FuseStep.inputsMapped (hstep : FuseStep args seen body chain body')
    (h : WfBlock verify args seen body yields) (h' : WfBlock verify args seen body' yields) :
    InputsMapped chain := by
  induction hstep generalizing yields with
  | @here args seen body act name chain n hact hname hmatch hfresh =>
      have hlinked := linked_of_match h hact hname hmatch
      have hid : n ∉ ids body := by
        intro hmem
        obtain ⟨p, hp, rfl⟩ := List.mem_map.mp hmem
        have hlt := hfresh p.id (List.mem_append_left _ (mem_ids (List.mem_append_right _ hp)))
        omega
      have hgroup := h'.regions _ (mem_fuse hact hlinked hid) _ _ _ _ rfl
      intro v hv
      by_contra hnot
      have hread : v ∈ chain.root.operands.map
          (mapVal (argMapping (n + 1) (externalInputs chain))) :=
        List.mem_map.mpr ⟨v, hv, mapVal_argMapping_of_notMem hnot⟩
      have hdef : Defined 0 [header (n + 1) _] v := hgroup.ssa.first.2.1 v hread
      cases v with
      | arg i => exact absurd hdef (Nat.not_lt_zero i)
      | res op k =>
          obtain ⟨o, ho, rfl, -⟩ := hdef
          rw [List.mem_singleton.mp ho] at hv
          have hlt := hfresh (n + 1) (mem_usedIds (List.mem_append_right _ hlinked.root_mem) hv)
          omega
  | inside hkind hstep ih =>
      refine ih (h.regions _ (by simp) _ _ _ _ hkind) ?_
      exact h'.regions _ (List.mem_append_right _ (List.mem_cons_self ..)) _ _ _ _ rfl

/-- One rewrite of a well-formed function, of any match in it or in its regions, leaves a
well-formed function with the same meaning if and only if every operand of the root is an
external input. -/
theorem fuseStep_sound_iff (h : WfBlock verify args [] body none)
    (hstep : FuseStep args [] body chain body') :
    (WfBlock verify args [] body' none ∧
      ∀ (V σ : Type) (L : LeafSem V σ), L.Pure → SameMeaning L.sem body body') ↔
      InputsMapped chain := by
  refine ⟨fun hsound => hstep.inputsMapped h hsound.1, fun hmapped => ?_⟩
  have hrefines := hstep.refines h hmapped
  exact ⟨hrefines.wf, hrefines.same⟩

/-! ## Two functions -/

/-- `SameOperandsAndResultType` of the activations. -/
def verifyActivation (k : GKind) (tys results : List Ty) : Prop :=
  (actName k).isSome → tys = results

/-- A static square of floats. -/
def square : Ty := .tensor [some 4, some 4] (.float 32)

/-- `relu(x · w + b)`, with the add as an operation of its own. -/
def addedBias : List GOp :=
  [⟨0, .other (.matmul false false), [.arg 0, .arg 1], [square], none⟩,
   ⟨1, .add, [.res 0 0, .arg 2], [square], none⟩,
   ⟨2, .relu, [.res 1 0], [square], none⟩,
   ⟨3, .other (.foreign 0), [.res 2 0], [], none⟩]

/-- `relu(x · w + b)`, with the bias as the optional operand of the matmul. -/
def ownBias : List GOp :=
  [⟨0, .other (.matmul false false), [.arg 0, .arg 1, .arg 2], [square], none⟩,
   ⟨1, .relu, [.res 0 0], [square], none⟩,
   ⟨2, .other (.foreign 0), [.res 1 0], [], none⟩]

theorem wf_addedBias : WfBlock verifyActivation [square, square, square] [] addedBias none := by
  refine .intro (by decide) (fun o ho => ?_) ⟨⟨_, rfl, 0, rfl⟩, ?_⟩ ?_
  · simp only [addedBias, List.mem_cons, List.not_mem_nil, or_false] at ho
    rcases ho with rfl | rfl | rfl | rfl
    · exact ⟨⟨Or.inl rfl, rfl⟩, [square, square], rfl, nofun⟩
    · exact ⟨⟨rfl, rfl⟩, [square, square], rfl, nofun⟩
    · exact ⟨⟨rfl, rfl⟩, [square], rfl, fun _ => rfl⟩
    · exact ⟨trivial, [square], rfl, nofun⟩
  · simp [addedBias]
  · simp [addedBias]

theorem wf_ownBias : WfBlock verifyActivation [square, square, square] [] ownBias none := by
  refine .intro (by decide) (fun o ho => ?_) ⟨⟨_, rfl, 0, rfl⟩, ?_⟩ ?_
  · simp only [ownBias, List.mem_cons, List.not_mem_nil, or_false] at ho
    rcases ho with rfl | rfl | rfl
    · exact ⟨⟨Or.inr rfl, rfl⟩, [square, square, square], rfl, nofun⟩
    · exact ⟨⟨rfl, rfl⟩, [square], rfl, fun _ => rfl⟩
    · exact ⟨trivial, [square], rfl, nofun⟩
  · simp [ownBias]
  · simp [ownBias]

/-- The chain of `addedBias`. -/
def addedBiasChain : MatchedChain :=
  mkChain ⟨0, .other (.matmul false false), [.arg 0, .arg 1], [square], none⟩
    (some ⟨1, .add, [.res 0 0, .arg 2], [square], none⟩) "relu"

/-- The chain of `ownBias`. -/
def ownBiasChain : MatchedChain :=
  mkChain ⟨0, .other (.matmul false false), [.arg 0, .arg 1, .arg 2], [square], none⟩ none "relu"

theorem fuseStep_addedBias : FuseStep [square, square, square] [] addedBias addedBiasChain
    (fuse (groupOp 4 [square, square, square] addedBias addedBiasChain
      ⟨2, .relu, [.res 1 0], [square], none⟩) addedBiasChain
      ⟨2, .relu, [.res 1 0], [square], none⟩ addedBias) :=
  .here (by simp [addedBias]) rfl rfl (by decide)

theorem fuseStep_ownBias : FuseStep [square, square, square] [] ownBias ownBiasChain
    (fuse (groupOp 3 [square, square, square] ownBias ownBiasChain
      ⟨1, .relu, [.res 0 0], [square], none⟩) ownBiasChain
      ⟨1, .relu, [.res 0 0], [square], none⟩ ownBias) :=
  .here (by simp [ownBias]) rfl rfl (by decide)

/-- A bias that is added by an operation of its own is fused soundly. -/
theorem fuseStep_sound_addedBias :
    InputsMapped addedBiasChain ∧ ∃ body',
      FuseStep [square, square, square] [] addedBias addedBiasChain body' ∧
      WfBlock verifyActivation [square, square, square] [] body' none ∧
      ∀ (V σ : Type) (L : LeafSem V σ), L.Pure → SameMeaning L.sem addedBias body' :=
  ⟨by decide, _, fuseStep_addedBias,
    (fuseStep_sound_iff wf_addedBias fuseStep_addedBias).mpr (by decide)⟩

/-- The bias of the matmul itself is not mapped: the group refers to a value outside of its
region. -/
theorem ownBias_captured :
    WfBlock verifyActivation [square, square, square] [] ownBias none ∧ ∃ body',
      FuseStep [square, square, square] [] ownBias ownBiasChain body' ∧
      ¬ WfBlock verifyActivation [square, square, square] [] body' none :=
  ⟨wf_ownBias, _, fuseStep_ownBias, fun h' =>
    absurd (fuseStep_ownBias.inputsMapped wf_ownBias h') (by decide)⟩

end CrossMachine.Compiler
