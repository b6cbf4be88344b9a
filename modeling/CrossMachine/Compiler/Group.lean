import CrossMachine.Compiler.Chain

/-!
# The group that stands for a chain

The block of the group is a copy of the chain under a mapping of values. A copy is good as
long as every operand that is read has been mapped: `Closed` says so of a list of operations
and the values that are mapped at the start. Over a closed list three things go through step
by step, each by induction on the operations: the copies refer to each other and to the
arguments of the block only, they have the types of the originals, and they compute what the
originals did.
-/

namespace CrossMachine.Compiler

variable {verify : GKind → List Ty → List Ty → Prop} {args tys : List Ty}
  {seen body block blk ops : List GOp} {o p act : GOp} {v w : Val} {chain : MatchedChain}
  {m : List (Val × Val)} {dom exts : List Val} {b c n : Nat} {V σ : Type}

/-! ## Mappings -/

theorem mapVal_cons {k : Val} : mapVal ((k, w) :: m) v = if v = k then w else mapVal m v := by
  by_cases h : v = k
  · simp [mapVal, h]
  · rw [mapVal, List.lookup_cons, beq_false_of_ne h, if_neg h]
    rfl

/-- An external input is mapped to an argument of the block at one of its positions. -/
theorem mapVal_argMapping (hv : v ∈ exts) :
    ∃ i, exts[i]? = some v ∧ mapVal (argMapping b exts) v = .res b i := by
  have hsome : ((argMapping b exts).lookup v).isSome := by
    rw [List.lookup_isSome_iff]
    obtain ⟨i, hi⟩ := List.mem_iff_getElem?.mp hv
    refine ⟨(v, .res b i), ?_, by simp⟩
    rw [argMapping, List.mem_reverse, List.mem_map]
    exact ⟨(v, i), List.mk_mem_zipIdx_iff_getElem?.mpr hi, rfl⟩
  obtain ⟨w, hw⟩ := Option.isSome_iff_exists.mp hsome
  obtain ⟨l, l', hsplit, -⟩ := List.lookup_eq_some_iff.mp hw
  have hmem : (v, w) ∈ argMapping b exts := by
    rw [hsplit]
    simp
  rw [argMapping, List.mem_reverse, List.mem_map] at hmem
  obtain ⟨⟨x, i⟩, hx, heq⟩ := hmem
  obtain ⟨rfl, rfl⟩ := Prod.mk.inj heq
  exact ⟨i, List.mk_mem_zipIdx_iff_getElem?.mp hx, by rw [mapVal, hw]; rfl⟩

/-- Any other value is left as it is. -/
theorem mapVal_argMapping_of_notMem (hv : v ∉ exts) : mapVal (argMapping b exts) v = v := by
  have hnone : (argMapping b exts).lookup v = none := by
    rw [List.lookup_eq_none_iff]
    intro e he
    rw [argMapping, List.mem_reverse, List.mem_map] at he
    obtain ⟨⟨x, i⟩, hx, rfl⟩ := he
    have hx' := List.fst_mem_of_mem_zipIdx hx
    simp only [bne_iff_ne, ne_eq]
    rintro rfl
    exact hv hx'
  rw [mapVal, hnone]
  rfl

/-! ## Copies -/

/-- Every operand is one of `dom`, or the first result of an operation before. -/
def Closed : List Val → List GOp → Prop
  | _, [] => True
  | dom, o :: ops => (∀ v ∈ o.operands, v ∈ dom) ∧ Closed (.res o.id 0 :: dom) ops

theorem ids_cloneOps : ids (cloneOps m c ops) = List.range' c ops.length := by
  induction ops generalizing m c with
  | nil => rfl
  | cons o ops ih =>
      rw [cloneOps, List.length_cons, List.range'_succ, ← ih]
      rfl

/-- What a mapping owes to a list of values is kept when one more value is mapped. -/
theorem forall_mapVal_cons {P : Val → Val → Prop} {k : Val} (h : ∀ v ∈ dom, P v (mapVal m v))
    (hk : P k w) : ∀ v ∈ k :: dom, P v (mapVal ((k, w) :: m) v) := by
  intro v hv
  rw [mapVal_cons]
  split
  case isTrue heq => exact heq ▸ hk
  case isFalse hne => exact h v ((List.mem_cons.mp hv).resolve_left hne)

theorem definedFirst_cloneOps (hdom : ∀ v ∈ dom, Defined 0 blk (mapVal m v))
    (hclosed : Closed dom ops) (hres : ∀ o ∈ ops, 0 < o.results.length) :
    DefinedFirst 0 blk (cloneOps m c ops) := by
  induction ops generalizing m c dom blk with
  | nil => trivial
  | cons o ops ih =>
      obtain ⟨ho, hops⟩ := List.forall_mem_cons.mp hres
      refine ⟨fun v hv => ?_, ih (forall_mapVal_cons (P := fun _ w => Defined 0 _ w)
        (fun v hv => (hdom v hv).mono fun q hq => ?_) ?_) hclosed.2 hops⟩
      · obtain ⟨x, hx, rfl⟩ := List.mem_map.mp hv
        exact hdom x (hclosed.1 x hx)
      · exact ⟨q, List.mem_append_left _ hq, rfl, rfl⟩
      · exact ⟨_, List.mem_append_right _ (List.mem_singleton.mpr rfl), rfl, ho⟩

/-- A copy is an original but for its id and for the names of its operands, whose types are
those of the operands of the original. -/
theorem mem_cloneOps (hdom : ∀ v ∈ dom, typeOf [] blk (mapVal m v) = typeOf args block v)
    (hclosed : Closed dom ops) (hblk : (ids blk).Nodup) (hblock : (ids block).Nodup)
    (hsub : ∀ p ∈ cloneOps m c ops, p ∈ blk) (hops : ∀ o ∈ ops, o ∈ block) :
    ∀ p ∈ cloneOps m c ops, ∃ o ∈ ops, p.kind = o.kind ∧ p.results = o.results ∧
      p.operands.map (typeOf [] blk) = o.operands.map (typeOf args block) := by
  induction ops generalizing m c dom with
  | nil => exact fun p hp => absurd hp (by simp [cloneOps])
  | cons o ops ih =>
      obtain ⟨ho, hrest⟩ := List.forall_mem_cons.mp hops
      obtain ⟨hclone, hclones⟩ := List.forall_mem_cons.mp hsub
      intro p hp
      rcases List.mem_cons.mp hp with rfl | hp
      · refine ⟨o, List.mem_cons_self, rfl, rfl, ?_⟩
        rw [List.map_map]
        exact List.map_congr_left fun v hv => hdom v (hclosed.1 v hv)
      · have hkept : typeOf [] blk (.res c 0) = typeOf args block (.res o.id 0) :=
          (typeOf_res hblk hclone 0).trans (typeOf_res hblock ho 0).symm
        obtain ⟨q, hq, heq⟩ := ih (forall_mapVal_cons
          (P := fun v w => typeOf [] blk w = typeOf args block v) hdom hkept)
          hclosed.2 hclones hrest p hp
        exact ⟨q, List.mem_cons_of_mem _ hq, heq⟩

theorem kind_of_mem_cloneOps (h : p ∈ cloneOps m c ops) : ∃ o ∈ ops, p.kind = o.kind := by
  induction ops generalizing m c with
  | nil => exact absurd h (by simp [cloneOps])
  | cons o ops ih =>
      rcases List.mem_cons.mp h with rfl | h
      · exact ⟨o, List.mem_cons_self, rfl⟩
      · obtain ⟨q, hq, hkind⟩ := ih h
        exact ⟨q, List.mem_cons_of_mem _ hq, hkind⟩

/-- The last of the copies has the value of the last original, in an environment where every
original has the value it computes from its operands. -/
theorem eval_cloneOps {S : Sem Extra V σ} {env E : Val → V} {s : σ} {front : List GOp}
    (hdom : ∀ v ∈ dom, env (mapVal m v) = E v ∧ ∀ i, c ≤ i → NotOf i (mapVal m v))
    (hclosed : Closed dom (front ++ [o]))
    (hval : ∀ p ∈ front ++ [o], ∀ s, E (.res p.id 0) = (S.exec p.kind (p.operands.map E) s).1 0) :
    (eval S (cloneOps m c (front ++ [o])) (env, s)).1 (.res (c + front.length) 0) =
      E (.res o.id 0) := by
  induction front generalizing m c dom env s with
  | nil =>
      have hargs : (o.operands.map (mapVal m)).map env = o.operands.map E := by
        rw [List.map_map]
        exact List.map_congr_left fun v hv => (hdom v (hclosed.1 v hv)).1
      rw [hval o (by simp) s]
      simp [cloneOps, eval, evalOp, hargs]
  | cons p front ih =>
      have hargs : (p.operands.map (mapVal m)).map env = p.operands.map E := by
        rw [List.map_map]
        exact List.map_congr_left fun v hv => (hdom v (hclosed.1 v hv)).1
      rw [List.cons_append, cloneOps, eval_cons, List.length_cons, show
        c + (front.length + 1) = c + 1 + front.length by omega]
      refine ih ?_ hclosed.2 fun q hq => hval q (List.mem_cons_of_mem _ hq)
      refine forall_mapVal_cons (P := fun v w => _ = E v ∧ ∀ i, c + 1 ≤ i → NotOf i w) ?_ ?_
      · intro v hv
        obtain ⟨heq, hnot⟩ := hdom v hv
        exact ⟨(bindResults_of_notOf (hnot c le_rfl)).trans heq, fun i hi => hnot i (by omega)⟩
      · refine ⟨?_, fun i hi k heq => ?_⟩
        · rw [hval p (by simp) s, ← hargs]
          exact bindResults_self
        · have := (Val.res.inj heq).1
          omega

theorem cloneOps_concat {front : List GOp} : ∃ m', cloneOps m c (front ++ [o]) =
    cloneOps m c front ++ [{ o with id := c + front.length, operands := o.operands.map m' }] := by
  induction front generalizing m c with
  | nil => exact ⟨mapVal m, rfl⟩
  | cons p front ih =>
      obtain ⟨m', hm'⟩ := ih
      refine ⟨m', ?_⟩
      rw [List.cons_append, cloneOps, hm', cloneOps, List.cons_append, List.length_cons,
        show c + (front.length + 1) = c + 1 + front.length by omega]

/-! ## The operations of a chain -/

/-- The kinds that a chain is made of. -/
def InChain (k : GKind) : Prop :=
  (actName k).isSome ∨ isAdd k = true ∨ isMatmulLike k = true

variable {k : GKind} {L : LeafSem V σ}

theorem InChain.ne_yield (h : InChain k) : k ≠ .other .yield := by
  rintro rfl
  simp [InChain, actName, isAdd, isMatmulLike] at h

theorem InChain.ne_group (h : InChain k) {fusionKind : String} :
    k ≠ .other (.fusionGroup fusionKind b tys blk) := by
  rintro rfl
  simp [InChain, actName, isAdd, isMatmulLike] at h

theorem InChain.not_terminator (h : InChain k) : isTerminator k = false := by
  cases k with
  | other k =>
      cases k with
      | yield => exact absurd rfl h.ne_yield
      | foreign tag => simp [InChain, actName, isAdd, isMatmulLike] at h
      | _ => rfl
  | _ => rfl

theorem one_result (h : Arity o) (hin : InChain o.kind) : o.results.length = 1 := by
  rcases hin with hin | hin | hin
  · obtain ⟨name, hname⟩ := Option.isSome_iff_exists.mp hin
    exact (arity_of_actName h hname).2
  · exact (arity_of_isAdd h hin).2
  · exact (arity_of_isMatmulLike h hin).2

theorem mem_chainOps : o ∈ chainOps chain act ↔ o = chain.root ∨ chain.bias = some o ∨ o = act := by
  simp [chainOps]

theorem Linked.inChain (h : Linked body chain act) (hact : (actName act.kind).isSome)
    (ho : o ∈ chainOps chain act) : InChain o.kind := by
  rcases mem_chainOps.mp ho with rfl | hbias | rfl
  · exact Or.inr (Or.inr h.root_like)
  · exact Or.inr (Or.inl (h.bias o hbias).2.1)
  · exact Or.inl hact

theorem Linked.mem (h : Linked body chain act) (hact : act ∈ body) (ho : o ∈ chainOps chain act) :
    o ∈ body := by
  rcases mem_chainOps.mp ho with rfl | hbias | rfl
  · exact h.root_mem
  · exact (h.bias o hbias).1
  · exact hact

theorem biasExternal_eq {add : GOp} {x : Val} (h : AddOf chain.root add x) :
    biasExternal chain add = [x] := by
  obtain ⟨hops | hops, hx⟩ := h
  · simp [biasExternal, hops]
  · simp [biasExternal, hops, hx 0]

/-- An external input is an operand of the root, or the one operand of the add that is not
the root. -/
theorem mem_externalInputs (h : Linked body chain act) (hv : v ∈ externalInputs chain) :
    v ∈ chain.root.operands ∨ ∃ add, chain.bias = some add ∧ AddOf chain.root add v := by
  rcases List.mem_append.mp hv with hv | hv
  · exact Or.inl (List.mem_of_mem_take hv)
  · obtain ⟨add, hadd, hv⟩ := List.mem_flatMap.mp hv
    rw [Option.mem_toList] at hadd
    obtain ⟨x, hx⟩ := (h.bias add hadd).2.2.2
    rw [biasExternal_eq hx, List.mem_singleton] at hv
    exact Or.inr ⟨add, hadd, hv ▸ hx⟩

theorem AddOf.mem {root add : GOp} (h : AddOf root add v) : v ∈ add.operands := by
  rcases h.1 with hops | hops <;> simp [hops]

/-- External inputs are read by an operation of the chain. -/
theorem exists_reader (h : Linked body chain act) (hv : v ∈ externalInputs chain) :
    ∃ o ∈ body, o ∈ chainOps chain act ∧ v ∈ o.operands := by
  rcases mem_externalInputs h hv with hroot | ⟨add, hadd, hof⟩
  · exact ⟨chain.root, h.root_mem, mem_chainOps.mpr (Or.inl rfl), hroot⟩
  · exact ⟨add, (h.bias add hadd).1, mem_chainOps.mpr (Or.inr (Or.inl hadd)), hof.mem⟩

/-- When the operands of the root are mapped, so are all operands of the chain. -/
theorem closed_chainOps (h : Linked body chain act) (hmapped : InputsMapped chain) :
    Closed (externalInputs chain) (chainOps chain act) := by
  have hact := h.act
  have hbias := h.bias
  rw [MatchedChain.producer] at hact
  rw [chainOps]
  cases hb : chain.bias with
  | none =>
      simp only [hb, Option.getD_none] at hact
      exact ⟨hmapped, by simp [hact], trivial⟩
  | some add =>
      simp only [hb, Option.getD_some] at hact
      obtain ⟨x, hx⟩ := (hbias add hb).2.2.2
      have hmem : x ∈ externalInputs chain := by
        refine List.mem_append_right _ (List.mem_flatMap.mpr ⟨add, by simp [hb], ?_⟩)
        rw [biasExternal_eq hx]
        exact List.mem_singleton.mpr rfl
      refine ⟨hmapped, ?_, by simp [hact], trivial⟩
      rcases hx.1 with hops | hops <;> simp [hops, hmem]

/-! ## The block of the group -/

theorem map_some_filterMap {α β : Type} {f : α → Option β} {l : List α}
    (h : ∀ a ∈ l, (f a).isSome) : (l.filterMap f).map some = l.map f := by
  induction l with
  | nil => rfl
  | cons a l ih =>
      obtain ⟨ha, hl⟩ := List.forall_mem_cons.mp h
      obtain ⟨b, hb⟩ := Option.isSome_iff_exists.mp ha
      rw [List.filterMap_cons_some hb, List.map_cons, ih hl, List.map_cons, hb]

theorem ids_groupBody : ids (header (n + 1) tys :: groupBody n chain act) =
    List.range' (n + 1) ((chainOps chain act).length + 2) := by
  have hlen : n + 2 + (chainOps chain act).length =
      n + 1 + 1 * ((chainOps chain act).length + 1) := by
    omega
  rw [List.range'_concat, ← hlen, List.range'_succ]
  simp only [groupBody, ids, List.map_cons, List.map_append]
  rw [← ids, ids_cloneOps]
  rfl

/-- The copy of the activation is the last one, and has its results. -/
theorem last_copy (m : List (Val × Val)) (c : Nat) :
    ∃ last ∈ cloneOps m c (chainOps chain act), last.id + 1 = c + (chainOps chain act).length ∧
      last.results = act.results := by
  obtain ⟨m', hm'⟩ : ∃ m', cloneOps m c ((chain.root :: chain.bias.toList) ++ [act]) = _ :=
    cloneOps_concat
  refine ⟨{ act with id := c + (chain.root :: chain.bias.toList).length,
                     operands := act.operands.map m' }, ?_, ?_, rfl⟩
  · rw [chainOps, ← List.cons_append, hm']
    exact List.mem_append_right _ (List.mem_singleton.mpr rfl)
  · simp only [chainOps, List.length_cons, List.length_append, List.length_nil]
    omega

section Wf

variable {yields : Option (List Ty)} {name : String}
  (h : WfBlock verify args seen body yields) (hact : act ∈ body)
  (hname : (actName act.kind).isSome) (hlinked : Linked body chain act)

include h hlinked in
theorem typeOf_externalInputs :
    ((externalInputs chain).filterMap (typeOf args (seen ++ body))).map some =
      (externalInputs chain).map (typeOf args (seen ++ body)) := by
  refine map_some_filterMap fun v hv => ?_
  obtain ⟨o, ho, -, hv⟩ := exists_reader hlinked hv
  obtain ⟨tys, htys, -⟩ := (h.ops o ho).types
  have hmem : typeOf args (seen ++ body) v ∈ tys.map some := by
    rw [← htys]
    exact List.mem_map_of_mem hv
  obtain ⟨ty, -, hty⟩ := List.mem_map.mp hmem
  rw [← hty]
  rfl

include h hact hname hlinked in
theorem wf_groupBody (hmapped : InputsMapped chain) : WfBlock verify []
    [header (n + 1) ((externalInputs chain).filterMap (typeOf args (seen ++ body)))]
    (groupBody n chain act) (some act.results) := by
  have htys := typeOf_externalInputs h hlinked
  generalize (externalInputs chain).filterMap (typeOf args (seen ++ body)) = tys at htys ⊢
  have hnodup : (ids ([header (n + 1) tys] ++ groupBody n chain act)).Nodup := by
    rw [List.singleton_append, ids_groupBody]
    exact List.nodup_range'
  have hlen : tys.length = (externalInputs chain).length := by
    simpa using congrArg List.length htys
  have hin : ∀ o ∈ chainOps chain act, InChain o.kind := fun o => hlinked.inChain hname
  have hmem : ∀ o ∈ chainOps chain act, o ∈ body := fun o => hlinked.mem hact
  have hclosed := closed_chainOps hlinked hmapped
  -- the arguments of the block stand for the external inputs, and have their types
  have hdefined : ∀ v ∈ externalInputs chain, Defined 0 [header (n + 1) tys]
      (mapVal (argMapping (n + 1) (externalInputs chain)) v) := by
    intro v hv
    obtain ⟨i, hi, heq⟩ := mapVal_argMapping hv
    rw [heq]
    refine ⟨_, List.mem_singleton.mpr rfl, rfl, ?_⟩
    exact hlen ▸ (List.getElem?_eq_some_iff.mp hi).1
  have htypes : ∀ v ∈ externalInputs chain,
      typeOf [] ([header (n + 1) tys] ++ groupBody n chain act)
        (mapVal (argMapping (n + 1) (externalInputs chain)) v) = typeOf args (seen ++ body) v := by
    intro v hv
    obtain ⟨i, hi, heq⟩ := mapVal_argMapping hv
    have hty := congrArg (fun l => l[i]?) htys
    simp only [List.getElem?_map, hi, Option.map_some] at hty
    rw [heq]
    refine (typeOf_res hnodup (o := header (n + 1) tys) (by simp) i).trans ?_
    show tys[i]? = _
    cases hget : tys[i]? with
    | none => simp [hget] at hty
    | some ty => simpa [hget] using hty
  have hcopies := mem_cloneOps htypes hclosed hnodup h.ssa.nodup
    (fun p hp => List.mem_append_right _ (List.mem_append_left _ hp))
    (fun o ho => List.mem_append_right _ (hmem o ho))
  obtain ⟨last, hlast, hsucc, hres⟩ : ∃ last ∈ cloneOps _ _ (chainOps chain act), _ :=
    last_copy (argMapping (n + 1) (externalInputs chain)) (n + 2)
  have hid : last.id = n + 1 + (chainOps chain act).length := by omega
  obtain ⟨ty, hty⟩ := List.length_eq_one_iff.mp
    (one_result (h.ops act hact).arity (hin act (mem_chainOps.mpr (by simp))))
  have hyield : typeOf [] ([header (n + 1) tys] ++ groupBody n chain act)
      (.res (n + 1 + (chainOps chain act).length) 0) = some ty := by
    rw [← hid, typeOf_res hnodup (List.mem_append_right _ (List.mem_append_left _ hlast)), hres,
      hty]
    rfl
  refine .intro ⟨hnodup, ?_⟩ (fun p hp => ?_) ⟨⟨_, List.getLast?_concat, rfl, ?_⟩, fun p hp => ?_⟩
    (fun p hp fusionKind b tys inner hkind => ?_)
  · refine ⟨by simp [header], ?_⟩
    show DefinedFirst 0 [header (n + 1) tys] (groupBody n chain act)
    rw [groupBody]
    refine definedFirst_append.mpr ⟨?_, ?_, trivial⟩
    · refine definedFirst_cloneOps hdefined hclosed fun o ho => ?_
      rw [one_result (h.ops o (hmem o ho)).arity (hin o ho)]
      exact Nat.one_pos
    · intro v hv
      rw [List.mem_singleton.mp hv]
      refine ⟨last, List.mem_append_right _ hlast, hid, ?_⟩
      rw [hres, hty]
      exact Nat.one_pos
  · rcases List.mem_append.mp hp with hp | hp
    · obtain ⟨o, ho, hkind, hres, hmap⟩ := hcopies p hp
      exact (h.ops o (hmem o ho)).congr hkind hres hmap
    · rw [List.mem_singleton.mp hp]
      exact ⟨rfl, [ty], congrArg (· :: []) hyield, trivial⟩
  · rw [hty]
    exact congrArg (· :: []) hyield
  · rw [groupBody, List.dropLast_concat] at hp
    obtain ⟨o, ho, hkind, -⟩ := hcopies p hp
    exact hkind ▸ (hin o ho).ne_yield
  · rcases List.mem_append.mp hp with hp | hp
    · obtain ⟨o, ho, hk, -⟩ := hcopies p hp
      exact absurd (hk.symm.trans hkind) (hin o ho).ne_group
    · rw [List.mem_singleton.mp hp] at hkind
      cases hkind

include h hlinked in
theorem ok_groupOp : OpOk verify args (seen ++ body) (groupOp n args (seen ++ body) chain act) where
  arity := trivial
  types := ⟨_, (typeOf_externalInputs h hlinked).symm, rfl⟩

end Wf

/-! ## What the group computes -/

theorem sem_exec (hk : ∀ f b tys inner, k ≠ .other (.fusionGroup f b tys inner)) (vs : List V)
    (s : σ) : L.sem.exec k vs s = L.exec k vs s := by
  cases k with
  | other k =>
      cases k with
      | fusionGroup f b tys inner => exact absurd rfl (hk f b tys inner)
      | _ => rfl
  | _ => rfl

theorem pure_of_inChain (hL : L.Pure) (hk : InChain k) : L.sem.Pure k := by
  intro vs s s'
  rw [sem_exec (fun _ _ _ _ => hk.ne_group), sem_exec (fun _ _ _ _ => hk.ne_group)]
  refine hL k ?_ vs s s'
  rcases hk with hk | hk | hk
  · exact Or.inl hk
  · exact Or.inr (Or.inl hk)
  · exact Or.inr (Or.inr (Or.inl hk))

theorem pure_yield (hL : L.Pure) : L.sem.Pure (.other .yield) :=
  hL _ (Or.inr (Or.inr (Or.inr rfl)))

/-- A block of pure operations leaves the state alone and does not depend on it. -/
theorem eval_all_pure {S : Sem Extra V σ} {env : Val → V} (hpure : ∀ o ∈ ops, S.Pure o.kind)
    (s s' : σ) :
    (eval S ops (env, s)).2 = s ∧ (eval S ops (env, s)).1 = (eval S ops (env, s')).1 := by
  induction ops generalizing env with
  | nil => exact ⟨rfl, rfl⟩
  | cons o ops ih =>
      obtain ⟨ho, hops⟩ := List.forall_mem_cons.mp hpure
      have hstep : ∀ s, evalOp S (env, s) o =
          (bindResults env o.id (S.exec o.kind (o.operands.map env) s').1, s) := by
        intro s
        rw [evalOp, (ho _ s s').2]
        exact Prod.ext rfl (ho _ s s').1
      rw [eval_cons, eval_cons, hstep, hstep]
      exact ih hops

theorem pure_group {fusionKind : String} (hpure : ∀ o ∈ ops, L.sem.Pure o.kind) :
    L.sem.Pure (.other (.fusionGroup fusionKind b tys ops)) := by
  intro vs s s'
  have heval : _ ∧ (eval L.sem ops (regionEnv L.undef b vs, s)).1 = _ := eval_all_pure hpure s s'
  rw [exec_group, exec_group]
  refine ⟨heval.1, ?_⟩
  simp only [returned, heval.2]

theorem pure_groupOp (hL : L.Pure) (hname : (actName act.kind).isSome)
    (hlinked : Linked body chain act) : L.sem.Pure (groupOp n args block chain act).kind := by
  refine pure_group fun p hp => ?_
  rcases List.mem_append.mp hp with hp | hp
  · obtain ⟨o, ho, hkind⟩ := kind_of_mem_cloneOps hp
    exact hkind ▸ pure_of_inChain hL (hlinked.inChain hname ho)
  · rw [List.mem_singleton.mp hp]
    exact pure_yield hL

/-- The group computes the activation, in an environment where every operation of the chain
has the value it computes from its operands. -/
theorem exec_groupOp {E : Val → V} {s : σ} (hlinked : Linked body chain act)
    (hmapped : InputsMapped chain) (hval : ∀ o ∈ chainOps chain act, ∀ s,
      E (.res o.id 0) = (L.sem.exec o.kind (o.operands.map E) s).1 0) :
    (L.sem.exec (groupOp n args block chain act).kind ((externalInputs chain).map E) s).1 0 =
      E (.res act.id 0) := by
  have hdom : ∀ v ∈ externalInputs chain,
      regionEnv L.undef (n + 1) ((externalInputs chain).map E)
        (mapVal (argMapping (n + 1) (externalInputs chain)) v) = E v ∧
      ∀ i, n + 2 ≤ i → NotOf i (mapVal (argMapping (n + 1) (externalInputs chain)) v) := by
    intro v hv
    obtain ⟨i, hi, heq⟩ := mapVal_argMapping hv
    rw [heq]
    refine ⟨by simp [regionEnv, hi], fun j hj k heq => ?_⟩
    have := (Val.res.inj heq).1
    omega
  have hcopies : (eval L.sem (cloneOps _ (n + 2) ((chain.root :: chain.bias.toList) ++ [act]))
      (_, s)).1 (.res (n + 2 + (chain.root :: chain.bias.toList).length) 0) = _ :=
    eval_cloneOps hdom (closed_chainOps hlinked hmapped) hval
  have hlen : n + 1 + (chainOps chain act).length =
      n + 2 + (chain.root :: chain.bias.toList).length := by
    simp only [chainOps, List.length_cons, List.length_append, List.length_nil]
    omega
  rw [groupOp, exec_group, returned, groupBody, List.getLast?_concat, eval_append, eval_cons,
    hlen]
  show (evalOp L.sem (eval L.sem (cloneOps _ _ _) (_, s)) (yieldOp _ _)).1 (.res _ 0) = _
  -- the yield has no results, so it changes nothing
  rw [evalOp_env, bindResults_of_notOf]
  · exact hcopies
  intro k heq
  have := (Val.res.inj heq).1
  simp only [yieldOp] at this
  omega

end CrossMachine.Compiler
