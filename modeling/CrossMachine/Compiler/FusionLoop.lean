import CrossMachine.Compiler.FusionSound

/-!
# The fusion pass on its own output

The group holds a copy of the chain, and nothing keeps the pattern from matching it: the copy
of the activation reads the copy of the add or of the root, every copy has one use, and the
arguments of the block are defined by no operation. So a rewrite leaves a match behind, one
level deeper, and a function with a match can be rewritten for ever.
-/

namespace CrossMachine.Compiler

variable {verify : GKind → List Ty → List Ty → Prop} {args : List Ty}
  {seen body : List GOp} {o act : GOp} {v : Val} {yields : Option (List Ty)}
  {chain : MatchedChain} {name : String} {n : Nat}

/-! ## Matching again -/

/-- A linked chain is matched, if the add does not have another matmul on its left. -/
theorem match_of_linked (hnodup : (ids body).Nodup) (h : Linked body chain act)
    (hleft : ∀ add x, chain.bias = some add → AddOf chain.root add x → definingOp body x = none)
    (name : String) :
    matchChain body act name = some (mkChain chain.root chain.bias name) := by
  have hdef : ∀ p ∈ body, definingOp body (.res p.id 0) = some p := fun p hp => find?_id hnodup hp
  have hact := h.act
  rw [MatchedChain.producer] at hact
  cases hb : chain.bias with
  | none =>
      rw [hb, Option.getD_none] at hact
      have hadd : isAdd chain.root.kind = false := not_isAdd h.root_like
      simp [matchChain, hact, hdef _ h.root_mem, hadd, h.root_like, h.root_single]
  | some add =>
      rw [hb, Option.getD_some] at hact
      obtain ⟨hmem, hadd, hsingle, x, hx⟩ := h.bias add hb
      have hbehind : matmulBehind body add = some chain.root := by
        rcases hx.1 with hops | hops
        · simp [matmulBehind, hops, hdef _ h.root_mem, h.root_like]
        · simp [matmulBehind, hops, hdef _ h.root_mem, h.root_like, hleft add x hb hx]
      simp [matchChain, hact, hdef _ hmem, hadd, hsingle, hbehind, h.root_single]

/-! ## The copy of a chain -/

/-- The copy of one operation. -/
def copyOp (m : List (Val × Val)) (c : Nat) (o : GOp) : GOp :=
  { o with id := c, operands := o.operands.map (mapVal m) }

theorem groupBody_none (hb : chain.bias = none) : groupBody n chain act =
    [copyOp (argMapping (n + 1) (externalInputs chain)) (n + 2) chain.root,
     copyOp ((.res chain.root.id 0, .res (n + 2) 0) :: argMapping (n + 1) (externalInputs chain))
       (n + 3) act,
     yieldOp (n + 4) (.res (n + 3) 0)] := by
  simp only [groupBody, chainOps, hb, Option.toList_none, List.nil_append]
  rfl

theorem groupBody_some {add : GOp} (hb : chain.bias = some add) : groupBody n chain act =
    [copyOp (argMapping (n + 1) (externalInputs chain)) (n + 2) chain.root,
     copyOp ((.res chain.root.id 0, .res (n + 2) 0) :: argMapping (n + 1) (externalInputs chain))
       (n + 3) add,
     copyOp ((.res add.id 0, .res (n + 3) 0) :: (.res chain.root.id 0, .res (n + 2) 0) ::
       argMapping (n + 1) (externalInputs chain)) (n + 4) act,
     yieldOp (n + 5) (.res (n + 4) 0)] := by
  simp only [groupBody, chainOps, hb, Option.toList_some, List.singleton_append]
  rfl

theorem nodup_groupBody : (ids (groupBody n chain act)).Nodup := by
  have hall : (ids (header (n + 1) [] :: groupBody n chain act)).Nodup := by
    rw [ids_groupBody]
    exact List.nodup_range'
  exact (List.nodup_cons.mp hall).2

theorem usesIn_of_notOf {op : Nat} (h : ∀ v ∈ o.operands, NotOf op v) : usesIn op o = 0 :=
  List.countP_eq_zero.mpr fun v hv => by simpa using notOf_iff.mp (h v hv)

/-- The copy of the root reads none of the copies. -/
theorem usesIn_copy_root (hroot : chain.root ∈ body) (hfresh : ∀ i ∈ usedIds body, i < n)
    {i : Nat} (hi : n + 2 ≤ i) :
    usesIn i (copyOp (argMapping (n + 1) (externalInputs chain)) (n + 2) chain.root) = 0 := by
  refine usesIn_of_notOf fun w hw => ?_
  obtain ⟨v, hv, rfl⟩ := List.mem_map.mp hw
  intro k heq
  by_cases hmem : v ∈ externalInputs chain
  · obtain ⟨j, -, hj⟩ := mapVal_argMapping (b := n + 1) hmem
    have := (Val.res.inj (hj.symm.trans heq)).1
    omega
  · rw [mapVal_argMapping_of_notMem hmem] at heq
    subst heq
    have := hfresh i (mem_usedIds hroot hv)
    omega

theorem AddOf.usesIn {root add : GOp} {x : Val} (h : AddOf root add x) :
    usesIn root.id add = 1 := by
  have hx := notOf_iff.mp h.2
  rcases h.1 with hops | hops <;> simp [Compiler.usesIn, hops, hx]

theorem AddOf.unique {root add : GOp} {x y : Val} (hx : AddOf root add x) (hy : AddOf root add y) :
    x = y := by
  rcases hx.1 with hops | hops <;> rcases hy.1 with hops' | hops' <;>
    simp only [hops, List.cons.injEq, and_true, true_and] at hops'
  · exact hops'
  · exact absurd hops'.2 (hx.2 0)
  · exact absurd hops'.1 (hx.2 0)
  · exact hops'

/-- A root and an activation that reads it. -/
theorem linked_two {r a y : GOp} (hr : isMatmulLike r.kind = true)
    (ha : a.operands = [.res r.id 0]) (hrr : usesIn r.id r = 0) (hry : usesIn r.id y = 0) :
    Linked [r, a, y] ⟨r, none, ""⟩ a := by
  have hra : usesIn r.id a = 1 := by simp [usesIn, ha]
  refine ⟨by simp, hr, ?_, by rintro _ ⟨⟩, ha⟩
  simp [singleUse, hrr, hra, hry]

/-- A root, an add that reads it and an activation that reads the add. -/
theorem linked_three {r d a y : GOp} {x : Val} (hr : isMatmulLike r.kind = true)
    (hd : isAdd d.kind = true) (hx : AddOf r d x) (ha : a.operands = [.res d.id 0])
    (hne : d.id ≠ r.id) (hrr : usesIn r.id r = 0) (hry : usesIn r.id y = 0)
    (hdr : usesIn d.id r = 0) (hdd : usesIn d.id d = 0) (hdy : usesIn d.id y = 0) :
    Linked [r, d, a, y] ⟨r, some d, ""⟩ a := by
  have hra : usesIn r.id a = 0 := by simp [usesIn, ha, hne]
  have hda : usesIn d.id a = 1 := by simp [usesIn, ha]
  refine ⟨by simp, hr, ?_, ?_, ha⟩
  · simp [singleUse, hrr, hx.usesIn, hra, hry]
  · rintro _ ⟨⟩
    exact ⟨by simp, hd, by simp [singleUse, hdr, hdd, hda, hdy], x, hx⟩

/-- The copy of the add reads the copy of the root and an argument of the block. -/
theorem addOf_copy {add : GOp} {x : Val} (hx : AddOf chain.root add x)
    (hmem : x ∈ externalInputs chain) {r d : GOp} (hid : r.id = n + 2)
    (hd : d.operands = add.operands.map (mapVal ((.res chain.root.id 0, .res (n + 2) 0) ::
      argMapping (n + 1) (externalInputs chain)))) :
    ∃ i, AddOf r d (.res (n + 1) i) := by
  obtain ⟨i, -, hi⟩ := mapVal_argMapping (b := n + 1) hmem
  refine ⟨i, ?_, fun k heq => ?_⟩
  · rw [hid]
    rcases hx.1 with hops | hops
    · exact Or.inl (by simp [hd, hops, mapVal_cons, hx.2 0, hi])
    · exact Or.inr (by simp [hd, hops, mapVal_cons, hx.2 0, hi])
  · have := (Val.res.inj heq).1
    omega

/-- The copies are linked as the chain is, and the other operand of the add is an argument of
the block. -/
theorem linked_copy (h : Linked body chain act) (hfresh : ∀ i ∈ usedIds body, i < n) :
    ∃ chain' act', act' ∈ groupBody n chain act ∧ act'.kind = act.kind ∧
      Linked (groupBody n chain act) chain' act' ∧
      ∀ add x, chain'.bias = some add → AddOf chain'.root add x →
        definingOp (groupBody n chain act) x = none := by
  have hact := h.act
  have hroot : ∀ {i}, n + 2 ≤ i →
      usesIn i (copyOp (argMapping (n + 1) (externalInputs chain)) (n + 2) chain.root) = 0 :=
    usesIn_copy_root h.root_mem hfresh
  rw [MatchedChain.producer] at hact
  cases hb : chain.bias with
  | none =>
      rw [hb, Option.getD_none] at hact
      rw [groupBody_none hb]
      refine ⟨_, _, List.mem_cons_of_mem _ List.mem_cons_self, rfl,
        linked_two h.root_like ?_ (hroot le_rfl) ?_, by rintro _ _ ⟨⟩⟩
      · simp [copyOp, hact, mapVal_cons]
      · simp [usesIn, yieldOp, copyOp]
  | some add =>
      rw [hb, Option.getD_some] at hact
      obtain ⟨-, hadd, -, x, hx⟩ := h.bias add hb
      have hmem : x ∈ externalInputs chain := by
        refine List.mem_append_right _ (List.mem_flatMap.mpr ⟨add, by simp [hb], ?_⟩)
        rw [biasExternal_eq hx]
        exact List.mem_singleton.mpr rfl
      rw [groupBody_some hb]
      generalize hr : copyOp (argMapping (n + 1) (externalInputs chain)) (n + 2) chain.root = r
      generalize hd : copyOp ((.res chain.root.id 0, .res (n + 2) 0) ::
        argMapping (n + 1) (externalInputs chain)) (n + 3) add = d
      rw [hr] at hroot
      have hrid : r.id = n + 2 := by rw [← hr]; rfl
      have hdid : d.id = n + 3 := by rw [← hd]; rfl
      obtain ⟨i, hof⟩ : ∃ i, AddOf r d (.res (n + 1) i) :=
        addOf_copy hx hmem hrid (by rw [← hd]; rfl)
      have hdd : usesIn d.id d = 0 := by
        rcases hof.1 with hops | hops <;> simp [usesIn, hops, hrid, hdid]
      refine ⟨_, _, List.mem_cons_of_mem _ (List.mem_cons_of_mem _ List.mem_cons_self), rfl,
        linked_three (hr ▸ h.root_like) (hd ▸ hadd) hof ?_ (by omega) (hroot (by omega)) ?_
          (hroot (by omega)) hdd ?_, ?_⟩
      · simp [copyOp, hact, mapVal_cons, hdid]
      · simp [usesIn, yieldOp, hrid]
      · simp [usesIn, yieldOp, hdid]
      · rintro _ y ⟨⟩ hy
        rw [hy.unique hof]
        simp [definingOp, hrid, hdid, copyOp, yieldOp]

/-! ## For ever -/

/-- A linked match, in the block or in a region of it. -/
inductive Fusible : List GOp → Prop
  | here {body : List GOp} {act : GOp} {name : String} {chain : MatchedChain} (hact : act ∈ body)
      (hname : actName act.kind = some name) (hmatch : matchChain body act name = some chain)
      (hlinked : Linked body chain act) : Fusible body
  | inside {body inner : List GOp} {o : GOp} {fusionKind : String} {block : Nat} {tys : List Ty}
      (ho : o ∈ body) (hkind : o.kind = .other (.fusionGroup fusionKind block tys inner))
      (hinner : Fusible inner) : Fusible body

theorem fusible_of_hasMatch (h : HasMatch body) (hwf : WfBlock verify args seen body yields) :
    Fusible body := by
  induction h generalizing args seen yields with
  | here hact hname hmatch => exact .here hact hname hmatch (linked_of_match hwf hact hname hmatch)
  | inside ho hkind hinner ih => exact .inside ho hkind (ih (hwf.regions _ ho _ _ _ _ hkind))

theorem exists_fresh (l : List Nat) : ∃ n, ∀ i ∈ l, i < n := by
  induction l with
  | nil => exact ⟨0, by simp⟩
  | cons j l ih =>
      obtain ⟨n, hn⟩ := ih
      refine ⟨max n (j + 1), fun i hi => ?_⟩
      rcases List.mem_cons.mp hi with rfl | hi
      · omega
      · have := hn i hi
        omega

theorem usedIds_append {i : Nat} (h : i ∈ usedIds body) : i ∈ usedIds (seen ++ body) := by
  simp only [usedIds, ids, List.map_append, List.flatMap_append, List.filterMap_append,
    List.mem_append] at h ⊢
  tauto

/-- A block that can be rewritten can be rewritten so that it still can be. -/
theorem Fusible.step (h : Fusible body) (args : List Ty) (seen : List GOp) :
    ∃ chain body', FuseStep args seen body chain body' ∧ Fusible body' := by
  induction h generalizing args seen with
  | @here body act name chain hact hname hmatch hlinked =>
      obtain ⟨n, hn⟩ := exists_fresh (usedIds (seen ++ body))
      have hfresh : ∀ i ∈ usedIds body, i < n := fun i hi => hn i (usedIds_append hi)
      have hid : n ∉ ids body := fun hmem =>
        absurd (hfresh n (List.mem_append_left _ hmem)) (lt_irrefl n)
      refine ⟨chain, _, .here hact hname hmatch hn, ?_⟩
      -- the copy of the chain is matched again, inside of the group
      obtain ⟨chain', act', hact', hkind, hlinked', hleft⟩ := linked_copy hlinked hfresh
      refine .inside (mem_fuse hact hlinked hid) rfl (.here hact' (hkind ▸ hname)
        (match_of_linked nodup_groupBody hlinked' hleft name) ?_)
      exact ⟨hlinked'.root_mem, hlinked'.root_like, hlinked'.root_single, hlinked'.bias,
        hlinked'.act⟩
  | inside ho hkind hinner ih =>
      obtain ⟨chain, inner', hstep, hinner'⟩ := ih [] [header _ _]
      obtain ⟨pre, post, rfl⟩ := List.append_of_mem ho
      exact ⟨chain, _, .inside hkind hstep,
        .inside (List.mem_append_right _ List.mem_cons_self) rfl hinner'⟩

/-- An infinite sequence of rewrites. -/
def Diverges (args : List Ty) (body : List GOp) : Prop :=
  ∃ run : Nat → List GOp, run 0 = body ∧
    ∀ i, ∃ chain, FuseStep args [] (run i) chain (run (i + 1))

theorem Fusible.diverges (h : Fusible body) : Diverges args body := by
  choose chain next hstep hnext using fun b : { b // Fusible b } => b.2.step args []
  let run : Nat → { b // Fusible b } := fun i => i.rec ⟨body, h⟩ fun _ b => ⟨next b, hnext b⟩
  exact ⟨fun i => (run i).1, rfl, fun i => ⟨chain (run i), hstep (run i)⟩⟩

/-- What is rewritten has a match. -/
theorem FuseStep.hasMatch {body' : List GOp} (h : FuseStep args seen body chain body') :
    HasMatch body := by
  induction h with
  | here hact hname hmatch => exact .here hact hname hmatch
  | inside hkind _ ih => exact .inside (by simp) hkind ih

/-- A well-formed function is rewritten finitely often only, whatever the order, if and only
if it has no match in the first place. -/
theorem fusion_terminates_iff (h : WfBlock verify args [] body none) :
    ¬ Diverges args body ↔ ¬ HasMatch body := by
  refine not_congr ⟨fun hrun => ?_, fun hmatch => (fusible_of_hasMatch hmatch h).diverges⟩
  obtain ⟨run, rfl, hsteps⟩ := hrun
  obtain ⟨chain, hstep⟩ := hsteps 0
  exact hstep.hasMatch

/-- A function of a return only is left alone. -/
theorem fusion_terminates_return :
    ¬ HasMatch [⟨0, .other (.foreign 0), [.arg 0], [], none⟩] ∧
      ¬ Diverges [square] [⟨0, .other (.foreign 0), [.arg 0], [], none⟩] := by
  have hwf : WfBlock verifyActivation [square] []
      [⟨0, .other (.foreign 0), [.arg 0], [], none⟩] none := by
    refine .intro (by decide) (fun o ho => ?_) ⟨⟨_, rfl, 0, rfl⟩, by simp⟩ (by simp)
    rw [List.mem_singleton.mp ho]
    exact ⟨trivial, [square], rfl, nofun⟩
  have hnone : ¬ HasMatch [⟨0, .other (.foreign 0), [.arg 0], [], none⟩] := by
    intro hmatch
    cases hmatch with
    | here hact hname _ =>
        rw [List.mem_singleton.mp hact] at hname
        cases hname
    | inside ho hkind _ =>
        rw [List.mem_singleton.mp ho] at hkind
        cases hkind
  exact ⟨hnone, (fusion_terminates_iff hwf).mpr hnone⟩

/-- A matmul with a bias and an activation is rewritten for ever. -/
theorem addedBias_diverges :
    WfBlock verifyActivation [square, square, square] [] addedBias none ∧
      Diverges [square, square, square] addedBias :=
  ⟨wf_addedBias, (fusible_of_hasMatch fuseStep_addedBias.hasMatch wf_addedBias).diverges⟩

end CrossMachine.Compiler
