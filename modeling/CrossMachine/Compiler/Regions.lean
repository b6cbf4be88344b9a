import CrossMachine.Compiler.Edits
import CrossMachine.Compiler.Fusion

/-!
# Rewrites of well-formed blocks

`Refines` is what a rewrite owes: the block it leaves is well-formed again and computes what
the old one did, whatever the operations mean. The edits of a block are lifted to it one by
one, and so is a rewrite inside a region: a group whose block is replaced by one of the same
meaning does the same as before.
-/

namespace CrossMachine.Compiler

variable {verify : GKind → List Ty → List Ty → Prop} {args tys : List Ty}
  {seen pre post body body' body'' block block' inner inner' : List GOp} {o o' t : GOp}
  {v v' : Val} {yields : Option (List Ty)} {V σ : Type} {L : LeafSem V σ}

/-! ## Types -/

theorem typeOf_res (hnodup : (ids block).Nodup) (h : o ∈ block) (k : Nat) :
    typeOf args block (.res o.id k) = o.results[k]? := by
  simp [typeOf, find?_id hnodup h]

/-- A defined value keeps its type in every block that has the operations of this one. -/
theorem typeOf_mono (hnodup : (ids block).Nodup) (hnodup' : (ids block').Nodup)
    (hsub : ∀ o ∈ block, ∃ o' ∈ block', o'.id = o.id ∧ o'.results = o.results)
    (hv : Defined args.length block v) : typeOf args block' v = typeOf args block v := by
  cases v with
  | arg i => rfl
  | res op k =>
      obtain ⟨o, ho, rfl, -⟩ := hv
      obtain ⟨o', ho', hid, hres⟩ := hsub o ho
      rw [typeOf_res hnodup ho, ← hid, typeOf_res hnodup' ho', hres]

theorem Accepts.congr (hkind : o'.kind = o.kind) (hres : o'.results = o.results)
    (h : Accepts verify o tys) : Accepts verify o' tys := by
  rw [Accepts, hkind, hres]
  exact h

theorem Arity.congr (hkind : o'.kind = o.kind) (hres : o'.results = o.results)
    (hlen : o'.operands.length = o.operands.length) (h : Arity o) : Arity o' := by
  rw [Arity, hkind, hres, hlen]
  exact h

/-- What is checked of an operation depends on the types of its operands only. -/
theorem OpOk.congr {args' : List Ty} (h : OpOk verify args block o) (hkind : o'.kind = o.kind)
    (hres : o'.results = o.results)
    (htypes : o'.operands.map (typeOf args' block') = o.operands.map (typeOf args block)) :
    OpOk verify args' block' o' := by
  have hlen : o'.operands.length = o.operands.length := by
    simpa using congrArg List.length htypes
  obtain ⟨tys, hmap, hacc⟩ := h.types
  exact ⟨h.arity.congr hkind hres hlen, tys, htypes.trans hmap, hacc.congr hkind hres⟩

theorem Ends.congr (h : Ends args block o yields) (hkind : o'.kind = o.kind)
    (htypes : o'.operands.map (typeOf args block') = o.operands.map (typeOf args block)) :
    Ends args block' o' yields := by
  cases yields with
  | none =>
      obtain ⟨tag, htag⟩ := h
      exact ⟨tag, hkind.trans htag⟩
  | some tys => exact ⟨hkind.trans h.1, htypes.trans h.2⟩

theorem WfBlock.ssa (h : WfBlock verify args seen body yields) :
    Ssa args.length (seen ++ body) := by
  cases h
  assumption

theorem WfBlock.nodup (h : WfBlock verify args seen body yields) : (ids body).Nodup := by
  have hall := h.ssa.nodup
  rw [ids, List.map_append] at hall
  exact (List.nodup_append.mp hall).2.1

theorem WfBlock.ops (h : WfBlock verify args seen body yields) :
    ∀ o ∈ body, OpOk verify args (seen ++ body) o := by
  cases h
  assumption

theorem WfBlock.terminated (h : WfBlock verify args seen body yields) :
    Terminated args (seen ++ body) body yields := by
  cases h
  assumption

theorem WfBlock.regions (h : WfBlock verify args seen body yields) : ∀ o ∈ body,
    ∀ fusionKind block tys inner, o.kind = .other (.fusionGroup fusionKind block tys inner) →
      WfBlock verify [] [header block tys] inner (some o.results) := by
  cases h
  assumption

/-- Whatever an operation of the block reads is there. -/
theorem Ssa.defined (h : Ssa args.length body) (ho : o ∈ body) (hv : v ∈ o.operands) :
    Defined args.length body v := by
  obtain ⟨pre, post, rfl⟩ := List.append_of_mem ho
  exact (h.operands_defined v hv).mono
    fun q hq => ⟨q, List.mem_append_left _ hq, rfl, rfl⟩

/-! ## Meaning of regions -/

theorem evalBlock_eq {st : (Val → V) × σ} : evalBlock L body st = eval L.sem body st := by
  induction body generalizing st with
  | nil => rfl
  | cons o body ih =>
      have hone : evalOne L o st = evalOp L.sem st o := by
        cases o
        rfl
      rw [evalBlock, hone, ih, eval_cons]

/-- A group returns what its block does. -/
theorem exec_group {fusionKind : String} {b : Nat} {vs : List V} {s : σ} :
    L.sem.exec (.other (.fusionGroup fusionKind b tys inner)) vs s =
      (fun k => ((returned L.sem inner (regionEnv L.undef b vs, s)).getD []).getD k L.undef,
        (eval L.sem inner (regionEnv L.undef b vs, s)).2) := by
  simp only [LeafSem.sem, execKind, execExtra, evalBlock_eq]
  rfl

theorem exec_congr {fusionKind : String} {b : Nat} {vs : List V} {s : σ}
    (h : SameMeaning L.sem inner inner') :
    L.sem.exec (.other (.fusionGroup fusionKind b tys inner')) vs s =
      L.sem.exec (.other (.fusionGroup fusionKind b tys inner)) vs s := by
  rw [exec_group, exec_group, (h _).1, (h _).2]

/-! ## Refinement -/

structure Refines (verify : GKind → List Ty → List Ty → Prop) (args : List Ty)
    (seen : List GOp) (yields : Option (List Ty)) (body body' : List GOp) : Prop where
  wf : WfBlock verify args seen body' yields
  same : ∀ (V σ : Type) (L : LeafSem V σ), L.Pure → SameMeaning L.sem body body'

theorem Refines.trans (h : Refines verify args seen yields body body')
    (h' : Refines verify args seen yields body' body'') :
    Refines verify args seen yields body body'' where
  wf := h'.wf
  same V σ L hL := (h.same V σ L hL).trans (h'.same V σ L hL)

theorem dropLast_append_cons (hpost : post ≠ []) :
    (pre ++ o :: post).dropLast = pre ++ o :: post.dropLast := by
  rw [List.dropLast_append_of_ne_nil (by simp), List.dropLast_cons_of_ne_nil hpost]

/-- Of an operation that is not the last the end of a block knows nothing. -/
theorem Terminated.insert (h : Terminated args block (pre ++ post) yields) (hpost : post ≠ [])
    (hyield : o.kind ≠ .other .yield)
    (htypes : ∀ t ∈ pre ++ post,
      t.operands.map (typeOf args block') = t.operands.map (typeOf args block)) :
    Terminated args block' (pre ++ o :: post) yields where
  last := by
    obtain ⟨t, ht, hends⟩ := h.last
    rw [getLast?_append_cons hpost]
    exact ⟨t, ht, hends.congr rfl (htypes t (List.mem_of_getLast? ht))⟩
  yields := by
    have hold := h.yields
    rw [List.dropLast_append_of_ne_nil hpost] at hold
    rw [dropLast_append_cons hpost]
    intro q hq
    rcases List.mem_append.mp hq with hq | hq
    · exact hold q (List.mem_append_left _ hq)
    · rcases List.mem_cons.mp hq with rfl | hq
      · exact hyield
      · exact hold q (List.mem_append_right _ hq)

theorem Terminated.erase (h : Terminated args block (pre ++ o :: post) yields)
    (hpost : post ≠ []) (htypes : ∀ t ∈ pre ++ post,
      t.operands.map (typeOf args block') = t.operands.map (typeOf args block)) :
    Terminated args block' (pre ++ post) yields where
  last := by
    obtain ⟨t, ht, hends⟩ := h.last
    rw [getLast?_append_cons hpost] at ht
    exact ⟨t, ht, hends.congr rfl (htypes t (List.mem_of_getLast? ht))⟩
  yields := by
    have hold := h.yields
    rw [dropLast_append_cons hpost] at hold
    rw [List.dropLast_append_of_ne_nil hpost]
    intro q hq
    rcases List.mem_append.mp hq with hq | hq
    · exact hold q (List.mem_append_left _ hq)
    · exact hold q (List.mem_append_right _ (List.mem_cons_of_mem _ hq))

theorem mem_insert_cases {q : GOp} (h : q ∈ pre ++ o :: post) : q = o ∨ q ∈ pre ++ post := by
  simp only [List.mem_append, List.mem_cons] at h ⊢
  tauto

theorem mem_insert {q : GOp} (h : q ∈ pre ++ post) : q ∈ pre ++ o :: post := by
  simp only [List.mem_append, List.mem_cons] at h ⊢
  tauto

/-- Types do not depend on an operation that does not define the value. -/
theorem typeOf_insert (hnodup : (ids (seen ++ (pre ++ post))).Nodup)
    (hnodup' : (ids (seen ++ (pre ++ o :: post))).Nodup)
    (hv : Defined args.length (seen ++ (pre ++ post)) v) :
    typeOf args (seen ++ (pre ++ o :: post)) v = typeOf args (seen ++ (pre ++ post)) v := by
  refine typeOf_mono hnodup hnodup' (fun q hq => ⟨q, ?_, rfl, rfl⟩) hv
  rw [← List.append_assoc] at hq ⊢
  exact mem_insert hq

/-- A pure operation with a new id may be put in anywhere but at the end. -/
theorem refines_insert (h : WfBlock verify args seen (pre ++ post) yields) (hpost : post ≠ [])
    (hid : o.id ∉ ids (seen ++ (pre ++ post)))
    (hops : ∀ v ∈ o.operands, Defined args.length (seen ++ pre) v)
    (hok : OpOk verify args (seen ++ (pre ++ post)) o) (hyield : o.kind ≠ .other .yield)
    (hregion : ∀ fusionKind block tys inner,
      o.kind = .other (.fusionGroup fusionKind block tys inner) →
      WfBlock verify [] [header block tys] inner (some o.results))
    (hpure : ∀ (V σ : Type) (L : LeafSem V σ), L.Pure → L.sem.Pure o.kind) :
    Refines verify args seen yields (pre ++ post) (pre ++ o :: post) := by
  have hssa : Ssa args.length ((seen ++ pre) ++ post) := by simpa using h.ssa
  have hssa' : Ssa args.length (seen ++ (pre ++ o :: post)) := by
    rw [← List.append_assoc] at hid ⊢
    exact hssa.insert hid hops
  have htypes : ∀ q : GOp, (∀ v ∈ q.operands, Defined args.length (seen ++ (pre ++ post)) v) →
      q.operands.map (typeOf args (seen ++ (pre ++ o :: post))) =
        q.operands.map (typeOf args (seen ++ (pre ++ post))) :=
    fun q hq => List.map_congr_left fun v hv => typeOf_insert h.ssa.nodup hssa'.nodup (hq v hv)
  have hold : ∀ q ∈ pre ++ post, ∀ v ∈ q.operands,
      Defined args.length (seen ++ (pre ++ post)) v :=
    fun q hq v hv => h.ssa.defined (List.mem_append_right _ hq) hv
  refine ⟨.intro hssa' (fun q hq => ?_) (h.terminated.insert hpost hyield
    fun q hq => htypes q (hold q hq)) (fun q hq => ?_), fun V σ L hL => ?_⟩
  · rcases mem_insert_cases hq with rfl | hq
    · refine hok.congr rfl rfl (htypes q fun v hv => (hops v hv).mono fun p hp => ?_)
      exact ⟨p, by simpa using Or.imp_right Or.inl (List.mem_append.mp hp), rfl, rfl⟩
    · exact (h.ops q hq).congr rfl rfl (htypes q (hold q hq))
  · rcases mem_insert_cases hq with rfl | hq
    · exact hregion
    · exact h.regions q hq
  · have hdead : Dead o.id post := fun q hq v hv =>
      h.ssa.notOf hid (List.mem_append_right _ (List.mem_append_right _ hq)) hv
    exact (sameMeaning_erase (hpure V σ L hL) hdead hpost).symm

/-- A pure operation that nobody reads may go. -/
theorem refines_erase (h : WfBlock verify args seen (pre ++ o :: post) yields)
    (hpost : post ≠ []) (hdead : Dead o.id post)
    (hpure : ∀ (V σ : Type) (L : LeafSem V σ), L.Pure → L.sem.Pure o.kind) :
    Refines verify args seen yields (pre ++ o :: post) (pre ++ post) := by
  have hssa : Ssa args.length ((seen ++ pre) ++ o :: post) := by simpa using h.ssa
  have hssa' : Ssa args.length (seen ++ (pre ++ post)) := by
    rw [← List.append_assoc]
    exact hssa.erase hdead
  have htypes : ∀ q ∈ pre ++ post, q.operands.map (typeOf args (seen ++ (pre ++ post))) =
      q.operands.map (typeOf args (seen ++ (pre ++ o :: post))) :=
    fun q hq => List.map_congr_left fun v hv => (typeOf_insert hssa'.nodup h.ssa.nodup
      (hssa'.defined (List.mem_append_right _ hq) hv)).symm
  refine ⟨.intro hssa' (fun q hq => ?_) (h.terminated.erase hpost htypes) (fun q hq => ?_),
    fun V σ L hL => sameMeaning_erase (hpure V σ L hL) hdead hpost⟩
  · exact (h.ops q (mem_insert hq)).congr rfl rfl (htypes q hq)
  · exact h.regions q (mem_insert hq)

theorem Terminated.rewire (h : Terminated args block (pre ++ post) yields)
    (hpre : ∀ t ∈ pre,
      t.operands.map (typeOf args block') = t.operands.map (typeOf args block))
    (hpost : ∀ t ∈ post, (t.rewire v v').operands.map (typeOf args block') =
      t.operands.map (typeOf args block)) :
    Terminated args block' (pre ++ post.map fun o => o.rewire v v') yields := by
  rcases List.eq_nil_or_concat post with rfl | ⟨front, last, rfl⟩
  · obtain ⟨t, ht, hends⟩ := h.last
    rw [List.append_nil] at ht
    refine ⟨⟨t, by simpa using ht, hends.congr rfl (hpre t (List.mem_of_getLast? ht))⟩, ?_⟩
    simpa using h.yields
  · obtain ⟨t, ht, hends⟩ := h.last
    have hlast : last = t := by simpa using ht
    subst hlast
    refine ⟨⟨last.rewire v v', by simp, hends.congr rfl (hpost last (by simp))⟩, fun q hq => ?_⟩
    have hold := h.yields
    rw [List.concat_eq_append, ← List.append_assoc, List.dropLast_concat] at hold
    rw [List.concat_eq_append, List.map_append, ← List.append_assoc, List.map_singleton,
      List.dropLast_concat] at hq
    rcases List.mem_append.mp hq with hq | hq
    · exact hold q (List.mem_append_left _ hq)
    · obtain ⟨p, hp, rfl⟩ := List.mem_map.mp hq
      exact hold p (List.mem_append_right _ hp)

/-- Uses may go over to a value of the same type that is always equal. -/
theorem refines_rewire (h : WfBlock verify args seen (pre ++ post) yields)
    (hv : Defined args.length (seen ++ pre) v) (hv' : Defined args.length (seen ++ pre) v')
    (hty : typeOf args (seen ++ pre) v' = typeOf args (seen ++ pre) v)
    (heq : ∀ (V σ : Type) (L : LeafSem V σ), L.Pure →
      ∀ st, (eval L.sem pre st).1 v' = (eval L.sem pre st).1 v) :
    Refines verify args seen yields (pre ++ post) (pre ++ post.map fun o => o.rewire v v') := by
  have hssa : Ssa args.length ((seen ++ pre) ++ post) := by simpa using h.ssa
  have hssa' : Ssa args.length ((seen ++ pre) ++ post.map fun o => o.rewire v v') :=
    hssa.rewire hv'
  have hwf := h.ops
  have hterm := h.terminated
  rw [← List.append_assoc] at hwf hterm
  -- neither the operations that define a value nor their results have changed
  have hsub : ∀ q ∈ (seen ++ pre) ++ post, ∃ q' ∈ (seen ++ pre) ++ post.map fun o => o.rewire v v',
      q'.id = q.id ∧ q'.results = q.results := by
    intro q hq
    rcases List.mem_append.mp hq with hq | hq
    · exact ⟨q, List.mem_append_left _ hq, rfl, rfl⟩
    · exact ⟨q.rewire v v', List.mem_append_right _ (List.mem_map_of_mem hq), rfl, rfl⟩
  have hleft : ∀ q ∈ seen ++ pre, ∃ q' ∈ (seen ++ pre) ++ post,
      q'.id = q.id ∧ q'.results = q.results :=
    fun q hq => ⟨q, List.mem_append_left _ hq, rfl, rfl⟩
  have hsame : typeOf args ((seen ++ pre) ++ post) v' = typeOf args ((seen ++ pre) ++ post) v := by
    rw [typeOf_mono hssa.left.nodup hssa.nodup hleft hv',
      typeOf_mono hssa.left.nodup hssa.nodup hleft hv, hty]
  have hpre : ∀ q ∈ seen ++ pre,
      q.operands.map (typeOf args ((seen ++ pre) ++ post.map fun o => o.rewire v v')) =
        q.operands.map (typeOf args ((seen ++ pre) ++ post)) :=
    fun q hq => List.map_congr_left fun w hw => typeOf_mono hssa.nodup hssa'.nodup hsub
      (hssa.defined (List.mem_append_left _ hq) hw)
  have hpost : ∀ q ∈ post, (q.rewire v v').operands.map
      (typeOf args ((seen ++ pre) ++ post.map fun o => o.rewire v v')) =
        q.operands.map (typeOf args ((seen ++ pre) ++ post)) := by
    intro q hq
    rw [← map_rewire hsame]
    refine List.map_congr_left fun w hw => typeOf_mono hssa.nodup hssa'.nodup hsub ?_
    obtain ⟨x, hx, rfl⟩ := List.mem_map.mp hw
    split
    · exact hv'.mono hleft
    · exact hssa.defined (List.mem_append_right _ hq) hx
  refine ⟨.intro ?_ ?_ ?_ ?_, fun V σ L hL => sameMeaning_rewire hssa hv hv' (heq V σ L hL)⟩
  · rw [← List.append_assoc]
    exact hssa'
  · rw [← List.append_assoc]
    intro q hq
    rcases List.mem_append.mp hq with hq | hq
    · exact (hwf q (List.mem_append_left _ hq)).congr rfl rfl (hpre q (List.mem_append_right _ hq))
    · obtain ⟨p, hp, rfl⟩ := List.mem_map.mp hq
      exact (hwf p (List.mem_append_right _ hp)).congr rfl rfl (hpost p hp)
  · rw [← List.append_assoc]
    exact hterm.rewire (fun q hq => hpre q (List.mem_append_right _ hq)) hpost
  · intro q hq
    rcases List.mem_append.mp hq with hq | hq
    · exact h.regions q (List.mem_append_left _ hq)
    · obtain ⟨p, hp, rfl⟩ := List.mem_map.mp hq
      exact h.regions p (List.mem_append_right _ hp)

/-! ## Rewrites inside a region -/

/-- The kinds that a block ends in. -/
def isTerminator : GKind → Bool
  | .other .yield | .other (.foreign _) => true
  | _ => false

theorem WfBlock.post_ne_nil (h : WfBlock verify args seen (pre ++ o :: post) yields)
    (ho : isTerminator o.kind = false) : post ≠ [] := by
  rintro rfl
  obtain ⟨t, ht, hends⟩ := h.terminated.last
  have hlast : o = t := by simpa using ht
  subst hlast
  cases yields with
  | none =>
      obtain ⟨tag, htag⟩ := hends
      simp [htag, isTerminator] at ho
  | some tys => simp [hends.1, isTerminator] at ho

theorem sameMeaning_replace {S : Sem Extra V σ} (hpost : post ≠ [])
    (hop : ∀ st, evalOp S st o' = evalOp S st o) :
    SameMeaning S (pre ++ o :: post) (pre ++ o' :: post) := by
  intro st
  have heval : eval S (pre ++ o' :: post) st = eval S (pre ++ o :: post) st := by
    rw [eval_append, eval_append, eval_cons, eval_cons, hop]
  refine ⟨by rw [heval], ?_⟩
  rw [returned, returned, heval, getLast?_append_cons hpost, getLast?_append_cons hpost]

theorem Ssa.replace {nargs : Nat} (h : Ssa nargs (pre ++ o :: post)) (hid : o'.id = o.id)
    (hops : o'.operands = o.operands) (hres : o'.results = o.results) :
    Ssa nargs (pre ++ o' :: post) where
  nodup := by simpa [ids, hid] using h.nodup
  first := by
    obtain ⟨hpre, ho, hpost⟩ := definedFirst_append.mp h.first
    refine definedFirst_append.mpr ⟨hpre, hops ▸ ho, hpost.mono fun q hq => ?_⟩
    rcases List.mem_append.mp hq with hq | hq
    · exact ⟨q, List.mem_append_left _ hq, rfl, rfl⟩
    · rw [List.mem_singleton.mp hq]
      exact ⟨o', by simp, hid, hres⟩

/-- A group may be given a block that refines its own. -/
theorem refines_inside {fusionKind : String} {b : Nat}
    (h : WfBlock verify args seen (pre ++ o :: post) yields)
    (hkind : o.kind = .other (.fusionGroup fusionKind b tys inner))
    (hinner : Refines verify [] [header b tys] (some o.results) inner inner') :
    Refines verify args seen yields (pre ++ o :: post)
      (pre ++ { o with kind := .other (.fusionGroup fusionKind b tys inner') } :: post) := by
  generalize ho' : ({ o with kind := .other (.fusionGroup fusionKind b tys inner') } : GOp) = o'
  have hid : o'.id = o.id := by rw [← ho']
  have hops : o'.operands = o.operands := by rw [← ho']
  have hres : o'.results = o.results := by rw [← ho']
  have hkind' : o'.kind = .other (.fusionGroup fusionKind b tys inner') := by rw [← ho']
  have hpost : post ≠ [] := h.post_ne_nil (by rw [hkind]; rfl)
  have hssa' : Ssa args.length (seen ++ (pre ++ o' :: post)) := by
    have hssa := h.ssa
    rw [← List.append_assoc] at hssa ⊢
    exact hssa.replace hid hops hres
  have hsub : ∀ q ∈ seen ++ (pre ++ o :: post), ∃ q' ∈ seen ++ (pre ++ o' :: post),
      q'.id = q.id ∧ q'.results = q.results := by
    intro q hq
    rw [← List.append_assoc] at hq ⊢
    rcases mem_insert_cases hq with rfl | hq
    · exact ⟨o', by simp, hid, hres⟩
    · exact ⟨q, mem_insert hq, rfl, rfl⟩
  have htypes : ∀ q ∈ pre ++ o :: post, q.operands.map (typeOf args (seen ++ (pre ++ o' :: post))) =
      q.operands.map (typeOf args (seen ++ (pre ++ o :: post))) :=
    fun q hq => List.map_congr_left fun v hv => typeOf_mono h.ssa.nodup hssa'.nodup hsub
      (h.ssa.defined (List.mem_append_right _ hq) hv)
  refine ⟨.intro hssa' (fun q hq => ?_) ?_ (fun q hq => ?_), fun V σ L hL => ?_⟩
  · rcases mem_insert_cases hq with rfl | hq
    · obtain ⟨tys', hmap, hacc⟩ := (h.ops o (by simp)).types
      refine ⟨by rw [Arity, hkind']; trivial, tys', ?_, ?_⟩
      · rw [hops, htypes o (by simp), hmap]
      · rw [Accepts, hkind] at hacc
        rw [Accepts, hkind']
        exact hacc
    · exact (h.ops q (mem_insert hq)).congr rfl rfl (htypes q (mem_insert hq))
  · refine (h.terminated.erase hpost fun q _ => rfl).insert hpost (by simp [hkind'])
      fun q hq => htypes q (mem_insert hq)
  · rcases mem_insert_cases hq with rfl | hq
    · intro fusionKind' b' tys' inner'' heq
      rw [hkind'] at heq
      cases heq
      exact hres ▸ hinner.wf
    · exact h.regions q (mem_insert hq)
  · refine sameMeaning_replace hpost fun st => ?_
    simp only [evalOp, hops, hid, hkind, hkind', exec_congr (hinner.same V σ L hL)]

end CrossMachine.Compiler
