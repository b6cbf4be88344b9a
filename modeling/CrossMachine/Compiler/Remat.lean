import CrossMachine.Compiler.Eval

/-!
# Rematerialisation: clones at distant uses

`RematPass` walks the cheap elementwise operations of a function in program order. One whose
result has at least two uses and is kept for long enough gets a clone in front of every user
but the nearest, and that user reads the clone instead.

The pass is a sequence of single insertions: a clone goes in front of a user that comes after
the operation it copies, and the user's operands are rewired. One insertion keeps SSA form
and the value of everything that was there, so any sequence of them does; the order of the
candidates, of the users and the number of clones do not matter for that.

Whether `static_cast<double>(span) < threshold` holds of a span is a parameter, and so is the
sort of the users, which `llvm::sort` leaves open for equal times.
-/

namespace CrossMachine.Compiler

open Lib

variable {κ : Type}

def isCheapToRecompute : Kind κ → Bool
  | .relu | .gelu | .sigmoid | .add | .mul | .sub => true
  | .other _ => false

/-- An id that no operation of the block has, for the operation that `clone` allocates. -/
def fresh (body : List (Op κ)) : Nat := (ids body).foldr max 0 + 1

/-- `builder.clone` in front of the user, and the rewiring of the user. -/
def insertClone (body : List (Op κ)) (op user : Nat) : List (Op κ) :=
  match body.find? fun o => o.id = op with
  | none => body
  | some o => body.flatMap fun p =>
      if p.id = user then
        [{ o with id := fresh body }, p.rewire (.res op 0) (.res (fresh body) 0)]
      else [p]

/-- The block and the counter `opsInserted`. -/
structure Remat (κ : Type) where
  body : List (Op κ)
  opsInserted : Nat

def Remat.insert (op : Nat) (r : Remat κ) (user : Nat) : Remat κ where
  body := insertClone r.body op user
  opsInserted := r.opsInserted + 1

/-- The distance from an operation to the farthest of its users. -/
def span (time : Nat → Nat) (op : Nat) (us : List Nat) : Nat :=
  (us.map time).foldl max (time op) - time op

variable (below : Nat → Bool) (sorter : (time : Nat → Nat) → Sorter time)

/-- The loop body for one candidate. -/
def rematOp (time : Nat → Nat) (r : Remat κ) (op : Nat) : Remat κ :=
  let us := users r.body (.res op 0)
  if us.length < 2 then r
  else if below (span time op us) then r
  else ((sorter time).run us).tail.foldl (Remat.insert op) r

/-- The cheap operations in program order. -/
def candidates (body : List (Op κ)) : List Nat :=
  ids (body.filter fun o => isCheapToRecompute o.kind)

def rematPass (f : Func κ) : Func κ :=
  let r := (candidates f.body).foldl (rematOp below sorter (timeOf f.body)) ⟨f.body, 0⟩
  { f with body := r.body, rematOpsInserted := some r.opsInserted }

/-! ## One insertion -/

section Insert

variable {body pre post : List (Op κ)} {o p : Op κ} {v : Val} {nargs : Nat}

theorem fresh_notMem (body : List (Op κ)) : fresh body ∉ ids body := by
  have hle : ∀ i ∈ ids body, i ≤ (ids body).foldr max 0 := by
    generalize ids body = is
    induction is with
    | nil => simp
    | cons j is ih =>
        intro i hi
        rcases List.mem_cons.mp hi with rfl | hi
        · exact le_max_left ..
        · exact (ih i hi).trans (le_max_right ..)
  intro hin
  have := hle _ hin
  rw [fresh] at this
  omega

/-- The block that one insertion makes. -/
def withClone (c : Nat) (pre : List (Op κ)) (o p : Op κ) (post : List (Op κ)) : List (Op κ) :=
  pre ++ { o with id := c } :: p.rewire (.res o.id 0) (.res c 0) :: post

theorem insertClone_eq (hnodup : (ids (pre ++ p :: post)).Nodup) (ho : o ∈ pre) :
    insertClone (pre ++ p :: post) o.id p.id =
      withClone (fresh (pre ++ p :: post)) pre o p post := by
  have hfind := find?_id hnodup (List.mem_append_left _ ho)
  have hsame : ∀ qs : List (Op κ), p.id ∉ ids qs → ∀ ins : Op κ → List (Op κ),
      qs.flatMap (fun q => if q.id = p.id then ins q else [q]) = qs := by
    intro qs hqs ins
    induction qs with
    | nil => rfl
    | cons q qs ih =>
        obtain ⟨hq, hqs⟩ : p.id ≠ q.id ∧ p.id ∉ ids qs := by simpa [ids] using hqs
        rw [List.flatMap_cons, if_neg hq.symm, ih hqs, List.singleton_append]
  rw [ids, List.map_append, List.map_cons] at hnodup
  obtain ⟨-, hnd, hdisj⟩ := List.nodup_append.mp hnodup
  rw [insertClone, hfind]
  simp only [List.flatMap_append, List.flatMap_cons]
  rw [hsame pre fun hin => hdisj _ hin _ (List.mem_cons_self ..) rfl,
    hsame post (List.nodup_cons.mp hnd).1]
  simp [withClone]

variable {V σ : Type} {S : Sem κ V σ} {st : (Val → V) × σ} {c : Nat}

/-- Every cheap kind is pure. -/
def Sem.CheapPure (S : Sem κ V σ) : Prop := ∀ k, isCheapToRecompute k = true → S.Pure k

theorem ids_withClone : ids (withClone c pre o p post) = ids pre ++ c :: p.id :: ids post := by
  simp [ids, withClone, Op.rewire]

/-- One insertion keeps SSA form: what the clone reads was there before the operation it
copies, and what the user reads is now right in front of it. -/
theorem Ssa.withClone (h : Ssa nargs (pre ++ p :: post)) (ho : o ∈ pre)
    (hres : 0 < o.results.length) (hc : c ∉ ids (pre ++ p :: post)) :
    Ssa nargs (withClone c pre o p post) where
  nodup := by
    rw [ids_withClone]
    have hnodup := h.nodup
    simp only [ids, List.map_append, List.map_cons] at hnodup hc ⊢
    exact List.nodup_middle.mpr (List.nodup_cons.mpr ⟨hc, hnodup⟩)
  first := by
    obtain ⟨hpre, hrest⟩ := definedFirst_append.mp h.first
    rw [List.nil_append] at hrest
    obtain ⟨hp, hpost⟩ := hrest
    refine definedFirst_append.mpr ⟨hpre, ?_, ?_, ?_⟩
    · obtain ⟨l, r, rfl⟩ := List.append_of_mem ho
      intro v hv
      refine (h.left.operands_defined v hv).mono fun q hq => ⟨q, by simp [hq], rfl, rfl⟩
    · intro v hv
      obtain ⟨w, hw, rfl⟩ := List.mem_map.mp hv
      split
      · exact ⟨{ o with id := c }, by simp, rfl, hres⟩
      · exact (hp w hw).mono fun q hq => ⟨q, by simp [hq], rfl, rfl⟩
    · refine hpost.mono fun q hq => ?_
      rcases List.mem_append.mp hq with hq | hq
      · exact ⟨q, by simp [hq], rfl, rfl⟩
      · obtain rfl := List.mem_singleton.mp hq
        exact ⟨q.rewire (.res o.id 0) (.res c 0), by simp, rfl, rfl⟩

/-- One insertion changes neither the state nor any value there was. -/
theorem eval_withClone (h : Ssa nargs (pre ++ p :: post)) (ho : o ∈ pre)
    (hc : c ∉ ids (pre ++ p :: post)) (hpure : S.Pure o.kind) :
    (eval S (withClone c pre o p post) st).2 = (eval S (pre ++ p :: post) st).2 ∧
      ∀ v, NotOf c v →
        (eval S (withClone c pre o p post) st).1 v = (eval S (pre ++ p :: post) st).1 v := by
  have hpre : c ∉ ids pre := fun hin => hc (by simpa [ids] using Or.inl hin)
  rw [withClone, eval_append, eval_append, eval_cons, eval_cons, eval_cons]
  have hvalue : ∀ k, (eval S pre st).1 (.res o.id k) = _ := fun k =>
    eval_pure h.left ho hpure k (eval S pre st).2
  generalize eval S pre st = mid at hvalue
  -- the clone leaves the state alone and has the value of the operation it copies
  have hclone : evalOp S mid { o with id := c } =
      (bindResults mid.1 c fun k => mid.1 (.res o.id k), mid.2) := by
    rw [evalOp]
    exact Prod.ext (by simp only [hvalue]) (hpure _ _ mid.2).1
  have hargs : (p.rewire (.res o.id 0) (.res c 0)).operands.map
      (bindResults mid.1 c fun k => mid.1 (.res o.id k)) = p.operands.map mid.1 := by
    rw [Op.rewire, List.map_map]
    refine List.map_congr_left fun w hw => ?_
    rw [Function.comp_apply]
    split
    case isTrue heq => rw [bindResults_self, heq]
    case isFalse => exact bindResults_of_notOf (notOf_of_defined (h.operands_defined w hw) hpre)
  rw [hclone]
  refine eval_agree ?_ (fun v hv => ?_) fun q hq v hv => h.notOf hc (by simp [hq]) hv
  · rw [evalOp, hargs]
    rfl
  · rw [evalOp_env, evalOp_env, hargs]
    exact bindResults_agree bindResults_of_notOf hv

/-- A clone has the value of the operation it copies. -/
theorem value_withClone (h : Ssa nargs (pre ++ p :: post)) (ho : o ∈ pre)
    (hres : 0 < o.results.length) (hc : c ∉ ids (pre ++ p :: post)) (hpure : S.Pure o.kind) :
    (eval S (withClone c pre o p post) st).1 (.res c 0) =
      (eval S (withClone c pre o p post) st).1 (.res o.id 0) := by
  have hssa := h.withClone ho hres hc
  have hclone : { o with id := c } ∈ withClone c pre o p post := by simp [withClone]
  rw [eval_pure hssa (List.mem_append_left _ ho) hpure 0 st.2]
  exact eval_pure hssa hclone hpure 0 st.2

/-- After one insertion every operation reads the values that it read before. -/
theorem reads_withClone (h : Ssa nargs (pre ++ p :: post)) (ho : o ∈ pre)
    (hres : 0 < o.results.length) (hc : c ∉ ids (pre ++ p :: post)) (hpure : S.Pure o.kind)
    {q q' : Op κ} (hq : q ∈ pre ++ p :: post) (hq' : q' ∈ withClone c pre o p post)
    (hid : q'.id = q.id) :
    q'.operands.map (eval S (withClone c pre o p post) st).1 =
      q.operands.map (eval S (pre ++ p :: post) st).1 := by
  have hnodup := (h.withClone ho hres hc).nodup
  have hvalues : ∀ v, NotOf c v → (eval S (withClone c pre o p post) st).1 v =
      (eval S (pre ++ p :: post) st).1 v := (eval_withClone h ho hc hpure).2
  by_cases hqp : q = p
  · subst hqp
    obtain rfl : q' = q.rewire (.res o.id 0) (.res c 0) :=
      eq_of_id hnodup hq' (by simp [withClone]) hid
    rw [Op.rewire, List.map_map]
    refine List.map_congr_left fun w hw => ?_
    rw [Function.comp_apply, ← hvalues w (h.notOf hc hq hw)]
    split
    case isTrue heq => rw [value_withClone h ho hres hc hpure, heq]
    case isFalse => rfl
  · have hkept : q ∈ withClone c pre o p post := by
      have : q ∈ pre ∨ q ∈ post := by simpa [hqp] using hq
      rcases this with hin | hin <;> simp [withClone, hin]
    obtain rfl : q' = q := eq_of_id hnodup hq' hkept hid
    exact List.map_congr_left fun v hv => hvalues v (h.notOf hc hq hv)

end Insert

/-! ## Meaning kept -/

/-- A use is as it was, or reads the result of a new operation with the kind and the result
types of the one it read before. -/
def Rewired (body body' : List (Op κ)) (v v' : Val) : Prop :=
  v' = v ∨ ∃ z ∈ body, ∃ c ∈ body', c.id ∉ ids body ∧ v = .res z.id 0 ∧ v' = .res c.id 0 ∧
    c.kind = z.kind ∧ c.results = z.results

/-- The second block is in SSA form, has every operation of the first one with its uses
rewired at most to clones, and computes the same. -/
structure Preserves (nargs : Nat) (body body' : List (Op κ)) : Prop where
  ssa : Ssa nargs body'
  order : (ids body).Sublist (ids body')
  last : body'.getLast?.map Op.id = body.getLast?.map Op.id
  ops : ∀ o ∈ body, ∃ o' ∈ body', o'.id = o.id ∧ o'.kind = o.kind ∧ o'.results = o.results ∧
    List.Forall₂ (Rewired body body') o.operands o'.operands
  state : ∀ {V σ : Type} (S : Sem κ V σ), S.CheapPure → ∀ st,
    (eval S body' st).2 = (eval S body st).2
  values : ∀ {V σ : Type} (S : Sem κ V σ), S.CheapPure → ∀ st,
    ∀ o ∈ body, ∀ k, (eval S body' st).1 (.res o.id k) = (eval S body st).1 (.res o.id k)
  /-- Every use reads the value that it read before. -/
  reads : ∀ {V σ : Type} (S : Sem κ V σ), S.CheapPure → ∀ st,
    ∀ o ∈ body, ∀ o' ∈ body', o'.id = o.id →
      o'.operands.map (eval S body' st).1 = o.operands.map (eval S body st).1

theorem forall₂_comp {α : Type*} {R R' T : α → α → Prop} {xs ys zs : List α}
    (h : List.Forall₂ R xs ys) (h' : List.Forall₂ R' ys zs)
    (hT : ∀ x ∈ xs, ∀ y z, R x y → R' y z → T x z) : List.Forall₂ T xs zs := by
  induction h generalizing zs with
  | nil => cases h'; exact List.Forall₂.nil
  | cons hxy _ ih =>
      cases h' with
      | cons hyz hrest =>
          obtain ⟨hx, hxs⟩ := List.forall_mem_cons.mp hT
          exact List.Forall₂.cons (hx _ _ hxy hyz) (ih hrest hxs)

namespace Preserves

variable {nargs : Nat} {body body' body'' : List (Op κ)}

theorem refl (h : Ssa nargs body) : Preserves nargs body body where
  ssa := h
  order := List.Sublist.refl _
  last := rfl
  ops := fun o ho => ⟨o, ho, rfl, rfl, rfl, List.forall₂_same.mpr fun _ _ => Or.inl rfl⟩
  state := fun _ _ _ => rfl
  values := fun _ _ _ _ _ _ => rfl
  reads := fun _ _ _ o ho o' ho' hid => by rw [eq_of_id h.nodup ho' ho hid]

/-- A use that was rewired twice reads a clone of a clone. -/
theorem rewired_trans (h : Preserves nargs body body') (h' : Preserves nargs body' body'')
    {v v' v'' : Val} (hv : ∀ i k, v = .res i k → i ∈ ids body)
    (h₁ : Rewired body body' v v') (h₂ : Rewired body' body'' v' v'') :
    Rewired body body'' v v'' := by
  rcases h₁ with rfl | ⟨z, hz, c, hc, hnew, rfl, rfl, hkind, hres⟩
  · rcases h₂ with rfl | ⟨z', hz', c', hc', hnew', rfl, rfl, hkind', hres'⟩
    · exact Or.inl rfl
    · -- the operation that was cloned is one of the first block
      obtain ⟨z, hz, hzid⟩ := List.mem_map.mp (hv _ _ rfl)
      obtain ⟨z₁, hz₁, hid₁, hkind₁, hres₁, -⟩ := h.ops z hz
      obtain rfl : z₁ = z' := eq_of_id h.ssa.nodup hz₁ hz' (hid₁.trans hzid)
      refine Or.inr ⟨z, hz, c', hc', fun hin => hnew' (h.order.subset hin), ?_, rfl, ?_, ?_⟩
      · rw [hzid]
      · rw [hkind', hkind₁]
      · rw [hres', hres₁]
  · rcases h₂ with rfl | ⟨z', hz', c', hc', hnew', heq, rfl, hkind', hres'⟩
    · obtain ⟨c₁, hc₁, hid₁, hkind₁, hres₁, -⟩ := h'.ops c hc
      exact Or.inr ⟨z, hz, c₁, hc₁, hid₁ ▸ hnew, rfl, by rw [hid₁], hkind₁.trans hkind,
        hres₁.trans hres⟩
    · obtain rfl : c = z' := eq_of_id h.ssa.nodup hc hz' (Val.res.inj heq).1
      exact Or.inr ⟨z, hz, c', hc', fun hin => hnew' (h.order.subset hin), rfl, rfl,
        hkind'.trans hkind, hres'.trans hres⟩

theorem trans (hssa : Ssa nargs body) (h : Preserves nargs body body')
    (h' : Preserves nargs body' body'') : Preserves nargs body body'' where
  ssa := h'.ssa
  order := h.order.trans h'.order
  last := h'.last.trans h.last
  ops := by
    intro o ho
    obtain ⟨o', ho', hid, hkind, hres, hrew⟩ := h.ops o ho
    obtain ⟨o'', ho'', hid', hkind', hres', hrew'⟩ := h'.ops o' ho'
    refine ⟨o'', ho'', hid'.trans hid, hkind'.trans hkind, hres'.trans hres, ?_⟩
    exact forall₂_comp hrew hrew' fun v hv v' v'' =>
      h.rewired_trans h' fun i k heq => hssa.operand_mem ho (heq ▸ hv)
  state := fun S hS st => (h'.state S hS st).trans (h.state S hS st)
  values := by
    intro V σ S hS st o ho k
    obtain ⟨o', ho', hid, -⟩ := h.ops o ho
    rw [← h.values S hS st o ho k, ← hid, h'.values S hS st o' ho' k]
  reads := by
    intro V σ S hS st o ho o'' ho'' hid
    obtain ⟨o', ho', hid', -⟩ := h.ops o ho
    rw [h'.reads S hS st o' ho' o'' ho'' (hid.trans hid'.symm), h.reads S hS st o ho o' ho' hid']

/-- One insertion keeps the meaning. -/
theorem withClone {pre post : List (Op κ)} {o p : Op κ} {c : Nat}
    (h : Ssa nargs (pre ++ p :: post)) (ho : o ∈ pre) (hres : 0 < o.results.length)
    (hc : c ∉ ids (pre ++ p :: post)) (hcheap : isCheapToRecompute o.kind = true) :
    Preserves nargs (pre ++ p :: post) (withClone c pre o p post) where
  ssa := h.withClone ho hres hc
  order := by
    rw [ids_withClone, ids, List.map_append, List.map_cons]
    exact List.Sublist.append_left (List.sublist_cons_self ..) _
  last := by
    rcases List.eq_nil_or_concat post with rfl | ⟨rest, q, rfl⟩
    · simp [Compiler.withClone, Op.rewire, List.getLast?_append]
    · simp [Compiler.withClone, List.getLast?_append, List.getLast?_cons]
  ops := by
    have hsame : ∀ q : Op κ, List.Forall₂ (Rewired (pre ++ p :: post)
        (Compiler.withClone c pre o p post)) q.operands q.operands := fun q =>
      List.forall₂_same.mpr fun _ _ => Or.inl rfl
    intro q hq
    rcases List.mem_append.mp hq with hq | hq
    · exact ⟨q, List.mem_append_left _ hq, rfl, rfl, rfl, hsame q⟩
    · rcases List.mem_cons.mp hq with rfl | hq
      · refine ⟨q.rewire (.res o.id 0) (.res c 0), by simp [Compiler.withClone], rfl, rfl, rfl, ?_⟩
        refine List.forall₂_map_right_iff.mpr (List.forall₂_same.mpr fun v _ => ?_)
        split
        case isTrue heq =>
          exact Or.inr ⟨o, List.mem_append_left _ ho, { o with id := c },
            by simp [Compiler.withClone], hc, heq, rfl, rfl, rfl⟩
        case isFalse => exact Or.inl rfl
      · exact ⟨q, by simp [Compiler.withClone, hq], rfl, rfl, rfl, hsame q⟩
  state := fun S hS st => (eval_withClone h ho hc (hS _ hcheap)).1
  values := fun S hS st q hq k => (eval_withClone h ho hc (hS _ hcheap)).2 _
    fun k' heq => hc ((Val.res.inj heq).1 ▸ mem_ids hq)
  reads := fun S hS st q hq q' hq' => reads_withClone h ho hres hc (hS _ hcheap) hq hq'

end Preserves

/-! ## The whole pass -/

section Pass

variable {nargs : Nat} {body : List (Op κ)} {op u : Nat}

/-- A user comes after the operation whose result it reads. -/
theorem Ssa.order_of_user (h : Ssa nargs body) (hu : u ∈ users body (.res op 0)) :
    [op, u].Sublist (ids body) := by
  obtain ⟨p, hp, rfl, hv⟩ := mem_users.mp hu
  obtain ⟨pre, post, rfl⟩ := List.append_of_mem hp
  obtain ⟨o, ho, rfl, -⟩ := h.operands_defined _ hv
  rw [ids, List.map_append]
  have hpre : [o.id].Sublist (pre.map Op.id) := List.singleton_sublist.mpr (mem_ids ho)
  have hpost : [p.id].Sublist ((p :: post).map Op.id) := by simp
  exact hpre.append hpost

/-- Where the two operations of an insertion stand. -/
theorem split_of_order (h : [op, u].Sublist (ids body)) :
    ∃ pre o p post, body = pre ++ p :: post ∧ o ∈ pre ∧ o.id = op ∧ p.id = u := by
  obtain ⟨is, js, hsplit, hop, hu⟩ := List.cons_sublist_iff.mp h
  obtain ⟨left, right, rfl, rfl, rfl⟩ := List.map_eq_append_iff.mp hsplit
  obtain ⟨o, ho, rfl⟩ := List.mem_map.mp hop
  obtain ⟨p, hp, rfl⟩ := List.mem_map.mp (List.singleton_sublist.mp hu)
  obtain ⟨mid, post, rfl⟩ := List.append_of_mem hp
  exact ⟨left ++ mid, o, p, post, by simp, List.mem_append_left _ ho, rfl, rfl⟩

/-- The operation is cheap and has a result. -/
def Clonable (body : List (Op κ)) (op : Nat) : Prop :=
  ∃ o ∈ body, o.id = op ∧ isCheapToRecompute o.kind = true ∧ 0 < o.results.length

theorem insertClone_preserves (h : Ssa nargs body) (hop : Clonable body op)
    (horder : [op, u].Sublist (ids body)) : Preserves nargs body (insertClone body op u) := by
  obtain ⟨pre, o, p, post, rfl, ho, rfl, rfl⟩ := split_of_order horder
  obtain ⟨o', ho', hid, hcheap, hres⟩ := hop
  obtain rfl : o' = o := eq_of_id h.nodup ho' (List.mem_append_left _ ho) hid
  rw [insertClone_eq h.nodup ho]
  exact Preserves.withClone h ho hres (fresh_notMem _) hcheap

theorem Preserves.clonable {body' : List (Op κ)} (h : Preserves nargs body body')
    (hop : Clonable body op) : Clonable body' op := by
  obtain ⟨o, ho, hid, hcheap, hlen⟩ := hop
  obtain ⟨o', ho', hid', hkind, hres, -⟩ := h.ops o ho
  exact ⟨o', ho', hid'.trans hid, hkind ▸ hcheap, hres ▸ hlen⟩

/-- Any number of insertions for one operation. -/
theorem inserts_preserve (us : List Nat) (r : Remat κ) (h : Ssa nargs r.body)
    (hop : Clonable r.body op) (horder : ∀ u ∈ us, [op, u].Sublist (ids r.body)) :
    Preserves nargs r.body (us.foldl (Remat.insert op) r).body := by
  induction us generalizing r with
  | nil => exact Preserves.refl h
  | cons u us ih =>
      obtain ⟨hu, hus⟩ := List.forall_mem_cons.mp horder
      have hstep := insertClone_preserves h hop hu
      refine hstep.trans h (ih (r.insert op u) hstep.ssa (hstep.clonable hop) fun w hw => ?_)
      exact (hus w hw).trans hstep.order

theorem rematOp_preserves (time : Nat → Nat) (r : Remat κ) (h : Ssa nargs r.body)
    (hcheap : ∃ o ∈ r.body, o.id = op ∧ isCheapToRecompute o.kind = true) :
    Preserves nargs r.body (rematOp below sorter time r op).body := by
  rw [rematOp]
  split
  case isTrue => exact Preserves.refl h
  case isFalse hmany =>
  split
  case isTrue => exact Preserves.refl h
  case isFalse =>
  have hmem : ∀ u ∈ ((sorter time).run (users r.body (.res op 0))).tail,
      u ∈ users r.body (.res op 0) := fun u hu =>
    (sorter time).mem_run.mp (List.mem_of_mem_tail hu)
  refine inserts_preserve _ r h ?_ fun u hu => h.order_of_user (hmem u hu)
  -- a result that is used is there
  obtain ⟨u, hu⟩ : ∃ u, u ∈ users r.body (.res op 0) :=
    List.exists_mem_of_length_pos (by omega)
  obtain ⟨p, hp, -, hv⟩ := mem_users.mp hu
  obtain ⟨pre, post, hsplit⟩ := List.append_of_mem hp
  obtain ⟨o, ho, hid, hlen⟩ := (hsplit ▸ h).operands_defined _ hv
  obtain ⟨o', ho', hid', hcheap'⟩ := hcheap
  obtain rfl : o = o' :=
    eq_of_id h.nodup (hsplit ▸ List.mem_append_left _ ho) ho' (hid.trans hid'.symm)
  exact ⟨o, ho', hid, hcheap', hlen⟩

theorem candidates_preserve (time : Nat → Nat) (ops : List Nat) (h : Ssa nargs body)
    (hops : ∀ op ∈ ops, ∃ o ∈ body, o.id = op ∧ isCheapToRecompute o.kind = true)
    (r : Remat κ) (hr : Preserves nargs body r.body) :
    Preserves nargs body (ops.foldl (rematOp below sorter time) r).body := by
  induction ops generalizing r with
  | nil => exact hr
  | cons op ops ih =>
      obtain ⟨⟨o, ho, hid, hcheap⟩, hrest⟩ := List.forall_mem_cons.mp hops
      refine ih hrest (rematOp below sorter time r op) (hr.trans h ?_)
      obtain ⟨o', ho', hid', hkind, -⟩ := hr.ops o ho
      exact rematOp_preserves below sorter time r hr.ssa
        ⟨o', ho', hid'.trans hid, hkind ▸ hcheap⟩

theorem exists_of_mem_candidates (h : op ∈ candidates body) :
    ∃ o ∈ body, o.id = op ∧ isCheapToRecompute o.kind = true := by
  obtain ⟨o, ho, hid⟩ := List.mem_map.mp h
  obtain ⟨hmem, hcheap⟩ := List.mem_filter.mp ho
  exact ⟨o, hmem, hid, hcheap⟩

end Pass

/-- The pass keeps SSA form, rewires uses only to clones with the same value, and changes
neither what the function returns nor the state it leaves. -/
theorem rematPass_preserves (f : Func κ) (hssa : Ssa f.args.length f.body) :
    Preserves f.args.length f.body (rematPass below sorter f).body ∧
      ∀ {V σ : Type} (S : Sem κ V σ), S.CheapPure → ∀ st,
        returned S (rematPass below sorter f).body st = returned S f.body st := by
  have hpres : Preserves f.args.length f.body (rematPass below sorter f).body :=
    candidates_preserve below sorter _ _ hssa (fun op => exists_of_mem_candidates)
      ⟨f.body, 0⟩ (Preserves.refl hssa)
  refine ⟨hpres, fun S hS st => ?_⟩
  have hlast := hpres.last
  rw [returned, returned]
  cases ho : f.body.getLast? with
  | none => rw [ho] at hlast; rw [Option.map_eq_none_iff.mp hlast]; rfl
  | some o =>
      rw [ho] at hlast
      obtain ⟨o', ho', hid⟩ := Option.map_eq_some_iff.mp hlast
      rw [ho', Option.map_some, Option.map_some, hpres.reads S hS st o
        (List.mem_of_getLast? ho) o' (List.mem_of_getLast? ho') hid]

/-- A cheap operation with a near user, and a far one that reads it twice. -/
def rematExample : Func Nat where
  args := [.tensor [some 4] (.float 32)]
  body :=
    [{ id := 0, kind := .relu, operands := [.arg 0], results := [.tensor [some 4] (.float 32)],
       bufferOffset := none },
     { id := 1, kind := .other 0, operands := [.res 0 0],
       results := [.tensor [some 4] (.float 32)], bufferOffset := none },
     { id := 2, kind := .add, operands := [.res 0 0, .res 0 0],
       results := [.tensor [some 4] (.float 32)], bufferOffset := none },
     { id := 3, kind := .other 1, operands := [.res 1 0, .res 2 0], results := [],
       bufferOffset := none }]
  peakMemoryBytes := none
  rematOpsInserted := none

theorem rematPass_preserves_twice :
    (rematPass (fun n => n < 2) Sorter.stable rematExample).rematOpsInserted = some 2 ∧
      Preserves 1 rematExample.body
        (rematPass (fun n => n < 2) Sorter.stable rematExample).body :=
  ⟨by decide +kernel, (rematPass_preserves _ _ rematExample (by decide +kernel)).1⟩

end CrossMachine.Compiler
