import CrossMachine.Compiler.Shape

/-!
# What shape inference settles

`expected` is the typing that inference gives in program order: every operation is asked once,
with the types of its operands known. The pass is right when it ends there, and then the order
of the visits does not matter.

Two things stand in its way. A declared type that contradicts the expected one is never
replaced, since the guard takes refinements only. And a visit may guess: a matmul whose right
operand is not ranked yet answers with the type of the left one, which is no less specific
than the true answer but different from it, and the guard then rejects the correction. A visit
is `Informed` when what is not known of the operands cannot change what is known of the
answer; `le_inferReturnTypes` says that these visits are monotone.
-/

namespace CrossMachine.Compiler.Shape

open Lib

variable {ops : List ShapeOp} {declared types types' : Val → TensorTy} {st st' : State}
  {op o p : ShapeOp} {t t' u u' : TensorTy} {v : Val} {kind : ShapeKind} {d d' e e' : Int}
  {l l' r r' : List Int} {es : List Nat} {uses : UseLists ops}

/-! ## The order on types -/

/-- The dimension is equal, or it was not known. -/
def DimLe (d d' : Int) : Prop := d = d' ∨ d = kDynamic

/-- The second type says at least as much as the first. -/
def TyLe : TensorTy → TensorTy → Prop
  | .ranked l e, .ranked l' e' => List.Forall₂ DimLe l l' ∧ e = e'
  | .ranked .., .unranked _ => False
  | .unranked _, .ranked .. => True
  | .unranked e, .unranked e' => e = e'

theorem dimLe_refl : DimLe d d := Or.inl rfl

theorem dimsLe_refl : List.Forall₂ DimLe l l := List.forall₂_same.mpr fun _ _ => dimLe_refl

theorem tyLe_refl : TyLe t t := by
  cases t with
  | ranked l e => exact ⟨dimsLe_refl, rfl⟩
  | unranked e => rfl

theorem isDynamic_iff : isDynamic d = true ↔ d = kDynamic := by simp [isDynamic]

/-- Along dimensions that only become known the loop finds out whether any did. -/
theorem refineLoop_of_dimsLe (h : List.Forall₂ DimLe l l') (b : Bool) :
    refineLoop b (l.zip l') = (b || decide (l ≠ l')) := by
  induction h generalizing b with
  | nil => simp [refineLoop]
  | @cons d d' l l' hd _ ih =>
      rw [List.zip_cons_cons, refineLoop]
      split
      case isTrue heq => simp [ih, heq]
      case isFalse hne =>
          have hdyn : d = kDynamic := hd.resolve_left hne
          have hstat : isDynamic d' = false := by
            rw [← Bool.not_eq_true, isDynamic_iff]
            exact fun heq => hne (hdyn.trans heq.symm)
          simp [isDynamic_iff.mpr hdyn, hstat, ih, hne]

/-- A type that says more is taken, unless it is the same. -/
theorem eq_or_isRefinement (h : TyLe t t') : t = t' ∨ isRefinement t t' = true := by
  cases t with
  | unranked e =>
      cases t' with
      | unranked e' => exact Or.inl (congrArg _ h)
      | ranked l' e' => exact Or.inr rfl
  | ranked l e =>
      cases t' with
      | unranked e' => exact absurd h id
      | ranked l' e' =>
          obtain ⟨hdims, rfl⟩ := h
          by_cases heq : l = l'
          · exact Or.inl (by rw [heq])
          · right
            rw [isRefinement, if_neg (by simpa using hdims.length_eq), refineLoop_of_dimsLe hdims]
            simpa using heq

theorem isRefinement_self : isRefinement t t = false := by
  cases t with
  | unranked e => rfl
  | ranked l e =>
      rw [isRefinement, if_neg (by simp), refineLoop_of_dimsLe dimsLe_refl]
      simp

/-- A static type is not refined any further. -/
theorem isRefinement_of_static (h : isUnresolved t = false) : isRefinement t t' = false := by
  cases t with
  | unranked e => simp [isUnresolved, TensorTy.isStatic] at h
  | ranked l e =>
      cases t' with
      | unranked e' => rfl
      | ranked l' e' =>
          rw [isRefinement]
          split
          case isTrue => rfl
          case isFalse =>
              simp only [isUnresolved, TensorTy.isStatic, Bool.not_eq_false', List.all_eq_true,
                Bool.not_eq_true'] at h
              have hloop : ∀ dims : List (Int × Int), (∀ q ∈ dims, isDynamic q.1 = false) →
                  refineLoop false dims = false := by
                intro dims hdims
                induction dims with
                | nil => rfl
                | cons q dims ih =>
                    obtain ⟨hq, hrest⟩ := List.forall_mem_cons.mp hdims
                    rw [refineLoop]
                    split
                    · exact ih hrest
                    · simp [hq]
              exact hloop _ fun q hq => h q.1 (List.of_mem_zip hq).1

/-! ## Informed visits -/

def TensorTy.isRanked : TensorTy → Bool
  | .ranked .. => true
  | .unranked _ => false

/-- The answer does not rest on what is not known: where the type of the second operand
decides it, that operand is ranked, and the kernel of a convolution has static dimensions. -/
def Informed : ShapeKind → List TensorTy → Prop
  | .matmul .., .ranked lhs _ :: rhs :: _ => 2 ≤ lhs.length → rhs.isRanked = true
  | .conv .., .ranked input _ :: .ranked filter _ :: _ =>
      input.length = 4 → filter.length = 4 →
        isDynamic (filter.getD 2 0) = false ∧ isDynamic (filter.getD 3 0) = false
  | .conv .., .ranked input _ :: .unranked _ :: _ => input.length ≠ 4
  | .add, .ranked .. :: rhs :: _ | .mul, .ranked .. :: rhs :: _ | .sub, .ranked .. :: rhs :: _ =>
      rhs.isRanked = true
  | _, _ => True

theorem dimLe_getD (h : List.Forall₂ DimLe l l') (i : Nat) : DimLe (l.getD i 0) (l'.getD i 0) := by
  induction h generalizing i with
  | nil => exact dimLe_refl
  | cons hd _ ih =>
      cases i with
      | zero => exact hd
      | succ i => exact ih i

/-- Broadcasting with a dimension that is not known gives one that is not known. -/
theorem broadcastDim_dynamic : broadcastDim kDynamic d = kDynamic ∧
    broadcastDim d kDynamic = kDynamic := by
  have hne : kDynamic ≠ 1 := by decide
  refine ⟨?_, ?_⟩
  · rw [broadcastDim]
    split_ifs <;> simp_all
  · rw [broadcastDim]
    split_ifs <;> simp_all

theorem dimLe_broadcastDim (h : DimLe d d') (h' : DimLe e e') :
    DimLe (broadcastDim d e) (broadcastDim d' e') := by
  rcases h with rfl | rfl
  · rcases h' with rfl | rfl
    · exact dimLe_refl
    · exact Or.inr broadcastDim_dynamic.2
  · exact Or.inr broadcastDim_dynamic.1

theorem dimsLe_zipWith (h : List.Forall₂ DimLe l l') (h' : List.Forall₂ DimLe r r') :
    List.Forall₂ DimLe (List.zipWith broadcastDim l r) (List.zipWith broadcastDim l' r') := by
  induction h generalizing r r' with
  | nil => simp
  | cons hd _ ih =>
      cases h' with
      | nil => simp
      | cons he hr => exact .cons (dimLe_broadcastDim hd he) (ih hr)

/-- The extent of an output depends on the input once the kernel is known. -/
theorem dimLe_spatialOut {s q dil : List Int} {i : Nat} (h : DimLe d d') (h' : DimLe e e')
    (hkernel : isDynamic e = false) :
    DimLe (spatialOut s q dil d e i) (spatialOut s q dil d' e' i) := by
  have he : e = e' := h'.resolve_right fun heq => by simp [isDynamic, heq] at hkernel
  rcases h with rfl | rfl
  · rw [he]
    exact dimLe_refl
  · exact Or.inr (by simp [spatialOut, isDynamic])

theorem le_inferElementwiseResult (ht : TyLe t t') (hu : TyLe u u')
    (hinf : t.isRanked = true → u.isRanked = true) :
    TyLe (inferElementwiseResult t u) (inferElementwiseResult t' u') := by
  cases t with
  | unranked e =>
      cases t' with
      | unranked e' => exact ht
      | ranked l' e' =>
          cases u' with
          | unranked f' => trivial
          | ranked r' f' =>
              simp only [inferElementwiseResult]
              split <;> trivial
  | ranked l e =>
      cases t' with
      | unranked e' => exact absurd ht id
      | ranked l' e' =>
          cases u with
          | unranked f => exact absurd (hinf rfl) (by simp [TensorTy.isRanked])
          | ranked r f =>
              cases u' with
              | unranked f' => exact absurd hu id
              | ranked r' f' =>
                  have hlen := ht.1.length_eq
                  have hlen' := hu.1.length_eq
                  simp only [inferElementwiseResult, ← hlen, ← hlen']
                  split
                  · exact ⟨dimsLe_refl, ht.2⟩
                  · exact ⟨dimsLe_zipWith ht.1 hu.1, ht.2⟩

theorem le_inferMatmul {tl tr : Bool} {rest : List TensorTy} (ht : TyLe t t') (hu : TyLe u u')
    (hinf : Informed (.matmul tl tr) (t :: u :: rest)) :
    TyLe (inferMatmul tl tr t u) (inferMatmul tl tr t' u') := by
  cases t with
  | unranked e =>
      cases t' with
      | unranked e' => exact ht
      | ranked l' e' =>
          cases u' with
          | unranked f' => trivial
          | ranked r' f' =>
              simp only [inferMatmul]
              split <;> trivial
  | ranked l e =>
      cases t' with
      | unranked e' => exact absurd ht id
      | ranked l' e' =>
          have hlen := ht.1.length_eq
          cases u with
          | unranked f =>
              have hshort : l.length < 2 := by
                by_contra hge
                exact absurd (hinf (by omega)) (by simp [TensorTy.isRanked])
              cases u' with
              | unranked f' => exact ht
              | ranked r' f' =>
                  have hleft : inferMatmul tl tr (.ranked l e) (.unranked f) = .ranked l e := rfl
                  rw [hleft, inferMatmul, if_pos (Or.inl (by omega))]
                  exact ht
          | ranked r f =>
              cases u' with
              | unranked f' => exact absurd hu id
              | ranked r' f' =>
                  have hlen' := hu.1.length_eq
                  simp only [inferMatmul, ← hlen, ← hlen']
                  split
                  · exact ht
                  · refine ⟨List.rel_append (List.forall₂_take _ ht.1) (.cons ?_ (.cons ?_ .nil)),
                      ht.2⟩
                    · split <;> exact dimLe_getD ht.1 _
                    · split <;> exact dimLe_getD hu.1 _

theorem le_inferConv {s q dil : List Int} {rest : List TensorTy} (ht : TyLe t t') (hu : TyLe u u')
    (hinf : Informed (.conv s q dil) (t :: u :: rest)) :
    TyLe (inferConv s q dil t u) (inferConv s q dil t' u') := by
  cases t with
  | unranked e =>
      cases t' with
      | unranked e' => exact ht
      | ranked l' e' =>
          cases u' with
          | unranked f' => trivial
          | ranked r' f' =>
              simp only [inferConv]
              split <;> trivial
  | ranked l e =>
      cases t' with
      | unranked e' => exact absurd ht id
      | ranked l' e' =>
          have hlen := ht.1.length_eq
          cases u with
          | unranked f =>
              have hrank : l.length ≠ 4 := hinf
              cases u' with
              | unranked f' => exact ht
              | ranked r' f' =>
                  have hleft : inferConv s q dil (.ranked l e) (.unranked f) = .ranked l e := rfl
                  rw [hleft, inferConv, if_pos (Or.inl (by omega))]
                  exact ht
          | ranked r f =>
              cases u' with
              | unranked f' => exact absurd hu id
              | ranked r' f' =>
                  have hlen' := hu.1.length_eq
                  simp only [inferConv, ← hlen, ← hlen']
                  split
                  case isTrue => exact ht
                  case isFalse hrank =>
                      have hkernel := hinf (by tauto) (by tauto)
                      have hin := dimLe_getD ht.1
                      have hfilter := dimLe_getD hu.1
                      exact ⟨.cons (hin 0) (.cons (hfilter 0)
                        (.cons (dimLe_spatialOut (hin 2) (hfilter 2) hkernel.1)
                        (.cons (dimLe_spatialOut (hin 3) (hfilter 3) hkernel.2) .nil))), ht.2⟩

/-- What is inferred on an informed visit is refined when more of the operands is known. -/
theorem le_inferReturnTypes {ts ts' : List TensorTy} (h : List.Forall₂ TyLe ts ts')
    (hinf : Informed kind ts) (ht : inferReturnTypes kind ts = some t)
    (ht' : inferReturnTypes kind ts' = some t') : TyLe t t' := by
  cases h with
  | nil => cases kind <;> cases ht
  | @cons x x' ts ts' hx hrest =>
      cases hrest with
      | nil => cases kind <;> cases ht <;> cases ht' <;> exact hx
      | @cons y y' ts ts' hy hrest =>
          cases kind with
          | matmul tl tr =>
              cases ht
              cases ht'
              exact le_inferMatmul hx hy hinf
          | conv s q dil =>
              cases ht
              cases ht'
              exact le_inferConv hx hy hinf
          | add | mul | sub =>
              cases ht
              cases ht'
              refine le_inferElementwiseResult hx hy fun hr => ?_
              cases x with
              | unranked e => cases hr
              | ranked l e => exact hinf
          | relu | gelu | sigmoid | softmax | transfer | allGather | reduceScatter =>
              cases ht
              cases ht'
              exact hx
          | foreign => cases ht

/-- Whether there is an answer does not depend on the types. -/
theorem inferReturnTypes_none {vs : List Val}
    (h : inferReturnTypes kind (vs.map types) = none) :
    inferReturnTypes kind (vs.map types') = none := by
  match vs with
  | [] => exact h
  | [_] => cases kind <;> first | rfl | cases h
  | _ :: _ :: _ => cases kind <;> first | rfl | cases h

/-! ## The expected types -/

/-- Definitions come before uses, and no operation stands there twice. -/
def DefsFirst : List Nat → List ShapeOp → Prop
  | _, [] => True
  | seen, o :: ops =>
      o.id ∉ seen ∧ (∀ v ∈ o.operands, ∀ i k, v = .res i k → i ∈ seen) ∧
        DefsFirst (o.id :: seen) ops

/-- The types that inference gives when every operation is asked in program order. -/
def expected : List ShapeOp → (Val → TensorTy) → Val → TensorTy
  | [], types => types
  | o :: ops, types =>
      expected ops (match inferReturnTypes o.kind (o.operands.map types) with
        | some ty => Function.update types (.res o.id 0) ty
        | none => types)

theorem DefsFirst.notMem {seen : List Nat} (h : DefsFirst seen ops) (ho : o ∈ ops) :
    o.id ∉ seen := by
  induction ops generalizing seen with
  | nil => cases ho
  | cons p ops ih =>
      rcases List.mem_cons.mp ho with rfl | ho
      · exact h.1
      · exact fun hmem => ih h.2.2 ho (List.mem_cons_of_mem _ hmem)

theorem DefsFirst.eq_of_id {seen : List Nat} (h : DefsFirst seen ops) (ho : o ∈ ops)
    (hp : p ∈ ops) (hid : o.id = p.id) : o = p := by
  induction ops generalizing seen with
  | nil => cases ho
  | cons q ops ih =>
      have hhead : ∀ {r}, r ∈ ops → r.id ≠ q.id := fun hr heq =>
        h.2.2.notMem hr (heq ▸ List.mem_cons_self)
      rcases List.mem_cons.mp ho with hoq | ho'
      · rcases List.mem_cons.mp hp with hpq | hp'
        · rw [hoq, hpq]
        · exact absurd (hoq ▸ hid.symm) (hhead hp')
      · rcases List.mem_cons.mp hp with hpq | hp'
        · exact absurd (hpq ▸ hid) (hhead ho')
        · exact ih h.2.2 ho' hp'

/-- The value is no result that inference gives a type to. -/
def Fixed (ops : List ShapeOp) (types : Val → TensorTy) (v : Val) : Prop :=
  ∀ o ∈ ops, v = .res o.id 0 → inferReturnTypes o.kind (o.operands.map types) = none

theorem expected_of_fixed (h : Fixed ops types v) : expected ops types v = types v := by
  induction ops generalizing types with
  | nil => rfl
  | cons p ops ih =>
      obtain ⟨hp, hops⟩ := List.forall_mem_cons.mp h
      rw [expected]
      cases hinf : inferReturnTypes p.kind (p.operands.map types) with
      | none => exact ih hops
      | some ty =>
          have hne : v ≠ .res p.id 0 := fun heq => by simp [hp heq] at hinf
          refine (ih fun o ho heq => ?_).trans (Function.update_of_ne hne _ _)
          exact inferReturnTypes_none (hops o ho heq)

/-- Expected types solve the equations of the operations. -/
theorem expected_op {seen : List Nat} (h : DefsFirst seen ops) (ho : o ∈ ops)
    (ht : inferReturnTypes o.kind (o.operands.map (expected ops types)) = some t) :
    expected ops types (.res o.id 0) = t := by
  induction ops generalizing types seen with
  | nil => cases ho
  | cons p ops ih =>
      rw [expected] at ht ⊢
      rcases List.mem_cons.mp ho with rfl | ho
      · -- the operands are settled before the operation, and so is its own type after it
        have hlater : ∀ i ∈ o.id :: seen, ∀ k τ, expected ops τ (.res i k) = τ (.res i k) := by
          intro i hi k τ
          refine expected_of_fixed fun q hq heq => absurd hi ?_
          rw [(Val.res.inj heq).1]
          exact h.2.2.notMem hq
        have hargs : ∀ τ, o.operands.map (expected ops τ) = o.operands.map τ := by
          intro τ
          refine List.map_congr_left fun v hv => ?_
          cases v with
          | arg i => exact expected_of_fixed fun q _ heq => by cases heq
          | res i k => exact hlater i (List.mem_cons_of_mem _ (h.2.1 _ hv i k rfl)) k τ
        have hsame : ∀ ty, o.operands.map (Function.update types (.res o.id 0) ty) =
            o.operands.map types := by
          refine fun ty => List.map_congr_left fun v hv => Function.update_of_ne ?_ _ _
          rintro rfl
          exact h.1 (h.2.1 _ hv o.id 0 rfl)
        rw [hlater o.id List.mem_cons_self]
        rw [hargs] at ht
        cases hinf : inferReturnTypes o.kind (o.operands.map types) with
        | none => simp [hinf] at ht
        | some ty =>
            simp only [hinf, hsame] at ht ⊢
            rw [Function.update_self]
            exact Option.some.inj ht
      · exact ih h.2.2 ho ht

/-! ## Runs -/

/-- The declared types leave things open, but contradict nothing. -/
def Consistent (ops : List ShapeOp) (declared : Val → TensorTy) : Prop :=
  ∀ o ∈ ops, TyLe (declared (.res o.id 0)) (expected ops declared (.res o.id 0))

/-- What a visit does: nothing but that the operation leaves the worklist, or it gets a new
type and its users are put on the worklist. -/
theorem visit_cases (h : visit uses st op = some (st', es)) :
    op ∈ ops ∧ op.id ∈ st.worklist ∧
      ((st' = { st with worklist := st.worklist.erase op.id } ∧
        ∀ ty, inferReturnTypes op.kind (op.operands.map st.types) = some ty →
          isRefinement (st.types (.res op.id 0)) ty = false) ∨
      ∃ ty, inferReturnTypes op.kind (op.operands.map st.types) = some ty ∧
        isRefinement (st.types (.res op.id 0)) ty = true ∧
        st'.types = Function.update st.types (.res op.id 0) ty ∧
        st'.worklist = (uses.getUsers op.id).foldl insertOp (st.worklist.erase op.id)) := by
  rw [visit] at h
  split at h
  case isFalse => cases h
  case isTrue hmem =>
      cases h
      refine ⟨hmem.1, hmem.2, ?_⟩
      rw [refineResult]
      cases hinf : inferReturnTypes op.kind (op.operands.map st.types) with
      | none => exact Or.inl ⟨rfl, by simp⟩
      | some ty =>
          cases hrefine : isRefinement (st.types (.res op.id 0)) ty with
          | false => exact Or.inl ⟨by simp [hrefine], by rintro _ ⟨⟩; exact hrefine⟩
          | true => exact Or.inr ⟨ty, rfl, hrefine, by simp [hrefine], by simp [hrefine]⟩

theorem mem_foldl_insertOp {i : Nat} {is wl : List Nat} :
    i ∈ is.foldl insertOp wl ↔ i ∈ wl ∨ i ∈ is := by
  induction is generalizing wl with
  | nil => simp
  | cons j is ih =>
      rw [List.foldl_cons, ih, insertOp]
      split
      case isTrue hj =>
          simp only [List.mem_cons]
          exact ⟨by tauto, by rintro (h | rfl | h) <;> tauto⟩
      case isFalse =>
          simp only [List.mem_append, List.mem_cons]
          tauto

/-- An operation that is not on the worklist would not be refined by a visit. -/
def Tidy (ops : List ShapeOp) (st : State) : Prop :=
  ∀ o ∈ ops, o.id ∉ st.worklist → ∀ ty,
    inferReturnTypes o.kind (o.operands.map st.types) = some ty →
      isRefinement (st.types (.res o.id 0)) ty = false

theorem infers_of_some {ts : List TensorTy} (h : inferReturnTypes kind ts = some t) :
    infers kind = true := by
  cases kind <;> first | rfl | cases h

theorem tidy_start : Tidy ops (start ops declared) := by
  intro o ho hnot ty hty
  refine isRefinement_of_static ?_
  by_contra hun
  refine hnot (List.mem_map_of_mem (List.mem_filter.mpr ⟨ho, ?_⟩))
  simpa [infers_of_some hty, start] using hun

theorem tidy_visit (hdefs : DefsFirst [] ops) (h : visit uses st op = some (st', es))
    (htidy : Tidy ops st) : Tidy ops st' := by
  obtain ⟨hop, -, ⟨rfl, hdone⟩ | ⟨ty, hty, -, htypes, hwl⟩⟩ := visit_cases h
  · intro o ho hnot ty hty
    by_cases hid : o.id = op.id
    · rw [hdefs.eq_of_id ho hop hid] at hty ⊢
      exact hdone ty hty
    · exact htidy o ho (fun hmem => hnot ((List.mem_erase_of_ne hid).mpr hmem)) ty hty
  · intro o ho hnot ty' hty'
    rw [hwl, mem_foldl_insertOp, uses.mem_getUsers, not_or] at hnot
    -- a user of the new type is on the worklist, so this operation is none
    have hread : .res op.id 0 ∉ o.operands := fun hmem =>
      hnot.2 (List.mem_map_of_mem (List.mem_filter.mpr ⟨ho, by simp [infers_of_some hty', hmem]⟩))
    have hsame : o.operands.map st'.types = o.operands.map st.types := by
      refine List.map_congr_left fun v hv => ?_
      rw [htypes, Function.update_of_ne]
      rintro rfl
      exact hread hv
    rw [hsame] at hty'
    by_cases hid : o.id = op.id
    · rw [hdefs.eq_of_id ho hop hid] at hty' ⊢
      rw [htypes, Function.update_self, ← Option.some.inj (hty.symm.trans hty')]
      exact isRefinement_self
    · rw [htypes, Function.update_of_ne (by simp [hid])]
      exact htidy o ho (fun hmem => hnot.1 ((List.mem_erase_of_ne hid).mpr hmem)) ty' hty'

/-- No type goes beyond what is expected, and what is not inferred is as declared. -/
structure Below (ops : List ShapeOp) (declared : Val → TensorTy) (st : State) : Prop where
  le : ∀ v, TyLe (st.types v) (expected ops declared v)
  fixed : ∀ v, Fixed ops declared v → st.types v = declared v

theorem below_start (hcons : Consistent ops declared) :
    Below ops declared (start ops declared) where
  le v := by
    by_cases hv : Fixed ops declared v
    · rw [expected_of_fixed hv]
      exact tyLe_refl
    · simp only [Fixed, not_forall] at hv
      obtain ⟨o, ho, rfl, -⟩ := hv
      exact hcons o ho
  fixed _ _ := rfl

/-- The condition on a visit: it makes no guess. -/
def InformedVisit (st : State) (op : ShapeOp) : Prop :=
  Informed op.kind (op.operands.map st.types)

theorem below_visit (hdefs : DefsFirst [] ops) (h : visit uses st op = some (st', es))
    (hinf : InformedVisit st op) (hbelow : Below ops declared st) : Below ops declared st' := by
  obtain ⟨hop, -, ⟨rfl, -⟩ | ⟨ty, hty, -, htypes, -⟩⟩ := visit_cases h
  · exact ⟨hbelow.le, hbelow.fixed⟩
  · refine ⟨fun v => ?_, fun v hv => ?_⟩
    · rw [htypes]
      by_cases hv : v = .res op.id 0
      · rw [hv, Function.update_self]
        cases hty' : inferReturnTypes op.kind (op.operands.map (expected ops declared)) with
        | none => rw [inferReturnTypes_none hty'] at hty; cases hty
        | some ty' =>
            rw [expected_op hdefs hop hty']
            refine le_inferReturnTypes ?_ hinf hty hty'
            exact List.forall₂_map_left_iff.mpr (List.forall₂_map_right_iff.mpr
              (List.forall₂_same.mpr fun w _ => hbelow.le w))
      · rw [Function.update_of_ne hv]
        exact hbelow.le v
    · have hne : v ≠ .res op.id 0 := fun heq => by
        rw [inferReturnTypes_none (hv op hop heq)] at hty
        cases hty
      rw [htypes, Function.update_of_ne hne]
      exact hbelow.fixed v hv

/-- In program order, every operation has settled once those before it have. -/
theorem settled_of_tidy {seen : List Nat} {sub : List ShapeOp} (hall : DefsFirst [] ops)
    (htidy : Tidy ops st) (hbelow : Below ops declared st) (hdrained : st.worklist = [])
    (hdefs : DefsFirst seen sub) (hsub : ∀ o ∈ sub, o ∈ ops)
    (hseen : ∀ i ∈ seen, ∀ k, st.types (.res i k) = expected ops declared (.res i k)) :
    ∀ o ∈ sub, ∀ k, st.types (.res o.id k) = expected ops declared (.res o.id k) := by
  have hfixed : ∀ {v}, Fixed ops declared v → st.types v = expected ops declared v :=
    fun hv => (hbelow.fixed _ hv).trans (expected_of_fixed hv).symm
  induction sub generalizing seen with
  | nil => exact fun o ho => by cases ho
  | cons o sub ih =>
      obtain ⟨ho, hrest⟩ := List.forall_mem_cons.mp hsub
      have hargs : o.operands.map st.types = o.operands.map (expected ops declared) := by
        refine List.map_congr_left fun v hv => ?_
        cases v with
        | arg i => exact hfixed fun q _ heq => by cases heq
        | res i k => exact hseen i (hdefs.2.1 _ hv i k rfl) k
      have hhead : ∀ k, st.types (.res o.id k) = expected ops declared (.res o.id k) := by
        intro k
        by_cases hv : Fixed ops declared (.res o.id k)
        · exact hfixed hv
        · simp only [Fixed, not_forall] at hv
          obtain ⟨q, hq, heq, hsome⟩ := hv
          obtain ⟨hid, rfl⟩ := Val.res.inj heq
          rw [← hall.eq_of_id ho hq hid] at hsome
          cases hty : inferReturnTypes o.kind (o.operands.map (expected ops declared)) with
          | none => exact absurd (inferReturnTypes_none hty) hsome
          | some ty =>
              have hexp := expected_op hall ho hty
              have hstill := htidy o ho (by simp [hdrained]) ty (by rw [hargs, hty])
              have hle := hbelow.le (.res o.id 0)
              rw [hexp] at hle ⊢
              exact (eq_or_isRefinement hle).resolve_right (by simp [hstill])
      intro p hp
      rcases List.mem_cons.mp hp with rfl | hp
      · exact hhead
      · refine ih hdefs.2.2 hrest (fun i hi k => ?_) p hp
        rcases List.mem_cons.mp hi with rfl | hi
        · exact hhead k
        · exact hseen i hi k

/-- An informed run that drains the worklist ends with the expected types. -/
theorem eq_expected (hdefs : DefsFirst [] ops) (hcons : Consistent ops declared)
    (hrun : Run (visit uses) InformedVisit (start ops declared) es st)
    (hdrained : st.worklist = []) : st.types = expected ops declared := by
  obtain ⟨htidy, hbelow⟩ : Tidy ops st ∧ Below ops declared st := by
    refine Run.invariant (I := fun _ st => Tidy ops st ∧ Below ops declared st)
      ⟨tidy_start, below_start hcons⟩ ?_ hrun
    intro _ _ s s' a hinv hok hstep
    exact ⟨tidy_visit hdefs hstep hinv.1, below_visit hdefs hstep hok hinv.2⟩
  have hops := settled_of_tidy hdefs htidy hbelow hdrained hdefs (fun o ho => ho) (by simp)
  funext v
  by_cases hv : Fixed ops declared v
  · rw [hbelow.fixed v hv, expected_of_fixed hv]
  · simp only [Fixed, not_forall] at hv
    obtain ⟨o, ho, rfl, -⟩ := hv
    exact hops o ho 0

/-- In a function whose declared types contradict nothing, every run of visits that make no
guess and drain the worklist ends with the inferred type at every operation, and with the same
types as any other such run, with whatever use lists. -/
theorem informed_runs_settle (hdefs : DefsFirst [] ops) (hcons : Consistent ops declared)
    (hrun : Run (visit uses) InformedVisit (start ops declared) es st)
    (hdrained : st.worklist = []) :
    (∀ o ∈ ops, ∀ ty, (∀ v ∈ o.operands, isUnresolved (st.types v) = false) →
      inferReturnTypes o.kind (o.operands.map st.types) = some ty →
      st.types (.res o.id 0) = ty) ∧
    ∀ (uses' : UseLists ops) es' st',
      Run (visit uses') InformedVisit (start ops declared) es' st' → st'.worklist = [] →
      st'.types = st.types := by
  have hend := eq_expected hdefs hcons hrun hdrained
  refine ⟨fun o ho ty _ hty => ?_, fun _ es' st' hrun' hdrained' => ?_⟩
  · rw [hend] at hty ⊢
    exact expected_op hdefs ho hty
  · rw [hend, eq_expected hdefs hcons hrun' hdrained']

variable (uses) in
/-- The loop of the pass is one of the runs, and ends for want of visits or of operations. -/
theorem inferLoop_run (maxIters : Nat) (st : State) :
    ∃ es, Run (visit uses) Any st es (inferLoop uses maxIters st) ∧
      (es.length = maxIters ∨ ((inferLoop uses maxIters st).worklist.getLast?.bind fun i =>
        ops.find? fun o => o.id = i) = none) := by
  induction maxIters generalizing st with
  | zero => exact ⟨[], .refl, .inl rfl⟩
  | succ maxIters ih =>
      rw [inferLoop]
      split
      case h_1 hnone => exact ⟨[], .refl, .inr hnone⟩
      case h_2 op hlast =>
          obtain ⟨i, hi, hfind⟩ := Option.bind_eq_some_iff.mp hlast
          have hid : op.id = i := by simpa using List.find?_some hfind
          have hmem : op.id ∈ st.worklist := hid ▸ List.mem_of_getLast? hi
          have hstep : visit uses st op =
              some (refineResult uses { st with worklist := st.worklist.erase op.id } op,
                [op.id]) :=
            if_pos ⟨List.mem_of_find?_eq_some hfind, hmem⟩
          obtain ⟨es, hrun, hend⟩ :=
            ih (refineResult uses { st with worklist := st.worklist.erase op.id } op)
          exact ⟨_, (Run.tail .refl trivial hstep).trans hrun, hend.imp_left fun hlen => by
            rw [← hlen, List.nil_append, List.length_append, List.length_singleton, Nat.add_comm]⟩

/-! ## A guess -/

/-- `x · relu(w)`, with nothing declared of the two results. -/
def guessOps : List ShapeOp :=
  [⟨0, .relu, [.arg 1]⟩, ⟨1, .matmul false false, [.arg 0, .res 0 0]⟩]

def guessTypes : Val → TensorTy
  | .arg 0 => .ranked [4, 8] (.float 32)
  | .arg _ => .ranked [8, 16] (.float 32)
  | .res .. => .unranked (.float 32)

theorem guess_defs : DefsFirst [] guessOps := by simp [DefsFirst, guessOps]

theorem guess_consistent : Consistent guessOps guessTypes := by
  intro o ho
  simp only [guessOps, List.mem_cons, List.not_mem_nil, or_false] at ho
  rcases ho with rfl | rfl <;> trivial

/-- Visited in program order the function gets its types. -/
theorem informed_runs_settle_guess : ∃ es st,
    Run (visit (.newestFirst guessOps)) InformedVisit (start guessOps guessTypes) es st ∧
      st.worklist = [] ∧ st.types (.res 1 0) = .ranked [4, 16] (.float 32) := by
  have hrun : Run (visit (.newestFirst guessOps)) InformedVisit (start guessOps guessTypes) _ _ :=
    .tail (.tail .refl (a := ⟨0, .relu, [.arg 1]⟩) trivial rfl)
      (a := ⟨1, .matmul false false, [.arg 0, .res 0 0]⟩) (fun _ => rfl) rfl
  exact ⟨_, _, hrun, rfl, (informed_runs_settle guess_defs guess_consistent hrun rfl).1
    ⟨1, .matmul false false, [.arg 0, .res 0 0]⟩ (by simp [guessOps]) _ (by decide) rfl⟩

/-- The pass visits the matmul first, takes the type of its left operand for the answer, and
does not get rid of it any more. -/
theorem guess_stays :
    DefsFirst [] guessOps ∧ Consistent guessOps guessTypes ∧
      (runOnOperation (.newestFirst guessOps) guessTypes).worklist = [] ∧
      (∀ v ∈ [Val.arg 0, .res 0 0],
        isUnresolved ((runOnOperation (.newestFirst guessOps) guessTypes).types v) = false) ∧
      inferReturnTypes (.matmul false false)
          ([Val.arg 0, .res 0 0].map (runOnOperation (.newestFirst guessOps) guessTypes).types) =
        some (.ranked [4, 16] (.float 32)) ∧
      (runOnOperation (.newestFirst guessOps) guessTypes).types (.res 1 0) =
        .ranked [4, 8] (.float 32) :=
  ⟨guess_defs, guess_consistent, by decide⟩

end CrossMachine.Compiler.Shape
