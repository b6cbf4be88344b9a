import CrossMachine.Compiler.ShapeSound
import Mathlib.Algebra.Order.BigOperators.Group.List
import Mathlib.Algebra.Order.Ring.Nat
import Mathlib.Data.List.MinMax
import Mathlib.Data.List.Perm.Subperm

/-!
# The budget of shape inference

The loop makes at most four visits for every operation that is unresolved at the start. A visit
takes one operation off the worklist; what it puts on is the users of a type that was refined,
and those are visited whether they are resolved or not. So how many visits there are depends
on how many users there are, and the budget does not.

A type is refined no more often than it has dimensions to become known, and every refinement puts
each user on the worklist once. What is on the worklist and what can still be put on it
(`potential`) gets less with every visit, whatever the order of the visits and of the users. At the
start it is at most what the function says: if that is within the budget the loop ends by itself
(`converges_within`), and with no budget it always does.
-/

namespace CrossMachine.Compiler.Shape

open Lib

variable {ops : List ShapeOp} {uses : UseLists ops} {declared types : Val → TensorTy}
  {st st' : State} {op o : ShapeOp} {t t' : TensorTy} {es : List Nat} {maxIters most i : Nat}

/-- How many operations are unresolved at the start. -/
def unresolved (ops : List ShapeOp) (declared : Val → TensorTy) : Nat :=
  (start ops declared).worklist.length

/-- No operation with static operands is left with a type that inference would refine. -/
def Settled (ops : List ShapeOp) (st : State) : Prop :=
  ∀ o ∈ ops, (∀ v ∈ o.operands, isUnresolved (st.types v) = false) →
    ∀ ty, inferReturnTypes o.kind (o.operands.map st.types) = some ty →
      isRefinement (st.types (.res o.id 0)) ty = false

/-- The loop ends since nothing is left to visit. -/
structure Converges (uses : UseLists ops) (declared : Val → TensorTy) : Prop where
  drained : (runOnOperation uses declared).worklist = []
  settled : Settled ops (runOnOperation uses declared)

/-! ## What can become known -/

def TensorTy.rank : TensorTy → Nat
  | .ranked shape _ => shape.length
  | .unranked _ => 0

/-- How often a type can be refined. One that is not ranked can get a rank first. -/
def TensorTy.refinable (most : Nat) : TensorTy → Nat
  | .ranked shape _ => shape.countP isDynamic
  | .unranked _ => most + 1

/-- The values that an operation reads and writes. -/
def ShapeOp.values (o : ShapeOp) : List Val := .res o.id 0 :: o.operands

/-- The highest rank of the function. -/
def maxRank (ops : List ShapeOp) (declared : Val → TensorTy) : Nat :=
  ((ops.flatMap ShapeOp.values).map fun v => (declared v).rank).foldr max 0

/-- How many users are put on the worklist at most: those of every operation, as often as its
type can be refined. -/
def requeues (ops : List ShapeOp) (most : Nat) (types : Val → TensorTy) : Nat :=
  ((ops.filter fun o => infers o.kind).map fun o =>
    (types (.res o.id 0)).refinable most * (inferringUsers ops o.id).length).sum

/-- The condition on a function: at most three users for every unresolved operation. -/
def WithinBudget (ops : List ShapeOp) (declared : Val → TensorTy) : Prop :=
  requeues ops (maxRank ops declared) declared ≤ 3 * unresolved ops declared

instance : Decidable (WithinBudget ops declared) := inferInstanceAs (Decidable (_ ≤ _))

def RankAtMost (ops : List ShapeOp) (most : Nat) (types : Val → TensorTy) : Prop :=
  ∀ o ∈ ops, ∀ v ∈ o.values, (types v).rank ≤ most

theorem rankAtMost_maxRank : RankAtMost ops (maxRank ops declared) declared :=
  fun _ ho _ hv => List.le_max_of_le' 0
    (List.mem_map_of_mem (List.mem_flatMap.mpr ⟨_, ho, hv⟩)) le_rfl

theorem rank_inferElementwiseResult :
    (inferElementwiseResult t t').rank ≤ max t.rank t'.rank := by
  cases t with
  | unranked => exact Nat.zero_le _
  | ranked lhs elem =>
      cases t' with
      | unranked => exact le_max_left _ _
      | ranked rhs elem' =>
          rw [inferElementwiseResult]
          split
          · exact List.length_replicate.le
          · exact List.length_zipWith.le.trans (min_le_left _ _ |>.trans (le_max_left _ _))

theorem rank_inferMatmul {tl tr : Bool} : (inferMatmul tl tr t t').rank ≤ t.rank := by
  cases t with
  | unranked => exact le_rfl
  | ranked lhs elem =>
      cases t' with
      | unranked => exact le_rfl
      | ranked rhs elem' =>
          rw [inferMatmul]
          split
          · exact le_rfl
          · simp only [TensorTy.rank, List.length_append, List.length_take, List.length_cons,
              List.length_nil]
            omega

theorem rank_inferConv {s p d : List Int} : (inferConv s p d t t').rank ≤ t.rank := by
  cases t with
  | unranked => exact le_rfl
  | ranked input elem =>
      cases t' with
      | unranked => exact le_rfl
      | ranked filter elem' =>
          rw [inferConv]
          split
          · exact le_rfl
          · rename_i hlen
            exact (not_not.mp (not_or.mp hlen).1).ge

/-- No inferred type has a higher rank than all operands. -/
theorem rank_inferReturnTypes {kind : ShapeKind} {ts : List TensorTy}
    (hts : ∀ t ∈ ts, t.rank ≤ most) (h : inferReturnTypes kind ts = some t) : t.rank ≤ most := by
  unfold inferReturnTypes at h
  split at h <;> cases h
  · exact rank_inferMatmul.trans (hts _ List.mem_cons_self)
  · exact rank_inferConv.trans (hts _ List.mem_cons_self)
  all_goals first
    | exact hts _ List.mem_cons_self
    | exact rank_inferElementwiseResult.trans
        (max_le (hts _ List.mem_cons_self) (hts _ (List.mem_cons_of_mem _ List.mem_cons_self)))

/-- A refinement that the loop over the dimensions finds makes one of them known. -/
theorem countP_of_refineLoop {old new : List Int} {b : Bool} (hlen : old.length = new.length)
    (h : refineLoop b (old.zip new) = true) :
    new.countP isDynamic + (if b then 0 else 1) ≤ old.countP isDynamic := by
  induction old generalizing new b with
  | nil =>
      rw [List.zip_nil_left, refineLoop] at h
      obtain rfl : new = [] := List.length_eq_zero_iff.mp hlen.symm
      simp [h]
  | cons d old ih =>
      cases new with
      | nil => cases hlen
      | cons e new =>
          have hlen' : old.length = new.length := Nat.succ.inj hlen
          rw [List.zip_cons_cons, refineLoop] at h
          rw [List.countP_cons, List.countP_cons]
          split at h
          · rename_i heq
            have := ih hlen' h
            rw [heq]
            generalize (if isDynamic e = true then 1 else 0) = n
            omega
          · split at h
            · rename_i hdim
              have hrest := ih hlen' h
              obtain ⟨hd, he⟩ : isDynamic d = true ∧ isDynamic e = false := by simpa using hdim
              have hflag : (if b then 0 else 1) ≤ 1 := by split <;> omega
              simp only [hd, he, if_true, Bool.false_eq_true, if_false] at hrest ⊢
              omega
            · cases h

/-- A refinement is one of those that are possible. -/
theorem refinable_of_isRefinement (hrank : t'.rank ≤ most) (h : isRefinement t t' = true) :
    t'.refinable most + 1 ≤ t.refinable most := by
  cases t' with
  | unranked e => cases t <;> cases h
  | ranked new e' =>
      cases t with
      | unranked e => exact Nat.succ_le_succ (List.countP_le_length.trans hrank)
      | ranked old e =>
          rw [isRefinement] at h
          split at h
          · cases h
          · rename_i hlen
            simpa [TensorTy.refinable] using countP_of_refineLoop (not_not.mp hlen) h


/-! ## What a visit does to the worklist -/

/-- Inserting adds at the end, and everything once. -/
theorem foldl_insertOp (is wl : List Nat) : ∃ added, is.foldl insertOp wl = wl ++ added ∧
    added.Nodup ∧ ∀ i ∈ added, i ∈ is ∧ i ∉ wl := by
  induction is generalizing wl with
  | nil => exact ⟨[], by simp⟩
  | cons j is ih =>
      rw [List.foldl_cons, insertOp]
      split
      · obtain ⟨added, heq, hnodup, hadded⟩ := ih wl
        exact ⟨added, heq, hnodup, fun i hi => (hadded i hi).imp_left (List.mem_cons_of_mem _)⟩
      · rename_i hj
        obtain ⟨added, heq, hnodup, hadded⟩ := ih (wl ++ [j])
        refine ⟨j :: added, by rw [heq, List.append_assoc]; rfl, ?_, fun i hi => ?_⟩
        · exact List.nodup_cons.mpr ⟨fun hmem => (hadded j hmem).2 (by simp), hnodup⟩
        · rcases List.mem_cons.mp hi with rfl | hi
          · exact ⟨List.mem_cons_self, hj⟩
          · obtain ⟨his, hwl⟩ := hadded i hi
            exact ⟨List.mem_cons_of_mem _ his, fun hmem => hwl (List.mem_append_left _ hmem)⟩

variable (uses op) in
theorem length_insert_users (wl : List Nat) : ((uses.getUsers op.id).foldl insertOp wl).length ≤
    wl.length + (inferringUsers ops op.id).length := by
  obtain ⟨added, heq, hnodup, hadded⟩ := foldl_insertOp (uses.getUsers op.id) wl
  have hsub : added ⊆ inferringUsers ops op.id :=
    fun i hi => (uses.mem_getUsers op.id i).mp (hadded i hi).1
  rw [heq, List.length_append]
  exact Nat.add_le_add_left (List.subperm_of_subset hnodup hsub).length_le _

/-- The worklist has operations of the function only. -/
def Listed (ops : List ShapeOp) (st : State) : Prop :=
  ∀ i ∈ st.worklist, ∃ o ∈ ops, o.id = i

theorem listed_start : Listed ops (start ops declared) := by
  intro i hi
  obtain ⟨o, ho, rfl⟩ := List.mem_map.mp hi
  exact ⟨o, (List.mem_filter.mp ho).1, rfl⟩

theorem Listed.visit (h : Listed ops st) (hvisit : visit uses st op = some (st', es)) :
    Listed ops st' := by
  have hold : ∀ i ∈ st.worklist.erase op.id, ∃ o ∈ ops, o.id = i :=
    fun i hi => h i (List.mem_of_mem_erase hi)
  obtain ⟨-, -, ⟨rfl, -⟩ | ⟨ty, -, -, -, hwl⟩⟩ := visit_cases hvisit
  · exact hold
  · intro i hi
    rw [hwl, mem_foldl_insertOp, uses.mem_getUsers] at hi
    rcases hi with hi | hi
    · exact hold i hi
    · obtain ⟨o, ho, rfl⟩ := List.mem_map.mp hi
      exact ⟨o, (List.mem_filter.mp ho).1, rfl⟩

/-- As long as there is anything on the worklist, the loop finds it. -/
theorem Listed.drained (h : Listed ops st)
    (hnone : (st.worklist.getLast?.bind fun i => ops.find? fun o => o.id = i) = none) :
    st.worklist = [] := by
  rcases List.eq_nil_or_concat st.worklist with hnil | ⟨is, i, hconcat⟩
  · exact hnil
  · obtain ⟨o, ho, hid⟩ := h i (by simp [hconcat])
    rw [hconcat, List.concat_eq_append, List.getLast?_concat, Option.bind_some] at hnone
    exact absurd (List.find?_eq_none.mp hnone o ho) (by simp [hid])

/-! ## What a visit uses up -/

/-- What is on the worklist, and what can still be put on it. -/
def State.potential (ops : List ShapeOp) (most : Nat) (st : State) : Nat :=
  st.worklist.length + requeues ops most st.types

/-- A sum gets less by what one of the summands does, if no other one gets more. -/
theorem sum_map_add_le {α : Type*} {l : List α} {f g : α → Nat} {a : α} {k : Nat} (ha : a ∈ l)
    (hle : ∀ b ∈ l, f b ≤ g b) (hlt : f a + k ≤ g a) : (l.map f).sum + k ≤ (l.map g).sum := by
  obtain ⟨before, after, rfl⟩ := List.append_of_mem ha
  have hbefore : (before.map f).sum ≤ (before.map g).sum :=
    List.sum_le_sum fun b hb => hle b (List.mem_append_left _ hb)
  have hafter : (after.map f).sum ≤ (after.map g).sum := List.sum_le_sum fun b hb =>
    hle b (List.mem_append_right _ (List.mem_cons_of_mem _ hb))
  simp only [List.map_append, List.map_cons, List.sum_append, List.sum_cons]
  omega

/-- With a refined type its users can be put on the worklist one time less. -/
theorem requeues_update (hop : op ∈ ops) (hinfers : infers op.kind = true)
    (hlt : t.refinable most + 1 ≤ (types (.res op.id 0)).refinable most) :
    requeues ops most (Function.update types (.res op.id 0) t) +
      (inferringUsers ops op.id).length ≤ requeues ops most types := by
  refine sum_map_add_le (List.mem_filter.mpr ⟨hop, hinfers⟩) (fun o _ => ?_) ?_
  · refine Nat.mul_le_mul_right _ ?_
    by_cases hid : o.id = op.id
    · rw [hid, Function.update_self]
      exact Nat.le_of_succ_le hlt
    · rw [Function.update_of_ne (by simp [hid])]
  · rw [Function.update_self, ← Nat.succ_mul]
    exact Nat.mul_le_mul_right _ hlt

theorem RankAtMost.visit (h : RankAtMost ops most st.types)
    (hvisit : visit uses st op = some (st', es)) : RankAtMost ops most st'.types := by
  obtain ⟨hop, -, ⟨rfl, -⟩ | ⟨ty, hty, -, htypes, -⟩⟩ := visit_cases hvisit
  · exact h
  · intro o ho v hv
    rw [htypes, Function.update_apply]
    split
    · refine rank_inferReturnTypes (fun t ht => ?_) hty
      obtain ⟨w, hw, rfl⟩ := List.mem_map.mp ht
      exact h op hop w (List.mem_cons_of_mem _ hw)
    · exact h o ho v hv

/-- Every visit uses up what it takes off the worklist. -/
theorem potential_visit (hrank : RankAtMost ops most st.types)
    (hvisit : visit uses st op = some (st', es)) :
    st'.potential ops most + es.length ≤ st.potential ops most := by
  have hes : es.length = 1 := by
    rw [Shape.visit] at hvisit
    split at hvisit <;> cases hvisit
    rfl
  obtain ⟨hop, hmem, hcases⟩ := visit_cases hvisit
  have hpos := List.length_pos_of_mem hmem
  have hlen := List.length_erase_of_mem hmem
  rcases hcases with ⟨rfl, -⟩ | ⟨ty, hty, hrefine, htypes, hwl⟩
  · simp only [State.potential]
    omega
  · have hty' : ty.rank ≤ most := by
      have := hrank.visit hvisit op hop (.res op.id 0) List.mem_cons_self
      rwa [htypes, Function.update_self] at this
    have hless := requeues_update hop (infers_of_some hty) (refinable_of_isRefinement hty' hrefine)
    have hinsert := length_insert_users uses op (st.worklist.erase op.id)
    simp only [State.potential, htypes, hwl]
    omega

/-- The visits of a run, and what is still to come. -/
theorem potential_run (hrun : Run (visit uses) Any (start ops declared) es st) :
    es.length + st.potential ops (maxRank ops declared) ≤
      unresolved ops declared + requeues ops (maxRank ops declared) declared := by
  refine (Run.invariant (I := fun es st => RankAtMost ops (maxRank ops declared) st.types ∧
    es.length + st.potential ops (maxRank ops declared) ≤ (start ops declared).potential ops
      (maxRank ops declared)) ⟨rankAtMost_maxRank, by simp⟩ ?_ hrun).2
  intro es ev st st' op hinv _ hvisit
  refine ⟨hinv.1.visit hvisit, ?_⟩
  have := potential_visit hinv.1 hvisit
  rw [List.length_append]
  omega

/-! ## The loop -/

theorem listed_run (hrun : Run (visit uses) Any (start ops declared) es st) : Listed ops st :=
  hrun.invariant (I := fun _ st => Listed ops st) listed_start fun hinv _ hs => hinv.visit hs

theorem inferLoop_drained (hle : unresolved ops declared +
    requeues ops (maxRank ops declared) declared ≤ maxIters) :
    (inferLoop uses maxIters (start ops declared)).worklist = [] := by
  obtain ⟨es, hrun, hlen | hnone⟩ := inferLoop_run uses maxIters (start ops declared)
  · have := potential_run hrun
    rw [State.potential] at this
    exact List.length_eq_zero_iff.mp (by omega)
  · exact (listed_run hrun).drained hnone

/-- Once the worklist is drained, nothing is left that inference would refine. -/
theorem settled_of_drained (hdefs : DefsFirst [] ops)
    (hrun : Run (visit uses) Any (start ops declared) es st) (hdrained : st.worklist = []) :
    Settled ops st := by
  have htidy : Tidy ops st := hrun.invariant (I := fun _ st => Tidy ops st) tidy_start
    fun hinv _ hs => tidy_visit hdefs hs hinv
  exact fun o ho _ ty hty => htidy o ho (List.eq_nil_iff_forall_not_mem.mp hdrained _) ty hty

variable (uses declared) in
/-- **Only the budget is in the way** of convergence: in any order, the visits come to an end. -/
theorem unbudgeted_converges (hdefs : DefsFirst [] ops) :
    ∃ visits, (∀ es st, Run (visit uses) Any (start ops declared) es st →
      es.length ≤ visits ∧ (Settled ops st ∨ ∃ op, visit uses st op ≠ none)) ∧
    Settled ops (inferLoop uses visits (start ops declared)) := by
  refine ⟨unresolved ops declared + requeues ops (maxRank ops declared) declared,
    fun es st hrun => ⟨le_of_add_le_left (potential_run hrun), ?_⟩, ?_⟩
  · rcases List.eq_nil_or_concat st.worklist with hnil | ⟨is, i, hconcat⟩
    · exact .inl (settled_of_drained hdefs hrun hnil)
    · obtain ⟨o, ho, rfl⟩ := listed_run hrun i (by simp [hconcat])
      refine .inr ⟨o, ?_⟩
      rw [Shape.visit, if_pos ⟨ho, by simp [hconcat]⟩]
      exact Option.some_ne_none _
  · obtain ⟨es, hrun, -⟩ := inferLoop_run uses
      (unresolved ops declared + requeues ops (maxRank ops declared) declared)
      (start ops declared)
    exact settled_of_drained hdefs hrun (inferLoop_drained le_rfl)

/-! ## A type with many users -/

/-- Operation `1` has seven users, all resolved; operation `0` has none. -/
def crowdedOps : List ShapeOp :=
  [⟨0, .add, [.arg 0, .arg 0]⟩, ⟨1, .add, [.arg 0, .arg 0]⟩] ++
    [2, 3, 4, 5, 6, 7, 8].map fun i => ⟨i, .mul, [.res 1 0, .res 1 0]⟩

def crowdedTypes : Val → TensorTy
  | .res 0 _ | .res 1 _ => .ranked [kDynamic] (.float 32)
  | _ => .ranked [4] (.float 32)

theorem crowded_defs : DefsFirst [] crowdedOps := by
  simp [DefsFirst, crowdedOps]

theorem unbudgeted_converges_crowded :
    ∃ visits, (∀ es st, Run (visit (.newestFirst crowdedOps)) Any
        (start crowdedOps crowdedTypes) es st →
      es.length ≤ visits ∧
        (Settled crowdedOps st ∨ ∃ op, visit (.newestFirst crowdedOps) st op ≠ none)) ∧
    Settled crowdedOps
      (inferLoop (.newestFirst crowdedOps) visits (start crowdedOps crowdedTypes)) :=
  unbudgeted_converges _ _ crowded_defs

end CrossMachine.Compiler.Shape
