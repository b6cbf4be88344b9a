import CrossMachine.Compiler.Regions

/-!
# What a match says

A match is found by looking from the activation back to the operations that define its
operand, and by counting uses. `Chain.Linked` is what is left of it for the rewrite: where the
operations of the chain stand in each other's operands. In a well-formed block every match is
linked, since the operations of a chain have a fixed number of operands and one result.
-/

namespace CrossMachine.Compiler

variable {verify : GKind → List Ty → List Ty → Prop} {args : List Ty}
  {seen body : List GOp} {o p q u act add root : GOp} {v x : Val} {yields : Option (List Ty)}
  {chain : MatchedChain} {name : String} {k : Nat}

/-! ## Uses -/

@[simp] theorem isResultOf_res {op op' : Nat} :
    isResultOf op (.res op' k) = decide (op' = op) := rfl

theorem isResultOf_iff {op : Nat} : isResultOf op v = true ↔ ∃ k, v = .res op k := by
  cases v with
  | arg i => simp [isResultOf]
  | res op' k => simp [isResultOf]

theorem notOf_iff {op : Nat} : NotOf op v ↔ isResultOf op v = false := by
  rw [← Bool.not_eq_true, isResultOf_iff, NotOf]
  exact not_exists.symm

theorem usesIn_eq_zero {op : Nat} (h : usesIn op o = 0) : ∀ v ∈ o.operands, NotOf op v := by
  intro v hv
  rw [notOf_iff]
  simpa using List.countP_eq_zero.mp h v hv

theorem usesIn_pos (h : .res p.id k ∈ u.operands) : 0 < usesIn p.id u :=
  List.countP_pos_iff.mpr ⟨_, h, isResultOf_iff.mpr ⟨k, rfl⟩⟩

/-- Nobody but the operation `u` reads a result of `op`. -/
def ReadBy (u op : Nat) (body : List GOp) : Prop :=
  ∀ q ∈ body, q.id ≠ u → ∀ v ∈ q.operands, NotOf op v

theorem singleUse_split {pre post : List GOp} (h : singleUse (pre ++ u :: post) p = true)
    (hread : .res p.id k ∈ u.operands) :
    usesIn p.id u = 1 ∧ ((pre ++ post).map (usesIn p.id)).sum = 0 := by
  simp only [singleUse, List.map_append, List.map_cons, List.sum_append, List.sum_cons,
    decide_eq_true_eq] at h
  have hpos := usesIn_pos hread
  simp only [List.map_append, List.sum_append]
  omega

/-- The user of an operation with a single use reads it once. -/
theorem usesIn_of_singleUse (h : singleUse body p = true) (hu : u ∈ body)
    (hread : .res p.id k ∈ u.operands) : usesIn p.id u = 1 := by
  obtain ⟨pre, post, rfl⟩ := List.append_of_mem hu
  exact (singleUse_split h hread).1

/-- An operation with a single use is read by its user only. -/
theorem readBy_of_singleUse (h : singleUse body p = true) (hu : u ∈ body)
    (hread : .res p.id k ∈ u.operands) : ReadBy u.id p.id body := by
  intro q hq hne
  obtain ⟨pre, post, rfl⟩ := List.append_of_mem hu
  have hzero := List.sum_eq_zero_iff_forall_eq_nat.mp (singleUse_split h hread).2
  rcases mem_insert_cases hq with rfl | hq
  · exact absurd rfl hne
  · exact usesIn_eq_zero (hzero _ (List.mem_map_of_mem hq))

/-! ## Kinds -/

theorem arity_of_actName (h : Arity o) (hname : actName o.kind = some name) :
    o.operands.length = 1 ∧ o.results.length = 1 := by
  unfold Arity at h
  unfold actName at hname
  split at h <;> simp_all

theorem arity_of_isAdd (h : Arity o) (hadd : isAdd o.kind = true) :
    o.operands.length = 2 ∧ o.results.length = 1 := by
  unfold Arity at h
  unfold isAdd at hadd
  split at h <;> simp_all

theorem arity_of_isMatmulLike (h : Arity o) (hlike : isMatmulLike o.kind = true) :
    2 ≤ o.operands.length ∧ o.results.length = 1 := by
  unfold Arity at h
  unfold isMatmulLike at hlike
  split at h <;> simp_all
  all_goals omega

theorem not_isAdd {k : GKind} (hlike : isMatmulLike k = true) : isAdd k = false := by
  unfold isMatmulLike at hlike
  split at hlike <;> simp_all [isAdd]

/-! ## Links -/

/-- The add reads the root once, on one of its two sides. -/
def AddOf (root add : GOp) (x : Val) : Prop :=
  (add.operands = [.res root.id 0, x] ∨ add.operands = [x, .res root.id 0]) ∧ NotOf root.id x

/-- The operation whose result the activation reads. -/
def MatchedChain.producer (chain : MatchedChain) : GOp := chain.bias.getD chain.root

structure Linked (body : List GOp) (chain : MatchedChain) (act : GOp) : Prop where
  root_mem : chain.root ∈ body
  root_like : isMatmulLike chain.root.kind = true
  root_single : singleUse body chain.root = true
  bias : ∀ add, chain.bias = some add → add ∈ body ∧ isAdd add.kind = true ∧
    singleUse body add = true ∧ ∃ x, AddOf chain.root add x
  act : act.operands = [.res chain.producer.id 0]

theorem mem_of_definingOp (h : definingOp body v = some p) : p ∈ body ∧ ∃ k, v = .res p.id k := by
  cases v with
  | arg i => cases h
  | res op k =>
      have hid : p.id = op := by simpa using List.find?_some h
      exact ⟨List.mem_of_find?_eq_some h, k, by rw [hid]⟩

/-- The only result of an operation is its first one. -/
theorem WfBlock.res_zero (h : WfBlock verify args seen body yields) (hp : p ∈ body)
    (hres : p.results.length = 1) (ho : o ∈ body) (hread : .res p.id k ∈ o.operands) : k = 0 := by
  obtain ⟨p', hp', hid, hk⟩ := h.ssa.defined (List.mem_append_right _ ho) hread
  rw [eq_of_id h.ssa.nodup hp' (List.mem_append_right _ hp) hid] at hk
  omega

/-- One operand of the add is the root, and only one. -/
theorem addOf_of_matmulBehind (h : WfBlock verify args seen body yields) (hadd : add ∈ body)
    (hkind : isAdd add.kind = true) (hbehind : matmulBehind body add = some root)
    (hsingle : singleUse body root = true) :
    root ∈ body ∧ isMatmulLike root.kind = true ∧ ∃ x, AddOf root add x := by
  obtain ⟨lhs, rhs, hops⟩ := List.length_eq_two.mp
    (arity_of_isAdd (h.ops add hadd).arity hkind).1
  simp only [matmulBehind, hops, List.getElem?_cons_zero, List.getElem?_cons_succ,
    Option.bind_some] at hbehind
  -- the operand that the root defines is its first result, and the other operand is none
  have hlink : ∀ v, v ∈ add.operands → definingOp body v = some root →
      isMatmulLike root.kind = true →
        root ∈ body ∧ v = .res root.id 0 ∧ usesIn root.id add = 1 := by
    intro v hv hdef hlike
    obtain ⟨hroot, k, rfl⟩ := mem_of_definingOp hdef
    have hres := (arity_of_isMatmulLike (h.ops root hroot).arity hlike).2
    obtain rfl : k = 0 := h.res_zero hroot hres hadd hv
    exact ⟨hroot, rfl, usesIn_of_singleUse hsingle hadd hv⟩
  split at hbehind
  case isTrue hany =>
      rw [hbehind, Option.any_some] at hany
      obtain ⟨hroot, rfl, huses⟩ := hlink lhs (by simp [hops]) hbehind hany
      refine ⟨hroot, hany, rhs, Or.inl hops, notOf_iff.mpr ?_⟩
      simpa [usesIn, hops, List.countP_cons] using huses
  case isFalse =>
      split at hbehind
      case isTrue hany =>
          rw [hbehind, Option.any_some] at hany
          obtain ⟨hroot, rfl, huses⟩ := hlink rhs (by simp [hops]) hbehind hany
          refine ⟨hroot, hany, lhs, Or.inr hops, notOf_iff.mpr ?_⟩
          simpa [usesIn, hops, List.countP_cons] using huses
      case isFalse => cases hbehind

/-- In a well-formed block every match is linked. -/
theorem linked_of_match (h : WfBlock verify args seen body yields) (hact : act ∈ body)
    (hname : actName act.kind = some name) (hmatch : matchChain body act name = some chain) :
    Linked body chain act := by
  obtain ⟨input, hops⟩ := List.length_eq_one_iff.mp
    (arity_of_actName (h.ops act hact).arity hname).1
  simp only [matchChain, hops, List.getElem?_cons_zero, Option.bind_some] at hmatch
  have hlink : ∀ p, definingOp body input = some p → p.results.length = 1 →
      act.operands = [.res p.id 0] := by
    intro p hdef hres
    obtain ⟨hp, k, rfl⟩ := mem_of_definingOp hdef
    obtain rfl : k = 0 := h.res_zero hp hres hact (by simp [hops])
    exact hops
  cases hdef : definingOp body input with
  | none => simp [hdef] at hmatch
  | some p =>
      have hp := (mem_of_definingOp hdef).1
      simp only [hdef] at hmatch
      split at hmatch
      case isTrue hadd =>
          split at hmatch
          case isFalse => cases hmatch
          case isTrue hsingle =>
              cases hbehind : matmulBehind body p with
              | none => simp [hbehind] at hmatch
              | some root =>
                  simp only [hbehind] at hmatch
                  split at hmatch
                  case isFalse => cases hmatch
                  case isTrue hroot =>
                      cases hmatch
                      obtain ⟨hmem, hlike, hof⟩ := addOf_of_matmulBehind h hp hadd hbehind hroot
                      refine ⟨hmem, hlike, hroot, ?_, hlink p hdef ?_⟩
                      · rintro add ⟨⟩
                        exact ⟨hp, hadd, hsingle, hof⟩
                      · exact (arity_of_isAdd (h.ops p hp).arity hadd).2
      case isFalse =>
          split at hmatch
          case isFalse => cases hmatch
          case isTrue hlike =>
              split at hmatch
              case isFalse => cases hmatch
              case isTrue hsingle =>
                  cases hmatch
                  refine ⟨hp, hlike, hsingle, by rintro add ⟨⟩, hlink p hdef ?_⟩
                  exact (arity_of_isMatmulLike (h.ops p hp).arity hlike).2

end CrossMachine.Compiler
