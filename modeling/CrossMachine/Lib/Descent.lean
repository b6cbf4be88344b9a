import Mathlib.Data.List.Basic
import Mathlib.Order.WellFounded

/-!
# Greedy descent

A search that goes to the first of the candidates that is good, for so many rounds or until there
is none. Without the limit it is a relation (`Descends`), and it comes to an end when the candidates
of a value are below it in a well-founded order.
-/

namespace CrossMachine.Lib

variable {α : Type*} (candidates : α → List α) (good : α → Bool)

/-- So many rounds, unless one of them finds nothing. -/
def descend : Nat → α → α
  | 0, v => v
  | rounds + 1, v =>
      match (candidates v).find? good with
      | some c => descend rounds c
      | none => v

/-- The search without a limit goes from `v` to `w`. -/
inductive Descends : α → α → Prop where
  | stop {v : α} : (candidates v).find? good = none → Descends v v
  | round {v c w : α} : (candidates v).find? good = some c → Descends c w → Descends v w

variable {candidates good} {v w : α}

theorem good_descend (hv : good v = true) (rounds : Nat) :
    good (descend candidates good rounds v) = true := by
  induction rounds generalizing v with
  | zero => exact hv
  | succ rounds ih =>
      rw [descend]
      cases hc : (candidates v).find? good with
      | some c => exact ih (List.find?_some hc)
      | none => exact hv

namespace Descends

theorem good_end (h : Descends candidates good v w) (hv : good v = true) : good w = true := by
  induction h with
  | stop _ => exact hv
  | round hc _ ih => exact ih (List.find?_some hc)

/-- Where it ends, there is nothing to go to. -/
theorem minimal (h : Descends candidates good v w) : ∀ c ∈ candidates w, good c = false := by
  induction h with
  | stop hnone => exact fun c hc => Bool.eq_false_iff.mpr (List.find?_eq_none.mp hnone c hc)
  | round _ _ ih => exact ih

/-- A limit that is large enough is not seen. -/
theorem descend_eq (h : Descends candidates good v w) :
    ∃ n, ∀ rounds, n ≤ rounds → descend candidates good rounds v = w := by
  induction h with
  | stop hnone =>
      refine ⟨0, fun rounds _ => ?_⟩
      cases rounds with
      | zero => rfl
      | succ rounds => rw [descend, hnone]
  | round hc _ ih =>
      obtain ⟨n, hn⟩ := ih
      refine ⟨n + 1, fun rounds hle => ?_⟩
      obtain ⟨rounds, rfl⟩ := Nat.exists_eq_add_of_le' hle
      rw [← Nat.add_assoc, descend, hc]
      exact hn _ (Nat.le_add_left n rounds)

end Descends

theorem exists_descends {r : α → α → Prop} (hr : WellFounded r)
    (hlt : ∀ v, ∀ c ∈ candidates v, r c v) (v : α) : ∃ w, Descends candidates good v w := by
  induction v using hr.induction with
  | _ v ih =>
      cases hc : (candidates v).find? good with
      | some c =>
          obtain ⟨w, hw⟩ := ih c (hlt v c (List.mem_of_find?_eq_some hc))
          exact ⟨w, .round hc hw⟩
      | none => exact ⟨v, .stop hc⟩

end CrossMachine.Lib
