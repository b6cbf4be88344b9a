import Mathlib.Data.List.FinRange
import CrossMachine.Lib.Network

/-!
# Exchanges with everyone, in the order of the ranks

Every rank goes through all ranks in order and exchanges something with each. Two ranks `a < b`
meet when `a` has come to `b` and `b` to `a`. There is no deadlock: the ranks can be let in one
after the other. When rank `b` enters, the ranks before it have exchanged with each other and
wait for it, and it exchanges with them from rank `0` on.

What a rank knows when it comes to rank `r` does not depend on the schedule, so it can be given
in advance (`T`), and each exchange is looked at alone (`meets_forEach`).
-/

namespace CrossMachine.Lib

open Relation (ReflTransGen)

variable {n : Nat} {α β σ : Type*}

/-- A loop with a state. -/
def Proc.forEach {ι : Type*} (body : Nat → σ → Proc ι α σ) : List Nat → σ → Proc ι α σ
  | [], s => .done s
  | r :: rs, s => (body r s).bind (forEach body rs)

/-- Where rank `i` is when rank `b` has exchanged with the ranks below `a`. -/
def letIn (b a i : Nat) : Nat :=
  if i < a then b + 1 else if i < b then b else if i = b then a else 0

theorem letIn_below {b a i : Nat} (h : i < a) : letIn b a i = b + 1 := if_pos h

theorem letIn_between {b a i : Nat} (ha : a ≤ i) (hb : i < b) : letIn b a i = b := by
  rw [letIn, if_neg (by omega), if_pos hb]

theorem letIn_self {b a : Nat} (h : a ≤ b) : letIn b a b = a := by
  rw [letIn, if_neg (by omega), if_neg (by omega), if_pos rfl]

section

variable (S : Fin n → Nat → Proc (Fin n) α β) (hself : ∀ i : Fin n, S i i.val = S i (i.val + 1))
  (hpair : ∀ a b : Fin n, a < b → ∀ P : Fin n → Proc (Fin n) α β, P a = S a b.val →
    P b = S b a.val → ReflTransGen Meet P
      (Function.update (Function.update P a (S a (b.val + 1))) b (S b (a.val + 1))))

include hpair in
/-- Rank `b` exchanges with those before it. -/
theorem meets_letIn {b : Nat} (hb : b < n) (a : Nat) (ha : a ≤ b) :
    ReflTransGen Meet (fun i => S i (letIn b 0 i)) (fun i => S i (letIn b a i)) := by
  induction a with
  | zero => exact .refl
  | succ a ih =>
      refine (ih (by omega)).trans ?_
      have hmeet := hpair ⟨a, by omega⟩ ⟨b, hb⟩ (Fin.mk_lt_mk.mpr ha) (fun i => S i (letIn b a i))
        (by rw [letIn_between (le_refl a) ha]) (by rw [letIn_self (by omega)])
      convert hmeet using 1
      funext i
      rw [Function.update_apply, Function.update_apply]
      split
      next heq =>
        subst heq
        rw [letIn_self ha]
      next hne =>
        have hval : i.val ≠ b := fun h => hne (Fin.ext h)
        split
        next heq =>
          subst heq
          rw [letIn_below (Nat.lt_succ_self a)]
        next hne' =>
          have hval' : i.val ≠ a := fun h => hne' (Fin.ext h)
          congr 1
          simp only [letIn]
          split_ifs <;> omega

include hself hpair in
/-- `S i r` is rank `i` when it has come to rank `r`. -/
theorem meets_pairs : ReflTransGen Meet (fun i => S i 0) (fun i => S i n) := by
  have hall (b : Nat) (hb : b ≤ n) :
      ReflTransGen Meet (fun i => S i 0) (fun i => S i (letIn b 0 i)) := by
    induction b with
    | zero => simpa [letIn] using ReflTransGen.refl
    | succ b ih =>
        refine (ih (by omega)).trans ?_
        have hmeets := meets_letIn S hpair hb b (le_refl b)
        -- rank `b` has nothing to exchange with itself
        convert hmeets using 1
        funext i
        by_cases hi : i.val = b
        · have hstay := hself i
          rw [hi] at hstay
          simp [letIn, hi, hstay]
        · congr 1
          simp only [letIn]
          split_ifs <;> omega
  have hend := hall n (le_refl n)
  simpa [letIn] using hend

end

/-- Every rank runs a loop over all ranks, where `T i r` is its state when it has come to rank
`r`. It is enough that the bodies of two ranks go through together. -/
theorem meets_forEach (body : Fin n → Nat → σ → Proc (Fin n) α σ) (T : Fin n → Nat → σ)
    (hself : ∀ i : Fin n, body i i (T i i) = .done (T i (i.val + 1)))
    (hpair : ∀ a b : Fin n, a < b → ∀ (k l : σ → Proc (Fin n) α σ) (P : Fin n → Proc (Fin n) α σ),
      P a = (body a b (T a b)).bind k → P b = (body b a (T b a)).bind l → ReflTransGen Meet P
        (Function.update (Function.update P a (k (T a (b.val + 1)))) b (l (T b (a.val + 1))))) :
    ReflTransGen Meet (fun i => Proc.forEach (body i) (List.range n) (T i 0))
      (fun i => .done (T i n)) := by
  have hnext (i : Fin n) {r : Nat} (hr : r < n) :
      Proc.forEach (body i) ((List.range n).drop r) (T i r) =
        (body i r (T i r)).bind (Proc.forEach (body i) ((List.range n).drop (r + 1))) := by
    rw [List.drop_eq_getElem_cons (by rwa [List.length_range]), List.getElem_range]
    rfl
  have hrun := meets_pairs (fun i r => Proc.forEach (body i) ((List.range n).drop r) (T i r))
    (fun i => by rw [hnext i i.isLt, hself]; rfl) fun a b hab P hPa hPb =>
      hpair a b hab _ _ P (by rw [hPa, hnext a b.isLt]) (by rw [hPb, hnext b a.isLt])
  have hlast : (List.range n).drop n = [] := List.drop_eq_nil_of_le (by rw [List.length_range])
  simp only [List.drop_zero, hlast] at hrun
  exact hrun

end CrossMachine.Lib
