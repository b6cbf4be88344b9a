import Mathlib.Data.List.Induction
import Mathlib.Order.Basic

/-!
# Closing a relation pivot by pivot

Warshall's argument, for a loop that may work in place. What is related is related within a number
of steps. Nothing is asked of the loop at a pivot `k` but that it loses no pair, and that it relates
`a` to `b` when it found `a` related to `k` and `k` related to `b`, within as many steps as the two
have together. Every pair that is joined by pivots that have had their turn is related then
(`foldl_through`), whatever else the loop has related on the way.
-/

namespace CrossMachine.Lib

/-- Two ends joined by steps that meet at pivots. -/
inductive Through {α : Type*} (R : Nat → α → α → Prop) (ks : List α) : Nat → α → α → Prop
  | direct {n : Nat} {a b : α} : R n a b → Through R ks n a b
  | join {n n' : Nat} {a k b : α} : k ∈ ks → Through R ks n a k → Through R ks n' k b →
      Through R ks (n + n') a b

section

variable {α σ : Type*} {R : Nat → α → α → Prop} {ks : List α} {a b k : α} {n : Nat}

/-- With one more pivot, what is joined was joined before or is joined at the new one. -/
theorem Through.last (h : Through R (ks ++ [k]) n a b) :
    Through R ks n a b ∨
      ∃ l l', l + l' ≤ n ∧ Through R ks l a k ∧ Through R ks l' k b := by
  induction h with
  | direct hR => exact .inl (.direct hR)
  | @join n n' a m b hm _ _ ihl ihr =>
      rcases List.mem_append.mp hm with hm | hm
      · rcases ihl with hl | ⟨l, l', hle, hl, hl'⟩
        · rcases ihr with hr | ⟨r, r', hle', hr, hr'⟩
          · exact .inl (.join hm hl hr)
          · exact .inr ⟨n + r, r', by omega, .join hm hl hr, hr'⟩
        · rcases ihr with hr | ⟨r, r', hle', -, hr'⟩
          · exact .inr ⟨l, l' + n', by omega, hl, .join hm hl' hr⟩
          · exact .inr ⟨l, r', by omega, hl, hr'⟩
      · -- the two halves meet at the new pivot
        obtain rfl := List.mem_singleton.mp hm
        have hl : ∃ l, l ≤ n ∧ Through R ks l a m := by
          rcases ihl with hl | ⟨l, l', hle, hl, -⟩
          · exact ⟨n, Nat.le_refl n, hl⟩
          · exact ⟨l, by omega, hl⟩
        have hr : ∃ r, r ≤ n' ∧ Through R ks r m b := by
          rcases ihr with hr | ⟨r, r', hle, -, hr⟩
          · exact ⟨n', Nat.le_refl n', hr⟩
          · exact ⟨r', by omega, hr⟩
        obtain ⟨l, hle, hl⟩ := hl
        obtain ⟨r, hle', hr⟩ := hr
        exact .inr ⟨l, r, Nat.add_le_add hle hle', hl, hr⟩

theorem foldl_through {stage : σ → α → σ} (fin : σ → Nat → α → α → Prop)
    (hkeep : ∀ s k n a b, fin s n a b → fin (stage s k) n a b)
    (hjoin : ∀ s k l l' n a b, l + l' ≤ n → fin s l a k → fin s l' k b → fin (stage s k) n a b)
    {s : σ} (h : Through (fin s) ks n a b) : fin (ks.foldl stage s) n a b := by
  induction ks using List.reverseRecOn generalizing n a b with
  | nil =>
      cases h with
      | direct hR => exact hR
      | join hm => exact absurd hm List.not_mem_nil
  | append_singleton ks k ih =>
      rw [List.foldl_append, List.foldl_cons, List.foldl_nil]
      rcases h.last with hold | ⟨l, l', hle, hl, hr⟩
      · exact hkeep _ k n a b (ih hold)
      · exact hjoin _ k l l' n a b hle (ih hl) (ih hr)

end

end CrossMachine.Lib
