import Mathlib.Data.Nat.ModEq
import Mathlib.Tactic.Ring

/-!
# Memory

Memory by the byte. A number is stored in a few bytes, lowest first. It reads back, and so
does whatever is not overwritten.
-/

namespace CrossMachine.Lib

abbrev Memory := Nat → UInt8

namespace Memory

variable {m m' : Memory} {p q n k v : Nat}

/-- The number in the `n` bytes from `p` on. -/
def load (m : Memory) (p : Nat) : Nat → Nat
  | 0 => 0
  | n + 1 => m.load p n + 256 ^ n * (m (p + n)).toNat

def store (m : Memory) (p n v : Nat) : Memory := fun a =>
  if p ≤ a ∧ a < p + n then UInt8.ofNat (v / 256 ^ (a - p)) else m a

theorem load_congr (h : ∀ a, p ≤ a → a < p + n → m' a = m a) : m'.load p n = m.load p n := by
  induction n with
  | zero => rfl
  | succ n ih =>
      rw [load, load, h (p + n) (by omega) (by omega), ih fun a ha hlt => h a ha (by omega)]

theorem load_store_self (hv : v < 256 ^ n) : (m.store p n v).load p n = v := by
  have hload : ∀ k ≤ n, (m.store p n v).load p k = v % 256 ^ k := by
    intro k hk
    induction k with
    | zero => rw [load, pow_zero, Nat.mod_one]
    | succ k ih =>
        have hbyte : ((m.store p n v) (p + k)).toNat = v / 256 ^ k % 256 := by
          rw [store, if_pos (by omega), Nat.add_sub_cancel_left]
          exact UInt8.toNat_ofNat'
        rw [load, ih (by omega), hbyte, Nat.mod_pow_succ]
  rw [hload n (Nat.le_refl n), Nat.mod_eq_of_lt hv]

end Memory

end CrossMachine.Lib
