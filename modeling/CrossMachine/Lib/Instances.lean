import Mathlib.Algebra.Order.Ring.Int
import Mathlib.Data.Nat.Cast.Defs

/-!
# Instances by name

Propositional instances of small closed types. A definition that needs one of them refers to it
here, and does not get a lemma of its own.
-/

namespace CrossMachine.Lib

instance neZeroOne : NeZero 1 := ⟨Nat.one_ne_zero⟩

instance neZeroTwo : NeZero 2 := ⟨Nat.succ_ne_zero 1⟩

instance neZeroThree : NeZero 3 := ⟨Nat.succ_ne_zero 2⟩

instance atLeastTwoTwo : Nat.AtLeastTwo 2 := ⟨Nat.le_refl 2⟩

instance atLeastTwoTen : Nat.AtLeastTwo 10 := ⟨by decide⟩

instance lawfulBEqPair : LawfulBEq (Nat × Nat) := inferInstance

end CrossMachine.Lib
