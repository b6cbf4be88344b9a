import Mathlib.Data.Fintype.Card
import Mathlib.Data.Finset.Card

/-!
# Majorities

A majority of a finite type holds more than half of it. The one fact every
quorum argument rests on is that two majorities meet.
-/

namespace CrossMachine.Lib

variable {ι : Type*} [Fintype ι]

/-- More than half of all of `ι`. -/
def Majority (Q : Finset ι) : Prop := Fintype.card ι < 2 * Q.card

/-- **Two majorities share a member.** -/
theorem Majority.inter [DecidableEq ι] {P Q : Finset ι} (hP : Majority P) (hQ : Majority Q) :
    ∃ v, v ∈ P ∧ v ∈ Q := by
  by_contra hne
  have hdisj : Disjoint P Q := by
    rw [Finset.disjoint_left]
    intro v hvP hvQ
    exact hne ⟨v, hvP, hvQ⟩
  have hcard : (P ∪ Q).card = P.card + Q.card := Finset.card_union_of_disjoint hdisj
  have hle : (P ∪ Q).card ≤ Fintype.card ι := Finset.card_le_univ _
  unfold Majority at hP hQ
  omega

end CrossMachine.Lib
