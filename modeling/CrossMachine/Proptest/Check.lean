import CrossMachine.Lib.Descent
import CrossMachine.Proptest.Shrink

/-!
# Checking a property

`check` of `proptest.h`: random values until one fails the property, and then a greedy descent to
a smaller one that fails as well. The descent has a limit of a hundred rounds. It would end without
the limit too, since the candidates are smaller (`shrink_ends`).

A property is a function of the value. What is printed is not modelled.
-/

namespace CrossMachine.Proptest

open Lib

structure Rng where
  state : UInt64

/-- `Gen<T>` draws from the generator of random numbers, for a complexity. -/
abbrev Gen (α : Type) := Rng → Nat → α × Rng

structure CheckResult where
  passed : Bool := true
  testsRun : Int := 0
  seed : UInt64 := 0
  failTest : Int := -1
  failureInfo : String := ""

section

variable {α : Type} (shrink : α → List α) (gen : Gen α) (property : α → Bool) (toStr : α → String)

/-- The loop under `Greedy shrink`, with a limit on the rounds. -/
def greedyShrink (rounds : Nat) (val : α) : α := descend shrink (fun c => !property c) rounds val

/-- The tests from the `i`th on. The complexity is computed in `size_t`. -/
def trials (numTests : Int) (maxComplexity : Nat) :
    Nat → Nat → Rng → CheckResult → CheckResult
  | 0, _, _, result => result
  | left + 1, i, rng, result =>
      let (val, rng) := gen rng (i * maxComplexity % 2 ^ 64 / numTests.toNat)
      if property val then
        trials numTests maxComplexity left (i + 1) rng { result with testsRun := i + 1 }
      else
        { result with
          passed := false
          testsRun := i + 1
          failTest := i
          failureInfo := "counterexample: " ++ toStr (greedyShrink shrink property 100 val) }

def check (numTests : Int := 200) (seed : UInt64 := 42) (maxComplexity : Nat := 50) :
    CheckResult :=
  trials shrink gen property toStr numTests maxComplexity numTests.toNat 0 ⟨seed⟩ { seed := seed }

end

section

variable {α : Type} {shrink : α → List α} {gen : Gen α} {property : α → Bool} {toStr : α → String}

theorem greedyShrink_fails {v : α} (hv : property v = false) (rounds : Nat) :
    property (greedyShrink shrink property rounds v) = false := by
  have hgood : (!property v) = true := by rw [hv]; rfl
  have h : (!property (greedyShrink shrink property rounds v)) = true :=
    @good_descend _ _ (fun c => !property c) v hgood rounds
  rwa [Bool.not_eq_true'] at h

/-- A result that has not passed shows a value that fails. -/
theorem trials_fails {numTests : Int} {maxComplexity left i : Nat} {rng : Rng}
    {result : CheckResult} (hresult : result.passed = true)
    (h : (trials shrink gen property toStr numTests maxComplexity left i rng result).passed
      = false) :
    ∃ w, property w = false ∧
      (trials shrink gen property toStr numTests maxComplexity left i rng result).failureInfo
        = "counterexample: " ++ toStr w := by
  induction left generalizing i rng result with
  | zero =>
      rw [trials, hresult] at h
      cases h
  | succ left ih =>
      unfold trials at h ⊢
      dsimp only at h ⊢
      generalize gen rng _ = drawn at h ⊢
      by_cases hval : property drawn.1 = true
      · rw [if_pos hval] at h ⊢
        exact ih hresult h
      · rw [if_neg hval]
        exact ⟨_, greedyShrink_fails (Bool.eq_false_iff.mpr hval) 100, rfl⟩

end

/-- Shrinking goes down a well-founded order, so the greedy descent from a value that fails ends
without its limit, at a value that fails and has no smaller candidate that does. With the limit
the value fails too, and so does the one that `check` shows. -/
theorem shrink_ends (t : Ty) (property : t.Val → Bool) :
    WellFounded t.Smaller ∧ (∀ v, ∀ c ∈ t.shrink v, t.Smaller c v) ∧
    (∀ v, property v = false →
      (∃ w, Descends t.shrink (fun c => !property c) v w ∧ property w = false ∧
        (∀ c ∈ t.shrink w, property c = true) ∧
        ∃ n, ∀ rounds, n ≤ rounds → greedyShrink t.shrink property rounds v = w) ∧
      ∀ rounds, property (greedyShrink t.shrink property rounds v) = false) ∧
    ∀ gen toStr numTests seed maxComplexity,
      (check t.shrink gen property toStr numTests seed maxComplexity).passed = false →
      ∃ w, property w = false ∧
        (check t.shrink gen property toStr numTests seed maxComplexity).failureInfo
          = "counterexample: " ++ toStr w := by
  have hlt : ∀ v, ∀ c ∈ t.shrink v, t.Smaller c v := fun v c hc => t.smaller_of_mem_shrink hc
  refine ⟨t.smaller_wf, hlt, fun v hv => ⟨?_, greedyShrink_fails hv⟩,
    fun gen toStr numTests seed maxComplexity h => trials_fails rfl h⟩
  obtain ⟨w, hw⟩ : ∃ w, Descends t.shrink (fun c => !property c) v w :=
    exists_descends t.smaller_wf hlt v
  refine ⟨w, hw, ?_, fun c hc => ?_, hw.descend_eq⟩
  · have h := hw.good_end (by rw [hv]; rfl)
    rwa [Bool.not_eq_true'] at h
  · have h := hw.minimal c hc
    rwa [Bool.not_eq_false'] at h

/-- A vector of vectors that are to be short. -/
theorem shrink_ends_short :
    (fun v : (Ty.vec (.vec .int)).Val => decide (List.length v < 1))
      (greedyShrink (Ty.vec (.vec .int)).shrink (fun v => decide (List.length v < 1)) 100
        [[⟨-3, by decide⟩, ⟨7, by decide⟩], []]) = false :=
  ((shrink_ends (.vec (.vec .int)) fun v => decide (List.length v < 1)).2.2.1
    [[⟨-3, by decide⟩, ⟨7, by decide⟩], []] (by decide)).2 100

end CrossMachine.Proptest
