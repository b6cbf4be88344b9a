import Mathlib.Data.List.Basic
import Mathlib.Data.List.Infix

/-!
# Lists with something between them
-/

namespace CrossMachine.Lib

variable {α : Type*} {sep s : List α} {group : List (List α)} {x : α}

theorem intercalate_concat (h : group ≠ []) :
    sep.intercalate (group ++ [s]) = sep.intercalate group ++ (sep ++ s) := by
  induction group with
  | nil => exact absurd rfl h
  | cons t group ih =>
      rcases group with - | ⟨u, group⟩
      · simp
      · have ih := ih (List.cons_ne_nil u group)
        simp only [List.cons_append, List.intercalate_cons_cons, List.append_assoc] at ih ⊢
        rw [ih]

theorem infix_intercalate (hs : s ∈ group) : s <:+: sep.intercalate group := by
  induction group with
  | nil => exact absurd hs List.not_mem_nil
  | cons t group ih =>
      rcases group with - | ⟨u, group⟩
      · obtain rfl := List.mem_singleton.mp hs
        simp
      · rw [List.intercalate_cons_cons, List.append_assoc]
        rcases List.mem_cons.mp hs with rfl | hs
        · exact (List.prefix_append _ _).isInfix
        · refine (ih hs).trans ?_
          rw [← List.append_assoc]
          exact (List.suffix_append _ _).isInfix

/-- What is in it is between the lists or in one of them. -/
theorem mem_intercalate (hx : x ∈ sep.intercalate group) : x ∈ sep ∨ ∃ s ∈ group, x ∈ s := by
  induction group with
  | nil => exact absurd hx List.not_mem_nil
  | cons t group ih =>
      rcases group with - | ⟨u, group⟩
      · exact .inr ⟨t, List.mem_cons_self, by simpa using hx⟩
      · rw [List.intercalate_cons_cons, List.mem_append, List.mem_append] at hx
        rcases hx with (hx | hx) | hx
        · exact .inr ⟨t, List.mem_cons_self, hx⟩
        · exact .inl hx
        · refine (ih hx).imp_right fun ⟨s, hs, hmem⟩ => ?_
          exact ⟨s, List.mem_cons_of_mem t hs, hmem⟩

end CrossMachine.Lib
