import Mathlib.Data.List.Infix

/-!
# Prefixes of lists

Replicated logs are compared by prefix: two prefixes of one list are comparable,
and what a prefix holds the longer list holds in the same place.
-/

namespace CrossMachine.Lib

variable {α : Type*} {xs ys zs : List α}

theorem prefix_getElem? (h : xs <+: ys) {i : Nat} {a : α} (hi : xs[i]? = some a) :
    ys[i]? = some a := by
  obtain ⟨t, rfl⟩ := h
  rw [List.getElem?_append_left (List.getElem?_eq_some_iff.mp hi).1]
  exact hi

theorem prefix_take_eq (h : xs <+: ys) {k : Nat} (hk : k ≤ xs.length) :
    ys.take k = xs.take k := by
  obtain ⟨t, rfl⟩ := h
  exact List.take_append_of_le_length hk

/-- An element of a list, seen as the end of the prefix that reaches it. -/
theorem length_take_of_getElem? {i : Nat} {a : α} (h : xs[i]? = some a) :
    (xs.take (i + 1)).length = i + 1 := by
  have := (List.getElem?_eq_some_iff.mp h).1
  rw [List.length_take]; omega

theorem lt_length_of_getElem? {i : Nat} {a : α} (h : xs[i]? = some a) : i < xs.length :=
  (List.getElem?_eq_some_iff.mp h).1

/-- The positions of a list that has grown by one. -/
theorem getElem?_snoc {x a : α} {i : Nat} (ha : (xs ++ [x])[i]? = some a) :
    i < xs.length ∧ xs[i]? = some a ∨ i = xs.length ∧ a = x := by
  rcases Nat.lt_or_ge i xs.length with hi | hi
  · rw [List.getElem?_append_left hi] at ha
    exact .inl ⟨hi, ha⟩
  · have hlt : i < (xs ++ [x]).length := lt_length_of_getElem? ha
    obtain rfl : i = xs.length := by rw [List.length_append, List.length_singleton] at hlt; omega
    rw [List.getElem?_concat_length, Option.some.injEq] at ha
    exact .inr ⟨rfl, ha.symm⟩

/-- Where an element of two lists is: in the first, or in the second. -/
theorem append_eq_append_cons {zs ws : List α} {a : α} (h : xs ++ ys = zs ++ a :: ws) :
    (∃ us, xs = zs ++ a :: us ∧ ws = us ++ ys) ∨ ∃ us, zs = xs ++ us ∧ ys = us ++ a :: ws := by
  rcases List.append_eq_append_iff.mp h with ⟨us, hzs, hys⟩ | ⟨us, hxs, hws⟩
  · exact .inr ⟨us, hzs, hys⟩
  · cases us with
    | nil =>
        simp only [List.append_nil, List.nil_append] at hxs hws
        exact .inr ⟨[], by rw [hxs, List.append_nil], hws.symm⟩
    | cons u us =>
        simp only [List.cons_append, List.cons.injEq] at hws
        rw [hws.1]
        exact .inl ⟨us, hxs, hws.2⟩

end CrossMachine.Lib
