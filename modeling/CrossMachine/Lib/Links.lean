import Mathlib.Data.List.Basic

/-!
# Linked lists in a table

A list that lives in a table of successors: every entry says which one comes next, and one
value that is no entry, `nil`, ends it. Writing an entry that is not on the list does not
change the list.
-/

namespace CrossMachine.Lib

variable {ι : Type*} {next next' : ι → ι} {nil a : ι} {xs : List ι}

/-- Starting at `a` the entries `xs` come one after the other, and then `nil`. -/
def Links (next : ι → ι) (nil : ι) : ι → List ι → Prop
  | a, [] => a = nil
  | a, x :: xs => a = x ∧ a ≠ nil ∧ Links next nil (next x) xs

theorem Links.eq_nil (h : Links next nil nil xs) : xs = [] := by
  cases xs with
  | nil => rfl
  | cons x xs => exact absurd rfl h.2.1

theorem Links.exists_cons (h : Links next nil a xs) (ha : a ≠ nil) :
    ∃ ys, xs = a :: ys ∧ Links next nil (next a) ys := by
  cases xs with
  | nil => exact absurd h ha
  | cons x ys =>
      obtain ⟨rfl, _, hrest⟩ := h
      exact ⟨ys, rfl, hrest⟩

theorem Links.push (h : Links next nil (next a) xs) (ha : a ≠ nil) :
    Links next nil a (a :: xs) :=
  ⟨rfl, ha, h⟩

/-- Only the entries that are on the list matter. -/
theorem Links.congr (h : Links next nil a xs) (hsame : ∀ x ∈ xs, next' x = next x) :
    Links next' nil a xs := by
  induction xs generalizing a with
  | nil => exact h
  | cons x xs ih =>
      obtain ⟨rfl, ha, hrest⟩ := h
      refine ⟨rfl, ha, ?_⟩
      rw [hsame a (List.mem_cons_self ..)]
      exact ih hrest fun y hy => hsame y (List.mem_cons_of_mem _ hy)

/-- There is only one such list. -/
theorem Links.unique {ys : List ι} (h : Links next nil a xs) (h' : Links next nil a ys) :
    xs = ys := by
  induction xs generalizing a ys with
  | nil =>
      have ha : a = nil := h
      subst ha
      exact h'.eq_nil.symm
  | cons x xs ih =>
      obtain ⟨rfl, ha, hrest⟩ := h
      obtain ⟨zs, rfl, hrest'⟩ := h'.exists_cons ha
      rw [ih hrest hrest']

/-- The list starts anew at each of its entries. -/
theorem Links.suffix {x : ι} (h : Links next nil a xs) (hx : x ∈ xs) :
    ∃ ys zs, xs = ys ++ x :: zs ∧ Links next nil x (x :: zs) := by
  induction xs generalizing a with
  | nil => cases hx
  | cons y xs ih =>
      by_cases hxy : x = y
      · subst hxy
        obtain ⟨rfl, ha, hrest⟩ := h
        exact ⟨[], xs, rfl, rfl, ha, hrest⟩
      · obtain ⟨rfl, _, hrest⟩ := h
        obtain ⟨ys, zs, rfl, hsuffix⟩ := ih hrest (List.mem_of_ne_of_mem hxy hx)
        exact ⟨a :: ys, zs, rfl, hsuffix⟩

/-- An entry comes once, as a list that came back to it would not end. -/
theorem Links.nodup (h : Links next nil a xs) : xs.Nodup := by
  induction xs generalizing a with
  | nil => exact List.nodup_nil
  | cons x xs ih =>
      refine List.nodup_cons.mpr ⟨fun hx => ?_, ih h.2.2⟩
      obtain ⟨ys, zs, hxs, hsuffix⟩ := h.2.2.suffix hx
      have heq : x :: xs = x :: zs := (h.1 ▸ h).unique hsuffix
      have hlen := congrArg List.length heq
      rw [hxs] at hlen
      simp at hlen
      omega

/-- What comes after an entry is another one, or the end. -/
theorem Links.next_mem {x : ι} (h : Links next nil a xs) (hx : x ∈ xs) :
    next x = nil ∨ next x ∈ xs := by
  obtain ⟨ys, zs, rfl, _, _, hrest⟩ := h.suffix hx
  cases zs with
  | nil => exact .inl hrest
  | cons z zs =>
      rw [hrest.1]
      exact .inr (by simp)

end CrossMachine.Lib
