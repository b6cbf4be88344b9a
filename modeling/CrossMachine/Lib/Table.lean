import Mathlib.Data.List.Basic
import Mathlib.Data.List.Nodup

/-!
# Tables

A map with finitely many entries, as the list of its entries. Where no key stands twice, a
key that is found splits the list (`lookup_split`), and an update or the removal of that entry
happens at the split; everything else about an update follows from that.
-/

namespace CrossMachine.Lib.Table

variable {κ ν : Type*} [DecidableEq κ] {t : List (κ × ν)} {k k' : κ} {v v' : ν}

def keys (t : List (κ × ν)) : List κ := t.map Prod.fst

/-- The table with another value at a key that it has. -/
def set (t : List (κ × ν)) (k : κ) (v : ν) : List (κ × ν) :=
  t.map fun e => if e.1 = k then (k, v) else e

def remove (t : List (κ × ν)) (k : κ) : List (κ × ν) := t.filter fun e => e.1 ≠ k

theorem mem_of_lookup (h : t.lookup k = some v) : (k, v) ∈ t := by
  obtain ⟨l, l', rfl, -⟩ := List.lookup_eq_some_iff.mp h
  simp

/-- A key that is found stands at one place. -/
theorem lookup_split (hnodup : (keys t).Nodup) (h : t.lookup k = some v) :
    ∃ l l', t = l ++ (k, v) :: l' ∧ (∀ v', set t k v' = l ++ (k, v') :: l') ∧
      remove t k = l ++ l' := by
  obtain ⟨l, l', rfl⟩ := List.append_of_mem (mem_of_lookup h)
  simp only [keys, List.map_append, List.map_cons] at hnodup
  have hnot := (List.nodup_cons.mp (List.nodup_middle.mp hnodup)).1
  rw [← List.map_append] at hnot
  have hne : ∀ e ∈ l ++ l', e.1 ≠ k := fun e he heq => hnot (heq ▸ List.mem_map_of_mem he)
  have hset : ∀ (u : List (κ × ν)) v', (∀ e ∈ u, e.1 ≠ k) →
      (u.map fun e => if e.1 = k then (k, v') else e) = u := by
    intro u v' hu
    refine (List.map_congr_left fun e he => ?_).trans (List.map_id _)
    rw [if_neg (hu e he)]
    rfl
  have hremove : ∀ u : List (κ × ν), (∀ e ∈ u, e.1 ≠ k) → (u.filter fun e => e.1 ≠ k) = u :=
    fun u hu => List.filter_eq_self.mpr (by simpa using hu)
  refine ⟨l, l', rfl, fun v' => ?_, ?_⟩
  · rw [set, List.map_append, List.map_cons, if_pos rfl,
      hset l v' fun e he => hne e (List.mem_append_left _ he),
      hset l' v' fun e he => hne e (List.mem_append_right _ he)]
  · rw [remove, List.filter_append, List.filter_cons_of_neg (by simp),
      hremove l fun e he => hne e (List.mem_append_left _ he),
      hremove l' fun e he => hne e (List.mem_append_right _ he)]

theorem keys_set (t : List (κ × ν)) (k : κ) (v : ν) : keys (set t k v) = keys t := by
  rw [keys, set, List.map_map]
  refine List.map_congr_left fun e _ => ?_
  rw [Function.comp_apply]
  split
  · exact Eq.symm ‹_›
  · rfl

theorem lookup_eq_none (h : t.lookup k = none) : k ∉ keys t := by
  intro hmem
  obtain ⟨e, he, rfl⟩ := List.mem_map.mp hmem
  exact absurd (List.lookup_eq_none_iff.mp h e he) (by simp)

/-- Taking away what was just put at the end. -/
theorem remove_concat (h : k ∉ keys t) : remove (t ++ [(k, v)]) k = t := by
  rw [remove, List.filter_append, List.filter_cons_of_neg (by simp), List.filter_nil,
    List.append_nil, List.filter_eq_self]
  intro e he
  simp only [ne_eq, decide_eq_true_eq]
  rintro rfl
  exact h (List.mem_map_of_mem he)

theorem set_concat (h : k ∉ keys t) : set (t ++ [(k, v)]) k v' = t ++ [(k, v')] := by
  have hkeep : (t.map fun e => if e.1 = k then (k, v') else e) = t := by
    refine (List.map_congr_left fun e he => ?_).trans (List.map_id _)
    rw [if_neg fun heq : e.1 = k => h (heq ▸ List.mem_map_of_mem he)]
    rfl
  rw [set, List.map_append, hkeep]
  simp

theorem lookup_concat (h : t.lookup k = none) : (t ++ [(k, v)]).lookup k = some v := by
  rw [List.lookup_append, h]
  simp

end CrossMachine.Lib.Table
