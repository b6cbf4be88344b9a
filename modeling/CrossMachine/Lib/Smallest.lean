import CrossMachine.Lib.Sorter
import Mathlib.Data.List.Perm.Basic

/-!
# The smallest entries of a bag

`Smallest key k xs h` says that `h` holds `k` of the entries `xs`, or all of them if they are
fewer, such that none of the others has a smaller key. Which ones they are is not determined
when keys are equal, but the keys are (`map_run_eq`).

A bag that is gone through entry by entry needs no more than the entries kept so far: an entry
joins while there is room, takes the place of the largest if it is smaller, and is passed over
otherwise. Entries that cannot be smaller than the largest can be passed over unseen.
-/

namespace CrossMachine.Lib

variable {α κ : Type*} [LinearOrder κ] {key : α → κ}

structure Smallest (key : α → κ) (k : Nat) (xs h : List α) : Prop where
  split : ∃ rest, (h ++ rest).Perm xs ∧ ∀ x ∈ h, ∀ y ∈ rest, key x ≤ key y
  length : h.length = min k xs.length

namespace Smallest

variable {k : Nat} {xs xs' h h' cs : List α} {c t : α}

theorem nil : Smallest key k [] [] where
  split := ⟨[], .refl _, fun _ hx => absurd hx List.not_mem_nil⟩
  length := (Nat.min_zero k).symm

theorem perm (hs : Smallest key k xs h) (hh : h'.Perm h) (hxs : xs'.Perm xs) :
    Smallest key k xs' h' where
  split := by
    obtain ⟨rest, hperm, hle⟩ := hs.split
    exact ⟨rest, (hh.append_right rest).trans (hperm.trans hxs.symm),
      fun x hx => hle x (hh.mem_iff.mp hx)⟩
  length := by rw [hh.length_eq, hxs.length_eq, hs.length]

/-- Everything is kept while there is room. -/
theorem all (hs : Smallest key k xs h) (hlt : h.length < k) : h.Perm xs := by
  obtain ⟨rest, hperm, -⟩ := hs.split
  have hlen := hperm.length_eq
  have := hs.length
  rw [List.length_append] at hlen
  obtain rfl : rest = [] := List.length_eq_zero_iff.mp (by omega)
  rwa [List.append_nil] at hperm

theorem push (hs : Smallest key k xs h) (hlt : h.length < k) :
    Smallest key k (c :: xs) (c :: h) where
  split := ⟨[], by rw [List.append_nil]; exact (hs.all hlt).cons c,
    fun _ _ _ hy => absurd hy List.not_mem_nil⟩
  length := by
    rw [List.length_cons, List.length_cons, (hs.all hlt).length_eq.symm]
    omega

theorem replace (hs : Smallest key k xs (t :: h)) (hfull : k ≤ (t :: h).length)
    (ht : ∀ x ∈ h, key x ≤ key t) (hc : key c < key t) :
    Smallest key k (c :: xs) (c :: h) where
  split := by
    obtain ⟨rest, hperm, hle⟩ := hs.split
    refine ⟨t :: rest, ?_, fun x hx y hy => ?_⟩
    · have hmid : (h ++ t :: rest).Perm (t :: h ++ rest) := List.perm_middle
      exact (hmid.trans hperm).cons c
    · have hxt : key x ≤ key t := by
        rcases List.mem_cons.mp hx with rfl | hx
        · exact le_of_lt hc
        · exact ht x hx
      rcases List.mem_cons.mp hy with rfl | hy
      · exact hxt
      · exact hxt.trans (hle t List.mem_cons_self y hy)
  length := by
    have hlen := hs.length
    rw [List.length_cons] at hlen hfull ⊢
    rw [List.length_cons]
    omega

/-- Entries that are not smaller than any that is kept can be passed over. -/
theorem skip (hs : Smallest key k xs h) (hfull : k ≤ h.length)
    (hc : ∀ c ∈ cs, ∀ x ∈ h, key x ≤ key c) : Smallest key k (cs ++ xs) h where
  split := by
    obtain ⟨rest, hperm, hle⟩ := hs.split
    refine ⟨cs ++ rest, ?_, fun x hx y hy => ?_⟩
    · exact (List.perm_append_comm_assoc h cs rest).trans (hperm.append_left cs)
    · rcases List.mem_append.mp hy with hy | hy
      · exact hc y hy x hx
      · exact hle x hx y hy
  length := by
    have hlen := hs.length
    rw [List.length_append]
    omega

/-- The keys that are kept, in order, are the first ones of all keys in order. -/
theorem map_run_eq (hs : Smallest key k xs h) (s s' : Sorter key) :
    (s.run h).map key = ((s'.run xs).take k).map key := by
  obtain ⟨rest, hperm, hle⟩ := hs.split
  have hsorted : ((s.run h ++ s.run rest).map key).Pairwise (· ≤ ·) := by
    rw [List.pairwise_map, List.pairwise_append]
    exact ⟨s.sorted h, s.sorted rest,
      fun x hx y hy => hle x (s.mem_run.mp hx) y (s.mem_run.mp hy)⟩
  have hsorted' : ((s'.run xs).map key).Pairwise (· ≤ ·) :=
    List.pairwise_map.mpr (s'.sorted xs)
  have hsame : ((s.run h ++ s.run rest).map key).Perm ((s'.run xs).map key) :=
    (((s.perm h).append (s.perm rest)).trans (hperm.trans (s'.perm xs).symm)).map key
  have heq : (s.run h ++ s.run rest).map key = (s'.run xs).map key :=
    hsame.eq_of_pairwise' hsorted hsorted'
  have hlen : (s.run h).length = min k xs.length := (s.perm h).length_eq.trans hs.length
  have hall : (s'.run xs).length = xs.length := (s'.perm xs).length_eq
  rw [List.map_append] at heq
  rw [List.map_take, ← heq]
  by_cases hk : k ≤ xs.length
  · rw [List.take_append_of_le_length (by rw [List.length_map]; omega), List.take_of_length_le]
    rw [List.length_map]
    omega
  · have hrest : (s.run rest).map key = [] := by
      have hl := congrArg List.length heq
      simp only [List.length_append, List.length_map] at hl
      refine List.length_eq_zero_iff.mp ?_
      rw [List.length_map]
      omega
    rw [hrest, List.append_nil, List.take_of_length_le]
    rw [List.length_map]
    omega

end Smallest

end CrossMachine.Lib
