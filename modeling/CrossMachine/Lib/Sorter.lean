import Mathlib.Data.List.Sort

/-!
# Sorting with ties in any order

A sort that is only told the keys may leave two entries with equal keys in either order. What
a caller can rely on is that the outcome is a rearrangement with the keys ascending, and
nothing else; anything proved over every `Sorter` holds of whichever one is used. The same goes
for a selection, which only puts one entry in its place and the others on the right side of it,
and for a partition, which puts the entries that satisfy a condition before the others.
-/

namespace CrossMachine.Lib

/-- A sort by `key` in ascending order that promises nothing about entries with equal keys. -/
structure Sorter {α : Type*} {κ : Type*} [LinearOrder κ] (key : α → κ) where
  run : List α → List α
  perm : ∀ xs, (run xs).Perm xs
  sorted : ∀ xs, (run xs).Pairwise fun a b => key a ≤ key b

variable {α κ : Type*} [LinearOrder κ] {key : α → κ}

/-- One such sort, the one that keeps equal keys in the order it finds them. -/
def Sorter.stable (key : α → κ) : Sorter key where
  run := List.insertionSort fun a b => key a ≤ key b
  perm := List.perm_insertionSort _
  sorted xs := by
    have : Std.Total fun a b : α => key a ≤ key b := ⟨fun a b => le_total (key a) (key b)⟩
    have : IsTrans α fun a b : α => key a ≤ key b := ⟨fun _ _ _ => le_trans⟩
    exact List.pairwise_insertionSort _ xs

theorem Sorter.mem_run (s : Sorter key) {xs : List α} {x : α} : x ∈ s.run xs ↔ x ∈ xs :=
  (s.perm xs).mem_iff

/-- An entry that is not left after the first one is dropped was the first, so it comes
strictly before every other. -/
theorem Sorter.lt_of_notMem_tail (s : Sorter key) {xs : List α} {x y : α}
    (hkey : ∀ a ∈ xs, ∀ b ∈ xs, key a = key b → a = b) (hx : x ∈ xs)
    (hnot : x ∉ (s.run xs).tail) (hy : y ∈ (s.run xs).tail) : key x < key y := by
  have hrun : x ∈ s.run xs := s.mem_run.mpr hx
  have hsorted := s.sorted xs
  have hmem : ∀ z, z ∈ s.run xs → z ∈ xs := fun z => s.mem_run.mp
  cases hr : s.run xs with
  | nil => rw [hr] at hrun; exact absurd hrun (by simp)
  | cons a rest =>
      rw [hr] at hrun hnot hy hsorted hmem
      rcases List.mem_cons.mp hrun with rfl | hin
      · refine lt_of_le_of_ne ((List.pairwise_cons.mp hsorted).1 y hy) fun heq => ?_
        have := hkey x hx y (hmem y (List.mem_cons_of_mem _ hy)) heq
        exact hnot (this ▸ hy)
      · exact absurd hin hnot

/-- What is at least the `k`th from the top has fewer than `k` above it. -/
theorem kth_le_iff {l : List κ} {k : Nat} {t x : κ} (hk : 1 ≤ k)
    (h : (l.insertionSort (· ≥ ·))[k - 1]? = some t) :
    t ≤ x ↔ (l.filter fun y => x < y).length < k := by
  have hsorted : (l.insertionSort (· ≥ ·)).Pairwise (· ≥ ·) := List.pairwise_insertionSort _ l
  rw [← ((List.perm_insertionSort (· ≥ ·) l).filter fun y => x < y).length_eq]
  generalize l.insertionSort (· ≥ ·) = sorted at h hsorted
  obtain ⟨hlt, rfl⟩ := List.getElem?_eq_some_iff.mp h
  rw [List.pairwise_iff_getElem] at hsorted
  constructor
  · intro hle
    have hdrop : (sorted.drop (k - 1)).filter (fun y => x < y) = [] := by
      refine List.filter_eq_nil_iff.mpr fun y hy => ?_
      obtain ⟨i, hi, rfl⟩ := List.mem_drop_iff_getElem.mp hy
      have hge : sorted[k - 1 + i] ≤ sorted[k - 1] := by
        rcases Nat.eq_zero_or_pos i with rfl | hpos
        · exact le_rfl
        · exact hsorted (k - 1) (k - 1 + i) hlt (by omega) (by omega)
      simpa using hge.trans hle
    rw [← List.take_append_drop (k - 1) sorted, List.filter_append, hdrop, List.append_nil]
    have hfilter := List.length_filter_le (fun y => decide (x < y)) (sorted.take (k - 1))
    have htake := List.length_take_le (k - 1) sorted
    omega
  · intro hfew
    by_contra hgt
    have htake : (sorted.take k).filter (fun y => x < y) = sorted.take k := by
      refine List.filter_eq_self.mpr fun y hy => decide_eq_true ?_
      obtain ⟨i, hi, rfl⟩ := List.mem_take_iff_getElem.mp hy
      refine (not_le.mp hgt).trans_le ?_
      rcases Nat.lt_or_ge i (k - 1) with hlow | hhigh
      · exact hsorted i (k - 1) _ hlt hlow
      · obtain rfl : i = k - 1 := by omega
        exact le_rfl
    rw [← List.take_append_drop k sorted, List.filter_append, htake, List.length_append,
      List.length_take] at hfew
    omega

/-! ## Selecting -/

/-- A selection: the entry at `mid` is one that could be there if all were sorted by `key`. -/
structure Selector (α κ : Type*) [LinearOrder κ] where
  run : (α → κ) → Nat → List α → List α
  perm : ∀ key mid xs, (run key mid xs).Perm xs
  left : ∀ key mid xs x, (run key mid xs)[mid]? = some x →
    ∀ y ∈ (run key mid xs).take mid, key y ≤ key x
  right : ∀ key mid xs x, (run key mid xs)[mid]? = some x →
    ∀ y ∈ (run key mid xs).drop (mid + 1), key x ≤ key y

/-- One that sorts. -/
def Selector.sorting (α κ : Type*) [LinearOrder κ] : Selector α κ where
  run key _ xs := (Sorter.stable key).run xs
  perm key _ xs := (Sorter.stable key).perm xs
  left key mid xs x hx y hy := by
    have hsorted := List.pairwise_iff_getElem.mp ((Sorter.stable key).sorted xs)
    obtain ⟨hlt, rfl⟩ := List.getElem?_eq_some_iff.mp hx
    obtain ⟨i, hi, rfl⟩ := List.mem_take_iff_getElem.mp hy
    exact hsorted i mid _ hlt (by omega)
  right key mid xs x hx y hy := by
    have hsorted := List.pairwise_iff_getElem.mp ((Sorter.stable key).sorted xs)
    obtain ⟨hlt, rfl⟩ := List.getElem?_eq_some_iff.mp hx
    obtain ⟨i, hi, rfl⟩ := List.mem_drop_iff_getElem.mp hy
    exact hsorted mid (mid + 1 + i) hlt (by omega) (by omega)

/-! ## Partitioning -/

/-- A partition: the entries that satisfy a condition, and those that do not. -/
structure Partitioner (α : Type*) where
  run : (α → Bool) → List α → List α × List α
  perm : ∀ p xs, ((run p xs).1 ++ (run p xs).2).Perm xs
  yes : ∀ p xs, ∀ x ∈ (run p xs).1, p x = true
  no : ∀ p xs, ∀ x ∈ (run p xs).2, p x = false

/-- One that keeps the order on either side. -/
def Partitioner.stable (α : Type*) : Partitioner α where
  run p xs := (xs.filter p, xs.filter fun x => !p x)
  perm p xs := List.filter_append_perm p xs
  yes _ _ _ hx := (List.mem_filter.mp hx).2
  no p xs x hx := by simpa using (List.mem_filter.mp hx).2

end CrossMachine.Lib
