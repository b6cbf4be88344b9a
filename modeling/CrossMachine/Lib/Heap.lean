import Mathlib.Data.List.Sort
import Mathlib.Order.Defs.LinearOrder

/-!
# Heaps

A binary heap in a list, the largest key in front. The operations that keep it are free to
arrange the entries as they like, as long as they are a heap afterwards; anything proved over
every `HeapOps` holds of whichever ones are used.
-/

namespace CrossMachine.Lib

variable {α κ : Type*} [LinearOrder κ] {key : α → κ}

/-- No entry has a larger key than its parent. -/
def IsHeap (key : α → κ) (h : List α) : Prop :=
  ∀ (i : Nat) x y, 0 < i → h[i]? = some x → h[(i - 1) / 2]? = some y → key x ≤ key y

theorem IsHeap.nil : IsHeap key ([] : List α) := by
  intro i x y _ hx
  exact absurd hx (by simp)

/-- The largest key is in front. -/
theorem IsHeap.le_head {t : α} {h : List α} (hh : IsHeap key (t :: h)) :
    ∀ x ∈ t :: h, key x ≤ key t := by
  have hindex : ∀ (i : Nat) x, (t :: h)[i]? = some x → key x ≤ key t := by
    intro i
    induction i using Nat.strong_induction_on with
    | _ i ih =>
        intro x hx
        rcases Nat.eq_zero_or_pos i with rfl | hpos
        · obtain rfl : t = x := by simpa using hx
          exact le_refl _
        · have hlt : i < (t :: h).length := (List.getElem?_eq_some_iff.mp hx).1
          have hparent : (i - 1) / 2 < i := by omega
          have hy := List.getElem?_eq_getElem (l := t :: h) (hparent.trans hlt)
          exact (hh i x _ hpos hx hy).trans (ih _ hparent _ hy)
  intro x hx
  obtain ⟨i, hi⟩ := List.mem_iff_getElem?.mp hx
  exact hindex i x hi

/-- A list in descending order is a heap. -/
theorem IsHeap.of_pairwise {h : List α} (hh : h.Pairwise fun a b => key b ≤ key a) :
    IsHeap key h := by
  intro i x y hi hx hy
  obtain ⟨hlt, rfl⟩ := List.getElem?_eq_some_iff.mp hx
  obtain ⟨hlt', rfl⟩ := List.getElem?_eq_some_iff.mp hy
  exact List.pairwise_iff_getElem.mp hh _ _ hlt' hlt (by omega)

/-- `push` takes in the last entry of a list that is a heap without it; `pop` moves the first
entry to the end and leaves a heap in front of it. -/
structure HeapOps (key : α → κ) where
  push : List α → List α
  pop : List α → List α
  push_perm : ∀ h, (push h).Perm h
  push_heap : ∀ h x, IsHeap key h → IsHeap key (push (h ++ [x]))
  pop_heap : ∀ t h, IsHeap key (t :: h) →
    ∃ h', pop (t :: h) = h' ++ [t] ∧ h'.Perm h ∧ IsHeap key h'

/-- Operations that keep the entries in descending order. -/
def HeapOps.descending (key : α → κ) : HeapOps key where
  push := List.insertionSort fun a b => key b ≤ key a
  pop
    | [] => []
    | t :: h => List.insertionSort (fun a b => key b ≤ key a) h ++ [t]
  push_perm := List.perm_insertionSort _
  push_heap h x _ := by
    have : Std.Total fun a b : α => key b ≤ key a := ⟨fun a b => le_total (key b) (key a)⟩
    have : IsTrans α fun a b : α => key b ≤ key a := ⟨fun _ _ _ hab hbc => hbc.trans hab⟩
    exact .of_pairwise (List.pairwise_insertionSort _ _)
  pop_heap t h _ := by
    have : Std.Total fun a b : α => key b ≤ key a := ⟨fun a b => le_total (key b) (key a)⟩
    have : IsTrans α fun a b : α => key b ≤ key a := ⟨fun _ _ _ hab hbc => hbc.trans hab⟩
    exact ⟨_, rfl, List.perm_insertionSort _ h,
      .of_pairwise (List.pairwise_insertionSort _ _)⟩

/-! ## Priority queues -/

namespace HeapOps

/-- `push` of a priority queue. -/
def enqueue (ops : HeapOps key) (h : List α) (x : α) : List α := ops.push (h ++ [x])

/-- `pop` of a priority queue. -/
def dequeue (ops : HeapOps key) (h : List α) : List α := (ops.pop h).dropLast

/-- The entries in the order in which they are taken out, as long as there are some. -/
def drain (ops : HeapOps key) : Nat → List α → List α
  | 0, _ => []
  | _ + 1, [] => []
  | n + 1, t :: h => t :: ops.drain n (ops.dequeue (t :: h))

variable (ops : HeapOps key) {t x : α} {h : List α}

theorem enqueue_perm (h : List α) (x : α) : (ops.enqueue h x).Perm (x :: h) :=
  (ops.push_perm _).trans (List.perm_append_singleton x h)

theorem isHeap_enqueue (hh : IsHeap key h) : IsHeap key (ops.enqueue h x) :=
  ops.push_heap h x hh

theorem dequeue_spec (hh : IsHeap key (t :: h)) :
    (ops.dequeue (t :: h)).Perm h ∧ IsHeap key (ops.dequeue (t :: h)) := by
  obtain ⟨h', hpop, hperm, hheap⟩ := ops.pop_heap t h hh
  rw [dequeue, hpop, List.dropLast_concat]
  exact ⟨hperm, hheap⟩

theorem drain_perm {n : Nat} (hh : IsHeap key h) (hn : h.length ≤ n) :
    (ops.drain n h).Perm h := by
  induction n generalizing h with
  | zero =>
      obtain rfl := List.length_eq_zero_iff.mp (Nat.le_zero.mp hn)
      exact .refl _
  | succ n ih =>
      cases h with
      | nil => exact .refl _
      | cons t h =>
          obtain ⟨hperm, hheap⟩ := ops.dequeue_spec hh
          have hlen : (ops.dequeue (t :: h)).length ≤ n := by
            rw [hperm.length_eq]
            simpa using hn
          exact ((ih hheap hlen).trans hperm).cons t

end HeapOps

end CrossMachine.Lib
