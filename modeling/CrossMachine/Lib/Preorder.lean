import Mathlib.Data.List.Basic

/-!
# Binary trees in an array

A binary tree is laid out in preorder: a node, what is below it on the left, what is below it on
the right, and every node that is no leaf has the positions of its children. `Placed` says that an
array has a tree at a position, whatever else is in it; it is what a program that follows the
positions needs to know.
-/

namespace CrossMachine.Lib

/-- A binary tree with something at every node, and something more at those that are no leaf. -/
inductive BinTree (α β : Type*) where
  | leaf (a : α)
  | node (a : α) (b : β) (left right : BinTree α β)

namespace BinTree

variable {α β γ : Type*}

def label : BinTree α β → α
  | leaf a => a
  | node a _ _ _ => a

def size : BinTree α β → Nat
  | leaf _ => 1
  | node _ _ l r => 1 + l.size + r.size

def depth : BinTree α β → Nat
  | leaf _ => 0
  | node _ _ l r => max l.depth r.depth + 1

theorem size_pos (t : BinTree α β) : 0 < t.size := by
  cases t <;> simp only [size] <;> omega

theorem depth_lt_size (t : BinTree α β) : t.depth < t.size := by
  induction t with
  | leaf _ => exact Nat.zero_lt_one
  | node _ _ l r ihl ihr =>
      simp only [depth, size]
      omega

/-- The cells of a tree that begins at position `i`. A cell is made of what is at the node and,
unless it is a leaf, of what is more there and the positions of the children. -/
def flatten (cell : α → Option (β × Nat × Nat) → γ) : Nat → BinTree α β → List γ
  | _, leaf a => [cell a none]
  | i, node a b l r =>
      cell a (some (b, i + 1, i + 1 + l.size)) ::
        (flatten cell (i + 1) l ++ flatten cell (i + 1 + l.size) r)

/-- The leaves of a tree that begins at position `i`, with their positions. -/
def leavesAt : Nat → BinTree α β → List (Nat × α)
  | i, leaf a => [(i, a)]
  | i, node _ _ l r => leavesAt (i + 1) l ++ leavesAt (i + 1 + l.size) r

/-- The leaf that a walk comes to which goes left where `go` says so. -/
def descend (go : β → Bool) : Nat → BinTree α β → Nat × α
  | i, leaf a => (i, a)
  | i, node _ b l r => if go b then descend go (i + 1) l else descend go (i + 1 + l.size) r

variable {cell : α → Option (β × Nat × Nat) → γ} {go : β → Bool} {i k : Nat} {a : α}

@[simp] theorem length_flatten (t : BinTree α β) (i : Nat) :
    (t.flatten cell i).length = t.size := by
  induction t generalizing i with
  | leaf _ => rfl
  | node _ _ l r ihl ihr =>
      simp only [flatten, size, List.length_cons, List.length_append, ihl, ihr]
      omega

theorem descend_mem (t : BinTree α β) (i : Nat) : t.descend go i ∈ t.leavesAt i := by
  induction t generalizing i with
  | leaf _ => exact List.mem_singleton_self _
  | node _ b l r ihl ihr =>
      rw [descend, leavesAt]
      split
      · exact List.mem_append_left _ (ihl _)
      · exact List.mem_append_right _ (ihr _)

theorem leavesAt_bounds {t : BinTree α β} (h : (k, a) ∈ t.leavesAt i) : i ≤ k ∧ k < i + t.size := by
  induction t generalizing i with
  | leaf _ =>
      obtain ⟨rfl, rfl⟩ := Prod.mk.inj (List.mem_singleton.mp h)
      exact ⟨Nat.le_refl _, Nat.lt_succ_self _⟩
  | node _ _ l r ihl ihr =>
      simp only [size]
      rcases List.mem_append.mp h with h | h
      · have := ihl h
        omega
      · have := ihr h
        omega

theorem descend_bounds (t : BinTree α β) (go : β → Bool) (i : Nat) :
    i ≤ (t.descend go i).1 ∧ (t.descend go i).1 < i + t.size :=
  leavesAt_bounds (t.descend_mem i)

/-- The cells have the tree at position `i`. -/
def Placed (cell : α → Option (β × Nat × Nat) → γ) (cells : List γ) : Nat → BinTree α β → Prop
  | i, leaf a => cells[i]? = some (cell a none)
  | i, node a b l r => cells[i]? = some (cell a (some (b, i + 1, i + 1 + l.size))) ∧
      Placed cell cells (i + 1) l ∧ Placed cell cells (i + 1 + l.size) r

theorem placed_append (t : BinTree α β) (front back : List γ) :
    t.Placed cell (front ++ (t.flatten cell front.length ++ back)) front.length := by
  induction t generalizing front back with
  | leaf a =>
      show (front ++ (cell a none :: back))[front.length]? = _
      rw [List.getElem?_append_right (Nat.le_refl _), Nat.sub_self]
      rfl
  | node a b l r ihl ihr =>
      generalize hc : cell a (some (b, front.length + 1, front.length + 1 + l.size)) = c
      have hl := ihl (front ++ [c]) (r.flatten cell (front.length + 1 + l.size) ++ back)
      have hr := ihr (front ++ c :: l.flatten cell (front.length + 1)) back
      have hlen : (front ++ c :: l.flatten cell (front.length + 1)).length =
          front.length + 1 + l.size := by
        rw [List.length_append, List.length_cons, length_flatten]
        omega
      rw [hlen] at hr
      simp only [List.length_append, List.length_singleton, List.append_assoc, List.cons_append,
        List.nil_append] at hl hr
      simp only [Placed, flatten, hc, List.cons_append, List.append_assoc]
      refine ⟨?_, hl, hr⟩
      rw [List.getElem?_append_right (Nat.le_refl _), Nat.sub_self]
      rfl

theorem placed_flatten (t : BinTree α β) : t.Placed cell (t.flatten cell 0) 0 := by
  have h : t.Placed cell (t.flatten cell 0 ++ []) 0 := t.placed_append [] []
  rwa [List.append_nil] at h

theorem Placed.label {cells : List γ} {t : BinTree α β} (h : t.Placed cell cells i) :
    ∃ inner, cells[i]? = some (cell t.label inner) := by
  cases t with
  | leaf a => exact ⟨_, h⟩
  | node a b l r => exact ⟨_, h.1⟩

theorem Placed.leaf {cells : List γ} {t : BinTree α β} (h : t.Placed cell cells i)
    (hk : (k, a) ∈ t.leavesAt i) : cells[k]? = some (cell a none) := by
  induction t generalizing i with
  | leaf _ =>
      obtain ⟨rfl, rfl⟩ := Prod.mk.inj (List.mem_singleton.mp hk)
      exact h
  | node _ _ l r ihl ihr =>
      rcases List.mem_append.mp hk with hk | hk
      · exact ihl h.2.1 hk
      · exact ihr h.2.2 hk

end BinTree

end CrossMachine.Lib
