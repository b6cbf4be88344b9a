import Mathlib.Order.Basic
import Mathlib.Order.Lattice

/-!
# Keeping the best

A loop that keeps what is better than everything before it. It ends with the first of those that
are best, or with what it began with where nothing is better (`foldl_improve`).
-/

namespace CrossMachine.Lib

variable {α κ : Type*} [LinearOrder κ] {val : α → κ}

/-- The better of the best so far and `a`. -/
def improve (val : α → κ) (best : Option α × κ) (a : α) : Option α × κ :=
  if best.2 < val a then (some a, val a) else best

/-- `a` is better than `least` and than everything before it, and nothing after it is better. -/
def FirstBest (val : α → κ) (least : κ) (l : List α) (a : α) : Prop :=
  least < val a ∧ ∃ front back, l = front ++ a :: back ∧ (∀ b ∈ front, val b < val a) ∧
    ∀ b ∈ back, val b ≤ val a

variable {least : κ} {l : List α} {a b : α}

theorem FirstBest.mem (h : FirstBest val least l a) : a ∈ l := by
  obtain ⟨-, front, back, rfl, -⟩ := h
  exact List.mem_append_right front (List.mem_cons_self)

theorem FirstBest.le (h : FirstBest val least l a) (hb : b ∈ l) : val b ≤ val a := by
  obtain ⟨-, front, back, rfl, hfront, hback⟩ := h
  rcases List.mem_append.mp hb with hb | hb
  · exact (hfront b hb).le
  · rcases List.mem_cons.mp hb with rfl | hb
    · exact le_rfl
    · exact hback b hb

theorem FirstBest.unique (ha : FirstBest val least l a) (hb : FirstBest val least l b) : a = b := by
  have hba := ha.le hb.mem
  have hab := hb.le ha.mem
  obtain ⟨-, front, back, rfl, hfront, -⟩ := ha
  obtain ⟨-, front', back', heq, hfront', -⟩ := hb
  rcases List.append_eq_append_iff.mp heq with ⟨rest, rfl, hrest⟩ | ⟨rest, rfl, hrest⟩
  · rcases List.cons_eq_append_iff.mp hrest with ⟨rfl, hcons⟩ | ⟨_, rfl, -⟩
    · exact (List.cons.inj hcons).1.symm
    · exact absurd (hfront' a (List.mem_append_right _ List.mem_cons_self)) hba.not_gt
  · rcases List.cons_eq_append_iff.mp hrest with ⟨rfl, hcons⟩ | ⟨_, rfl, -⟩
    · exact (List.cons.inj hcons).1
    · exact absurd (hfront b (List.mem_append_right _ List.mem_cons_self)) hab.not_gt

theorem FirstBest.cons_new (h : FirstBest val (val b) l a) (hb : least < val b) :
    FirstBest val least (b :: l) a := by
  obtain ⟨ha, front, back, rfl, hfront, hback⟩ := h
  refine ⟨hb.trans ha, b :: front, back, rfl, fun c hc => ?_, hback⟩
  rcases List.mem_cons.mp hc with rfl | hc
  · exact ha
  · exact hfront c hc

theorem FirstBest.cons_old (h : FirstBest val least l a) (hb : val b ≤ least) :
    FirstBest val least (b :: l) a := by
  obtain ⟨ha, front, back, rfl, hfront, hback⟩ := h
  refine ⟨ha, b :: front, back, rfl, fun c hc => ?_, hback⟩
  rcases List.mem_cons.mp hc with rfl | hc
  · exact hb.trans_lt ha
  · exact hfront c hc

theorem foldl_improve (l : List α) (best : Option α × κ) :
    (l.foldl (improve val) best = best ∧ ∀ a ∈ l, val a ≤ best.2) ∨
      ∃ a, l.foldl (improve val) best = (some a, val a) ∧ FirstBest val best.2 l a := by
  induction l generalizing best with
  | nil => exact .inl ⟨rfl, fun a ha => absurd ha List.not_mem_nil⟩
  | cons x l ih =>
      rw [List.foldl_cons, improve]
      split
      · rename_i hx
        rcases ih (some x, val x) with ⟨hsame, hall⟩ | ⟨a, hend, ha⟩
        · exact .inr ⟨x, hsame, hx, [], l, rfl, fun b hb => absurd hb List.not_mem_nil, hall⟩
        · exact .inr ⟨a, hend, ha.cons_new hx⟩
      · rename_i hx
        rcases ih best with ⟨hsame, hall⟩ | ⟨a, hend, ha⟩
        · refine .inl ⟨hsame, fun b hb => ?_⟩
          rcases List.mem_cons.mp hb with rfl | hb
          · exact not_lt.mp hx
          · exact hall b hb
        · exact .inr ⟨a, hend, ha.cons_old (not_lt.mp hx)⟩

end CrossMachine.Lib
