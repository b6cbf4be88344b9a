import Mathlib.Data.List.Basic

/-!
# Draining queues

A family of queues, one for each key, and a log of what was taken from which.
`Drains q q' log` says that the log accounts for all the difference: what it
took from a queue was at the front of it, in order, and the rest is still
there. Nothing here knows who takes or in what order the queues are served.
-/

namespace CrossMachine.Lib

variable {κ τ : Type*} [DecidableEq κ]

/-- What the log says was taken under key `k`, in order. -/
def taken (log : List (κ × τ)) (k : κ) : List τ :=
  log.filterMap fun e => if e.1 = k then some e.2 else none

@[simp] theorem taken_nil (k : κ) : taken ([] : List (κ × τ)) k = [] := rfl

@[simp] theorem taken_append (log log' : List (κ × τ)) (k : κ) :
    taken (log ++ log') k = taken log k ++ taken log' k :=
  List.filterMap_append

/-- A log of one key. -/
theorem taken_map_self (k : κ) (ts : List τ) : taken (ts.map fun t => (k, t)) k = ts := by
  simp [taken, List.filterMap_map]

theorem taken_map_of_ne {k k' : κ} (h : k' ≠ k) (ts : List τ) :
    taken (ts.map fun t => (k, t)) k' = [] := by
  simp [taken, List.filterMap_map, h.symm]

/-- The log accounts for what has left the queues. -/
def Drains (q q' : κ → List τ) (log : List (κ × τ)) : Prop :=
  ∀ k, taken log k ++ q' k = q k

variable {q q' q'' : κ → List τ} {log log' : List (κ × τ)}

theorem Drains.refl (q : κ → List τ) : Drains q q [] := fun _ => rfl

theorem Drains.trans (h : Drains q q' log) (h' : Drains q' q'' log') :
    Drains q q'' (log ++ log') := by
  intro k
  rw [taken_append, List.append_assoc, h' k, h k]

/-- Taking the front of one queue. -/
theorem drains_update (q : κ → List τ) {k : κ} {ran left : List τ} (h : ran ++ left = q k) :
    Drains q (Function.update q k left) (ran.map fun t => (k, t)) := by
  intro k'
  by_cases hk : k' = k
  · subst hk
    rw [taken_map_self, Function.update_self, h]
  · rw [taken_map_of_ne hk, Function.update_of_ne hk, List.nil_append]

/-- Queues only get shorter. -/
theorem Drains.length_le (h : Drains q q' log) (k : κ) : (q' k).length ≤ (q k).length := by
  rw [← h k, List.length_append]
  exact Nat.le_add_left _ _

/-- A queue that has been emptied is all in the log. -/
theorem Drains.taken_eq (h : Drains q q' log) {k : κ} (hk : q' k = []) : taken log k = q k := by
  rw [← h k, hk, List.append_nil]

end CrossMachine.Lib
