import Mathlib.Logic.Relation
import Mathlib.Tactic.Cases

/-!
# Runs of a machine

A machine is a partial step function: an action is either not possible in a
state, or it yields the next state together with the events an observer sees.
Nothing here knows what the states, actions or events are.

`Run step ok s₀ es s` says that `s` is reached from `s₀` by steps that all
satisfy `ok`, emitting `es` on the way. The condition speaks of the state a
step starts in and of the action taken, which is what a statement of the form
*"in every run that never does X"* needs; those about all runs take `ok` to be
`Any`.
-/

namespace CrossMachine.Lib

variable {σ α ε β : Type*}

/-- No condition on the steps of a run. -/
def Any (_ : σ) (_ : α) : Prop := True

/-- `s` is reached from `s₀` by steps satisfying `ok`, with events `es`. -/
inductive Run (step : σ → α → Option (σ × List ε)) (ok : σ → α → Prop) (s₀ : σ) :
    List ε → σ → Prop where
  | refl : Run step ok s₀ [] s₀
  | tail {es ev : List ε} {s s' : σ} {a : α} :
      Run step ok s₀ es s → ok s a → step s a = some (s', ev) →
      Run step ok s₀ (es ++ ev) s'

variable {step : σ → α → Option (σ × List ε)} {ok : σ → α → Prop} {s₀ : σ}

/-- Runs compose, and their events concatenate. -/
theorem Run.trans {es₁ es₂ : List ε} {s₁ s₂ : σ}
    (h₁ : Run step ok s₀ es₁ s₁) (h₂ : Run step ok s₁ es₂ s₂) :
    Run step ok s₀ (es₁ ++ es₂) s₂ := by
  induction h₂ with
  | refl => rw [List.append_nil]; exact h₁
  | tail _ hok hs ih => rw [← List.append_assoc]; exact .tail ih hok hs

/-- A run under a condition is a run without it. -/
theorem Run.any {es : List ε} {s : σ} (h : Run step ok s₀ es s) :
    Run step Any s₀ es s := by
  induction h with
  | refl => exact .refl
  | tail _ _ hs ih => exact .tail ih trivial hs

/-- The invariant rule: what holds at the start and is kept by every allowed
step holds along the whole run, of the events seen so far and the state. -/
theorem Run.invariant {I : List ε → σ → Prop} (h₀ : I [] s₀)
    (hstep : ∀ {es ev s s' a}, I es s → ok s a → step s a = some (s', ev) → I (es ++ ev) s')
    {es : List ε} {s : σ} (h : Run step ok s₀ es s) : I es s := by
  induction h with
  | refl => exact h₀
  | tail _ hok hs ih => exact hstep ih hok hs

/-- The simulation rule: when every step of the machine is matched by a finite
sequence of steps of `T`, so is every run. -/
theorem Run.simulate {T : β → β → Prop} {R : σ → β → Prop}
    (hstep : ∀ {s s' ev a b}, R s b → ok s a → step s a = some (s', ev) →
      ∃ b', Relation.ReflTransGen T b b' ∧ R s' b')
    {es : List ε} {s : σ} (h : Run step ok s₀ es s) {b : β} (hb : R s₀ b) :
    ∃ b', Relation.ReflTransGen T b b' ∧ R s b' := by
  induction h with
  | refl => exact ⟨b, .refl, hb⟩
  | tail _ hok hs ih =>
      obtain ⟨b₁, hT₁, hR₁⟩ := ih
      obtain ⟨b₂, hT₂, hR₂⟩ := hstep hR₁ hok hs
      exact ⟨b₂, hT₁.trans hT₂, hR₂⟩

/-! ## Executing a schedule -/

/-- Take the actions of a schedule in order, refusing any that `ok` forbids. -/
def exec (step : σ → α → Option (σ × List ε)) (ok : σ → α → Prop)
    [∀ s a, Decidable (ok s a)] : σ → List α → Option (σ × List ε)
  | s, [] => some (s, [])
  | s, a :: as =>
      if ok s a then
        (step s a).bind fun (s', ev) => (exec step ok s' as).map fun (s'', ev') => (s'', ev ++ ev')
      else none

instance (s : σ) (a : α) : Decidable (Any s a) := isTrue trivial

/-- A schedule that executes is a run. -/
theorem exec_run [∀ s a, Decidable (ok s a)] {as : List α} :
    ∀ {s s' : σ} {es : List ε}, exec step ok s as = some (s', es) → Run step ok s es s' := by
  induction as with
  | nil =>
      intro s s' es h
      simp only [exec, Option.some.injEq, Prod.mk.injEq] at h
      obtain ⟨rfl, rfl⟩ := h
      exact .refl
  | cons a as ih =>
      intro s s' es h
      rw [exec] at h
      split at h
      · rename_i hok
        simp only [Option.bind_eq_some_iff, Option.map_eq_some_iff, Prod.exists,
          Prod.mk.injEq] at h
        obtain ⟨s₁, ev, hs, s₂, ev', hrest, rfl, rfl⟩ := h
        exact Run.trans (Run.tail .refl hok hs) (ih hrest)
      · exact absurd h (by simp)

/-- The schedule `as` executes from `s`, and `P` holds where it ends. -/
def Leads (step : σ → α → Option (σ × List ε)) (ok : σ → α → Prop)
    [∀ s a, Decidable (ok s a)] (s : σ) (as : List α) (P : σ → List ε → Prop)
    [∀ s es, Decidable (P s es)] : Prop :=
  (exec step ok s as).any (fun r => decide (P r.1 r.2)) = true

instance [∀ s a, Decidable (ok s a)] (s : σ) (as : List α) (P : σ → List ε → Prop)
    [∀ s es, Decidable (P s es)] : Decidable (Leads step ok s as P) :=
  inferInstanceAs (Decidable (_ = true))

theorem Leads.run [∀ s a, Decidable (ok s a)] {s : σ} {as : List α} {P : σ → List ε → Prop}
    [∀ s es, Decidable (P s es)] (h : Leads step ok s as P) :
    ∃ s' es, Run step ok s es s' ∧ P s' es := by
  unfold Leads at h
  cases hr : exec step ok s as with
  | none => rw [hr] at h; exact absurd h (by simp)
  | some r =>
      rw [hr] at h
      exact ⟨r.1, r.2, exec_run hr, by simpa using h⟩

end CrossMachine.Lib
