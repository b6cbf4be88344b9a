import Mathlib.Data.List.Basic

/-!
# Grace periods

Deferred reclamation makes one promise whatever the scheme behind it: an object that was
retired is reclaimed only when every guard that was open at its retirement has been left.
The promise is about the order of four kinds of events, and it is stated here over the
list of the events of a run, with nothing of a scheme in it.

Guards and retirements draw their numbers from one clock. That a guard was entered
before an object was retired is then `g < i`, and a scheme only has to show that no guard
below `i` is open when it reclaims `i` (`Tracked.reclaim`).
-/

namespace CrossMachine.Lib

/-- What a client sees. -/
inductive GraceEvent where
  | entered (g : Nat)
  | left (g : Nat)
  | retired (i : Nat)
  | reclaimed (i : Nat)
  deriving DecidableEq, Repr

open GraceEvent

/-- Between the retirement of an object and its reclamation, every guard that was open
at the retirement is left. -/
def Grace (es : List GraceEvent) : Prop :=
  ∀ es₁ es₂ es₃ i, es = es₁ ++ retired i :: (es₂ ++ reclaimed i :: es₃) →
    ∀ g, entered g ∈ es₁ → left g ∉ es₁ → left g ∈ es₂

/-- The events so far, the clock and the open guards belong together. -/
structure Tracked (es : List GraceEvent) (clock : Nat) (isOpen : Nat → Prop) : Prop where
  entered_lt : ∀ g, entered g ∈ es → g < clock
  live : ∀ g, entered g ∈ es → left g ∉ es → isOpen g
  order : ∀ es₁ es₂ i, es = es₁ ++ retired i :: es₂ → ∀ g, entered g ∈ es₁ → g < i
  grace : Grace es

/-- Where the last event stands in a list that is taken apart. -/
theorem snoc_eq_append_cons {α : Type*} {xs ys zs : List α} {x y : α}
    (h : xs ++ [x] = ys ++ y :: zs) :
    (zs = [] ∧ x = y ∧ xs = ys) ∨ ∃ zs', zs = zs' ++ [x] ∧ xs = ys ++ y :: zs' := by
  rcases List.eq_nil_or_concat zs with rfl | ⟨zs', z, rfl⟩
  · obtain ⟨h₁, h₂⟩ := List.append_inj' h rfl
    injection h₂ with h₂
    exact .inl ⟨rfl, h₂, h₁⟩
  · rw [List.concat_eq_append] at h ⊢
    rw [← List.cons_append, ← List.append_assoc] at h
    obtain ⟨h₁, h₂⟩ := List.append_inj' h rfl
    injection h₂ with h₂
    exact .inr ⟨zs', by rw [h₂], h₁⟩

/-- An event that reclaims nothing breaks no promise. -/
theorem Grace.snoc {es : List GraceEvent} {ev : GraceEvent} (h : Grace es)
    (hev : ∀ i, ev ≠ reclaimed i) : Grace (es ++ [ev]) := by
  intro es₁ es₂ es₃ i hes g hin hnot
  rw [← List.cons_append, ← List.append_assoc] at hes
  rcases snoc_eq_append_cons hes with ⟨_, hi, _⟩ | ⟨es₃', _, hes'⟩
  · exact absurd hi (hev i)
  · exact h es₁ es₂ es₃' i (by rw [hes', List.append_assoc, List.cons_append]) g hin hnot

namespace Tracked

variable {es : List GraceEvent} {clock : Nat} {p q : Nat → Prop}

theorem nil (clock : Nat) (p : Nat → Prop) : Tracked [] clock p := by
  constructor
  case entered_lt => exact fun g hg => absurd hg (by simp)
  case live => exact fun g hg => absurd hg (by simp)
  case order =>
      intro es₁ es₂ i hes
      exact absurd hes (by simp)
  case grace =>
      intro es₁ es₂ es₃ i hes
      exact absurd hes (by simp)

/-- A step that nobody sees. -/
theorem silent (h : Tracked es clock p) (hpq : ∀ g, p g → q g) : Tracked (es ++ []) clock q := by
  rw [List.append_nil]
  exact ⟨h.entered_lt, fun g hg hl => hpq g (h.live g hg hl), h.order, h.grace⟩

/-- One more event. -/
theorem snoc (h : Tracked es clock p) {ev : GraceEvent} {clock' : Nat} (hle : clock ≤ clock')
    (hent : ∀ g, ev = entered g → g < clock' ∧ q g) (hpq : ∀ g, p g → ev ≠ left g → q g)
    (hret : ∀ i, ev = retired i → i = clock) (hgrace : Grace (es ++ [ev])) :
    Tracked (es ++ [ev]) clock' q := by
  constructor
  case entered_lt =>
      intro g hg
      rcases List.mem_append.mp hg with hg | hg
      · exact Nat.lt_of_lt_of_le (h.entered_lt g hg) hle
      · exact (hent g (List.mem_singleton.mp hg).symm).1
  case live =>
      intro g hg hl
      rcases List.mem_append.mp hg with hg | hg
      · refine hpq g (h.live g hg fun hin => hl (List.mem_append_left _ hin)) fun hev => hl ?_
        rw [hev]
        exact List.mem_append_right _ (List.mem_singleton_self _)
      · exact (hent g (List.mem_singleton.mp hg).symm).2
  case order =>
      intro es₁ es₂ i hes g hg
      rcases snoc_eq_append_cons hes with ⟨_, hi, hes'⟩ | ⟨es₂', _, hes'⟩
      · rw [hret i hi]
        exact h.entered_lt g (hes' ▸ hg)
      · exact h.order es₁ es₂' i hes' g hg
  case grace => exact hgrace

theorem enter (h : Tracked es clock p) (hpq : ∀ g, p g → q g) (hnew : q clock) :
    Tracked (es ++ [entered clock]) (clock + 1) q := by
  refine h.snoc (Nat.le_succ clock) ?_ (fun g hg _ => hpq g hg) (by simp) (h.grace.snoc (by simp))
  intro g hg
  injection hg with hg
  subst hg
  exact ⟨Nat.lt_succ_self _, hnew⟩

theorem leave (h : Tracked es clock p) {g₀ : Nat} (hpq : ∀ g, p g → g ≠ g₀ → q g) :
    Tracked (es ++ [left g₀]) clock q := by
  refine h.snoc (Nat.le_refl clock) (by simp) ?_ (by simp) (h.grace.snoc (by simp))
  intro g hg hne
  exact hpq g hg fun heq => hne (by rw [heq])

theorem retire (h : Tracked es clock p) (hpq : ∀ g, p g → q g) :
    Tracked (es ++ [retired clock]) (clock + 1) q := by
  refine h.snoc (Nat.le_succ clock) (by simp) (fun g hg _ => hpq g hg) ?_ (h.grace.snoc (by simp))
  intro i hi
  injection hi with hi
  exact hi.symm

/-- **Reclaiming is safe when no earlier guard is open.** -/
theorem reclaim (h : Tracked es clock p) (hpq : ∀ g, p g → q g) {i : Nat}
    (hsafe : ∀ g, p g → ¬ g < i) : Tracked (es ++ [reclaimed i]) clock q := by
  refine h.snoc (Nat.le_refl clock) (by simp) (fun g hg _ => hpq g hg) (by simp) ?_
  intro es₁ es₂ es₃ j hes g hin hnot
  rw [← List.cons_append, ← List.append_assoc] at hes
  rcases snoc_eq_append_cons hes with ⟨_, hi, hes'⟩ | ⟨es₃', _, hes'⟩
  · -- the event that has just happened: the guard is not open any more
    injection hi with hi
    subst hi
    by_contra hstill
    refine hsafe g (h.live g ?_ ?_) (h.order es₁ es₂ i hes' g hin)
    · rw [hes']
      exact List.mem_append_left _ hin
    · rw [hes', List.mem_append, List.mem_cons]
      intro hl
      rcases hl with hl | hl | hl
      · exact hnot hl
      · cases hl
      · exact hstill hl
  · exact h.grace es₁ es₂ es₃' j (by rw [hes', List.append_assoc, List.cons_append]) g hin hnot

end Tracked

end CrossMachine.Lib
