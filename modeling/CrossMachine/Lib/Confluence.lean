import Mathlib.Logic.Relation

/-!
# One run decides them all

A relation has the diamond property when two different steps from one state can
each be completed by one more step to a common state. Deterministic processes that
only meet through first-in first-out channels are the case this is meant for: the
scheduler chooses who moves, and the order of two moves does not matter.

For such a relation it is enough to exhibit **one** run that ends. Every other run
then ends too, after the same number of steps and in the same state
(`settles_of_reaches`). A proof about every schedule of a system is thereby a proof
about the one schedule that is easiest to follow.
-/

namespace CrossMachine.Lib

variable {σ : Type*} {R : σ → σ → Prop}

/-- Two steps from one state lead to the same state, at once or one step later. -/
def Diamond (R : σ → σ → Prop) : Prop :=
  ∀ a b c, R a b → R a c → b = c ∨ ∃ d, R b d ∧ R c d

/-- No step is possible. -/
def Stuck (R : σ → σ → Prop) (a : σ) : Prop := ∀ b, ¬ R a b

/-- `b` is reached from `a` in exactly `n` steps. -/
inductive Steps (R : σ → σ → Prop) : Nat → σ → σ → Prop where
  | refl (a : σ) : Steps R 0 a a
  | head {n : Nat} {a b c : σ} : R a b → Steps R n b c → Steps R (n + 1) a c

/-- Every run from `a` is finite, and a run that cannot be continued is at `f`. -/
def Settles (R : σ → σ → Prop) (a f : σ) : Prop :=
  ∃ N, ∀ m s, Steps R m a s → m ≤ N ∧ (Stuck R s → s = f)

theorem Steps.trans {m n : Nat} {a b c : σ} (h : Steps R m a b) (h' : Steps R n b c) :
    Steps R (m + n) a c := by
  induction h with
  | refl => rwa [Nat.zero_add]
  | head hab _ ih =>
      rw [Nat.succ_add]
      exact .head hab (ih h')

theorem exists_steps {a b : σ} (h : Relation.ReflTransGen R a b) : ∃ n, Steps R n a b := by
  induction h using Relation.ReflTransGen.head_induction_on with
  | refl => exact ⟨0, .refl b⟩
  | head hab _ ih =>
      obtain ⟨n, hn⟩ := ih
      exact ⟨n + 1, .head hab hn⟩

theorem Steps.reaches {n : Nat} {a b : σ} (h : Steps R n a b) : Relation.ReflTransGen R a b := by
  induction h with
  | refl => exact .refl
  | head hab _ ih => exact .head hab ih

/-- Whatever step is taken first, the end is one step closer. -/
theorem Steps.residual (hR : Diamond R) {f : σ} (hf : Stuck R f) :
    ∀ {n : Nat} {a b : σ}, Steps R (n + 1) a f → R a b → Steps R n b f := by
  intro n
  induction n with
  | zero =>
      intro a b h hab
      cases h with
      | head hac hrest =>
          cases hrest
          rcases hR _ _ _ hab hac with rfl | ⟨d, _, hfd⟩
          · exact .refl _
          · exact absurd hfd (hf d)
  | succ n ih =>
      intro a b h hab
      cases h with
      | head hac hrest =>
          rcases hR _ _ _ hab hac with rfl | ⟨d, hbd, hcd⟩
          · exact hrest
          · exact .head hbd (ih hrest hcd)

/-- After `m` steps of any run, what is left of the run that ended still ends it. -/
theorem Steps.rest (hR : Diamond R) {f : σ} (hf : Stuck R f) {m : Nat} {a s : σ}
    (h : Steps R m a s) : ∀ {n : Nat}, Steps R n a f → m ≤ n ∧ Steps R (n - m) s f := by
  induction h with
  | refl a =>
      intro n hn
      exact ⟨Nat.zero_le n, hn⟩
  | head hab _ ih =>
      intro n hn
      cases n with
      | zero =>
          cases hn
          exact absurd hab (hf _)
      | succ n =>
          obtain ⟨hle, hrest⟩ := ih (Steps.residual hR hf hn hab)
          rw [Nat.add_sub_add_right]
          exact ⟨Nat.succ_le_succ hle, hrest⟩

/-- **One run that ends settles the system.** -/
theorem settles_of_reaches (hR : Diamond R) {a f : σ} (hf : Stuck R f)
    (h : Relation.ReflTransGen R a f) : Settles R a f := by
  obtain ⟨N, hN⟩ := exists_steps h
  refine ⟨N, fun m s hs => ?_⟩
  obtain ⟨hle, hrest⟩ := Steps.rest hR hf hs hN
  refine ⟨hle, fun hstuck => ?_⟩
  generalize N - m = k at hrest
  cases hrest with
  | refl => rfl
  | head hstep _ => exact absurd hstep (hstuck _)

/-- Without the diamond property: a measure that every step lowers, and one place to stop. -/
theorem settles_of_measure {P : σ → Prop} {a f : σ} (μ : σ → Nat) (ha : P a)
    (hP : ∀ s t, P s → R s t → P t) (hμ : ∀ s t, P s → R s t → μ t < μ s)
    (hstuck : ∀ s, P s → Stuck R s → s = f) : Settles R a f := by
  refine ⟨μ a, fun m s hsteps => ?_⟩
  induction hsteps with
  | refl a => exact ⟨Nat.zero_le _, hstuck a ha⟩
  | @head n a b c hab _ ih =>
      obtain ⟨hm, hend⟩ := ih (hP a b ha hab)
      have := hμ a b ha hab
      exact ⟨by omega, hend⟩

/-- A coarser system settles too, when each of its steps is made of some of the finer one, and the
finer steps are among them. -/
theorem Settles.coarsen {T : σ → σ → Prop} {a f : σ} (h : Settles R a f)
    (hT : ∀ s t, T s t → ∃ m, 0 < m ∧ Steps R m s t) (hR : ∀ s t, R s t → T s t) :
    Settles T a f := by
  obtain ⟨N, hN⟩ := h
  refine ⟨N, fun m s hs => ?_⟩
  have hfine : ∀ {m : Nat} {a s : σ}, Steps T m a s → ∃ k, m ≤ k ∧ Steps R k a s := by
    intro m a s hs
    induction hs with
    | refl a => exact ⟨0, Nat.le_refl 0, .refl a⟩
    | head hab _ ih =>
        obtain ⟨k, hk, hrest⟩ := ih
        obtain ⟨l, hl, hfirst⟩ := hT _ _ hab
        exact ⟨l + k, by omega, hfirst.trans hrest⟩
  obtain ⟨k, hk, hsteps⟩ := hfine hs
  obtain ⟨hle, hend⟩ := hN k s hsteps
  exact ⟨Nat.le_trans hk hle, fun hstuck => hend fun b hb => hstuck b (hR _ _ hb)⟩

/-- In a system that settles, a reachable state is the end or can move. -/
theorem Settles.progress {a f : σ} (h : Settles R a f) {s : σ}
    (hs : Relation.ReflTransGen R a s) : s = f ∨ ∃ s', R s s' := by
  obtain ⟨N, hN⟩ := h
  obtain ⟨m, hm⟩ := exists_steps hs
  by_cases hmove : ∃ s', R s s'
  · exact .inr hmove
  · exact .inl ((hN m s hm).2 fun s' hs' => hmove ⟨s', hs'⟩)

end CrossMachine.Lib
