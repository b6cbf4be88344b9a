import CrossMachine.Lib.Custody
import CrossMachine.Lib.Instances
import CrossMachine.Lib.Run
import CrossMachine.Reclaim.Hazard
import Mathlib.Data.Fintype.Option

/-!
# Hazard pointers: guards

`HazardDomain::Guard` over any shared structure. A guard is a slot of its thread;
`protect` loads a pointer from a shared location, announces it and looks whether the
location still has it. The structure itself is a set of locations that anybody writes to.

The client's part of the bargain is `Contract`: a pointer is retired only after it is gone
from every location, not again before it is reclaimed, and is not put back in the
meantime. It is asked for one pointer at a time; what is done with the others does not
matter. After its reclamation the address may be used again.

The argument is about the moment `protect` finds the location unchanged: then the pointer
is linked, so it is not retired, and the slot already holds it. Whoever retires it later
comes to a slot that covers it.
-/

namespace CrossMachine.Reclaim.Guards

open Lib Hazard HazardEvent

variable {τ π ℓ : Type*}

/-- Where a thread is in `protect`, when the domain is not at work for it. -/
inductive Pc (π ℓ : Type*) where
  | idle
  /-- Before the load of `src`. -/
  | load (i : Slot) (src : ℓ)
  /-- Before the load that validates `p`. -/
  | validate (i : Slot) (src : ℓ) (p : Option π)
  deriving DecidableEq, Repr

structure Thread (π ℓ : Type*) where
  loc : Local π π
  pc : Pc π ℓ
  /-- What each guard has got from a completed `protect` and not given up since. The code
  has no such field. -/
  cover : Slot → Option π

structure State (τ π ℓ : Type*) where
  dom : Domain π π
  /-- The shared locations. -/
  src : ℓ → Option π
  thread : τ → Thread π ℓ

/-- What a client can do. -/
inductive Call (π ℓ : Type*) where
  | protect (i : Slot) (src : ℓ)
  | protectRaw (i : Slot) (p : Option π)
  | reset (i : Slot)
  /-- A write of the structure's own. -/
  | store (src : ℓ) (v : Option π)
  | retire (p : π)
  | scan
  | exit
  deriving DecidableEq, Repr

/-- A thread begins something, or goes on. -/
inductive Action (τ π ℓ : Type*) where
  | call (t : τ) (c : Call π ℓ)
  | run (t : τ) (weak : Bool)
  deriving DecidableEq, Repr

/-- Announce `p` in slot `i`. -/
def Thread.setSlot (th : Thread π ℓ) (i : Slot) (p : Option π) (pc : Pc π ℓ) : Thread π ℓ :=
  { loc := th.loc.setSlot i p, pc := pc, cover := Function.update th.cover i none }

/-- No thread has used the domain yet; the structure is whatever it is. -/
def init (src : ℓ → Option π) : State τ π ℓ :=
  { dom := { reg := ⟨[], 0⟩, retire := [] }
    src := src
    thread := fun _ => { loc := ⟨none, .idle⟩, pc := .idle, cover := fun _ => none } }

/-- The places a retired pointer can be in: the domain's list, or the hands of a thread,
where it is also while it is being retired. -/
def custody (s : State τ π ℓ) : Option τ → List π
  | none => s.dom.retire
  | some t => (s.thread t).loc.op.carried

/-- The domain's list, and the lists of the running scans. -/
def lists (s : State τ π ℓ) : Option τ → List π
  | none => s.dom.retire
  | some t => (s.thread t).loc.op.held

/-- `x` is retired and not yet reclaimed. -/
def Retired (s : State τ π ℓ) (x : π) : Prop := ∃ k, x ∈ custody s k

/-- `x` is retired after it has been unlinked from every location, not again before it is
reclaimed, and not linked in between. -/
def Contract (x : π) (s : State τ π ℓ) : Action τ π ℓ → Prop
  | .call _ (.store _ v) => v = some x → ¬ Retired s x
  | .call _ (.retire p) => p = x → (∀ src, s.src src ≠ some x) ∧ ¬ Retired s x
  | _ => True

/-- The first step of a call. -/
def begin [DecidableEq τ] [DecidableEq ℓ] (s : State τ π ℓ) (t : τ) :
    Call π ℓ → Option (State τ π ℓ)
  | .protect i src =>
      some { s with thread := Function.update s.thread t { s.thread t with pc := .load i src } }
  | .protectRaw i p =>
      some { s with thread := Function.update s.thread t ((s.thread t).setSlot i p .idle) }
  | .reset i =>
      some { s with thread := Function.update s.thread t ((s.thread t).setSlot i none .idle) }
  | .store src v => some { s with src := Function.update s.src src v }
  | .retire p =>
      let th := { s.thread t with loc := (s.thread t).loc.retire p }
      some { s with thread := Function.update s.thread t th }
  | .scan =>
      let th := { s.thread t with loc := (s.thread t).loc.scan }
      some { s with thread := Function.update s.thread t th }
  | .exit =>
      -- a guard is gone before its thread is
      if ∀ i, (s.thread t).cover i = none then
        let (D, l) := exit s.dom (s.thread t).loc
        some { s with dom := D, thread := Function.update s.thread t { s.thread t with loc := l } }
      else none

/-- One step of a thread inside `protect`, when the domain is not at work for it. -/
def go [DecidableEq τ] [DecidableEq π] (s : State τ π ℓ) (t : τ) : Option (State τ π ℓ) :=
  match (s.thread t).pc with
  | .idle => none
  | .load i src =>
      let p := s.src src
      some { s with
        thread := Function.update s.thread t ((s.thread t).setSlot i p (.validate i src p)) }
  | .validate i src p =>
      let th :=
        if s.src src = p then
          { s.thread t with pc := .idle, cover := Function.update (s.thread t).cover i p }
        else { s.thread t with pc := .load i src }
      some { s with thread := Function.update s.thread t th }

/-- Any interleaving of the threads. -/
def step [DecidableEq τ] [DecidableEq π] [DecidableEq ℓ] (s : State τ π ℓ) :
    Action τ π ℓ → Option (State τ π ℓ × List (HazardEvent π))
  | .call t c =>
      match (s.thread t).loc.op, (s.thread t).pc with
      | .idle, .idle => (begin s t c).map fun s' => (s', [])
      | _, _ => none
  | .run t weak =>
      match (s.thread t).loc.op with
      | .idle => (go s t).map fun s' => (s', [])
      | _ => (run id s.dom (s.thread t).loc weak).map fun (D, l, ev) =>
          ({ s with dom := D, thread := Function.update s.thread t { s.thread t with loc := l } },
            ev)

/-! ## What a step can do -/

/-- What changes in a step of thread `t`. -/
inductive Steps [DecidableEq τ] [DecidableEq ℓ] (s : State τ π ℓ) (t : τ) :
    Action τ π ℓ → State τ π ℓ → List (HazardEvent π) → Prop where
  | domain {a : Action τ π ℓ} {D : Domain π π} {l : Local π π} {ev : List (HazardEvent π)}
      (hm : Moves id s.dom (s.thread t).loc D l ev) :
      Steps s t a
        { s with dom := D, thread := Function.update s.thread t { s.thread t with loc := l } } ev
  /-- Nothing that the domain could notice. -/
  | turn {a : Action τ π ℓ} {pc : Pc π ℓ} (hpc : ∀ i src p, pc ≠ .validate i src p) :
      Steps s t a
        { s with thread := Function.update s.thread t { s.thread t with pc := pc } } []
  | setSlot {a : Action τ π ℓ} {i : Slot} {p : Option π} {pc : Pc π ℓ}
      (hop : (s.thread t).loc.op = .idle)
      (hpc : ∀ j src q, pc = .validate j src q → j = i ∧ q = p) :
      Steps s t a
        { s with thread := Function.update s.thread t ((s.thread t).setSlot i p pc) } []
  | validated {a : Action τ π ℓ} {i : Slot} {src : ℓ} {p : Option π}
      (hop : (s.thread t).loc.op = .idle) (hpc : (s.thread t).pc = .validate i src p)
      (hsrc : s.src src = p) :
      Steps s t a
        { s with
          thread := Function.update s.thread t
            { s.thread t with pc := .idle, cover := Function.update (s.thread t).cover i p } } []
  | store {src : ℓ} {v : Option π} :
      Steps s t (.call t (.store src v)) { s with src := Function.update s.src src v } []
  | retire {p : π} (hop : (s.thread t).loc.op = .idle) (hpc : (s.thread t).pc = .idle) :
      Steps s t (.call t (.retire p))
        { s with
          thread := Function.update s.thread t
            { s.thread t with loc := (s.thread t).loc.retire p } } []
  | scan {a : Action τ π ℓ} (hop : (s.thread t).loc.op = .idle) (hpc : (s.thread t).pc = .idle) :
      Steps s t a
        { s with
          thread := Function.update s.thread t { s.thread t with loc := (s.thread t).loc.scan } }
        []
  | exit {a : Action τ π ℓ} (hop : (s.thread t).loc.op = .idle) (hpc : (s.thread t).pc = .idle)
      (hcover : ∀ i, (s.thread t).cover i = none) :
      Steps s t a
        { s with
          dom := (Hazard.exit s.dom (s.thread t).loc).1
          thread := Function.update s.thread t
            { s.thread t with loc := (Hazard.exit s.dom (s.thread t).loc).2 } } []

variable {s' : State τ π ℓ} {a : Action τ π ℓ} {ev : List (HazardEvent π)} {i : Slot}

theorem step_steps [DecidableEq τ] [DecidableEq π] [DecidableEq ℓ] {s : State τ π ℓ}
    (h : step s a = some (s', ev)) : ∃ t, Steps s t a s' ev := by
  cases a with
  | call t c =>
      refine ⟨t, ?_⟩
      simp only [step] at h
      split at h
      · rename_i hop hpc
        simp only [Option.map_eq_some_iff, Prod.mk.injEq] at h
        obtain ⟨s₁, hbegin, rfl, rfl⟩ := h
        cases c with
        | protect i src =>
            simp only [begin, Option.some.injEq] at hbegin
            subst hbegin
            exact .turn (by simp)
        | protectRaw i p =>
            simp only [begin, Option.some.injEq] at hbegin
            subst hbegin
            exact .setSlot hop (by simp)
        | reset i =>
            simp only [begin, Option.some.injEq] at hbegin
            subst hbegin
            exact .setSlot hop (by simp)
        | store src v =>
            simp only [begin, Option.some.injEq] at hbegin
            subst hbegin
            exact .store
        | retire p =>
            simp only [begin, Option.some.injEq] at hbegin
            subst hbegin
            exact .retire hop hpc
        | scan =>
            simp only [begin, Option.some.injEq] at hbegin
            subst hbegin
            exact .scan hop hpc
        | exit =>
            simp only [begin] at hbegin
            split at hbegin
            · rename_i hcover
              simp only [Option.some.injEq] at hbegin
              subst hbegin
              exact .exit hop hpc hcover
            · cases hbegin
      · cases h
  | run t weak =>
      refine ⟨t, ?_⟩
      simp only [step] at h
      split at h
      · rename_i hop
        simp only [Option.map_eq_some_iff, Prod.mk.injEq] at h
        obtain ⟨s₁, hgo, rfl, rfl⟩ := h
        unfold go at hgo
        split at hgo
        · cases hgo
        · rename_i i src hpc
          simp only [Option.some.injEq] at hgo
          subst hgo
          refine .setSlot hop fun j src' q h => ?_
          injection h with hj _ hq
          exact ⟨hj.symm, hq.symm⟩
        · rename_i i src p hpc
          simp only [Option.some.injEq] at hgo
          subst hgo
          split
          · rename_i hsrc
            exact .validated hop hpc hsrc
          · exact .turn (by simp)
      · simp only [Option.map_eq_some_iff, Prod.exists, Prod.mk.injEq] at h
        obtain ⟨D, l, ev', hrun, rfl, rfl⟩ := h
        exact .domain (run_moves hrun)

/-! ## The invariant -/

/-- What the guards cover, as far as `x` is concerned. -/
def watch [DecidableEq π] (x : π) (s : State τ π ℓ) (t : τ) (i : Slot) : Option π :=
  if (s.thread t).cover i = some x then some x else none

theorem watch_eq_some [DecidableEq π] {x y : π} {s : State τ π ℓ} {t : τ} :
    watch x s t i = some y ↔ (s.thread t).cover i = some x ∧ x = y := by
  unfold watch
  split
  · rename_i h
    simp [h]
  · rename_i h
    simp [h]

structure GuardInv [DecidableEq π] (x : π) (s : State τ π ℓ) : Prop where
  guarded : Guarded id s.dom (fun t => (s.thread t).loc) (watch x s)
  /-- Whoever is about to validate has announced the pointer. -/
  validating : ∀ t i src p, (s.thread t).pc = .validate i src p →
    Will s.dom (s.thread t).loc i p
  unlinked : Retired s x → ∀ src, s.src src ≠ some x
  once : Once (custody s) x

theorem inv_init [DecidableEq π] (x : π) (src : ℓ → Option π) :
    GuardInv x (init src : State τ π ℓ) := by
  have hnowhere : ∀ k, x ∉ custody (init src : State τ π ℓ) k := by
    intro k
    cases k <;> simp [custody, init, Op.carried, Op.held]
  constructor
  case guarded =>
      constructor
      · constructor
        · intro t r h
          cases h
        · intro t u r h
          cases h
      · intro t i y h
        obtain ⟨h, _⟩ := watch_eq_some.mp h
        cases h
      · intro u y h
        cases h
  case validating =>
      intro t i src p h
      cases h
  case unlinked =>
      intro h
      obtain ⟨k, hk⟩ := h
      exact absurd hk (hnowhere k)
  case once => exact Once.of_nowhere hnowhere

section Steps

variable [DecidableEq τ] {x : π} {s : State τ π ℓ} {t : τ}

variable {th' : Thread π ℓ} {dom : Domain π π}

theorem watch_congr [DecidableEq π] (hs' : s'.thread = Function.update s.thread t th')
    (hcover : th'.cover = (s.thread t).cover) : watch x s' = watch x s := by
  funext u i
  unfold watch
  by_cases hu : u = t
  · subst hu
    rw [hs', Function.update_self, hcover]
  · rw [hs', Function.update_of_ne hu]

theorem loc_congr (hs' : s'.thread = Function.update s.thread t th')
    (hloc : th'.loc = (s.thread t).loc) :
    (fun u => (s'.thread u).loc) = fun u => (s.thread u).loc := by
  funext u
  by_cases hu : u = t
  · subst hu
    rw [hs', Function.update_self, hloc]
  · rw [hs', Function.update_of_ne hu]

/-- Steps that hand nothing to or from thread `t`. -/
theorem custody_update (hret : dom.retire = s.dom.retire)
    (hth : th'.loc.op.carried = (s.thread t).loc.op.carried) :
    custody { s with dom := dom, thread := Function.update s.thread t th' } = custody s := by
  funext k
  cases k with
  | none => exact hret
  | some u =>
      by_cases hu : u = t
      · subst hu
        simp only [custody, Function.update_self, hth]
      · simp only [custody, Function.update_of_ne hu]

/-- What a step of thread `t` has to respect for the invariant to go on. -/
theorem inv_of [DecidableEq π] (hI : GuardInv x s) {src : ℓ → Option π}
    (hguarded : ∀ s' : State τ π ℓ, s' = ⟨dom, src, Function.update s.thread t th'⟩ →
      Guarded id dom (fun u => (s'.thread u).loc) (watch x s'))
    (hmine : ∀ i src p, th'.pc = .validate i src p → Will dom th'.loc i p)
    (hothers : ∀ u, u ≠ t → ∀ i, published dom (s.thread u).loc i =
      published s.dom (s.thread u).loc i)
    (hunlinked : Retired (⟨dom, src, Function.update s.thread t th'⟩ : State τ π ℓ) x →
      ∀ l, src l ≠ some x)
    (honce : Once (custody (⟨dom, src, Function.update s.thread t th'⟩ : State τ π ℓ)) x) :
    GuardInv x ⟨dom, src, Function.update s.thread t th'⟩ := by
  constructor
  case guarded => exact hguarded _ rfl
  case validating =>
      intro u i l p hpc
      by_cases hu : u = t
      · subst hu
        simp only [Function.update_self] at hpc ⊢
        exact hmine i l p hpc
      · simp only [Function.update_of_ne hu] at hpc ⊢
        exact (hI.validating u i l p hpc).other (hothers u hu i)
  case unlinked => exact hunlinked
  case once => exact honce

/-- A step of the domain. -/
theorem inv_domain [DecidableEq π] (hI : GuardInv x s) {D : Domain π π} {l : Local π π}
    (hm : Moves id s.dom (s.thread t).loc D l ev) :
    GuardInv x { s with
      dom := D, thread := Function.update s.thread t { s.thread t with loc := l } } := by
  have hcount := hm.count_carried x
  have hrest : ∀ k, k ≠ none → k ≠ some t →
      custody { s with
        dom := D, thread := Function.update s.thread t { s.thread t with loc := l } } k =
      custody s k := by
    intro k hk hkt
    cases k with
    | none => exact absurd rfl hk
    | some u =>
        have hu : u ≠ t := fun heq => hkt (by rw [heq])
        simp only [custody, Function.update_of_ne hu]
  refine inv_of hI ?_ ?_ (fun u hu i => hI.guarded.published_other hm hu i) ?_ ?_
  · intro s' hs'
    rw [watch_congr (congrArg State.thread hs') rfl]
    refine hI.guarded.run hm ?_ fun u hu => ?_
    · simp only [hs', Function.update_self]
    · simp only [hs', Function.update_of_ne hu]
  · intro i src p hpc
    exact (hI.validating t i src p hpc).run hm fun q hq => hI.guarded.exists_record t q hq
  · intro hret
    refine hI.unlinked ?_
    obtain ⟨k, hk⟩ := hret
    by_cases hold : Retired s x
    · exact hold
    · -- the domain makes no pointer up
      have hnot : ∀ k, x ∉ custody s k := fun k hk => hold ⟨k, hk⟩
      have h₁ : s.dom.retire.count x = 0 := List.count_eq_zero.mpr (hnot none)
      have h₂ : (s.thread t).loc.op.carried.count x = 0 :=
        List.count_eq_zero.mpr (hnot (some t))
      rw [h₁, h₂] at hcount
      by_cases hkn : k = none
      · have hpos := List.count_pos_iff.mpr hk
        rw [hkn] at hpos
        simp only [custody] at hpos
        omega
      · by_cases hkt : k = some t
        · have hpos := List.count_pos_iff.mpr hk
          rw [hkt] at hpos
          simp only [custody, Function.update_self] at hpos
          omega
        · rw [hrest k hkn hkt] at hk
          exact absurd hk (hnot k)
  · refine hI.once.transfer (a := none) (b := some t) (by simp) hrest ?_
    simp only [custody, Function.update_self]
    omega

/-- A step that moves no retired pointer and leaves the structure alone. -/
theorem inv_quiet [DecidableEq π] (hI : GuardInv x s) (hret : dom.retire = s.dom.retire)
    (hth : th'.loc.op.carried = (s.thread t).loc.op.carried)
    (hguarded : ∀ s' : State τ π ℓ, s' = { s with
        dom := dom, thread := Function.update s.thread t th' } →
      Guarded id dom (fun u => (s'.thread u).loc) (watch x s'))
    (hmine : ∀ i src p, th'.pc = .validate i src p → Will dom th'.loc i p)
    (hothers : ∀ u, u ≠ t → ∀ i, published dom (s.thread u).loc i =
      published s.dom (s.thread u).loc i) :
    GuardInv x { s with dom := dom, thread := Function.update s.thread t th' } := by
  have hcustody := custody_update hret hth
  refine inv_of hI hguarded hmine hothers ?_ ?_
  · intro h
    refine hI.unlinked ?_
    unfold Retired at h ⊢
    rwa [hcustody] at h
  · rw [hcustody]
    exact hI.once

/-- What thread `t` does not cover any more, nobody else covers newly. -/
theorem watch_update [DecidableEq π] (hs' : s'.thread = Function.update s.thread t th')
    (hcover : ∀ i, th'.cover i = some x → (s.thread t).cover i = some x) (u : τ) (i : Slot) (y : π)
    (h : watch x s' u i = some y) : watch x s u i = some y := by
  rw [watch_eq_some] at h ⊢
  refine ⟨?_, h.2⟩
  by_cases hu : u = t
  · subst hu
    rw [hs', Function.update_self] at h
    exact hcover i h.1
  · rw [hs', Function.update_of_ne hu] at h
    exact h.1

/-- A thread announces a pointer. -/
theorem inv_setSlot [DecidableEq π] (hI : GuardInv x s) {p : Option π} {pc : Pc π ℓ}
    (hop : (s.thread t).loc.op = .idle) (hpc : ∀ j src q, pc = .validate j src q → j = i ∧ q = p) :
    GuardInv x { s with thread := Function.update s.thread t ((s.thread t).setSlot i p pc) } := by
  refine inv_quiet hI rfl ?_ ?_ ?_ fun _ _ _ => rfl
  · rw [hop]
    unfold Thread.setSlot Local.setSlot
    cases (s.thread t).loc.record <;> rfl
  · intro s' hs'
    refine hI.guarded.setSlot (t := t) (i := i) (p := p) hop ?_ (fun u hu => ?_) ?_ ?_
    · simp only [hs', Function.update_self]
      rfl
    · simp only [hs', Function.update_of_ne hu]
    · refine watch_update (congrArg State.thread hs') fun j hj => ?_
      by_cases hij : j = i
      · subst hij
        simp [Thread.setSlot] at hj
      · simpa only [Thread.setSlot, Function.update_of_ne hij] using hj
    · simp [watch, hs', Thread.setSlot]
  · intro j src q h
    obtain ⟨rfl, rfl⟩ := hpc j src q h
    exact will_setSlot s.dom (s.thread t).loc j q

/-- **The location still has the pointer**: it is linked, so it is not retired, and the
slot covers it from now on. -/
theorem inv_validated [DecidableEq π] (hI : GuardInv x s) {src : ℓ} {p : Option π}
    (hop : (s.thread t).loc.op = .idle) (hpc : (s.thread t).pc = .validate i src p)
    (hsrc : s.src src = p) :
    GuardInv x { s with
      thread := Function.update s.thread t
        { s.thread t with pc := .idle, cover := Function.update (s.thread t).cover i p } } := by
  refine inv_quiet hI rfl rfl ?_ (by simp) fun _ _ _ => rfl
  intro s' hs'
  rw [loc_congr (congrArg State.thread hs') rfl]
  have hcover : ∀ u j, (s'.thread u).cover j = some x →
      (s.thread u).cover j = some x ∨ (u = t ∧ j = i ∧ p = some x) := by
    intro u j h
    by_cases hu : u = t
    · subst hu
      by_cases hij : j = i
      · subst hij
        simp only [hs', Function.update_self] at h
        exact .inr ⟨rfl, rfl, h⟩
      · simp only [hs', Function.update_self, Function.update_of_ne hij] at h
        exact .inl h
    · simp only [hs', Function.update_of_ne hu] at h
      exact .inl h
  by_cases hp : p = some x
  · have hnot : ¬ Retired s x := fun hret => hI.unlinked hret src (hsrc.trans hp)
    have hwill := hI.validating t i src p hpc
    have hwrites : (s.thread t).loc.op.writes i = false := by
      rw [hop]
      rfl
    rw [will_iff hwrites] at hwill
    refine hI.guarded.protect (t := t) hwrites (hwill.trans hp) (fun u hu => ?_) ?_
    · exact hnot ⟨some u, Op.mem_carried_of_judging hu⟩
    · intro u j y h
      obtain ⟨hx, rfl⟩ := watch_eq_some.mp h
      rcases hcover u j hx with h | ⟨hu, hj, _⟩
      · exact .inl (watch_eq_some.mpr ⟨h, rfl⟩)
      · exact .inr ⟨hu, hj, rfl⟩
  · -- nothing changes for `x`
    have hwatch : ∀ u j y, watch x s' u j = some y → watch x s u j = some y := by
      intro u j y h
      obtain ⟨hx, rfl⟩ := watch_eq_some.mp h
      rcases hcover u j hx with h | ⟨_, _, h⟩
      · exact watch_eq_some.mpr ⟨h, rfl⟩
      · exact absurd h hp
    refine hI.guarded.ask (t := t) rfl (fun _ _ => rfl) rfl ?_ hwatch fun j y h => ?_
    · rw [hop]
      rfl
    · rw [hop]
      rfl

/-- A thread begins to retire a pointer. -/
theorem inv_retire [DecidableEq π] (hI : GuardInv x s) {p : π}
    (hop : (s.thread t).loc.op = .idle) (hpc : (s.thread t).pc = .idle)
    (hcontract : p = x → (∀ src, s.src src ≠ some x) ∧ ¬ Retired s x) :
    GuardInv x { s with
      thread := Function.update s.thread t
        { s.thread t with loc := (s.thread t).loc.retire p } } := by
  have hrest : ∀ k, k ≠ some t →
      custody { s with
        thread := Function.update s.thread t
          { s.thread t with loc := (s.thread t).loc.retire p } } k = custody s k := by
    intro k hk
    cases k with
    | none => rfl
    | some u =>
        have hu : u ≠ t := fun heq => hk (by rw [heq])
        simp only [custody, Function.update_of_ne hu]
  have hmine : custody { s with
        thread := Function.update s.thread t
          { s.thread t with loc := (s.thread t).loc.retire p } } (some t) = [p] := by
    simp only [custody, Function.update_self]
    rfl
  refine inv_of hI ?_ ?_ (fun _ _ _ => rfl) ?_ ?_
  · intro s' hs'
    refine hI.guarded.ask (t := t) (l := (s.thread t).loc.retire p) ?_ (fun u hu => ?_) ?_ rfl
      ?_ ?_
    · simp only [hs', Function.update_self]
    · simp only [hs', Function.update_of_ne hu]
    · unfold Local.retire Local.owns
      rw [hop]
    · exact watch_update (congrArg State.thread hs') fun j hj => hj
    · exact fun _ _ _ => rfl
  · intro i src q h
    simp only [hpc] at h
    cases h
  · intro hret src
    by_cases hp : p = x
    · exact (hcontract hp).1 src
    · refine hI.unlinked ?_ src
      obtain ⟨k, hk⟩ := hret
      by_cases hkt : k = some t
      · rw [hkt, hmine, List.mem_singleton] at hk
        exact absurd hk.symm hp
      · exact ⟨k, hrest k hkt ▸ hk⟩
  · by_cases hp : p = x
    · have hnowhere : ∀ k, x ∉ custody s k := fun k hk => (hcontract hp).2 ⟨k, hk⟩
      refine Once.put hnowhere hrest ?_
      rw [hmine]
      exact List.count_le_length
    · refine hI.once.transfer (a := some t) (b := none) (by simp) (fun k hk _ => hrest k hk) ?_
      rw [hmine, hrest none (by simp)]
      have hzero : List.count x [p] = 0 := by
        rw [List.count_eq_zero, List.mem_singleton]
        exact fun h => hp h.symm
      omega

theorem inv_scan [DecidableEq π] (hI : GuardInv x s) (hop : (s.thread t).loc.op = .idle)
    (hpc : (s.thread t).pc = .idle) :
    GuardInv x { s with
      thread := Function.update s.thread t
        { s.thread t with loc := (s.thread t).loc.scan } } := by
  refine inv_quiet hI rfl ?_ ?_ ?_ fun _ _ _ => rfl
  · rw [hop]
    rfl
  · intro s' hs'
    rw [watch_congr (congrArg State.thread hs') rfl]
    refine hI.guarded.ask (t := t) (l := (s.thread t).loc.scan) ?_ (fun u hu => ?_) ?_ rfl
      (fun _ _ _ h => h) fun _ _ _ => rfl
    · simp only [hs', Function.update_self]
    · simp only [hs', Function.update_of_ne hu]
    · unfold Local.scan Local.owns
      rw [hop]
  · intro i src q h
    simp only [hpc] at h
    cases h

/-- A thread leaves. -/
theorem inv_exit [DecidableEq π] (hI : GuardInv x s) (hop : (s.thread t).loc.op = .idle)
    (hpc : (s.thread t).pc = .idle) (hcover : ∀ i, (s.thread t).cover i = none) :
    GuardInv x { s with
      dom := (Hazard.exit s.dom (s.thread t).loc).1
      thread := Function.update s.thread t
        { s.thread t with loc := (Hazard.exit s.dom (s.thread t).loc).2 } } := by
  have hop' : (Hazard.exit s.dom (s.thread t).loc).2.op = (s.thread t).loc.op := by
    unfold Hazard.exit
    cases (s.thread t).loc.record <;> rfl
  refine inv_quiet hI ?_ ?_ ?_ ?_ fun u _ i => published_exit s.dom _ _ i
  · unfold Hazard.exit
    cases (s.thread t).loc.record <;> rfl
  · simp only [hop']
  · intro s' hs'
    rw [watch_congr (congrArg State.thread hs') rfl]
    refine hI.guarded.exit hop ?_ ?_ fun u hu => ?_
    · intro i
      simp [watch, hcover i]
    · simp only [hs', Function.update_self]
    · simp only [hs', Function.update_of_ne hu]
  · intro i src q h
    simp only [hpc] at h
    cases h

/-- **The invariant goes on** as long as the contract is kept. -/
theorem inv_step [DecidableEq π] [DecidableEq ℓ] (hI : GuardInv x s) (hok : Contract x s a)
    (h : step s a = some (s', ev)) : GuardInv x s' := by
  obtain ⟨t, hsteps⟩ := step_steps h
  cases hsteps with
  | domain hm => exact inv_domain hI hm
  | @turn _ pc hpc =>
      refine inv_quiet hI (rfl : s.dom.retire = s.dom.retire) rfl ?_ ?_ fun _ _ _ => rfl
      · intro s' hs'
        rw [loc_congr (congrArg State.thread hs') rfl, watch_congr (congrArg State.thread hs') rfl]
        exact hI.guarded
      · exact fun i src p h => absurd h (hpc i src p)
  | setSlot hop hpc => exact inv_setSlot hI hop hpc
  | validated hop hpc hsrc => exact inv_validated hI hop hpc hsrc
  | @store src v =>
      refine ⟨hI.guarded, hI.validating, fun hret l => ?_, hI.once⟩
      by_cases hl : l = src
      · subst hl
        simp only [Function.update_self]
        exact fun hv => hok hv hret
      · simp only [Function.update_of_ne hl]
        exact hI.unlinked hret l
  | retire hop hpc => exact inv_retire hI hop hpc hok
  | scan hop hpc => exact inv_scan hI hop hpc
  | exit hop hpc hcover => exact inv_exit hI hop hpc hcover

/-! ## Bookkeeping -/

omit [DecidableEq τ] in
theorem lists_sublist (s : State τ π ℓ) (k : Option τ) : (lists s k).Sublist (custody s k) := by
  cases k with
  | none => exact List.Sublist.refl _
  | some u => exact Op.held_sublist_carried _

omit [DecidableEq τ] in
theorem once_lists [DecidableEq π] (h : Once (custody s) x) : Once (lists s) x := by
  constructor
  case count_le =>
      intro k
      exact Nat.le_trans ((lists_sublist s k).count_le x) (h.count_le k)
  case place =>
      intro k k' hk hk'
      exact h.place k k' ((lists_sublist s k).subset hk) ((lists_sublist s k').subset hk')

/-- `x` has been retired once more than it has been reclaimed exactly if it is on a list. -/
def Tally [DecidableEq π] (x : π) (es : List (HazardEvent π)) (s : State τ π ℓ) : Prop :=
  es.count (retired x) = es.count (reclaimed x) + present (lists s) x

theorem lists_update (hret : dom.retire = s.dom.retire)
    (hth : th'.loc.op.held = (s.thread t).loc.op.held) :
    lists { s with dom := dom, thread := Function.update s.thread t th' } = lists s := by
  funext k
  cases k with
  | none => exact hret
  | some u =>
      by_cases hu : u = t
      · subst hu
        simp only [lists, Function.update_self, hth]
      · simp only [lists, Function.update_of_ne hu]

theorem tally_step [DecidableEq π] [DecidableEq ℓ] {es : List (HazardEvent π)} (hI : GuardInv x s)
    (hI' : GuardInv x s') (hT : Tally x es s) (h : step s a = some (s', ev)) :
    Tally x (es ++ ev) s' := by
  obtain ⟨t, hsteps⟩ := step_steps h
  have hsame : ∀ {s' : State τ π ℓ}, lists s' = lists s → Tally x (es ++ []) s' := by
    intro s' hlists
    unfold Tally at hT ⊢
    rw [List.append_nil, hlists]
    exact hT
  cases hsteps with
  | @domain _ D l ev hm =>
      have hcount := hm.count_held x
      have hpresent := (once_lists hI.once).present_transfer (once_lists hI'.once) (a := none)
        (b := some t) (by simp) fun k hk hkt => by
          cases k with
          | none => exact absurd rfl hk
          | some u =>
              have hu : u ≠ t := fun heq => hkt (by rw [heq])
              simp only [lists, Function.update_of_ne hu]
      unfold Tally at hT ⊢
      rw [List.count_append, List.count_append, hT]
      simp only [lists, Function.update_self] at hpresent
      dsimp only
      omega
  | turn => exact hsame (lists_update rfl rfl)
  | setSlot hop =>
      refine hsame (lists_update rfl ?_)
      rw [hop]
      unfold Thread.setSlot Local.setSlot
      cases (s.thread t).loc.record <;> rfl
  | validated => exact hsame (lists_update rfl rfl)
  | store => exact hsame rfl
  | retire hop =>
      refine hsame (lists_update rfl ?_)
      rw [hop]
      rfl
  | scan hop =>
      refine hsame (lists_update rfl ?_)
      rw [hop]
      rfl
  | exit =>
      refine hsame (lists_update ?_ ?_)
      all_goals
        unfold Hazard.exit
        cases (s.thread t).loc.record <;> rfl

end Steps

/-! ## Safety -/

/-- **Hazard pointers are safe for every pointer whose contract is kept**, for any number
of threads, whatever they call and however their steps interleave: it is not reclaimed more
often than it is retired; while it is retired and not reclaimed it is on exactly one list,
the domain's or that of one running scan, and there once; and it is never reclaimed while a
guard covers it. -/
theorem hazard_safe [DecidableEq τ] [DecidableEq π] [DecidableEq ℓ] (x : π) (src : ℓ → Option π)
    {es : List (HazardEvent π)} {s : State τ π ℓ} (h : Run step (Contract x) (init src) es s) :
    es.count (reclaimed x) ≤ es.count (retired x) ∧
    (es.count (reclaimed x) < es.count (retired x) →
      ∃ k, (lists s k).count x = 1 ∧ ∀ k', k' ≠ k → x ∉ lists s k') ∧
    ∀ a s' ev, step s a = some (s', ev) → reclaimed x ∈ ev →
      ∀ t i, (s.thread t).cover i ≠ some x := by
  have hinv : GuardInv x s ∧ Tally x es s := by
    refine Run.invariant (I := fun es s => GuardInv x s ∧ Tally x es s) ?_ ?_ h
    · refine ⟨inv_init x src, ?_⟩
      unfold Tally
      rw [present_of_nowhere]
      · rfl
      · intro k
        cases k <;> simp [lists, init, Op.held]
    · intro es ev s s' a hI hok hstep
      have hI' := inv_step hI.1 hok hstep
      exact ⟨hI', tally_step hI.1 hI' hI.2 hstep⟩
  obtain ⟨hI, hT⟩ := hinv
  unfold Tally at hT
  have honce := once_lists hI.once
  refine ⟨by omega, fun hlt => ?_, fun a s' ev hstep hx t i hcover => ?_⟩
  · have hpos : 0 < present (lists s) x := by omega
    obtain ⟨k, hk⟩ := exists_of_present hpos
    refine ⟨k, honce.count_eq_one hk, fun k' hne hk' => ?_⟩
    exact hne (honce.place k' k hk' hk)
  · obtain ⟨u, hsteps⟩ := step_steps hstep
    cases hsteps with
    | domain hm =>
        refine hI.guarded.reclaimed hm hx t i ?_
        exact watch_eq_some.mpr ⟨hcover, rfl⟩
    | _ => cases hx

instance [Fintype τ] [DecidableEq τ] [DecidableEq π] (s : State τ π ℓ) (x : π) :
    Decidable (Retired s x) :=
  inferInstanceAs (Decidable (∃ k, x ∈ custody s k))

instance [Fintype τ] [Fintype ℓ] [DecidableEq τ] [DecidableEq π] (x : π) (s : State τ π ℓ)
    (a : Action τ π ℓ) : Decidable (Contract x s a) := by
  unfold Contract
  split <;> infer_instance

/-- A thread protects what another one then unlinks and retires; a scan comes by, and gives
the pointer back. -/
def protectSchedule : List (Action (Fin 2) Nat Unit) :=
  [Action.call 0 (.protect 0 ())] ++ List.replicate 7 (Action.run 0 false) ++
  [Action.call 1 (.store () none), .call 1 (.retire 7), .run 1 false, .run 1 false,
    .call 1 .scan] ++
  List.replicate 8 (Action.run 1 false)

theorem hazard_safe_two :
    ∃ (es : List (HazardEvent Nat)) (s : State (Fin 2) Nat Unit),
      Run step (Contract 7) (init fun _ => some 7) es s ∧
      ((s.thread 0).cover 0 = some 7 ∧ lists s none = [7] ∧ es = [retired 7]) ∧
      (es.count (reclaimed 7) < es.count (retired 7) →
        ∃ k, (lists s k).count 7 = 1 ∧ ∀ k', k' ≠ k → 7 ∉ lists s k') := by
  have h : Leads step (Contract 7) (init fun _ => some 7) protectSchedule fun s es =>
      (s.thread 0).cover 0 = some 7 ∧ lists s none = [7] ∧ es = [retired 7] := by
    decide +kernel
  obtain ⟨s, es, hrun, hend⟩ := h.run
  exact ⟨es, s, hrun, hend, (hazard_safe 7 _ hrun).2.1⟩

end CrossMachine.Reclaim.Guards
