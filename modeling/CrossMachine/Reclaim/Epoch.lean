import CrossMachine.Lib.Grace
import CrossMachine.Lib.Instances
import CrossMachine.Lib.Run
import CrossMachine.Reclaim.Registry
import Mathlib.Data.Fintype.Basic
import Mathlib.Logic.Function.Basic

/-!
# Epoch-based reclamation

`epoch_reclaim.h`. A thread that enters notes the global epoch in its record and sets the
record's `active` flag; an object is retired into the slot of the epoch it was retired
in, one of three. `try_advance` looks at every record, and when every active one has the
current epoch it moves the global epoch on by one and frees the slot that is now two
epochs old.

Three things stand between this and a safe scheme. `active` is also what says that a
record is taken, so a thread between two guards can lose its record to a newcomer. The
flag is not counted, so the inner of two nested guards clears it for the outer. And the
epoch is advanced in one step and the slot taken in a later one, by when the three slots
may have turned and the slot is in use again. `Careful` is a run in which none of these
happens, and there the classical argument goes through: while a guard is open the epoch
is at most one past the epoch it was entered in (`GuardOk`), so an object retired under it
is in one of two slots, and neither is the one that is freed.

Epochs are `uint64_t`, here natural numbers.
-/

namespace CrossMachine.Reclaim.Epoch

open Lib Lib.GraceEvent

variable {τ π : Type*}

/-- `kEBREpochs`. -/
def kEBREpochs : Nat := 3

/-- `RetiredPtrE`, numbered by the clock of the run, with the epoch it was retired in. -/
structure RetiredPtr (π : Type*) where
  ptr : π
  id : Nat
  epoch : Nat
  deriving DecidableEq, Repr

/-- Where a thread is. -/
inductive Pc (π : Type*) where
  | idle
  /-- `tl()` in `enter`. -/
  | claim (c : Claim)
  /-- In `enter`, before the load of `global_epoch_`. -/
  | enter
  /-- Before the store of `local_epoch`. -/
  | publish (g : Nat)
  /-- Before the store of `active`. -/
  | activate
  /-- In `do_retire`, before the load of `global_epoch_`. -/
  | retire (p : π)
  | push (e : RetiredPtr π)
  /-- In `try_advance`, before the load of `global_epoch_`. -/
  | advance
  /-- Before the load of `head_`. -/
  | head (G : Nat)
  /-- The first `k` records are still to be looked at, the last of them next. -/
  | scan (G k : Nat)
  /-- That record is active; before the load of its `local_epoch`. -/
  | check (G k : Nat)
  /-- Before the exchange of `global_epoch_`. -/
  | cas (G : Nat)
  /-- The epoch is advanced, the old slot not yet taken. -/
  | take (G : Nat)
  | free (toReclaim : List (RetiredPtr π))
  deriving DecidableEq, Repr

/-- `Guard`, with the number it was given and the global epoch it was entered in. -/
structure Guard where
  id : Nat
  epoch : Nat
  deriving DecidableEq, Repr

structure Thread (π : Type*) where
  /-- `tl().record`. -/
  record : Option Nat
  /-- The guards the thread holds. Nothing keeps them from being nested. -/
  guards : List Guard
  /-- The thread has left a guard and not entered another since. No step reads this. -/
  rested : Bool
  pc : Pc π
  deriving DecidableEq, Repr

/-- What the threads share. -/
structure Shared (π : Type*) where
  /-- The records, each with its `local_epoch`. -/
  reg : Registry Nat
  /-- `global_epoch_`. -/
  epoch : Nat
  /-- `global_retire_`. -/
  slot : Nat → List (RetiredPtr π)
  clock : Nat

/-- What a client can ask for. -/
inductive Call (π : Type*) where
  | enter
  | leave (g : Nat)
  | retire (p : π)
  | tryAdvance
  | exit
  deriving DecidableEq, Repr

def setActive (R : Registry Nat) (r : Nat) (b : Bool) : Registry Nat :=
  R.modify r fun rec => { rec with active := b }

/-- The first step of a call. -/
def call (sh : Shared π) (th : Thread π) : Call π → Option (Shared π × Thread π × List GraceEvent)
  | .enter =>
      match th.record with
      | some _ => some (sh, { th with pc := .enter }, [])
      | none => some (sh, { th with pc := .claim .start }, [])
  | .leave g =>
      -- `exit()`
      if g ∈ th.guards.map Guard.id then
        match th.record with
        | some r =>
            some ({ sh with reg := setActive sh.reg r false },
              { th with guards := th.guards.filter (·.id ≠ g), rested := true }, [left g])
        | none => none
      else none
  | .retire p => some (sh, { th with pc := .retire p }, [])
  | .tryAdvance => some (sh, { th with pc := .advance }, [])
  | .exit =>
      -- `~ThreadState`; guards are gone by then
      if th.guards = [] then
        match th.record with
        | some r =>
            some ({ sh with reg := setActive sh.reg r false },
              { th with record := none, rested := false }, [])
        | none => some (sh, th, [])
      else none

/-- One step of a thread inside a call. -/
def run (sh : Shared π) (th : Thread π) (weak : Bool) :
    Option (Shared π × Thread π × List GraceEvent) :=
  match th.pc with
  | .idle => none
  | .claim c =>
      let sh' := { sh with reg := (sh.reg.claim 0 weak c).1 }
      match (sh.reg.claim 0 weak c).2 with
      | .inl c' => some (sh', { th with pc := .claim c' }, [])
      | .inr r => some (sh', { th with record := some r, pc := .enter }, [])
  | .enter => some (sh, { th with pc := .publish sh.epoch }, [])
  | .publish g =>
      match th.record with
      | some r =>
          some ({ sh with reg := sh.reg.modify r fun rec => { rec with val := g } },
            { th with pc := .activate }, [])
      | none => none
  | .activate =>
      match th.record with
      | some r =>
          some ({ sh with reg := setActive sh.reg r true, clock := sh.clock + 1 },
            { th with guards := ⟨sh.clock, sh.epoch⟩ :: th.guards, rested := false, pc := .idle },
            [entered sh.clock])
      | none => none
  | .retire p =>
      some ({ sh with clock := sh.clock + 1 },
        { th with pc := .push ⟨p, sh.clock, sh.epoch⟩ }, [retired sh.clock])
  | .push e =>
      let i := e.epoch % kEBREpochs
      some ({ sh with slot := Function.update sh.slot i (sh.slot i ++ [e]) },
        { th with pc := .advance }, [])
  | .advance => some (sh, { th with pc := .head sh.epoch }, [])
  | .head G => some (sh, { th with pc := .scan G sh.reg.recs.length }, [])
  | .scan G 0 => some (sh, { th with pc := .cas G }, [])
  | .scan G (k + 1) =>
      match sh.reg.recs[k]? with
      | some rec =>
          some (sh, { th with pc := if rec.active then .check G k else .scan G k }, [])
      | none => none
  | .check G k =>
      match sh.reg.recs[k]? with
      | some rec => some (sh, { th with pc := if rec.val = G then .scan G k else .idle }, [])
      | none => none
  | .cas G =>
      if sh.epoch = G then some ({ sh with epoch := G + 1 }, { th with pc := .take G }, [])
      else some (sh, { th with pc := .idle }, [])
  | .take G =>
      -- `G - 1 + kEBREpochs` in `uint64_t`
      let old := (G + 2) % kEBREpochs
      some ({ sh with slot := Function.update sh.slot old [] },
        { th with pc := .free (sh.slot old) }, [])
  | .free [] => some (sh, { th with pc := .idle }, [])
  | .free (e :: l) => some (sh, { th with pc := .free l }, [reclaimed e.id])

structure State (τ π : Type*) where
  shared : Shared π
  thread : τ → Thread π

/-- A thread begins a call, or goes on with one. -/
inductive Action (τ π : Type*) where
  | call (t : τ) (c : Call π)
  | run (t : τ) (weak : Bool)
  deriving DecidableEq, Repr

/-- Who moves. -/
def Action.actor : Action τ π → τ
  | .call t _ => t
  | .run t _ => t

/-- Any interleaving of the threads. -/
def step [DecidableEq τ] (s : State τ π) : Action τ π → Option (State τ π × List GraceEvent)
  | .call t c =>
      match (s.thread t).pc with
      | .idle => (call s.shared (s.thread t) c).map fun (sh, th, ev) =>
          (⟨sh, Function.update s.thread t th⟩, ev)
      | _ => none
  | .run t weak => (run s.shared (s.thread t) weak).map fun (sh, th, ev) =>
      (⟨sh, Function.update s.thread t th⟩, ev)

/-- No thread has used the domain yet. -/
def init : State τ π :=
  { shared := { reg := ⟨[], 0⟩, epoch := 0, slot := fun _ => [], clock := 0 }
    thread := fun _ => { record := none, guards := [], rested := false, pc := .idle } }

/-- The record a thread uses, also while it is still claiming it. -/
def Thread.owns (th : Thread π) : Option Nat :=
  match th.pc with
  | .claim c => c.owned
  | _ => th.record

/-! ## What has to go right -/

/-- A thread that tries to take over a record does not find its owner between two
guards. -/
def TriesUnrested (s : State τ π) (a : Action τ π) : Prop :=
  match (s.thread a.actor).pc with
  | .claim (.seek (k + 1)) => ∀ u, (s.thread u).owns = some k → (s.thread u).rested = false
  | _ => True

/-- A slot is taken only while it is still the old one of the three. -/
def TakesOld (s : State τ π) (a : Action τ π) : Prop :=
  match (s.thread a.actor).pc with
  | .take G => s.shared.epoch % kEBREpochs = (G + 1) % kEBREpochs
  | _ => True

/-- No guard is entered inside another. -/
def Unnested (s : State τ π) : Action τ π → Prop
  | .call t .enter => (s.thread t).guards = []
  | _ => True

/-- No record is tried while its owner is between two guards, no guard is nested, and no
slot is taken late. -/
def Careful (s : State τ π) (a : Action τ π) : Prop :=
  TriesUnrested s a ∧ Unnested s a ∧ TakesOld s a

/-! ## What a step can do -/

/-- The thread is in `enter`. -/
def Pc.entering : Pc π → Bool
  | .claim _ => true
  | .enter => true
  | .publish _ => true
  | .activate => true
  | _ => false

/-- The value of `global_epoch_` the thread has read and works with. -/
def Pc.loaded : Pc π → Nat
  | .publish g => g
  | .head G => G
  | .scan G _ => G
  | .check G _ => G
  | .cas G => G
  | _ => 0

/-- A thread at this point, if it tries to advance an epoch after `v`, has yet to look at
record `r`. -/
def Pc.awaits (r v : Nat) : Pc π → Prop
  | .scan G k => G ≤ v ∨ r < k
  | .check G k => G ≤ v ∨ r ≤ k
  | .cas G => G ≤ v
  | _ => True

/-- A step of one thread. -/
inductive Moves (sh : Shared π) (th : Thread π) :
    Shared π → Thread π → List GraceEvent → Prop where
  /-- Nothing that another thread could notice. -/
  | inside {pc : Pc π} (howns : Thread.owns { th with pc := pc } = th.owns)
      (hentering : pc.entering = true → th.pc.entering = true)
      (hloaded : th.pc.loaded ≤ sh.epoch → pc.loaded ≤ sh.epoch)
      (hawaits : ∀ (r v : Nat) (rec : Record Nat), sh.reg.recs[r]? = some rec →
        rec.active = true → rec.val ≤ v → th.pc.awaits r v → pc.awaits r v)
      (hpush : ∀ e, pc ≠ .push e) (hfree : ∀ l, pc ≠ .free l) :
      Moves sh th sh { th with pc := pc } []
  | begin {pc : Pc π} (hpc : th.pc = .idle)
      (hpc' : (pc = .enter ∧ th.record ≠ none) ∨ (pc = .claim .start ∧ th.record = none)) :
      Moves sh th sh { th with pc := pc } []
  | claim {c c' : Claim} {R : Registry Nat} (hpc : th.pc = .claim c)
      (hclaims : Claims 0 sh.reg c R (.inl c')) :
      Moves sh th { sh with reg := R } { th with pc := .claim c' } []
  | claimed {c : Claim} {r : Nat} {R : Registry Nat} (hpc : th.pc = .claim c)
      (hclaims : Claims 0 sh.reg c R (.inr r)) :
      Moves sh th { sh with reg := R } { th with record := some r, pc := .enter } []
  | publish {g r : Nat} (hpc : th.pc = .publish g) (hrecord : th.record = some r) :
      Moves sh th { sh with reg := sh.reg.modify r fun rec => { rec with val := g } }
        { th with pc := .activate } []
  | activate {r : Nat} (hpc : th.pc = .activate) (hrecord : th.record = some r) :
      Moves sh th { sh with reg := setActive sh.reg r true, clock := sh.clock + 1 }
        { th with guards := ⟨sh.clock, sh.epoch⟩ :: th.guards, rested := false, pc := .idle }
        [entered sh.clock]
  | leave {g r : Nat} (hpc : th.pc = .idle) (hg : g ∈ th.guards.map Guard.id)
      (hrecord : th.record = some r) :
      Moves sh th { sh with reg := setActive sh.reg r false }
        { th with guards := th.guards.filter (·.id ≠ g), rested := true } [left g]
  | exit {r : Nat} (hpc : th.pc = .idle) (hguards : th.guards = []) (hrecord : th.record = some r) :
      Moves sh th { sh with reg := setActive sh.reg r false }
        { th with record := none, rested := false } []
  | retire {p : π} (hpc : th.pc = .retire p) :
      Moves sh th { sh with clock := sh.clock + 1 }
        { th with pc := .push ⟨p, sh.clock, sh.epoch⟩ } [retired sh.clock]
  | push {e : RetiredPtr π} (hpc : th.pc = .push e) :
      Moves sh th
        { sh with
          slot := Function.update sh.slot (e.epoch % kEBREpochs)
            (sh.slot (e.epoch % kEBREpochs) ++ [e]) }
        { th with pc := .advance } []
  | advance {G : Nat} (hpc : th.pc = .cas G) (hG : sh.epoch = G) :
      Moves sh th { sh with epoch := G + 1 } { th with pc := .take G } []
  | take {G : Nat} (hpc : th.pc = .take G) :
      Moves sh th { sh with slot := Function.update sh.slot ((G + 2) % kEBREpochs) [] }
        { th with pc := .free (sh.slot ((G + 2) % kEBREpochs)) } []
  | reclaim {e : RetiredPtr π} {l : List (RetiredPtr π)} (hpc : th.pc = .free (e :: l)) :
      Moves sh th sh { th with pc := .free l } [reclaimed e.id]

variable {sh sh' : Shared π} {th th' : Thread π} {pc : Pc π} {ev : List GraceEvent} {s' : State τ π}
  {a : Action τ π} {r : Nat} {R : Registry Nat} {g : Guard}

/-- A step inside `try_advance` and the like. -/
theorem Moves.at (howns : th.owns = th.record) (hentering : pc.entering = false)
    (hloaded : th.pc.loaded ≤ sh.epoch → pc.loaded ≤ sh.epoch)
    (hawaits : ∀ (r v : Nat) (rec : Record Nat), sh.reg.recs[r]? = some rec →
      rec.active = true → rec.val ≤ v → th.pc.awaits r v → pc.awaits r v)
    (hpush : ∀ e, pc ≠ .push e) (hfree : ∀ l, pc ≠ .free l) :
    Moves sh th sh { th with pc := pc } [] := by
  refine .inside ?_ (fun h => ?_) hloaded hawaits hpush hfree
  · rw [howns]
    unfold Thread.owns
    cases pc with
    | claim c => cases hentering
    | _ => rfl
  · rw [hentering] at h
    cases h

theorem call_moves {c : Call π} (hpc : th.pc = .idle) (h : call sh th c = some (sh', th', ev)) :
    Moves sh th sh' th' ev := by
  have howns : th.owns = th.record := by unfold Thread.owns; rw [hpc]
  cases c with
  | enter =>
      simp only [call] at h
      split at h
      · rename_i r hrecord
        cases h
        exact .begin hpc (.inl ⟨rfl, by rw [hrecord]; simp⟩)
      · rename_i hrecord
        cases h
        exact .begin hpc (.inr ⟨rfl, hrecord⟩)
  | leave g =>
      simp only [call] at h
      split at h
      · rename_i hg
        split at h
        · rename_i r hrecord
          cases h
          exact .leave hpc hg hrecord
        · cases h
      · cases h
  | retire p =>
      simp only [call, Option.some.injEq, Prod.mk.injEq] at h
      obtain ⟨rfl, rfl, rfl⟩ := h
      exact .at howns rfl (by simp [Pc.loaded]) (by simp [Pc.awaits]) (by simp) (by simp)
  | tryAdvance =>
      simp only [call, Option.some.injEq, Prod.mk.injEq] at h
      obtain ⟨rfl, rfl, rfl⟩ := h
      exact .at howns rfl (by simp [Pc.loaded]) (by simp [Pc.awaits]) (by simp) (by simp)
  | exit =>
      simp only [call] at h
      split at h
      · rename_i hguards
        split at h
        · rename_i r hrecord
          cases h
          exact .exit hpc hguards hrecord
        · cases h
          have hstay : Moves sh th sh { th with pc := .idle } [] :=
            .at howns rfl (by simp [Pc.loaded]) (by simp [Pc.awaits]) (by simp) (by simp)
          rwa [← hpc] at hstay
      · cases h

theorem run_moves {weak : Bool} (h : run sh th weak = some (sh', th', ev)) :
    Moves sh th sh' th' ev := by
  unfold run at h
  split at h
  · cases h
  · rename_i c hpc
    have hc := claim_claims 0 sh.reg weak c
    split at h
    · rename_i c' ho
      cases h
      rw [ho] at hc
      exact .claim hpc hc
    · rename_i r ho
      cases h
      rw [ho] at hc
      exact .claimed hpc hc
  · rename_i hpc
    cases h
    exact .inside (by unfold Thread.owns; rw [hpc]) (fun _ => by rw [hpc]; rfl)
      (by simp [Pc.loaded]) (by simp [Pc.awaits]) (by simp) (by simp)
  · rename_i g hpc
    split at h
    · rename_i r hrecord
      cases h
      exact .publish hpc hrecord
    · cases h
  · rename_i hpc
    split at h
    · rename_i r hrecord
      cases h
      exact .activate hpc hrecord
    · cases h
  · rename_i p hpc
    cases h
    exact .retire hpc
  · rename_i e hpc
    cases h
    exact .push hpc
  · rename_i hpc
    cases h
    exact .at (by unfold Thread.owns; rw [hpc]) rfl (by simp [Pc.loaded]) (by simp [Pc.awaits])
      (by simp) (by simp)
  · rename_i G hpc
    cases h
    refine .at (by unfold Thread.owns; rw [hpc]) rfl (by simp [Pc.loaded, hpc]) ?_ (by simp)
      (by simp)
    intro r v rec hrec _ _ _
    exact .inr (List.getElem?_eq_some_iff.mp hrec).1
  · rename_i G hpc
    cases h
    exact .at (by unfold Thread.owns; rw [hpc]) rfl (by simp [Pc.loaded, hpc])
      (by simp [Pc.awaits, hpc]) (by simp) (by simp)
  · rename_i G k hpc
    split at h
    · rename_i rec hrec
      cases h
      refine .at (by unfold Thread.owns; rw [hpc]) ?_ ?_ ?_ ?_ ?_
      · split <;> rfl
      · rw [hpc]
        split <;> exact id
      · intro r v rec' hrec' hact _ hawaits
        rw [hpc] at hawaits
        split
        · exact hawaits.imp_right Nat.le_of_lt_succ
        · -- the record that is passed over is not active
          rename_i hinactive
          refine hawaits.imp_right fun hlt => Nat.lt_of_le_of_ne (Nat.le_of_lt_succ hlt) ?_
          intro hr
          subst hr
          rw [hrec] at hrec'
          injection hrec' with heq
          subst heq
          exact hinactive hact
      all_goals
        intro x
        split <;> simp
    · cases h
  · rename_i G k hpc
    split at h
    · rename_i rec hrec
      cases h
      refine .at (by unfold Thread.owns; rw [hpc]) ?_ ?_ ?_ ?_ ?_
      · split <;> rfl
      · rw [hpc]
        split
        · exact id
        · exact fun _ => Nat.zero_le _
      · intro r v rec' hrec' _ hval hawaits
        rw [hpc] at hawaits
        split
        · rename_i hG
          rcases hawaits with hle | hle
          · exact .inl hle
          · -- the record that is passed has the epoch `G`
            rcases Nat.eq_or_lt_of_le hle with heq | hlt
            · subst heq
              rw [hrec] at hrec'
              injection hrec' with heq
              subst heq
              exact .inl (hG ▸ hval)
            · exact .inr hlt
        · trivial
      all_goals
        intro x
        split <;> simp
    · cases h
  · rename_i G hpc
    split at h
    · rename_i hG
      cases h
      exact .advance hpc hG
    · cases h
      exact .at (by unfold Thread.owns; rw [hpc]) rfl (by simp [Pc.loaded]) (by simp [Pc.awaits])
        (by simp) (by simp)
  · rename_i G hpc
    cases h
    exact .take hpc
  · rename_i hpc
    cases h
    exact .at (by unfold Thread.owns; rw [hpc]) rfl (by simp [Pc.loaded]) (by simp [Pc.awaits])
      (by simp) (by simp)
  · rename_i e l hpc
    cases h
    exact .reclaim hpc

theorem step_moves [DecidableEq τ] {s : State τ π} (h : step s a = some (s', ev)) :
    ∃ sh th, Moves s.shared (s.thread a.actor) sh th ev ∧
      s' = ⟨sh, Function.update s.thread a.actor th⟩ := by
  cases a with
  | call t c =>
      simp only [step] at h
      split at h
      · rename_i hpc
        simp only [Option.map_eq_some_iff, Prod.exists, Prod.mk.injEq] at h
        obtain ⟨sh, th, ev', hcall, rfl, rfl⟩ := h
        exact ⟨sh, th, call_moves hpc hcall, rfl⟩
      · cases h
  | run t weak =>
      simp only [step, Option.map_eq_some_iff, Prod.exists, Prod.mk.injEq] at h
      obtain ⟨sh, th, ev', hrun, rfl, rfl⟩ := h
      exact ⟨sh, th, run_moves hrun, rfl⟩

theorem call_entering {c : Call π} (hpc : th.pc = .idle) (h : call sh th c = some (sh', th', ev))
    (hpc' : th'.pc.entering = true) : c = .enter := by
  cases c with
  | enter => rfl
  | leave g =>
      simp only [call] at h
      split at h
      · split at h
        · simp only [Option.some.injEq, Prod.mk.injEq] at h
          rw [← h.2.1, hpc] at hpc'
          cases hpc'
        · cases h
      · cases h
  | retire p =>
      simp only [call, Option.some.injEq, Prod.mk.injEq] at h
      rw [← h.2.1] at hpc'
      cases hpc'
  | tryAdvance =>
      simp only [call, Option.some.injEq, Prod.mk.injEq] at h
      rw [← h.2.1] at hpc'
      cases hpc'
  | exit =>
      simp only [call] at h
      split at h
      · split at h
        all_goals
          simp only [Option.some.injEq, Prod.mk.injEq] at h
          rw [← h.2.1, hpc] at hpc'
          cases hpc'
      · cases h

/-- A thread gets into `enter` only by calling it. -/
theorem eq_enter_of_entering [DecidableEq τ] {s : State τ π} (h : step s a = some (s', ev))
    (hpc : (s.thread a.actor).pc = .idle) (hpc' : (s'.thread a.actor).pc.entering = true) :
    a = .call a.actor .enter := by
  cases a with
  | call t c =>
      simp only [Action.actor] at hpc hpc' ⊢
      simp only [step, hpc, Option.map_eq_some_iff, Prod.exists, Prod.mk.injEq] at h
      obtain ⟨sh, th, ev', hcall, rfl, _⟩ := h
      simp only [Function.update_self] at hpc'
      rw [call_entering hpc hcall hpc']
  | run t weak =>
      simp only [Action.actor] at hpc
      simp [step, run, hpc] at h

/-! ## Who owns which record -/

section Ownership

variable [DecidableEq τ] {s : State τ π} {t : τ}

/-- No two threads own one record, and a thread that is not between two guards has its
record active. -/
def Exclusive (s : State τ π) : Prop :=
  Owned s.shared.reg (fun t => (s.thread t).owns) fun t => (s.thread t).rested = false

omit [DecidableEq τ] in
theorem exclusive_init : Exclusive (init : State τ π) := by
  constructor
  · intro t r h
    cases h
  · intro t u r h
    cases h

theorem owns_update (th' : Thread π) (u : τ) :
    (Function.update s.thread t th' u).owns = if u = t then th'.owns else (s.thread u).owns := by
  by_cases hu : u = t
  · subst hu
    rw [Function.update_self, if_pos rfl]
  · rw [Function.update_of_ne hu, if_neg hu]

theorem rested_update (th' : Thread π) {u : τ} (hu : u ≠ t)
    (h : (Function.update s.thread t th' u).rested = false) : (s.thread u).rested = false := by
  rwa [Function.update_of_ne hu] at h

theorem rested_update_same (hsame : th'.rested = (s.thread t).rested) (u : τ)
    (h : (Function.update s.thread t th' u).rested = false) : (s.thread u).rested = false := by
  by_cases hu : u = t
  · subst hu
    rwa [Function.update_self, hsame] at h
  · exact rested_update th' hu h

/-- A step that changes neither who has which record nor whether it is active. -/
theorem Exclusive.keep (h : Exclusive s) (howns : th'.owns = (s.thread t).owns)
    (hrested : th'.rested = (s.thread t).rested)
    (hrecs : ∀ (r : Nat) (rec : Record Nat), s.shared.reg.recs[r]? = some rec →
      ∃ rec' : Record Nat, sh'.reg.recs[r]? = some rec' ∧ rec'.active = rec.active) :
    Exclusive ⟨sh', Function.update s.thread t th'⟩ := by
  refine h.congr (fun u => ?_) (rested_update_same hrested) hrecs
  rw [owns_update]
  split
  · rename_i hu
    rw [hu, howns]
  · rfl

/-- A step of a thread on its own record. -/
theorem Exclusive.touch (h : Exclusive s) (ht : (s.thread t).owns = some r)
    {f : Record Nat → Record Nat} (hreg : sh'.reg = s.shared.reg.modify r f)
    (hmine : th'.owns = none ∨
      th'.owns = some r ∧ ∀ rec, th'.rested = false → (f rec).active = true) :
    Exclusive ⟨sh', Function.update s.thread t th'⟩ := by
  unfold Exclusive
  rw [hreg]
  refine Owned.touch h ht (fun u hu => ?_) (fun u hu => rested_update th' hu) ?_
  · rw [owns_update, if_neg hu]
  · simpa only [Function.update_self] using hmine

theorem Exclusive.claims (h : Exclusive s) {c : Claim} {o : Claim ⊕ Nat}
    (hpc : (s.thread t).pc = .claim c) (hclaims : Claims 0 s.shared.reg c R o)
    (howns : th'.owns = o.elim Claim.owned some) (hrested : th'.rested = (s.thread t).rested)
    (htried : ∀ k, c = .seek (k + 1) → ∀ u, (s.thread u).owns = some k →
      (s.thread u).rested = false) :
    Exclusive ⟨{ s.shared with reg := R }, Function.update s.thread t th'⟩ := by
  refine Owned.claims (t := t) h hclaims ?_ (fun u => ?_) (rested_update_same hrested) htried
  · unfold Thread.owns
    rw [hpc]
  · rw [owns_update, howns]

/-- **Ownership stays exclusive** as long as no record is tried between its owner's
guards. -/
theorem exclusive_step (hE : Exclusive s) (hok : TriesUnrested s a) (h : step s a = some (s', ev)) :
    Exclusive s' := by
  obtain ⟨sh, th, hmove, rfl⟩ := step_moves h
  unfold TriesUnrested at hok
  have hrec : ∀ {pc : Pc π}, (s.thread a.actor).pc = pc → pc.entering = false →
      (s.thread a.actor).owns = (s.thread a.actor).record := by
    intro pc hpc hnot
    unfold Thread.owns
    rw [hpc]
    cases pc with
    | claim c => cases hnot
    | _ => rfl
  have hsame : ∀ (r : Nat) (rec : Record Nat), s.shared.reg.recs[r]? = some rec →
      ∃ rec' : Record Nat, s.shared.reg.recs[r]? = some rec' ∧ rec'.active = rec.active :=
    fun r rec hrec => ⟨rec, hrec, rfl⟩
  have htried : ∀ c, (s.thread a.actor).pc = .claim c → ∀ k, c = .seek (k + 1) →
      ∀ u, (s.thread u).owns = some k → (s.thread u).rested = false := by
    intro c hpc k hc
    rw [hpc, hc] at hok
    exact hok
  cases hmove with
  | inside howns => exact hE.keep howns rfl hsame
  | begin hpc hpc' =>
      refine hE.keep ?_ rfl hsame
      rw [hrec hpc rfl]
      rcases hpc' with ⟨rfl, _⟩ | ⟨rfl, hnone⟩
      · rfl
      · rw [hnone]
        rfl
  | claim hpc hclaims => exact hE.claims hpc hclaims rfl rfl (htried _ hpc)
  | claimed hpc hclaims => exact hE.claims hpc hclaims rfl rfl (htried _ hpc)
  | @publish g r hpc hrecord =>
      have howns : (s.thread a.actor).owns = some r := by
        unfold Thread.owns
        rw [hpc]
        exact hrecord
      refine hE.keep ?_ rfl fun q rec hrec => exists_getElem?_modify hrec fun _ => rfl
      rw [howns]
      exact hrecord
  | activate hpc hrecord =>
      refine hE.touch ?_ rfl (.inr ⟨hrecord, fun _ _ => rfl⟩)
      unfold Thread.owns
      rw [hpc]
      exact hrecord
  | @leave g r hpc hg hrecord =>
      refine hE.touch (hrec hpc rfl ▸ hrecord) rfl (.inr ⟨?_, fun _ h => by cases h⟩)
      unfold Thread.owns
      rw [hpc]
      exact hrecord
  | exit hpc hguards hrecord =>
      refine hE.touch (hrec hpc rfl ▸ hrecord) rfl (.inl ?_)
      unfold Thread.owns
      rw [hpc]
  | retire hpc => exact hE.keep (hrec hpc rfl).symm rfl hsame
  | push hpc => exact hE.keep (hrec hpc rfl).symm rfl hsame
  | advance hpc => exact hE.keep (hrec hpc rfl).symm rfl hsame
  | take hpc => exact hE.keep (hrec hpc rfl).symm rfl hsame
  | reclaim hpc => exact hE.keep (hrec hpc rfl).symm rfl hsame

end Ownership

/-! ## The invariant -/

/-- What holds of one thread. -/
structure ThreadOk (sh : Shared π) (th : Thread π) : Prop where
  /-- A thread that holds a guard has a record, and is not between two guards. -/
  held : ∀ g ∈ th.guards, th.rested = false ∧ ∃ r, th.record = some r
  single : ∀ g ∈ th.guards, th.guards = [g]
  entering : th.pc.entering = true → th.guards = []
  loaded : th.pc.loaded ≤ sh.epoch

/-- What an open guard is good for: the epoch does not get past the one after it was
entered, because whoever tries has yet to look at the record of the guard. -/
structure GuardOk (s : State τ π) (g : Guard) (r : Nat) : Prop where
  id_lt : g.id < s.shared.clock
  local_le : ∃ rec : Record Nat, s.shared.reg.recs[r]? = some rec ∧ rec.val ≤ g.epoch
  entered_le : g.epoch ≤ s.shared.epoch
  epoch_le : s.shared.epoch ≤ g.epoch + 1
  awaited : ∀ u, (s.thread u).pc.awaits r g.epoch

/-- An object that was retired after a guard was entered has that guard's epoch or a later
one. -/
structure EntryOk (s : State τ π) (e : RetiredPtr π) : Prop where
  id_lt : e.id < s.shared.clock
  epoch_le : e.epoch ≤ s.shared.epoch
  guarded : ∀ t, ∀ g ∈ (s.thread t).guards, g.id < e.id → g.epoch ≤ e.epoch

structure EpochInv (s : State τ π) : Prop where
  ok : ∀ t, ThreadOk s.shared (s.thread t)
  vals : ∀ (r : Nat) (rec : Record Nat), s.shared.reg.recs[r]? = some rec →
    rec.val ≤ s.shared.epoch
  guards : ∀ t, ∀ g ∈ (s.thread t).guards, ∀ r, (s.thread t).record = some r → GuardOk s g r
  slots : ∀ i, ∀ e ∈ s.shared.slot i, EntryOk s e ∧ e.epoch % kEBREpochs = i
  pushed : ∀ t e, (s.thread t).pc = .push e → EntryOk s e
  /-- No guard is older than an object that is about to be freed. -/
  freed : ∀ t l, (s.thread t).pc = .free l → ∀ e ∈ l, e.id < s.shared.clock ∧
    ∀ u, ∀ g ∈ (s.thread u).guards, ¬ g.id < e.id

theorem ThreadOk.owns_eq (h : ThreadOk sh th) (hg : g ∈ th.guards) : th.owns = th.record := by
  unfold Thread.owns
  cases hpc : th.pc with
  | claim c =>
      have hnil := h.entering (by rw [hpc]; rfl)
      rw [hnil] at hg
      cases hg
  | _ => rfl

/-- A guard's record is active. -/
theorem Exclusive.guard_active {s : State τ π} (hE : Exclusive s) (hI : EpochInv s) {t : τ}
    (hg : g ∈ (s.thread t).guards) (hr : (s.thread t).record = some r) :
    ∃ rec : Record Nat, s.shared.reg.recs[r]? = some rec ∧ rec.active = true ∧
      rec.val ≤ g.epoch := by
  have howns : (s.thread t).owns = some r := by rw [(hI.ok t).owns_eq hg, hr]
  obtain ⟨rec, hrec, hact⟩ := hE.active t r howns
  obtain ⟨rec', hrec', hle⟩ := (hI.guards t g hg r hr).local_le
  rw [hrec] at hrec'
  injection hrec' with heq
  subst heq
  exact ⟨rec, hrec, hact ((hI.ok t).held g hg).1, hle⟩

theorem inv_init : EpochInv (init : State τ π) := by
  constructor
  case ok =>
      intro t
      constructor
      · intro g h
        cases h
      · intro g h
        cases h
      · intro _
        rfl
      · exact Nat.zero_le _
  case vals =>
      intro r rec h
      simp [init] at h
  case guards =>
      intro t g h
      cases h
  case slots =>
      intro i e h
      cases h
  case pushed =>
      intro t e h
      cases h
  case freed =>
      intro t l h
      cases h

/-- Whoever works with an epoch that is not after `v` does not matter to a guard of `v`. -/
theorem Pc.awaits_of_loaded {v : Nat} (h : pc.loaded ≤ v) (r : Nat) : pc.awaits r v := by
  cases pc with
  | scan G k => exact .inl h
  | check G k => exact .inl h
  | cas G => exact h
  | _ => trivial

theorem EpochInv.guardOk {s : State τ π} (hI : EpochInv s) {t : τ} (hg : g ∈ (s.thread t).guards) :
    ∃ r, (s.thread t).record = some r ∧ GuardOk s g r := by
  obtain ⟨_, r, hr⟩ := (hI.ok t).held g hg
  exact ⟨r, hr, hI.guards t g hg r hr⟩

/-- The guard that a thread has just entered. -/
def Fresh (s : State τ π) (sh' : Shared π) (th' : Thread π) (g : Guard) : Prop :=
  g = ⟨s.shared.clock, s.shared.epoch⟩ ∧ sh'.epoch = s.shared.epoch ∧
    s.shared.clock < sh'.clock ∧ ∀ r, th'.record = some r →
      ∃ rec : Record Nat, sh'.reg.recs[r]? = some rec ∧ rec.val ≤ s.shared.epoch

/-- What a step of thread `t` has to respect for the invariant to go on. -/
theorem inv_of [DecidableEq τ] {s : State τ π} (hE : Exclusive s) (hI : EpochInv s) {t : τ}
    (hclock : s.shared.clock ≤ sh'.clock) (hepoch : s.shared.epoch ≤ sh'.epoch)
    (hbound : ∀ u, ∀ g ∈ (s.thread u).guards, sh'.epoch ≤ g.epoch + 1)
    (hvals : ∀ (r : Nat) (rec : Record Nat), sh'.reg.recs[r]? = some rec → rec.val ≤ sh'.epoch)
    (hlocal : ∀ u, ∀ g ∈ (s.thread u).guards, ∀ r, (s.thread u).record = some r →
      ∃ rec : Record Nat, sh'.reg.recs[r]? = some rec ∧ rec.val ≤ g.epoch) (hth : ThreadOk sh' th')
    (hguards : ∀ g ∈ th'.guards, Fresh s sh' th' g ∨
      g ∈ (s.thread t).guards ∧ th'.record = (s.thread t).record)
    (hawaits : ∀ (r v : Nat) (rec : Record Nat), s.shared.reg.recs[r]? = some rec →
      rec.active = true → rec.val ≤ v → (s.thread t).pc.awaits r v → th'.pc.awaits r v)
    (hslots : ∀ i, ∀ e ∈ sh'.slot i, e ∈ s.shared.slot i ∨
      (s.thread t).pc = .push e ∧ e.epoch % kEBREpochs = i)
    (hpush : ∀ e, th'.pc = .push e → e.id = s.shared.clock ∧ e.epoch = s.shared.epoch ∧
      s.shared.clock < sh'.clock)
    (hfree : ∀ l, th'.pc = .free l → ∀ e ∈ l, e.id < s.shared.clock ∧
      ∀ u, ∀ g ∈ (s.thread u).guards, ¬ g.id < e.id) :
    EpochInv ⟨sh', Function.update s.thread t th'⟩ := by
  -- a guard of the new state was there before, or has just been entered
  have hback : ∀ u, ∀ g ∈ (Function.update s.thread t th' u).guards,
      (u = t ∧ Fresh s sh' th' g) ∨ g ∈ (s.thread u).guards ∧
        (Function.update s.thread t th' u).record = (s.thread u).record := by
    intro u g hg
    by_cases hu : u = t
    · subst hu
      rw [Function.update_self] at hg ⊢
      exact (hguards g hg).imp_left fun h => ⟨rfl, h⟩
    · rw [Function.update_of_ne hu] at hg ⊢
      exact .inr ⟨hg, rfl⟩
  have hentry : ∀ e, EntryOk s e → EntryOk ⟨sh', Function.update s.thread t th'⟩ e := by
    intro e he
    refine ⟨Nat.lt_of_lt_of_le he.id_lt hclock, Nat.le_trans he.epoch_le hepoch, ?_⟩
    intro u g hg hlt
    rcases hback u g hg with ⟨_, hnew, _⟩ | ⟨hg', _⟩
    · have := he.id_lt
      rw [hnew] at hlt
      simp only at hlt
      omega
    · exact he.guarded u g hg' hlt
  constructor
  case ok =>
      intro u
      by_cases hu : u = t
      · subst hu
        simpa only [Function.update_self] using hth
      · simp only [Function.update_of_ne hu]
        have hok := hI.ok u
        exact ⟨hok.held, hok.single, hok.entering, Nat.le_trans hok.loaded hepoch⟩
  case vals => exact hvals
  case guards =>
      intro u g hg r hr
      rcases hback u g hg with ⟨rfl, rfl, heq, hlt, hrec⟩ | ⟨hg', hrecord⟩
      · -- everybody else has read an epoch that is not after the present one
        simp only [Function.update_self] at hr
        refine ⟨hlt, hrec r hr, Nat.le_of_eq heq.symm, by simp only; omega, fun v => ?_⟩
        refine Pc.awaits_of_loaded ?_ r
        by_cases hv : v = u
        · subst hv
          simp only [Function.update_self]
          exact Nat.le_trans hth.loaded (Nat.le_of_eq heq)
        · simp only [Function.update_of_ne hv]
          exact (hI.ok v).loaded
      · rw [hrecord] at hr
        have hgood := hI.guards u g hg' r hr
        refine ⟨Nat.lt_of_lt_of_le hgood.id_lt hclock, hlocal u g hg' r hr,
          Nat.le_trans hgood.entered_le hepoch, hbound u g hg', fun v => ?_⟩
        by_cases hv : v = t
        · subst hv
          simp only [Function.update_self]
          obtain ⟨rec, hrec, hact, hle⟩ := hE.guard_active hI hg' hr
          exact hawaits r g.epoch rec hrec hact hle (hgood.awaited v)
        · simp only [Function.update_of_ne hv]
          exact hgood.awaited v
  case slots =>
      intro i e he
      rcases hslots i e he with he' | ⟨hpc, hi⟩
      · obtain ⟨hok, hi⟩ := hI.slots i e he'
        exact ⟨hentry e hok, hi⟩
      · exact ⟨hentry e (hI.pushed t e hpc), hi⟩
  case pushed =>
      intro u e hpc
      by_cases hu : u = t
      · subst hu
        simp only [Function.update_self] at hpc
        obtain ⟨hid, hep, hlt⟩ := hpush e hpc
        refine ⟨by simp only; omega, by simp only; omega, fun v g hg hlt' => ?_⟩
        rcases hback v g hg with ⟨_, hnew, _⟩ | ⟨hg', _⟩
        · rw [hnew]
          exact Nat.le_of_eq hep.symm
        · obtain ⟨r, _, hgood⟩ := hI.guardOk hg'
          rw [hep]
          exact hgood.entered_le
      · simp only [Function.update_of_ne hu] at hpc
        exact hentry e (hI.pushed u e hpc)
  case freed =>
      intro u l hpc e he
      have hbefore : e.id < s.shared.clock ∧
          ∀ v, ∀ g ∈ (s.thread v).guards, ¬ g.id < e.id := by
        by_cases hu : u = t
        · subst hu
          simp only [Function.update_self] at hpc
          exact hfree l hpc e he
        · simp only [Function.update_of_ne hu] at hpc
          exact hI.freed u l hpc e he
      refine ⟨Nat.lt_of_lt_of_le hbefore.1 hclock, fun v g hg => ?_⟩
      rcases hback v g hg with ⟨_, hnew, _⟩ | ⟨hg', _⟩
      · rw [hnew]
        simp only
        omega
      · exact hbefore.2 v g hg'

section Steps

variable [DecidableEq τ] {s : State τ π} {t : τ}

/-- A step that leaves the guards, the records and the epoch as they are. -/
theorem inv_frame (hE : Exclusive s) (hI : EpochInv s) (hclock : s.shared.clock ≤ sh'.clock)
    (hepoch : sh'.epoch = s.shared.epoch) (hreg : sh'.reg = s.shared.reg)
    (hentering : pc.entering = true → (s.thread t).guards = [])
    (hloaded : pc.loaded ≤ s.shared.epoch)
    (hawaits : ∀ (r v : Nat) (rec : Record Nat), s.shared.reg.recs[r]? = some rec →
      rec.active = true → rec.val ≤ v → (s.thread t).pc.awaits r v → pc.awaits r v)
    (hslots : ∀ i, ∀ e ∈ sh'.slot i, e ∈ s.shared.slot i ∨
      (s.thread t).pc = .push e ∧ e.epoch % kEBREpochs = i)
    (hpush : ∀ e, pc = .push e → e.id = s.shared.clock ∧ e.epoch = s.shared.epoch ∧
      s.shared.clock < sh'.clock) (hfree : ∀ l, pc = .free l → ∀ e ∈ l, e.id < s.shared.clock ∧
      ∀ u, ∀ g ∈ (s.thread u).guards, ¬ g.id < e.id) :
    EpochInv ⟨sh', Function.update s.thread t { s.thread t with pc := pc }⟩ := by
  have hok := hI.ok t
  refine inv_of hE hI hclock (Nat.le_of_eq hepoch.symm) ?_ ?_ ?_ ?_ ?_ hawaits hslots hpush hfree
  · intro u g hg
    obtain ⟨r, _, hgood⟩ := hI.guardOk hg
    rw [hepoch]
    exact hgood.epoch_le
  · rw [hreg, hepoch]
    exact hI.vals
  · intro u g hg r hr
    rw [hreg]
    exact (hI.guards u g hg r hr).local_le
  · exact ⟨hok.held, hok.single, hentering, hepoch ▸ hloaded⟩
  · exact fun g hg => .inr ⟨hg, rfl⟩

/-- A step of a thread without guards on its record, or on one that nobody has. -/
theorem inv_record (hE : Exclusive s) (hI : EpochInv s) (hnil : (s.thread t).guards = [])
    (hnil' : th'.guards = []) (hloaded : th'.pc.loaded ≤ s.shared.epoch)
    (hawaits : ∀ r v, th'.pc.awaits r v)
    (hvals : ∀ (r : Nat) (rec : Record Nat), R.recs[r]? = some rec → rec.val ≤ s.shared.epoch)
    (hothers : ∀ u, u ≠ t → ∀ (r : Nat) (rec : Record Nat), (s.thread u).owns = some r →
      s.shared.reg.recs[r]? = some rec → ∃ rec' : Record Nat, R.recs[r]? = some rec' ∧
        rec'.val = rec.val) (hpush : ∀ e, th'.pc ≠ .push e) (hfree : ∀ l, th'.pc ≠ .free l) :
    EpochInv ⟨{ s.shared with reg := R }, Function.update s.thread t th'⟩ := by
  refine inv_of hE hI (Nat.le_refl _) (Nat.le_refl _) ?_ hvals ?_ ?_ ?_
    (fun r v _ _ _ _ _ => hawaits r v) (fun i e he => .inl he)
    (fun e h => absurd h (hpush e)) fun l h => absurd h (hfree l)
  · intro u g hg
    obtain ⟨r, _, hgood⟩ := hI.guardOk hg
    exact hgood.epoch_le
  · intro u g hg r hr
    obtain ⟨rec, hrec, hle⟩ := (hI.guards u g hg r hr).local_le
    by_cases hu : u = t
    · rw [hu, hnil] at hg
      cases hg
    · obtain ⟨rec', hrec', heq⟩ := hothers u hu r rec (by rw [(hI.ok u).owns_eq hg, hr]) hrec
      exact ⟨rec', hrec', heq ▸ hle⟩
  · constructor
    · intro g hg
      rw [hnil'] at hg
      cases hg
    · intro g hg
      rw [hnil'] at hg
      cases hg
    · exact fun _ => hnil'
    · exact hloaded
  · intro g hg
    rw [hnil'] at hg
    cases hg

theorem inv_claims (hE : Exclusive s) (hI : EpochInv s) {c : Claim} {o : Claim ⊕ Nat}
    (hpc : (s.thread t).pc = .claim c) (hclaims : Claims 0 s.shared.reg c R o)
    (hguards : th'.guards = (s.thread t).guards)
    (hpc' : th'.pc = .enter ∨ ∃ c', th'.pc = .claim c') :
    EpochInv ⟨{ s.shared with reg := R }, Function.update s.thread t th'⟩ := by
  have hnil : (s.thread t).guards = [] := (hI.ok t).entering (by rw [hpc]; rfl)
  have hpc'' : th'.pc.loaded = 0 ∧ (∀ r v, th'.pc.awaits r v) ∧ (∀ e, th'.pc ≠ .push e) ∧
      ∀ l, th'.pc ≠ .free l := by
    rcases hpc' with h | ⟨c', h⟩ <;> rw [h] <;> simp [Pc.loaded, Pc.awaits]
  refine inv_record hE hI hnil (hguards.trans hnil) (by rw [hpc''.1]; exact Nat.zero_le _)
    hpc''.2.1 ?_ (fun u _ r rec _ hrec => claims_keep hclaims hrec) hpc''.2.2.1 hpc''.2.2.2
  intro r rec' hrec'
  rcases claims_val hclaims hrec' with ⟨rec, hrec, hval, _⟩ | ⟨_, heq⟩
  · rw [← hval]
    exact hI.vals r rec hrec
  · rw [heq]
    exact Nat.zero_le _

theorem inv_publish (hE : Exclusive s) (hI : EpochInv s) {g : Nat}
    (hpc : (s.thread t).pc = .publish g) (hrecord : (s.thread t).record = some r) :
    EpochInv ⟨{ s.shared with reg := s.shared.reg.modify r fun rec => { rec with val := g } },
      Function.update s.thread t { s.thread t with pc := .activate }⟩ := by
  have hnil : (s.thread t).guards = [] := (hI.ok t).entering (by rw [hpc]; rfl)
  have howns : (s.thread t).owns = some r := by
    unfold Thread.owns
    rw [hpc]
    exact hrecord
  refine inv_record hE hI hnil hnil (Nat.zero_le _) (fun _ _ => trivial) ?_ ?_ (by simp) (by simp)
  · intro q rec' hrec'
    rcases getElem?_of_modify hrec' with ⟨_, rec, hrec, heq⟩ | ⟨_, hrec⟩
    · have hloaded := (hI.ok t).loaded
      rw [hpc] at hloaded
      rw [heq]
      exact hloaded
    · exact hI.vals q rec' hrec
  · -- nobody else has the record
    intro u hu q rec hq hrec
    have hne : r ≠ q := by
      intro heq
      subst heq
      exact hu (hE.unique u t r hq howns)
    exact ⟨rec, by rw [getElem?_modify_ne _ hne, hrec], rfl⟩

theorem setActive_val {q : Nat} {b : Bool} {rec' : Record Nat}
    (h : (setActive R r b).recs[q]? = some rec') :
    ∃ rec : Record Nat, R.recs[q]? = some rec ∧ rec.val = rec'.val := by
  rcases getElem?_of_modify h with ⟨_, rec, hrec, heq⟩ | ⟨_, hrec⟩
  · exact ⟨rec, hrec, by rw [heq]⟩
  · exact ⟨rec', hrec, rfl⟩

theorem setActive_keep {q : Nat} (b : Bool) {rec : Record Nat} (h : R.recs[q]? = some rec) :
    ∃ rec' : Record Nat, (setActive R r b).recs[q]? = some rec' ∧ rec'.val = rec.val := by
  by_cases hq : r = q
  · subst hq
    exact ⟨_, getElem?_modify_self h _, rfl⟩
  · exact ⟨rec, by rw [setActive, getElem?_modify_ne R hq, h], rfl⟩

/-- A step that changes nothing but a flag and the guards of the thread. -/
theorem inv_flag (hE : Exclusive s) (hI : EpochInv s) {clock : Nat} {b : Bool}
    (hclock : s.shared.clock ≤ clock) (hpc : th'.pc = .idle)
    (hheld : ∀ g ∈ th'.guards, th'.rested = false ∧ ∃ r, th'.record = some r)
    (hsingle : ∀ g ∈ th'.guards, th'.guards = [g])
    (hguards : ∀ g ∈ th'.guards, g = ⟨s.shared.clock, s.shared.epoch⟩ ∧ s.shared.clock < clock ∧
      th'.record = some r ∧ (s.thread t).owns = some r) :
    EpochInv ⟨{ s.shared with reg := setActive s.shared.reg r b, clock := clock },
      Function.update s.thread t th'⟩ := by
  have hvals : ∀ (q : Nat) (rec : Record Nat), (setActive s.shared.reg r b).recs[q]? = some rec →
      rec.val ≤ s.shared.epoch := by
    intro q rec' hrec'
    obtain ⟨rec, hrec, heq⟩ := setActive_val hrec'
    rw [← heq]
    exact hI.vals q rec hrec
  refine inv_of hE hI hclock (Nat.le_refl _) ?_ hvals ?_ ?_ ?_ ?_ (fun i e he => .inl he) ?_ ?_
  · intro u g hg
    obtain ⟨r, _, hgood⟩ := hI.guardOk hg
    exact hgood.epoch_le
  · intro u g hg q hq
    obtain ⟨rec, hrec, hle⟩ := (hI.guards u g hg q hq).local_le
    obtain ⟨rec', hrec', heq⟩ := setActive_keep (r := r) b hrec
    exact ⟨rec', hrec', heq ▸ hle⟩
  · exact ⟨hheld, hsingle, by rw [hpc]; simp [Pc.entering], by rw [hpc]; exact Nat.zero_le _⟩
  · intro g hg
    obtain ⟨hnew, hlt, hrecord, howns⟩ := hguards g hg
    refine .inl ⟨hnew, rfl, hlt, fun q hq => ?_⟩
    rw [hrecord] at hq
    injection hq with hq
    subst hq
    obtain ⟨rec, hrec, _⟩ := hE.active t r howns
    obtain ⟨rec', hrec', _⟩ := setActive_keep (r := r) b hrec
    exact ⟨rec', hrec', hvals r rec' hrec'⟩
  · exact fun _ _ _ _ _ _ _ => by rw [hpc]; trivial
  · exact fun e h => by rw [hpc] at h; cases h
  · exact fun l h => by rw [hpc] at h; cases h

variable {G : Nat}

/-- The epoch is advanced only when every open guard was entered in it. -/
theorem inv_advance (hE : Exclusive s) (hI : EpochInv s) (hpc : (s.thread t).pc = .cas G)
    (hG : s.shared.epoch = G) :
    EpochInv ⟨{ s.shared with epoch := G + 1 },
      Function.update s.thread t { s.thread t with pc := .take G }⟩ := by
  have hok := hI.ok t
  refine inv_of hE hI (Nat.le_refl _) (by simp only; omega) ?_ ?_ ?_ ?_ ?_ ?_
    (fun i e he => .inl he) (by simp) (by simp)
  · intro u g hg
    obtain ⟨r, _, hgood⟩ := hI.guardOk hg
    have hawaits := hgood.awaited t
    rw [hpc] at hawaits
    exact Nat.succ_le_succ hawaits
  · intro r rec hrec
    exact Nat.le_trans (hI.vals r rec hrec) (by simp only; omega)
  · intro u g hg r hr
    exact (hI.guards u g hg r hr).local_le
  · exact ⟨hok.held, hok.single, by simp [Pc.entering], Nat.zero_le _⟩
  · exact fun g hg => .inr ⟨hg, rfl⟩
  · exact fun _ _ _ _ _ _ _ => trivial

omit [DecidableEq τ] in
/-- **The old slot holds nothing that an open guard protects.** -/
theorem old_slot_free (hI : EpochInv s) (hold : s.shared.epoch % kEBREpochs = (G + 1) % kEBREpochs)
    {e : RetiredPtr π} (he : e ∈ s.shared.slot ((G + 2) % kEBREpochs)) (u : τ)
    (hg : g ∈ (s.thread u).guards) : ¬ g.id < e.id := by
  intro hlt
  obtain ⟨hentry, hslot⟩ := hI.slots _ e he
  obtain ⟨r, _, hgood⟩ := hI.guardOk hg
  have h₁ : g.epoch ≤ e.epoch := hentry.guarded u g hg hlt
  have h₂ : e.epoch ≤ s.shared.epoch := hentry.epoch_le
  have h₃ : s.shared.epoch ≤ g.epoch + 1 := hgood.epoch_le
  -- the object is of this epoch or the one before, and those have the other two slots
  unfold kEBREpochs at hold hslot
  omega

theorem inv_take (hE : Exclusive s) (hI : EpochInv s)
    (hold : s.shared.epoch % kEBREpochs = (G + 1) % kEBREpochs) :
    EpochInv ⟨{ s.shared with slot := Function.update s.shared.slot ((G + 2) % kEBREpochs) [] },
      Function.update s.thread t
        { s.thread t with pc := .free (s.shared.slot ((G + 2) % kEBREpochs)) }⟩ := by
  refine inv_frame hE hI (Nat.le_refl _) rfl rfl (by simp [Pc.entering]) (Nat.zero_le _)
    (fun _ _ _ _ _ _ _ => trivial) ?_ (by simp) ?_
  · intro i e he
    by_cases hi : i = (G + 2) % kEBREpochs
    · simp only [hi, Function.update_self] at he
      cases he
    · simp only [Function.update_of_ne hi] at he
      exact .inl he
  · intro l h e he
    injection h with h
    subst h
    exact ⟨(hI.slots _ e he).1.id_lt, fun u g hg => old_slot_free hI hold he u hg⟩

theorem inv_push (hE : Exclusive s) (hI : EpochInv s) {e : RetiredPtr π}
    (hpc : (s.thread t).pc = .push e) :
    EpochInv ⟨{ s.shared with
        slot := Function.update s.shared.slot (e.epoch % kEBREpochs)
          (s.shared.slot (e.epoch % kEBREpochs) ++ [e]) },
      Function.update s.thread t { s.thread t with pc := .advance }⟩ := by
  refine inv_frame hE hI (Nat.le_refl _) rfl rfl (by simp [Pc.entering]) (Nat.zero_le _)
    (fun _ _ _ _ _ _ _ => trivial) ?_ (by simp) (by simp)
  intro i e' he'
  by_cases hi : i = e.epoch % kEBREpochs
  · simp only [hi, Function.update_self] at he' ⊢
    rcases List.mem_append.mp he' with he' | he'
    · exact .inl he'
    · rw [List.mem_singleton.mp he']
      exact .inr ⟨hpc, rfl⟩
  · simp only [Function.update_of_ne hi] at he'
    exact .inl he'

/-- **The invariant goes on** in a careful run. -/
theorem inv_step (hE : Exclusive s) (hI : EpochInv s) (hok : Careful s a)
    (h : step s a = some (s', ev)) : EpochInv s' := by
  obtain ⟨sh, th, hmove, rfl⟩ := step_moves h
  obtain ⟨_, hunnested, htakes⟩ := hok
  cases hmove with
  | inside _ hentering hloaded hawaits hpush hfree =>
      refine inv_frame hE hI (Nat.le_refl _) rfl rfl (fun h => (hI.ok _).entering (hentering h))
        (hloaded (hI.ok _).loaded) hawaits (fun i e he => .inl he)
        (fun e h => absurd h (hpush e)) fun l h => absurd h (hfree l)
  | @begin pc hpc hpc' =>
      have hentering : pc.entering = true ∧ pc.loaded = 0 ∧ (∀ r v, pc.awaits r v) ∧
          (∀ e, pc ≠ .push e) ∧ ∀ l, pc ≠ .free l := by
        rcases hpc' with ⟨rfl, _⟩ | ⟨rfl, _⟩ <;> simp [Pc.entering, Pc.loaded, Pc.awaits]
      obtain ⟨hin, hloaded, hawaits, hpush, hfree⟩ := hentering
      have ha : a = .call a.actor .enter := by
        refine eq_enter_of_entering h hpc ?_
        simpa only [Function.update_self] using hin
      rw [ha] at hunnested
      exact inv_frame hE hI (Nat.le_refl _) rfl rfl (fun _ => hunnested)
        (by rw [hloaded]; exact Nat.zero_le _) (fun r v _ _ _ _ _ => hawaits r v)
        (fun i e he => .inl he) (fun e h => absurd h (hpush e)) fun l h => absurd h (hfree l)
  | claim hpc hclaims => exact inv_claims hE hI hpc hclaims rfl (.inr ⟨_, rfl⟩)
  | claimed hpc hclaims => exact inv_claims hE hI hpc hclaims rfl (.inl rfl)
  | publish hpc hrecord => exact inv_publish hE hI hpc hrecord
  | @activate r hpc hrecord =>
      have hnil : (s.thread a.actor).guards = [] := (hI.ok _).entering (by rw [hpc]; rfl)
      refine inv_flag hE hI (Nat.le_succ _) rfl (fun g hg => ⟨rfl, r, hrecord⟩) ?_ ?_
      · intro g hg
        simp only [hnil] at hg ⊢
        rw [List.mem_singleton.mp hg]
      · intro g hg
        simp only [hnil] at hg
        refine ⟨List.mem_singleton.mp hg, Nat.lt_succ_self _, hrecord, ?_⟩
        unfold Thread.owns
        rw [hpc]
        exact hrecord
  | @leave g r hpc hg hrecord =>
      have hnil : (s.thread a.actor).guards.filter (·.id ≠ g) = [] := by
        obtain ⟨g', hg', rfl⟩ := List.mem_map.mp hg
        rw [(hI.ok _).single g' hg']
        simp
      refine inv_flag hE hI (Nat.le_refl _) hpc ?_ ?_ ?_ <;>
      · intro g' hg'
        simp only [hnil] at hg'
        cases hg'
  | exit hpc hguards hrecord =>
      refine inv_flag hE hI (Nat.le_refl _) hpc ?_ ?_ ?_ <;>
      · intro g' hg'
        simp only [hguards] at hg'
        cases hg'
  | retire hpc =>
      refine inv_frame hE hI (Nat.le_succ _) rfl rfl (by simp [Pc.entering]) (Nat.zero_le _)
        (fun _ _ _ _ _ _ _ => trivial) (fun i e he => .inl he) ?_ (by simp)
      intro e h
      injection h with h
      subst h
      exact ⟨rfl, rfl, Nat.lt_succ_self _⟩
  | push hpc => exact inv_push hE hI hpc
  | advance hpc hG => exact inv_advance hE hI hpc hG
  | @take G hpc =>
      unfold TakesOld at htakes
      rw [hpc] at htakes
      exact inv_take hE hI htakes
  | reclaim hpc =>
      refine inv_frame hE hI (Nat.le_refl _) rfl rfl (by simp [Pc.entering]) (Nat.zero_le _)
        (fun _ _ _ _ _ _ _ => trivial) (fun i e he => .inl he) (by simp) ?_
      intro l h e he
      injection h with h
      exact hI.freed _ _ hpc e (List.mem_cons_of_mem _ (h ▸ he))

/-! ## Safety -/

/-- A guard is held by some thread. -/
def Open (s : State τ π) (i : Nat) : Prop := ∃ u, ∃ g ∈ (s.thread u).guards, g.id = i

theorem tracked_step {es : List GraceEvent} (hI : EpochInv s)
    (hT : Tracked es s.shared.clock (Open s)) (h : step s a = some (s', ev)) :
    Tracked (es ++ ev) s'.shared.clock (Open s') := by
  obtain ⟨sh, th, hmove, rfl⟩ := step_moves h
  generalize a.actor = t at hmove
  -- a guard that its thread keeps stays open
  have hkeep : ∀ (th' : Thread π) (i : Nat),
      (∀ g ∈ (s.thread t).guards, g.id = i → g ∈ th'.guards) →
      Open s i → ∃ u, ∃ g ∈ (Function.update s.thread t th' u).guards, g.id = i := by
    intro th' i hsame hopen
    obtain ⟨u, g, hg, hi⟩ := hopen
    by_cases hut : u = t
    · subst hut
      exact ⟨u, g, by rw [Function.update_self]; exact hsame g hg hi, hi⟩
    · exact ⟨u, g, by rw [Function.update_of_ne hut]; exact hg, hi⟩
  cases hmove with
  | inside => exact hT.silent fun i => hkeep _ i fun _ hg _ => hg
  | begin => exact hT.silent fun i => hkeep _ i fun _ hg _ => hg
  | claim => exact hT.silent fun i => hkeep _ i fun _ hg _ => hg
  | claimed => exact hT.silent fun i => hkeep _ i fun _ hg _ => hg
  | publish => exact hT.silent fun i => hkeep _ i fun _ hg _ => hg
  | activate =>
      refine hT.enter (fun i => hkeep _ i fun _ hg _ => List.mem_cons_of_mem _ hg) ?_
      refine ⟨t, ⟨s.shared.clock, s.shared.epoch⟩, ?_, rfl⟩
      simp only [Function.update_self]
      exact List.mem_cons_self ..
  | @leave i r hpc hi hrecord =>
      refine hT.leave fun j hopen hne => hkeep _ j (fun g hg hj => ?_) hopen
      simp only [List.mem_filter, decide_eq_true_eq]
      exact ⟨hg, by rw [hj]; exact hne⟩
  | exit => exact hT.silent fun i => hkeep _ i fun _ hg _ => hg
  | retire => exact hT.retire fun i => hkeep _ i fun _ hg _ => hg
  | push => exact hT.silent fun i => hkeep _ i fun _ hg _ => hg
  | advance => exact hT.silent fun i => hkeep _ i fun _ hg _ => hg
  | take => exact hT.silent fun i => hkeep _ i fun _ hg _ => hg
  | @reclaim e l hpc =>
      refine hT.reclaim (fun i => hkeep { s.thread t with pc := .free l } i fun _ hg _ => hg)
        fun i hopen => ?_
      obtain ⟨u, g, hg, hi⟩ := hopen
      rw [← hi]
      exact (hI.freed t _ hpc _ (List.mem_cons_self ..)).2 u g hg

end Steps

/-- **No two threads use one record**, in every run in which no thread's first use tries a
record whose owner is between two guards. -/
theorem record_exclusive [DecidableEq τ] {es : List GraceEvent} {s : State τ π}
    (h : Run step TriesUnrested init es s) {t u : τ} {r : Nat}
    (ht : (s.thread t).owns = some r) (hu : (s.thread u).owns = some r) : t = u := by
  have hE : Exclusive s := by
    refine Run.invariant (I := fun _ s => Exclusive s) ?_ ?_ h
    · exact exclusive_init
    · intro es ev s s' a hE hok hstep
      exact exclusive_step hE hok hstep
  exact hE.unique t u r ht hu

/-- **Reclamation is safe in every careful run**: for any number of threads, whatever they
call and however their steps interleave, an object is reclaimed only after every guard
that was open when it was retired has been left. -/
theorem retired_outlives_guards [DecidableEq τ] {es : List GraceEvent} {s : State τ π}
    (h : Run step Careful init es s) : Grace es := by
  have hinv : (Exclusive s ∧ EpochInv s) ∧ Tracked es s.shared.clock (Open s) := by
    refine Run.invariant
      (I := fun es s => (Exclusive s ∧ EpochInv s) ∧ Tracked es s.shared.clock (Open s)) ?_ ?_ h
    · exact ⟨⟨exclusive_init, inv_init⟩, Tracked.nil _ _⟩
    · intro es ev s s' a hI hok hstep
      exact ⟨⟨exclusive_step hI.1.1 hok.1 hstep, inv_step hI.1.1 hI.1.2 hok hstep⟩,
        tracked_step hI.1.2 hI.2 hstep⟩
  exact hinv.2.grace

instance [Fintype τ] (s : State τ π) (a : Action τ π) : Decidable (TriesUnrested s a) := by
  unfold TriesUnrested
  split <;> infer_instance

instance (s : State τ π) (a : Action τ π) : Decidable (TakesOld s a) := by
  unfold TakesOld
  split <;> infer_instance

instance (s : State τ π) (a : Action τ π) : Decidable (Unnested s a) := by
  unfold Unnested
  split <;> infer_instance

instance [Fintype τ] (s : State τ π) (a : Action τ π) : Decidable (Careful s a) :=
  inferInstanceAs (Decidable (_ ∧ _ ∧ _))

/-- `enter` on a domain that the thread has not used, with `n` records to try. -/
def entry (t : Fin 3) (n : Nat) : List (Action (Fin 3) Nat) :=
  .call t .enter :: List.replicate (n + 7) (.run t false)

theorem record_exclusive_two :
    ∃ (es : List GraceEvent) (s : State (Fin 3) Nat), Run step TriesUnrested init es s ∧
      ((s.thread 0).owns = some 0 ∧ (s.thread 1).owns = some 1) ∧
      ∀ t u r, (s.thread t).owns = some r → (s.thread u).owns = some r → t = u := by
  have h : Leads step TriesUnrested init (entry 0 0 ++ entry 1 1)
      fun s _ => (s.thread 0).owns = some 0 ∧ (s.thread 1).owns = some 1 := by decide +kernel
  obtain ⟨s, es, hrun, howns⟩ := h.run
  exact ⟨es, s, hrun, howns, fun t u r => record_exclusive hrun⟩

/-- A thread that has left its guard loses its record to another one's first use. -/
theorem record_shared :
    ∃ (es : List GraceEvent) (s : State (Fin 3) Nat), Run step Any init es s ∧
      ¬ ∀ t u r, (s.thread t).owns = some r → (s.thread u).owns = some r → t = u := by
  have h : Leads step Any init
      (entry 0 0 ++ [Action.call 0 (.leave 0), .call 1 .enter, .run 1 false, .run 1 false])
      fun s _ => (s.thread 0).owns = some 0 ∧ (s.thread 1).owns = some 0 := by decide +kernel
  obtain ⟨s, es, hrun, howns⟩ := h.run
  refine ⟨es, s, hrun, fun hunique => ?_⟩
  have heq := hunique 0 1 0 howns.1 howns.2
  cases heq

/-- A reader enters, and another thread retires an object: the epoch moves on once under
the guard, and a second time only when it is left. -/
def carefulSchedule : List (Action (Fin 3) Nat) :=
  entry 0 0 ++ [Action.call 1 (.retire 7)] ++ List.replicate 10 (Action.run 1 false) ++
  [Action.call 1 .tryAdvance] ++ List.replicate 4 (Action.run 1 false) ++
  [Action.call 0 (.leave 0)] ++ [Action.call 1 .tryAdvance] ++ List.replicate 7 (Action.run 1 false)

theorem retired_outlives_guards_two :
    ∃ (es : List GraceEvent) (s : State (Fin 3) Nat), Run step Careful init es s ∧
      es = [entered 0, retired 1, left 0, reclaimed 1] ∧ Grace es := by
  have h : Leads step Careful init carefulSchedule
      fun _ es => es = [entered 0, retired 1, left 0, reclaimed 1] := by decide +kernel
  obtain ⟨s, es, hrun, hes⟩ := h.run
  exact ⟨es, s, hrun, hes, retired_outlives_guards hrun⟩

/-- One thread has advanced the epoch and not yet taken the old slot. Another advances it
once more; then a reader enters, and an object is retired into that very slot. -/
def lateSlotSchedule : List (Action (Fin 3) Nat) :=
  [Action.call 0 .tryAdvance] ++ List.replicate 4 (Action.run 0 false) ++
  [Action.call 1 .tryAdvance] ++ List.replicate 6 (Action.run 1 false) ++ entry 2 0 ++
  [Action.call 1 (.retire 7), .run 1 false, .run 1 false, .run 0 false, .run 0 false]

/-- The object is reclaimed while the guard that was open at its retirement still is. -/
theorem reclaimed_from_late_slot :
    ∃ (es : List GraceEvent) (s : State (Fin 3) Nat), Run step Any init es s ∧ ¬ Grace es := by
  have h : Leads step Any init lateSlotSchedule
      fun _ es => es = [entered 0, retired 1, reclaimed 1] := by decide +kernel
  obtain ⟨s, es, hrun, hes⟩ := h.run
  refine ⟨es, s, hrun, fun hgrace => ?_⟩
  have hleft := hgrace [entered 0] [] [] 1 hes 0 (by simp) (by simp)
  cases hleft

end CrossMachine.Reclaim.Epoch
