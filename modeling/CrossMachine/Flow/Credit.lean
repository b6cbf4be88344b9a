import CrossMachine.Lib.Instances
import CrossMachine.Lib.Sum
import Mathlib.Algebra.Order.BigOperators.Group.Finset
import Mathlib.Data.UInt
import Mathlib.Logic.Relation

/-!
# Credit flow control

`BackpressureSender` and `BackpressureReceiver`: a sender may have as many units on the way
as it has credits, and gets one back for each unit that the receiver has finished with.

Any number of threads acquire a credit and then send a unit; units arrive, wait, and are
taken by any number of threads that process them and grant a credit for each. Grants travel
as single bytes on the other direction of the channel, where the sender's listener adds them
up. One atomic operation, one channel operation or one lock operation at a time, in any
order; `compare_exchange_weak` may fail for no reason. `credits_` is a 64-bit word and wraps
around as one.

A credit is always somewhere (`State.balance`), so a unit that is sent and not yet processed
uses up one of the window (`credit_conservation`).
-/

namespace CrossMachine.Flow

variable {τ ρ : Type*}

/-- What a sending thread does next. -/
inductive SenderPc where
  | idle
  /-- In `acquireCredit`, before the load of `credits_`. -/
  | load (waited : Bool)
  /-- Before the exchange, with the value just loaded. -/
  | cas (waited : Bool) (cur : UInt64)
  /-- With a credit, before `blockedCount_` goes up. -/
  | count
  /-- `acquireCredit` has returned and the unit is not sent. -/
  | acquired
  deriving DecidableEq, Repr

/-- What a processing thread does next. -/
inductive WorkerPc where
  | idle
  | processing (unit : UInt8)
  /-- In `grantCredit`, before it holds `sendMu_`. -/
  | lock
  /-- Before the grant is sent. -/
  | send
  | unlock
  deriving DecidableEq, Repr

/-- What the listener does next. -/
inductive ListenerPc where
  /-- There is no listener thread. -/
  | none
  /-- Before the load of `running_`. -/
  | check
  | recv
  /-- With a grant, before it is added. -/
  | add
  /-- `listenLoop` has returned. -/
  | returned
  deriving DecidableEq, Repr

/-- Where a call of `stop` is. -/
inductive StopPc where
  | idle
  | shutdown
  | join
  deriving DecidableEq, Repr

structure State (τ ρ : Type*) where
  /-- `credits_`. -/
  credits : UInt64
  /-- `blockedCount_`. -/
  blockedCount : UInt64
  /-- `running_`. -/
  running : Bool
  sender : τ → SenderPc
  listener : ListenerPc
  stop : StopPc
  /-- The read side of the sender's socket has been shut down. -/
  shut : Bool
  /-- Units sent and not received, oldest first. -/
  data : List UInt8
  /-- Units received that nobody processes yet. -/
  arrived : List UInt8
  worker : ρ → WorkerPc
  /-- The holder of `sendMu_`. -/
  sendMu : Option ρ
  /-- Grants sent and not received, oldest first. -/
  grants : List UInt8

/-- The constructors. -/
def init (windowSize : UInt64) : State τ ρ where
  credits := windowSize
  blockedCount := 0
  running := false
  sender := fun _ => .idle
  listener := .none
  stop := .idle
  shut := false
  data := []
  arrived := []
  worker := fun _ => .idle
  sendMu := none
  grants := []

inductive Action (τ ρ : Type*) where
  /-- A thread calls `acquireCredit`. -/
  | acquire (t : τ)
  /-- A thread does its next operation in `acquireCredit`. -/
  | run (t : τ) (weak : Bool)
  /-- A thread sends the unit it has a credit for. -/
  | send (t : τ) (unit : UInt8)
  /-- A unit is received. -/
  | arrive
  /-- A thread takes the `k`-th of the waiting units. -/
  | take (r : ρ) (k : Nat)
  /-- A thread finishes processing, or does its next operation in `grantCredit`. -/
  | work (r : ρ)
  /-- The listener does its next operation; a `recv` on a closed socket may fail. -/
  | listen (fail : Bool)
  | start
  /-- The next operation of `stop`. -/
  | stop
  deriving DecidableEq, Repr

section Step

variable [DecidableEq τ] [DecidableEq ρ]

def State.goto (s : State τ ρ) (t : τ) (pc : SenderPc) : State τ ρ :=
  { s with sender := Function.update s.sender t pc }

def State.turn (s : State τ ρ) (r : ρ) (pc : WorkerPc) : State τ ρ :=
  { s with worker := Function.update s.worker r pc }

/-- `acquireCredit`. -/
def acquireCredit (s : State τ ρ) (t : τ) (weak : Bool) : Option (State τ ρ) :=
  match s.sender t with
  | .load waited =>
      if s.credits > 0 then some (s.goto t (.cas waited s.credits))
      else some (s.goto t (.load true))
  | .cas waited cur =>
      if s.credits = cur ∧ weak = false then
        some ({ s with credits := cur - 1 }.goto t (if waited then .count else .acquired))
      else some (s.goto t (.load true))
  | .count => some ({ s with blockedCount := s.blockedCount + 1 }.goto t .acquired)
  | .idle | .acquired => none

/-- The end of processing, and `grantCredit`. -/
def grantCredit (s : State τ ρ) (r : ρ) : Option (State τ ρ) :=
  match s.worker r with
  | .processing _ => some (s.turn r .lock)
  | .lock => if s.sendMu = none then some ({ s with sendMu := some r }.turn r .send) else none
  | .send => some ({ s with grants := s.grants ++ [1] }.turn r .unlock)
  | .unlock => some ({ s with sendMu := none }.turn r .idle)
  | .idle => none

/-- `listenLoop`. -/
def listenLoop (s : State τ ρ) (fail : Bool) : Option (State τ ρ) :=
  match s.listener with
  | .check => some { s with listener := if s.running then .recv else .returned }
  | .recv =>
      if s.shut ∧ fail then some { s with listener := .returned }
      else
        match s.grants with
        | _ :: rest => some { s with grants := rest, listener := .add }
        | [] => none
  | .add => some { s with credits := s.credits + 1, listener := .check }
  | _ => none

/-- `stop`. -/
def stopStep (s : State τ ρ) : Option (State τ ρ) :=
  match s.stop with
  | .idle => some { s with running := false, stop := if s.running then .shutdown else .idle }
  | .shutdown => some { s with shut := true, stop := .join }
  | .join =>
      if s.listener = .returned then some { s with listener := .none, stop := .idle } else none

def step (s : State τ ρ) : Action τ ρ → Option (State τ ρ)
  | .acquire t =>
      match s.sender t with
      | .idle => some (s.goto t (.load false))
      | _ => none
  | .run t weak => acquireCredit s t weak
  | .send t unit =>
      match s.sender t with
      | .acquired => some ({ s with data := s.data ++ [unit] }.goto t .idle)
      | _ => none
  | .arrive =>
      match s.data with
      | unit :: rest => some { s with data := rest, arrived := s.arrived ++ [unit] }
      | [] => none
  | .take r k =>
      match s.worker r, s.arrived[k]? with
      | .idle, some unit =>
          some ({ s with arrived := s.arrived.eraseIdx k }.turn r (.processing unit))
      | _, _ => none
  | .work r => grantCredit s r
  | .listen fail => listenLoop s fail
  | .start =>
      if s.listener = .none ∧ s.stop = .idle then
        some { s with running := true, listener := .check }
      else none
  | .stop => stopStep s

end Step

@[simp] theorem State.goto_sender [DecidableEq τ] (s : State τ ρ) (t : τ) (pc : SenderPc) :
    (s.goto t pc).sender = Function.update s.sender t pc := rfl

/-! ## Where a credit is -/

def SenderPc.held : SenderPc → Nat
  | .count | .acquired => 1
  | _ => 0

def WorkerPc.held : WorkerPc → Nat
  | .processing _ | .lock | .send => 1
  | .unlock | .idle => 0

def WorkerPc.unprocessed : WorkerPc → Nat
  | .processing _ => 1
  | _ => 0

def ListenerPc.held : ListenerPc → Nat
  | .add => 1
  | _ => 0

section Counts

variable [Fintype τ] [Fintype ρ]

/-- Units that a credit was acquired for and none has been granted back for. -/
def State.outstanding (s : State τ ρ) : Nat :=
  ∑ t, (s.sender t).held + s.data.length + s.arrived.length + ∑ r, (s.worker r).held

/-- Grants in flight, or received and not yet added. -/
def State.pending (s : State τ ρ) : Nat := s.grants.length + s.listener.held

/-- Units sent and not yet processed. -/
def State.unprocessed (s : State τ ρ) : Nat :=
  s.data.length + s.arrived.length + ∑ r, (s.worker r).unprocessed

/-- All credits there are. -/
def State.balance (s : State τ ρ) : Nat := s.credits.toNat + s.outstanding + s.pending

/-- A unit that is not processed is outstanding. -/
theorem State.unprocessed_le (s : State τ ρ) : s.unprocessed ≤ s.outstanding := by
  have hworkers : ∑ r, (s.worker r).unprocessed ≤ ∑ r, (s.worker r).held := by
    refine Finset.sum_le_sum fun r _ => ?_
    cases s.worker r <;> simp [WorkerPc.unprocessed, WorkerPc.held]
  unfold State.unprocessed State.outstanding
  omega

section Moves

variable [DecidableEq τ] [DecidableEq ρ]

omit [Fintype ρ] [DecidableEq ρ] in
theorem State.held_goto (s : State τ ρ) (t : τ) (pc : SenderPc) :
    ∑ u, ((s.goto t pc).sender u).held + (s.sender t).held =
      ∑ u, (s.sender u).held + pc.held :=
  Lib.sum_update_add (fun _ pc => SenderPc.held pc) s.sender t pc

omit [Fintype τ] [DecidableEq τ] in
theorem State.held_turn (s : State τ ρ) (r : ρ) (pc : WorkerPc) :
    ∑ u, ((s.turn r pc).worker u).held + (s.worker r).held =
      ∑ u, (s.worker u).held + pc.held :=
  Lib.sum_update_add (fun _ pc => WorkerPc.held pc) s.worker r pc

variable {t : τ} {r : ρ} {w : UInt64} {s s' : State τ ρ}

omit [DecidableEq ρ] in
/-- A sending thread goes on: the balance changes by what it holds. -/
theorem State.balance_goto (s : State τ ρ) {old : SenderPc} (hold : s.sender t = old)
    (pc : SenderPc) : (s.goto t pc).balance + old.held = s.balance + pc.held := by
  have hsum := s.held_goto t pc
  rw [hold] at hsum
  have hsame : (s.goto t pc).balance + ∑ u, (s.sender u).held =
      s.balance + ∑ u, ((s.goto t pc).sender u).held := by
    simp only [State.balance, State.outstanding, State.pending, State.goto]
    omega
  omega

omit [DecidableEq τ] in
/-- A processing thread goes on. -/
theorem State.balance_turn (s : State τ ρ) {old : WorkerPc} (hold : s.worker r = old)
    (pc : WorkerPc) : (s.turn r pc).balance + old.held = s.balance + pc.held := by
  have hsum := s.held_turn r pc
  rw [hold] at hsum
  have hsame : (s.turn r pc).balance + ∑ u, (s.worker u).held =
      s.balance + ∑ u, ((s.turn r pc).worker u).held := by
    simp only [State.balance, State.outstanding, State.pending, State.turn]
    omega
  omega

/-! ## One operation -/

/-- Credits go up or down by one, or stay: no operation wraps around. -/
def Adjacent (c c' : UInt64) : Prop :=
  c'.toNat + 1 = c.toNat ∨ c' = c ∨ c'.toNat = c.toNat + 1

theorem toNat_pred {c : UInt64} (h : 0 < c) : (c - 1).toNat + 1 = c.toNat := by
  have hpos : 0 < c.toNat := UInt64.lt_iff_toNat_lt.mp h
  have hle : (1 : UInt64) ≤ c := UInt64.le_iff_toNat_le.mpr hpos
  rw [UInt64.toNat_sub_of_le _ _ hle]
  exact Nat.sub_add_cancel hpos

theorem toNat_succ {c : UInt64} (h : c.toNat < w.toNat) : (c + 1).toNat = c.toNat + 1 := by
  have hw := w.toNat_lt
  rw [UInt64.toNat_add]
  exact Nat.mod_eq_of_lt (by rw [UInt64.toNat_one]; omega)

/-- What holds at every moment. -/
structure Inv (windowSize : UInt64) (s : State τ ρ) : Prop where
  balance : s.balance = windowSize.toNat
  /-- No thread tries to take the last credit below zero. -/
  loaded : ∀ {t waited cur}, s.sender t = .cas waited cur → 0 < cur

omit [DecidableEq ρ] in
/-- A sending thread goes on from a state in which `pc.held` replaces `old.held`. -/
theorem inv_goto {old pc : SenderPc} (hold : s.sender t = old)
    (hbalance : s.balance + pc.held = w.toNat + old.held)
    (hloaded : ∀ {t waited cur}, s.sender t = .cas waited cur → 0 < cur)
    (hpc : ∀ {waited cur}, pc = .cas waited cur → 0 < cur) : Inv w (s.goto t pc) where
  balance := by
    have := s.balance_goto hold pc
    omega
  loaded := by
    intro u waited cur hu
    rw [State.goto_sender] at hu
    by_cases heq : u = t
    · subst heq
      rw [Function.update_self] at hu
      exact hpc hu
    · rw [Function.update_of_ne heq] at hu
      exact hloaded hu

omit [DecidableEq τ] in
/-- A processing thread goes on. -/
theorem inv_turn {old pc : WorkerPc} (hold : s.worker r = old)
    (hbalance : s.balance + pc.held = w.toNat + old.held)
    (hloaded : ∀ {t waited cur}, s.sender t = .cas waited cur → 0 < cur) :
    Inv w (s.turn r pc) where
  balance := by
    have := s.balance_turn hold pc
    omega
  loaded := fun hu => hloaded hu

omit [DecidableEq ρ] in
theorem inv_acquireCredit {weak : Bool} (hs : Inv w s) (h : acquireCredit s t weak = some s') :
    Inv w s' ∧ Adjacent s.credits s'.credits := by
  have hbalance := hs.balance
  unfold acquireCredit at h
  split at h
  case h_1 waited hpc =>
    split at h
    · rename_i hpos
      obtain rfl := Option.some.inj h
      refine ⟨inv_goto hpc (by rw [hbalance]; rfl) hs.loaded ?_, .inr (.inl rfl)⟩
      rintro waited' cur heq
      obtain ⟨rfl, rfl⟩ := SenderPc.cas.inj heq
      exact hpos
    · obtain rfl := Option.some.inj h
      exact ⟨inv_goto hpc (by rw [hbalance]; rfl) hs.loaded (by simp), .inr (.inl rfl)⟩
  case h_2 waited cur hpc =>
    split at h
    · rename_i hcas
      obtain rfl := Option.some.inj h
      have hcur : (cur - 1).toNat + 1 = s.credits.toNat := by
        rw [hcas.1]; exact toNat_pred (hs.loaded hpc)
      -- the credit moves from the counter to the thread
      have htaken : ({ s with credits := cur - 1 } : State τ ρ).balance + 1 = w.toNat := by
        rw [← hbalance]
        simp only [State.balance, State.outstanding, State.pending]
        omega
      refine ⟨inv_goto hpc ?_ hs.loaded ?_, .inl hcur⟩
      · cases waited <;> exact htaken
      · rintro waited' cur' heq
        cases waited <;> exact absurd heq (by simp)
    · obtain rfl := Option.some.inj h
      exact ⟨inv_goto hpc (by rw [hbalance]; rfl) hs.loaded (by simp), .inr (.inl rfl)⟩
  case h_3 hpc =>
    obtain rfl := Option.some.inj h
    exact ⟨inv_goto hpc (by rw [← hbalance]; rfl) hs.loaded (by simp), .inr (.inl rfl)⟩
  case h_4 | h_5 => exact absurd h (by simp)

omit [DecidableEq τ] in
theorem inv_grantCredit (hs : Inv w s) (h : grantCredit s r = some s') :
    Inv w s' ∧ Adjacent s.credits s'.credits := by
  have hbalance := hs.balance
  unfold grantCredit at h
  split at h
  case h_1 unit hpc =>
    obtain rfl := Option.some.inj h
    exact ⟨inv_turn hpc (by rw [hbalance]; rfl) hs.loaded, .inr (.inl rfl)⟩
  case h_2 hpc =>
    split at h
    · obtain rfl := Option.some.inj h
      exact ⟨inv_turn hpc (by rw [← hbalance]; rfl) hs.loaded, .inr (.inl rfl)⟩
    · exact absurd h (by simp)
  case h_3 hpc =>
    obtain rfl := Option.some.inj h
    -- the credit moves from the thread to the channel
    refine ⟨inv_turn hpc ?_ hs.loaded, .inr (.inl rfl)⟩
    rw [← hbalance]
    simp only [State.balance, State.outstanding, State.pending, WorkerPc.held,
      List.length_append, List.length_singleton]
    omega
  case h_4 hpc =>
    obtain rfl := Option.some.inj h
    exact ⟨inv_turn hpc (by rw [← hbalance]; rfl) hs.loaded, .inr (.inl rfl)⟩
  case h_5 => exact absurd h (by simp)

omit [DecidableEq τ] [DecidableEq ρ] in
theorem inv_listenLoop {fail : Bool} (hs : Inv w s) (h : listenLoop s fail = some s') :
    Inv w s' ∧ Adjacent s.credits s'.credits := by
  have hbalance := hs.balance
  unfold listenLoop at h
  split at h
  case h_1 hpc =>
    obtain rfl := Option.some.inj h
    refine ⟨⟨?_, hs.loaded⟩, .inr (.inl rfl)⟩
    rw [← hbalance]
    simp only [State.balance, State.pending, hpc]
    cases s.running <;> rfl
  case h_2 hpc =>
    split at h
    · obtain rfl := Option.some.inj h
      refine ⟨⟨?_, hs.loaded⟩, .inr (.inl rfl)⟩
      rw [← hbalance]
      simp only [State.balance, State.pending, hpc]
      rfl
    · split at h
      · rename_i g rest hgrants
        obtain rfl := Option.some.inj h
        refine ⟨⟨?_, hs.loaded⟩, .inr (.inl rfl)⟩
        rw [← hbalance]
        simp only [State.balance, State.outstanding, State.pending, hpc, hgrants,
          ListenerPc.held, List.length_cons]
      · exact absurd h (by simp)
  case h_3 hpc =>
    obtain rfl := Option.some.inj h
    -- there is room: the grant is part of the window and not of the counter
    have hroom : s.credits.toNat < w.toNat := by
      rw [← hbalance, State.balance, State.pending, hpc, ListenerPc.held]
      omega
    have hsucc := toNat_succ hroom
    refine ⟨⟨?_, hs.loaded⟩, .inr (.inr hsucc)⟩
    rw [← hbalance]
    simp only [State.balance, State.outstanding, State.pending, hpc, ListenerPc.held]
    omega
  case h_4 => exact absurd h (by simp)

omit [DecidableEq τ] [DecidableEq ρ] in
theorem inv_stopStep (hs : Inv w s) (h : stopStep s = some s') :
    Inv w s' ∧ Adjacent s.credits s'.credits := by
  have hbalance := hs.balance
  unfold stopStep at h
  split at h
  case h_1 | h_2 =>
    obtain rfl := Option.some.inj h
    exact ⟨⟨by rw [← hbalance]; rfl, hs.loaded⟩, .inr (.inl rfl)⟩
  case h_3 =>
    split at h
    · rename_i hret
      obtain rfl := Option.some.inj h
      refine ⟨⟨?_, hs.loaded⟩, .inr (.inl rfl)⟩
      rw [← hbalance]
      simp only [State.balance, State.pending, hret]
      rfl
    · exact absurd h (by simp)

/-- **Every operation keeps the balance**, and moves the counter by one at most. -/
theorem inv_step {a : Action τ ρ} (hs : Inv w s) (h : step s a = some s') :
    Inv w s' ∧ Adjacent s.credits s'.credits := by
  have hbalance := hs.balance
  cases a with
  | acquire t =>
      rw [step] at h
      split at h
      · rename_i hpc
        obtain rfl := Option.some.inj h
        exact ⟨inv_goto hpc (by rw [hbalance]; rfl) hs.loaded (by simp), .inr (.inl rfl)⟩
      · exact absurd h (by simp)
  | run t weak => exact inv_acquireCredit hs h
  | send t unit =>
      rw [step] at h
      split at h
      · rename_i hpc
        obtain rfl := Option.some.inj h
        refine ⟨inv_goto hpc ?_ hs.loaded (by simp), .inr (.inl rfl)⟩
        rw [← hbalance]
        simp only [State.balance, State.outstanding, State.pending, SenderPc.held,
          List.length_append, List.length_singleton]
        omega
      · exact absurd h (by simp)
  | arrive =>
      rw [step] at h
      split at h
      · rename_i unit rest hdata
        obtain rfl := Option.some.inj h
        refine ⟨⟨?_, hs.loaded⟩, .inr (.inl rfl)⟩
        rw [← hbalance]
        simp only [State.balance, State.outstanding, State.pending, hdata,
          List.length_append, List.length_cons, List.length_nil]
        omega
      · exact absurd h (by simp)
  | take r k =>
      rw [step] at h
      split at h
      · rename_i unit hpc hunit
        obtain rfl := Option.some.inj h
        have hlen : (s.arrived.eraseIdx k).length + 1 = s.arrived.length := by
          obtain ⟨hk, -⟩ := List.getElem?_eq_some_iff.mp hunit
          rw [List.length_eraseIdx_of_lt hk]
          omega
        refine ⟨inv_turn hpc ?_ hs.loaded, .inr (.inl rfl)⟩
        rw [← hbalance]
        simp only [State.balance, State.outstanding, State.pending, WorkerPc.held]
        omega
      · exact absurd h (by simp)
  | work r => exact inv_grantCredit hs h
  | listen fail => exact inv_listenLoop hs h
  | start =>
      rw [step] at h
      split at h
      · rename_i hnone
        obtain rfl := Option.some.inj h
        refine ⟨⟨?_, hs.loaded⟩, .inr (.inl rfl)⟩
        rw [← hbalance]
        simp only [State.balance, State.pending, hnone.1]
        rfl
      · exact absurd h (by simp)
  | stop => exact inv_stopStep hs h

/-! ## Every interleaving -/

/-- The states that some interleaving leads to. -/
def Reachable (windowSize : UInt64) (s : State τ ρ) : Prop :=
  Relation.ReflTransGen (fun s s' => ∃ a, step s a = some s') (init windowSize) s

omit [Fintype τ] [Fintype ρ] in
/-- A schedule that executes leads to a reachable state. -/
theorem reachable_foldlM {as : List (Action τ ρ)} :
    ∀ {s s' : State τ ρ}, Reachable w s → as.foldlM step s = some s' → Reachable w s' := by
  induction as with
  | nil =>
      intro s s' hs h
      obtain rfl := Option.some.inj h
      exact hs
  | cons a as ih =>
      intro s s' hs h
      rw [List.foldlM_cons, Option.bind_eq_bind, Option.bind_eq_some_iff] at h
      obtain ⟨s₁, hstep, hrest⟩ := h
      exact ih (hs.tail ⟨a, hstep⟩) hrest

omit [DecidableEq τ] [DecidableEq ρ] in
theorem inv_init (windowSize : UInt64) : Inv windowSize (init windowSize : State τ ρ) where
  balance := by
    simp [State.balance, State.outstanding, State.pending, init, SenderPc.held, WorkerPc.held,
      ListenerPc.held]
  loaded := by simp [init]

theorem Reachable.inv (hs : Reachable w s) : Inv w s := by
  induction hs with
  | refl => exact inv_init w
  | tail _ hstep ih =>
      obtain ⟨a, ha⟩ := hstep
      exact (inv_step ih ha).1

/-- **Credits are conserved**, and so no more units than the window are sent and not
processed, and `credits_` stays within the window and never wraps around. -/
theorem credit_conservation {windowSize : UInt64} {s : State τ ρ}
    (hs : Reachable windowSize s) :
    s.credits.toNat + s.outstanding + s.pending = windowSize.toNat ∧
    s.unprocessed ≤ windowSize.toNat ∧ s.credits ≤ windowSize ∧
    ∀ a s', step s a = some s' → Adjacent s.credits s'.credits := by
  have hbalance : s.credits.toNat + s.outstanding + s.pending = windowSize.toNat :=
    hs.inv.balance
  have hunits := s.unprocessed_le
  refine ⟨hbalance, by omega, UInt64.le_iff_toNat_le.mpr (by omega), fun a s' hstep => ?_⟩
  exact (inv_step hs.inv hstep).2

end Moves

end Counts

/-- One unit, sent by one of two threads and taken by one of two, with a window of two. -/
def oneUnit : List (Action (Fin 2) (Fin 2)) :=
  [.start, .acquire 0, .run 0 false, .run 0 true, .run 0 false, .run 0 false, .run 0 false,
    .send 0 7, .acquire 1, .run 1 false, .arrive, .take 1 0, .work 1, .work 1, .work 1]

theorem credit_conservation_oneUnit : ∃ s : State (Fin 2) (Fin 2), Reachable 2 s ∧
    s.grants = [1] ∧ s.credits.toNat + s.outstanding + s.pending = 2 := by
  have hplay : (oneUnit.foldlM step (init 2)).any (fun s => decide (s.grants = [1])) = true := by
    decide +kernel
  obtain ⟨s, hs, hgrants⟩ := Option.any_eq_true _ _ |>.mp hplay
  have hreach : Reachable 2 s := reachable_foldlM .refl hs
  exact ⟨s, hreach, of_decide_eq_true hgrants, (credit_conservation hreach).1⟩

end CrossMachine.Flow
