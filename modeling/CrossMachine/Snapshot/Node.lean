import Mathlib.Algebra.BigOperators.Group.Finset.Basic
import Mathlib.Data.Fintype.Basic
import CrossMachine.Common.Ranks
import CrossMachine.Lib.Run

/-!
# Chandy–Lamport snapshots

`ChandyLamportNode`: the members that `mu_` guards, the regions of
`chandy_lamport.cpp` that run under it, and a system of nodes over FIFO channels that
lose nothing.

A locked region is one step, and it includes the marker broadcast, which the code does
with the lock held. A receiver thread that has left the locked region of
`handleTransfer` still has to call `onTransfer_`; until it does it takes no further
message. The application is the bank account the callbacks are written for:
`getLocalState_` reads the balance, `onTransfer_` adds to it, and an action run by
`atomically` debits it and sends the transfer.

Amounts are elements of a commutative group: `int64_t` with wrap-around is one, the
integers are another. Shutdown messages are not modelled.
-/

namespace CrossMachine.Snapshot

open Lib

variable {n : Nat} {α : Type}

/-- `struct SnapshotResult`. A rank with no entry in the map has the empty vector. -/
structure SnapshotResult (n : Nat) (α : Type) where
  localState : α
  channelMessages : Fin n → List α
  deriving DecidableEq

/-- What travels on a channel. -/
inductive WireMsg (α : Type) where
  | marker
  | transfer (amount : α)
  deriving DecidableEq, Repr

/-- The members guarded by `mu_`. -/
structure ChandyLamportNode (n : Nat) (α : Type) where
  snapshotting : Bool
  current : SnapshotResult n α
  markerSeen : Fin n → Bool
  markersOutstanding : Int
  resultReady : Bool

/-- A freshly constructed node. -/
def newNode [Zero α] : ChandyLamportNode n α where
  snapshotting := false
  current := { localState := 0, channelMessages := fun _ => [] }
  markerSeen := fun _ => false
  markersOutstanding := 0
  resultReady := false

/-! ## The locked regions -/

/-- The locked region of `handleTransfer`. -/
def handleTransfer (nd : ChandyLamportNode n α) (fromPeer : Fin n) (amount : α) :
    ChandyLamportNode n α :=
  if nd.snapshotting && !nd.markerSeen fromPeer then
    { nd with
      current := { nd.current with
        channelMessages := Function.update nd.current.channelMessages fromPeer
          (nd.current.channelMessages fromPeer ++ [amount]) } }
  else nd

/-- `handleMarker`: the new state, and whether markers are sent to every peer. -/
def handleMarker (self : Fin n) (nd : ChandyLamportNode n α) (fromPeer : Fin n)
    (localState : α) : ChandyLamportNode n α × Bool :=
  if nd.snapshotting = false then
    -- the marker of `fromPeer` is accounted for at once
    let markersOutstanding : Int := (peers self).length - 1
    ({ snapshotting := true
       current := { localState := localState, channelMessages := fun _ => [] }
       markerSeen := Function.update (fun _ => false) fromPeer true
       markersOutstanding := markersOutstanding
       resultReady := nd.resultReady || decide (markersOutstanding = 0) }, true)
  else if nd.markerSeen fromPeer = false then
    let markersOutstanding := nd.markersOutstanding - 1
    ({ nd with
       markerSeen := Function.update nd.markerSeen fromPeer true
       markersOutstanding := markersOutstanding
       resultReady := nd.resultReady || decide (markersOutstanding = 0) }, false)
  -- a second marker from one peer is ignored
  else (nd, false)

/-- `initiateSnapshot` up to its wait; markers are sent to every peer. -/
def initiateSnapshot (self : Fin n) (localState : α) : ChandyLamportNode n α where
  snapshotting := true
  current := { localState := localState, channelMessages := fun _ => [] }
  markerSeen := fun _ => false
  markersOutstanding := (peers self).length
  resultReady := false

/-- `initiateSnapshot` after its wait. -/
def finishInitiate (nd : ChandyLamportNode n α) : ChandyLamportNode n α :=
  { nd with snapshotting := false }

/-- `waitForPassiveSnapshot` after its wait. -/
def finishPassive (nd : ChandyLamportNode n α) : ChandyLamportNode n α :=
  { nd with snapshotting := false, resultReady := false }

/-! ## The system -/

structure System (n : Nat) (α : Type) where
  node : Fin n → ChandyLamportNode n α
  /-- The application's state. -/
  balance : Fin n → α
  /-- `chan p q`: what `p` has sent and `q` has not received, oldest first. -/
  chan : Fin n → Fin n → List (WireMsg α)
  /-- The amount the receiver thread of `s` for `p` has still to pass to `onTransfer_`. -/
  pending : Fin n → Fin n → Option α
  /-- Calls of `initiateSnapshot` on `s` that wait for their result. -/
  initiating : Fin n → Nat

inductive Action (n : Nat) (α : Type) where
  /-- An action run by `atomically` debits the balance and calls `sendTransfer`. -/
  | transfer (s peer : Fin n) (amount : α)
  /-- The receiver thread of `s` for `p` takes a message and runs its locked region. -/
  | recv (s p : Fin n)
  /-- The receiver thread of `s` for `p` calls `onTransfer_`. -/
  | onTransfer (s p : Fin n)
  | initiateSnapshot (s : Fin n)
  /-- A waiting `initiateSnapshot` returns. -/
  | finishInitiate (s : Fin n)
  /-- A `waitForPassiveSnapshot` returns. -/
  | finishPassive (s : Fin n)
  deriving DecidableEq

inductive Event (n : Nat) (α : Type) where
  | initiated (s : Fin n)
  /-- A snapshot call on `s` returns `result`. -/
  | returned (s : Fin n) (result : SnapshotResult n α)
  deriving DecidableEq

def initSystem [Zero α] (balance : Fin n → α) : System n α where
  node := fun _ => newNode
  balance := balance
  chan := fun _ _ => []
  pending := fun _ _ => none
  initiating := fun _ => 0

namespace System

def setNode (σ : System n α) (s : Fin n) (nd : ChandyLamportNode n α) : System n α :=
  { σ with node := Function.update σ.node s nd }

def setChan (σ : System n α) (p q : Fin n) (ms : List (WireMsg α)) : System n α :=
  { σ with chan := Function.update σ.chan p (Function.update (σ.chan p) q ms) }

def setPending (σ : System n α) (s p : Fin n) (a : Option α) : System n α :=
  { σ with pending := Function.update σ.pending s (Function.update (σ.pending s) p a) }

def setBalance (σ : System n α) (s : Fin n) (b : α) : System n α :=
  { σ with balance := Function.update σ.balance s b }

/-- `for (int p : peers_) sendMsg(channel_, p, kTagMarker, 0)`. -/
def broadcast (σ : System n α) (s : Fin n) : System n α :=
  { σ with chan := Function.update σ.chan s fun q =>
      if q ≠ s then σ.chan s q ++ [.marker] else σ.chan s q }

def step [AddCommGroup α] (σ : System n α) :
    Action n α → Option (System n α × List (Event n α))
  | .transfer s peer amount =>
      -- there is no channel to oneself
      if peer = s then none
      else some ((σ.setBalance s (σ.balance s - amount)).setChan s peer
        (σ.chan s peer ++ [.transfer amount]), [])
  | .recv s p =>
      match σ.pending s p, σ.chan p s with
      | none, .transfer amount :: rest =>
          some (((σ.setChan p s rest).setNode s (handleTransfer (σ.node s) p amount)).setPending
            s p (some amount), [])
      | none, .marker :: rest =>
          -- `getLocalState_` is called, and the markers are sent, with the lock held
          let (nd, propagate) := handleMarker s (σ.node s) p (σ.balance s)
          let σ' := (σ.setChan p s rest).setNode s nd
          some (if propagate then σ'.broadcast s else σ', [])
      | _, _ => none
  | .onTransfer s p =>
      match σ.pending s p with
      | some amount =>
          some ((σ.setBalance s (σ.balance s + amount)).setPending s p none, [])
      | none => none
  | .initiateSnapshot s =>
      some ({ (σ.setNode s (Snapshot.initiateSnapshot s (σ.balance s))).broadcast s with
        initiating := Function.update σ.initiating s (σ.initiating s + 1) }, [.initiated s])
  | .finishInitiate s =>
      if 0 < σ.initiating s ∧ (σ.node s).resultReady = true then
        some ({ σ.setNode s (Snapshot.finishInitiate (σ.node s)) with
          initiating := Function.update σ.initiating s (σ.initiating s - 1) },
          [.returned s (σ.node s).current])
      else none
  | .finishPassive s =>
      if (σ.node s).resultReady = true then
        some (σ.setNode s (Snapshot.finishPassive (σ.node s)), [.returned s (σ.node s).current])
      else none

end System

/-! ## What a step can do -/

/-- The outcomes of a step, one constructor for each way it can go. -/
inductive Happens [AddCommGroup α] (σ : System n α) :
    Action n α → System n α → List (Event n α) → Prop where
  | transfer {s q : Fin n} {a : α} (hne : q ≠ s) :
      Happens σ (.transfer s q a)
        ((σ.setBalance s (σ.balance s - a)).setChan s q (σ.chan s q ++ [.transfer a])) []
  | take {s p : Fin n} {a : α} {rest : List (WireMsg α)} (hidle : σ.pending s p = none)
      (hchan : σ.chan p s = .transfer a :: rest) :
      Happens σ (.recv s p)
        (((σ.setChan p s rest).setNode s (handleTransfer (σ.node s) p a)).setPending s p (some a))
        []
  | firstMarker {s p : Fin n} {rest : List (WireMsg α)} (hidle : σ.pending s p = none)
      (hchan : σ.chan p s = .marker :: rest) (hfirst : (σ.node s).snapshotting = false) :
      Happens σ (.recv s p)
        (((σ.setChan p s rest).setNode s
          (handleMarker s (σ.node s) p (σ.balance s)).1).broadcast s) []
  | laterMarker {s p : Fin n} {rest : List (WireMsg α)} (hidle : σ.pending s p = none)
      (hchan : σ.chan p s = .marker :: rest) (hlater : (σ.node s).snapshotting = true) :
      Happens σ (.recv s p)
        ((σ.setChan p s rest).setNode s (handleMarker s (σ.node s) p (σ.balance s)).1) []
  | apply {s p : Fin n} {a : α} (hpend : σ.pending s p = some a) :
      Happens σ (.onTransfer s p) ((σ.setBalance s (σ.balance s + a)).setPending s p none) []
  | initiate {s : Fin n} :
      Happens σ (.initiateSnapshot s)
        { (σ.setNode s (initiateSnapshot s (σ.balance s))).broadcast s with
          initiating := Function.update σ.initiating s (σ.initiating s + 1) } [.initiated s]
  | finishInitiate {s : Fin n} (hready : (σ.node s).resultReady = true) :
      Happens σ (.finishInitiate s)
        { σ.setNode s (finishInitiate (σ.node s)) with
          initiating := Function.update σ.initiating s (σ.initiating s - 1) }
        [.returned s (σ.node s).current]
  | finishPassive {s : Fin n} (hready : (σ.node s).resultReady = true) :
      Happens σ (.finishPassive s) (σ.setNode s (finishPassive (σ.node s)))
        [.returned s (σ.node s).current]

theorem happens_of_step [AddCommGroup α] {σ σ' : System n α} {a : Action n α}
    {ev : List (Event n α)} (h : σ.step a = some (σ', ev)) : Happens σ a σ' ev := by
  cases a with
  | transfer s q a =>
      rw [System.step] at h
      split at h
      · exact absurd h (by simp)
      · rename_i hne
        simp only [Option.some.injEq, Prod.mk.injEq] at h
        obtain ⟨rfl, rfl⟩ := h
        exact .transfer hne
  | recv s p =>
      rw [System.step] at h
      split at h
      · rename_i amount rest hidle hchan
        simp only [Option.some.injEq, Prod.mk.injEq] at h
        obtain ⟨rfl, rfl⟩ := h
        exact .take hidle hchan
      · rename_i rest hidle hchan
        simp only [Option.some.injEq, Prod.mk.injEq] at h
        obtain ⟨rfl, rfl⟩ := h
        cases hsnap : (σ.node s).snapshotting with
        | false =>
            have hprop : (handleMarker s (σ.node s) p (σ.balance s)).2 = true := by
              simp [handleMarker, hsnap]
            rw [hprop, if_pos rfl]
            exact .firstMarker hidle hchan hsnap
        | true =>
            have hprop : (handleMarker s (σ.node s) p (σ.balance s)).2 = false := by
              unfold handleMarker
              rw [hsnap, if_neg (by simp)]
              split <;> rfl
            rw [hprop, if_neg (by simp)]
            exact .laterMarker hidle hchan hsnap
      · exact absurd h (by simp)
  | onTransfer s p =>
      rw [System.step] at h
      split at h
      · rename_i amount hpend
        simp only [Option.some.injEq, Prod.mk.injEq] at h
        obtain ⟨rfl, rfl⟩ := h
        exact .apply hpend
      · exact absurd h (by simp)
  | initiateSnapshot s =>
      simp only [System.step, Option.some.injEq, Prod.mk.injEq] at h
      obtain ⟨rfl, rfl⟩ := h
      exact .initiate
  | finishInitiate s =>
      rw [System.step] at h
      split at h
      · rename_i hready
        simp only [Option.some.injEq, Prod.mk.injEq] at h
        obtain ⟨rfl, rfl⟩ := h
        exact .finishInitiate hready.2
      · exact absurd h (by simp)
  | finishPassive s =>
      rw [System.step] at h
      split at h
      · rename_i hready
        simp only [Option.some.injEq, Prod.mk.injEq] at h
        obtain ⟨rfl, rfl⟩ := h
        exact .finishPassive hready
      · exact absurd h (by simp)

end CrossMachine.Snapshot
