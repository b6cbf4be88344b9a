import CrossMachine.Clocks.VectorClock
import CrossMachine.Lib.Height

/-!
# Lamport clocks

`LamportClock`, the scalar clock beside the vector clock: a local event counts one up, and a receive
goes one past the larger of the own counter and the one that the message carries. As with the
vector clock the network is the caller's, and an execution is any use of it. The counter is an
unbounded number here.

What a timestamp says of its event is how long the causal chains are that end in it: it is the
number of events in the longest one (`timestamp_height`).
-/

namespace CrossMachine.Clocks

open Lib

variable {n : Nat}

structure LamportClock where
  counter : Nat
  deriving DecidableEq, Repr

namespace LamportClock

def new : LamportClock := ⟨0⟩

/-- A local event. -/
def tick (c : LamportClock) : LamportClock := ⟨c.counter + 1⟩

def onReceive (c : LamportClock) (receivedTimestamp : Nat) : LamportClock :=
  ⟨max c.counter receivedTimestamp + 1⟩

/-- An event, with the value that the call returned. -/
structure Stamped (n : Nat) where
  proc : Fin n
  kind : EventKind
  timestamp : Nat
  deriving DecidableEq

structure Run (n : Nat) where
  clocks : Fin n → LamportClock
  history : List (Stamped n)

def Run.init (n : Nat) : Run n := ⟨fun _ => new, []⟩

def Run.record (x : Run n) (p : Fin n) (kind : EventKind) (c : LamportClock) : Run n :=
  ⟨Function.update x.clocks p c, x.history ++ [⟨p, kind, c.counter⟩]⟩

/-- One event. A message is received late, more than once, or never. -/
inductive Run.Step : Run n → Run n → Prop where
  | local (x : Run n) (p : Fin n) : Step x (x.record p .local (x.clocks p).tick)
  | send (x : Run n) (p : Fin n) : Step x (x.record p .send (x.clocks p).tick)
  | receive (x : Run n) (p : Fin n) (m : Nat) (e : Stamped n)
      (he : x.history[m]? = some e) (hsend : e.kind = .send) :
      Step x (x.record p (.receive m) ((x.clocks p).onReceive e.timestamp))

def Run.Reachable (x : Run n) : Prop := Relation.ReflTransGen Run.Step (Run.init n) x

def Stamped.occurrence (e : Stamped n) : Occurrence (Fin n) where
  proc := e.proc
  cause := match e.kind with
    | .receive m => some m
    | _ => none

def Run.occurrences (x : Run n) : List (Occurrence (Fin n)) := x.history.map Stamped.occurrence

/-- The timestamp at position `i`. -/
def Run.stamp (x : Run n) (i : Nat) : Nat := (x.history[i]?.map Stamped.timestamp).getD 0

def Run.live (x : Run n) (p : Fin n) : Nat := (x.clocks p).counter

variable {x y : Run n}

/-- The step lemma of all three kinds of events. -/
theorem Run.heights_record (hx : Heights x.occurrences x.stamp x.live) {p : Fin n}
    {kind : EventKind} {c : LamportClock}
    (hcause : ∀ m, (Stamped.occurrence ⟨p, kind, c.counter⟩).cause = some m → m < x.history.length)
    (hc : c.counter = max (x.clocks p).counter
      (((Stamped.occurrence ⟨p, kind, c.counter⟩).cause.map x.stamp).getD 0) + 1) :
    Heights (x.record p kind c).occurrences (x.record p kind c).stamp (x.record p kind c).live := by
  have hlen : x.occurrences.length = x.history.length := List.length_map ..
  have hsnoc := hx.snoc (x := Stamped.occurrence ⟨p, kind, c.counter⟩) (by rwa [hlen]) hc
  have hlive : (x.record p kind c).live = Function.update x.live p c.counter := by
    funext q
    unfold Run.live Run.record
    dsimp only
    rw [Function.update_apply, Function.update_apply]
    split <;> rfl
  have hstamp : (x.record p kind c).stamp =
      Function.update x.stamp x.history.length c.counter := by
    funext i
    unfold Run.stamp Run.record
    dsimp only
    rcases Nat.lt_trichotomy i x.history.length with hi | rfl | hi
    · rw [Function.update_of_ne hi.ne, List.getElem?_append_left hi]
    · rw [Function.update_self, List.getElem?_concat_length]
      rfl
    · rw [Function.update_of_ne hi.ne', List.getElem?_eq_none hi.le,
        List.getElem?_eq_none (by rw [List.length_append]; exact hi)]
  have hhistory : (x.record p kind c).occurrences =
      x.occurrences ++ [Stamped.occurrence ⟨p, kind, c.counter⟩] := List.map_append
  rw [hlive, hstamp, hhistory]
  rw [hlen] at hsnoc
  exact hsnoc

theorem Run.heights_step (hx : Heights x.occurrences x.stamp x.live) (hs : Run.Step x y) :
    Heights y.occurrences y.stamp y.live := by
  cases hs with
  | «local» p =>
      refine Run.heights_record hx (fun m hm => ?_) (by simp [tick, Stamped.occurrence])
      simp [Stamped.occurrence] at hm
  | send p =>
      refine Run.heights_record hx (fun m hm => ?_) (by simp [tick, Stamped.occurrence])
      simp [Stamped.occurrence] at hm
  | receive p m e he _ =>
      refine Run.heights_record hx (fun m' hm => ?_) ?_
      · obtain rfl : m = m' := Option.some.inj hm
        exact (List.getElem?_eq_some_iff.mp he).1
      · simp [onReceive, Stamped.occurrence, Run.stamp, he]

theorem Run.Reachable.heights (hx : x.Reachable) : Heights x.occurrences x.stamp x.live := by
  induction hx with
  | refl =>
      have hstamp : (Run.init n).stamp = fun _ => 0 := by
        funext i
        simp [Run.stamp, Run.init]
      rw [hstamp]
      exact heights_nil
  | tail _ hs ih => exact Run.heights_step ih hs

/-- **What a timestamp counts**: the events of the longest causal chain that ends with its event,
in every execution. So it grows along causality. -/
theorem timestamp_height (hx : x.Reachable) {i : Nat} {e : Stamped n}
    (he : x.history[i]? = some e) :
    Height x.occurrences i e.timestamp ∧
      ∀ j f, x.history[j]? = some f → HappensBefore x.occurrences i j →
        e.timestamp < f.timestamp := by
  have hheight {i : Nat} {e : Stamped n} (he : x.history[i]? = some e) :
      Height x.occurrences i e.timestamp := by
    have hlt : i < x.occurrences.length := by
      rw [Run.occurrences, List.length_map]
      exact (List.getElem?_eq_some_iff.mp he).1
    have h := hx.heights.height i hlt
    rw [Run.stamp, he] at h
    exact h
  exact ⟨hheight he, fun j f hf hij => (hheight he).lt_of_happensBefore (hheight hf) hij⟩

/-- A message between two processes, and a third one that does something before it hears of it. -/
def relay : Run 3 :=
  let sent := (Run.init 3).record 0 .send LamportClock.new.tick
  let busy := sent.record 2 .local LamportClock.new.tick
  busy.record 2 (.receive 0) (LamportClock.new.tick.onReceive 1)

theorem timestamp_height_relay : Height relay.occurrences 2 2 := by
  have hreach : relay.Reachable :=
    .tail (.tail (.tail .refl (.send _ 0)) (.local _ 2)) (.receive _ 2 0 ⟨0, .send, 1⟩ rfl rfl)
  exact (timestamp_height hreach (i := 2) (e := ⟨2, .receive 0, 2⟩) rfl).1

end LamportClock

end CrossMachine.Clocks
