import CrossMachine.Lib.Causality
import CrossMachine.Lib.Instances
import Mathlib.Tactic.Tauto

/-!
# Vector clocks

`VectorClock` as the networking library has it: one counter for each process, of
which the owner increments its own on a local event, and merges what a message
carries before it increments on a receive. `compare` takes two captured clocks
and says which of the two dominates the other.

The class knows nothing of the network; a caller captures the clock of a send
and hands it to the receiver. An execution is that use of it: any number of
processes make local events, sends and receives, a message may be received by
any process, late, more than once or never. The theorem at the end is what the
clocks are for: of any two events of an execution, `compare` tells exactly how
they are causally related.
-/

namespace CrossMachine.Clocks

open Lib

variable {n : Nat}

/-- The outcome of a comparison. -/
inductive Order where
  | before
  | after
  | concurrent
  | equal
  deriving DecidableEq, Repr

/-- A process's clock: one counter for each of the `n` processes. -/
structure VectorClock (n : Nat) where
  processId : Fin n
  clock : Vector Nat n
  deriving DecidableEq

namespace VectorClock

/-- The constructor: all counters at zero. -/
def new (process_id : Fin n) : VectorClock n :=
  ⟨process_id, Vector.replicate n 0⟩

/-- A local event: the owner's counter goes up by one. -/
def tick (c : VectorClock n) : VectorClock n :=
  { c with clock := c.clock.set c.processId (c.clock[c.processId] + 1) }

/-- A receive: the larger of both counters everywhere, then the owner's own. -/
def onReceive (c : VectorClock n) (received : Vector Nat n) : VectorClock n :=
  tick { c with clock := Vector.zipWith max c.clock received }

/-- One round of the loop of `compare`, on `(aLessEq, bLessEq)`. -/
def compareAt (a b : Vector Nat n) (lessEq : Bool × Bool) (i : Fin n) : Bool × Bool :=
  (if a[i] > b[i] then false else lessEq.1, if b[i] > a[i] then false else lessEq.2)

/-- Which of two captured clocks dominates the other. -/
def compare (a b : Vector Nat n) : Order :=
  let (aLessEq, bLessEq) := (List.finRange n).foldl (compareAt a b) (true, true)
  if aLessEq && bLessEq then .equal
  else if aLessEq then .before
  else if bLessEq then .after
  else .concurrent

/-! ## What the operations compute -/

@[simp] theorem tick_processId (c : VectorClock n) : c.tick.processId = c.processId := rfl

@[simp] theorem onReceive_processId (c : VectorClock n) (received : Vector Nat n) :
    (c.onReceive received).processId = c.processId := rfl

theorem tick_clock (c : VectorClock n) (q : Fin n) :
    c.tick.clock[q] = c.clock[q] + if q = c.processId then 1 else 0 := by
  simp only [tick, Fin.getElem_fin, Vector.getElem_set, Fin.ext_iff]
  by_cases hq : q.val = c.processId.val
  · simp [hq]
  · simp [hq, Ne.symm hq]

theorem onReceive_clock (c : VectorClock n) (received : Vector Nat n) (q : Fin n) :
    (c.onReceive received).clock[q] =
      max c.clock[q] received[q] + if q = c.processId then 1 else 0 := by
  rw [onReceive, tick_clock]
  simp only [Fin.getElem_fin, Vector.getElem_zipWith]

/-- The two flags say which clock is below the other on what has been compared. -/
theorem foldl_compareAt (a b : Vector Nat n) (is : List (Fin n)) (f g : Bool) :
    is.foldl (compareAt a b) (f, g) =
      (f && is.all fun i => a[i] ≤ b[i], g && is.all fun i => b[i] ≤ a[i]) := by
  induction is generalizing f g with
  | nil => simp
  | cons i is ih =>
      have hstep : compareAt a b (f, g) i =
          (f && decide (a[i] ≤ b[i]), g && decide (b[i] ≤ a[i])) := by
        simp only [compareAt, gt_iff_lt, ← not_le]
        by_cases hab : a[i] ≤ b[i] <;> by_cases hba : b[i] ≤ a[i] <;>
          simp only [hab, hba, not_true, not_false_iff, if_true, if_false, decide_true,
            decide_false, Bool.and_true, Bool.and_false]
      rw [List.foldl_cons, hstep, ih, List.all_cons, List.all_cons, Bool.and_assoc, Bool.and_assoc]

/-- `compare` decides domination both ways. -/
theorem compare_eq (a b : Vector Nat n) :
    compare a b =
      if ∀ i : Fin n, a[i] ≤ b[i] then if ∀ i : Fin n, b[i] ≤ a[i] then .equal else .before
      else if ∀ i : Fin n, b[i] ≤ a[i] then .after else .concurrent := by
  have hall : ∀ v w : Vector Nat n, ((List.finRange n).all fun i => v[i] ≤ w[i]) =
      decide (∀ i : Fin n, v[i] ≤ w[i]) := fun v w => by
    rw [Bool.eq_iff_iff]
    simp only [List.all_eq_true, List.mem_finRange, forall_const, decide_eq_true_eq]
  rw [compare, foldl_compareAt, hall, hall]
  simp only [Bool.true_and, Bool.and_eq_true, decide_eq_true_eq]
  split_ifs <;> tauto

end VectorClock

/-! ## Executions -/

/-- What an event is: a receive names the send it takes the message of. -/
inductive EventKind where
  | local
  | send
  | receive (message : Nat)
  deriving DecidableEq, Repr

/-- An event, with the values of its process's clock captured at it. -/
structure Event (n : Nat) where
  proc : Fin n
  kind : EventKind
  clock : Vector Nat n
  deriving DecidableEq

/-- The live clocks and what has happened so far. -/
structure Execution (n : Nat) where
  clocks : Fin n → VectorClock n
  history : List (Event n)

/-- Nothing has happened, every process holds a new clock. -/
def Execution.init (n : Nat) : Execution n := ⟨VectorClock.new, []⟩

/-- Process `p` takes the clock `c` and makes an event of it. -/
def Execution.record (x : Execution n) (p : Fin n) (kind : EventKind) (c : VectorClock n) :
    Execution n :=
  ⟨Function.update x.clocks p c, x.history ++ [⟨p, kind, c.clock⟩]⟩

@[simp] theorem Execution.record_clocks (x : Execution n) (p : Fin n) (kind : EventKind)
    (c : VectorClock n) : (x.record p kind c).clocks = Function.update x.clocks p c := rfl

@[simp] theorem Execution.record_history (x : Execution n) (p : Fin n) (kind : EventKind)
    (c : VectorClock n) : (x.record p kind c).history = x.history ++ [⟨p, kind, c.clock⟩] := rfl

/-- One event of an execution. A receive takes the clock that some earlier send
captured; which process sent it, and who else received it, does not matter. -/
inductive Execution.Step : Execution n → Execution n → Prop where
  | local (x : Execution n) (p : Fin n) :
      Step x (x.record p .local (x.clocks p).tick)
  | send (x : Execution n) (p : Fin n) :
      Step x (x.record p .send (x.clocks p).tick)
  | receive (x : Execution n) (p : Fin n) (m : Nat) (e : Event n) :
      x.history[m]? = some e → e.kind = .send →
      Step x (x.record p (.receive m) ((x.clocks p).onReceive e.clock))

/-- The executions of `n` processes. -/
def Execution.Reachable (x : Execution n) : Prop :=
  Relation.ReflTransGen Execution.Step (Execution.init n) x

/-- What of an event bears on causality: its process and the send it receives. -/
def Event.occurrence (e : Event n) : Occurrence (Fin n) where
  proc := e.proc
  cause := match e.kind with
    | .receive m => some m
    | _ => none

/-- The happens-before relation of an execution, on positions of its history. -/
def Execution.HappensBefore (x : Execution n) : Nat → Nat → Prop :=
  Lib.HappensBefore (x.history.map Event.occurrence)

/-- The clock captured at position `i`. -/
def Execution.stamp (x : Execution n) (i : Nat) (q : Fin n) : Nat :=
  (x.history[i]?.map fun e => e.clock[q]).getD 0

/-- The counters of the live clocks. -/
def Execution.live (x : Execution n) (p q : Fin n) : Nat := (x.clocks p).clock[q]

/-! ## The clocks measure causality -/

/-- What holds after every event. -/
structure Execution.Inv (x : Execution n) : Prop where
  own : ∀ p, (x.clocks p).processId = p
  measures : Measures (x.history.map Event.occurrence) x.stamp x.live

theorem Execution.inv_init : (Execution.init n).Inv where
  own _ := rfl
  measures := by
    have hlive : (Execution.init n).live = fun _ _ => 0 := by
      funext p q
      simp [Execution.live, Execution.init, VectorClock.new]
    have hstamp : (Execution.init n).stamp = fun _ _ => 0 := by
      funext i q
      simp [Execution.stamp, Execution.init]
    rw [hlive, hstamp]
    exact measures_nil

/-- The clock of an event that takes in `r`: the step lemma of all three kinds. -/
theorem Execution.Inv.record {x : Execution n} (hx : x.Inv) {p : Fin n} {kind : EventKind}
    {c : VectorClock n} (hown : c.processId = p)
    (hcause : ∀ m, (Event.occurrence ⟨p, kind, c.clock⟩).cause = some m → m < x.history.length)
    (hclock : ∀ q, c.clock[q] = max (x.clocks p).clock[q]
      (((Event.occurrence ⟨p, kind, c.clock⟩).cause.map fun m => x.stamp m q).getD 0) +
        if q = p then 1 else 0) :
    (x.record p kind c).Inv := by
  refine ⟨fun p' => ?_, ?_⟩
  · rw [Execution.record_clocks]
    by_cases hp : p' = p
    · rw [hp, Function.update_self, hown]
    · rw [Function.update_of_ne hp, hx.own]
  · have hlen : (x.history.map Event.occurrence).length = x.history.length := List.length_map ..
    have hsnoc := hx.measures.snoc (x := Event.occurrence ⟨p, kind, c.clock⟩)
      (s := fun q => c.clock[q]) (by rwa [hlen]) (fun _ => rfl) hclock
    have hlive : (x.record p kind c).live = Function.update x.live p fun q => c.clock[q] := by
      funext p' q
      by_cases hp : p' = p
      · simp [Execution.live, hp]
      · simp [Execution.live, hp]
    have hstamp : (x.record p kind c).stamp =
        Function.update x.stamp x.history.length fun q => c.clock[q] := by
      funext i q
      rcases Nat.lt_trichotomy i x.history.length with hi | rfl | hi
      · rw [Function.update_of_ne hi.ne, Execution.stamp, Execution.record_history,
          List.getElem?_append_left hi, Execution.stamp]
      · rw [Function.update_self, Execution.stamp, Execution.record_history,
          List.getElem?_concat_length]
        rfl
      · rw [Function.update_of_ne hi.ne', Execution.stamp, Execution.stamp,
          List.getElem?_eq_none (by rw [Execution.record_history, List.length_append]; exact hi),
          List.getElem?_eq_none hi.le]
    rw [hlive, hstamp, Execution.record_history, List.map_append]
    rw [hlen] at hsnoc
    exact hsnoc

theorem Execution.Inv.step {x y : Execution n} (hx : x.Inv) (hs : Execution.Step x y) :
    y.Inv := by
  cases hs with
  | «local» p =>
      refine hx.record (hx.own p) (by simp [Event.occurrence]) fun q => ?_
      rw [VectorClock.tick_clock, hx.own]
      simp [Event.occurrence]
  | send p =>
      refine hx.record (hx.own p) (by simp [Event.occurrence]) fun q => ?_
      rw [VectorClock.tick_clock, hx.own]
      simp [Event.occurrence]
  | receive p m e he _ =>
      refine hx.record (hx.own p) ?_ fun q => ?_
      · intro m' hm
        obtain rfl : m = m' := Option.some.inj hm
        exact (List.getElem?_eq_some_iff.mp he).1
      · rw [VectorClock.onReceive_clock, hx.own]
        simp [Event.occurrence, Execution.stamp, he]

/-- The invariant of every execution. -/
theorem Execution.Reachable.inv {x : Execution n} (hx : x.Reachable) : x.Inv := by
  induction hx with
  | refl => exact Execution.inv_init
  | tail _ hs ih => exact ih.step hs

/-- Domination of captured clocks is happens-before. -/
theorem Execution.Inv.le_iff {x : Execution n} (hx : x.Inv) {i j : Nat} {e f : Event n}
    (he : x.history[i]? = some e) (hf : x.history[j]? = some f) (hne : i ≠ j) :
    (∀ q : Fin n, e.clock[q] ≤ f.clock[q]) ↔ x.HappensBefore i j := by
  have hlen : (x.history.map Event.occurrence).length = x.history.length := List.length_map ..
  have hi : i < x.history.length := (List.getElem?_eq_some_iff.mp he).1
  have hj : j < x.history.length := (List.getElem?_eq_some_iff.mp hf).1
  have h := hx.measures.le_iff (hlen ▸ hi) (hlen ▸ hj) hne
  simp only [Execution.stamp, he, hf, Option.map_some, Option.getD_some] at h
  exact h

/-- Of two distinct events of any execution, `compare` of the captured clocks is
`before` exactly when the first happens before the second, `after` exactly in
the converse case, and `concurrent` exactly when neither holds. -/
theorem compare_happensBefore {x : Execution n} (hx : x.Reachable) {i j : Nat} {e f : Event n}
    (he : x.history[i]? = some e) (hf : x.history[j]? = some f) (hne : i ≠ j) :
    (VectorClock.compare e.clock f.clock = .before ↔ x.HappensBefore i j) ∧
    (VectorClock.compare e.clock f.clock = .after ↔ x.HappensBefore j i) ∧
    (VectorClock.compare e.clock f.clock = .concurrent ↔
      ¬ x.HappensBefore i j ∧ ¬ x.HappensBefore j i) := by
  have hij := hx.inv.le_iff he hf hne
  have hji := hx.inv.le_iff hf he hne.symm
  have hasymm : x.HappensBefore i j → ¬ x.HappensBefore j i := fun hb => hb.asymm
  rw [VectorClock.compare_eq]
  by_cases h₁ : x.HappensBefore i j
  · rw [if_pos (hij.mpr h₁), if_neg fun hle => hasymm h₁ (hji.mp hle)]
    simp [h₁, hasymm h₁]
  · rw [if_neg fun hle => h₁ (hij.mp hle)]
    by_cases h₂ : x.HappensBefore j i
    · rw [if_pos (hji.mpr h₂)]
      simp [h₁, h₂]
    · rw [if_neg fun hle => h₂ (hji.mp hle)]
      simp [h₁, h₂]

/-- Three processes: the first sends to the second, the third acts on its own. -/
def exchange : Execution 3 :=
  let sent := (Execution.init 3).record 0 .send (VectorClock.new 0).tick
  let received := sent.record 1 (.receive 0) ((VectorClock.new 1).onReceive #v[1, 0, 0])
  received.record 2 .local (VectorClock.new 2).tick

theorem compare_happensBefore_exchange :
    exchange.HappensBefore 0 1 ∧ ¬ exchange.HappensBefore 0 2 ∧ ¬ exchange.HappensBefore 2 0 := by
  have hreach : exchange.Reachable :=
    .tail (.tail (.tail .refl (.send _ 0)) (.receive _ 1 0 ⟨0, .send, #v[1, 0, 0]⟩ rfl rfl))
      (.local _ 2)
  have hsent : exchange.history[0]? = some ⟨0, .send, #v[1, 0, 0]⟩ := rfl
  have hreceived : exchange.history[1]? = some ⟨1, .receive 0, #v[1, 1, 0]⟩ := by decide +kernel
  have hlocal : exchange.history[2]? = some ⟨2, .local, #v[0, 0, 1]⟩ := rfl
  refine ⟨(compare_happensBefore hreach hsent hreceived (by decide)).1.mp (by decide), ?_⟩
  exact (compare_happensBefore hreach hsent hlocal (by decide)).2.2.mp (by decide)

end CrossMachine.Clocks
