import CrossMachine.Lib.Instances
import CrossMachine.Lib.Linearizable
import CrossMachine.Lib.Run
import CrossMachine.Reclaim.Hazard

/-!
# The Michael-Scott queue

`MsQueue` of `ms_queue.h`, one atomic operation at a time, over the hazard pointer domain.
`head_` points to a sentinel whose value nobody reads, `tail_` to the last node or, for a
moment, to one before it. Nodes are allocated by `enqueue`, retired by the `dequeue` that
moves `head_` past them, and freed by some scan.

Addresses are used again. A pointer is therefore an address together with the number of
the allocation it came from. The code compares addresses, and so does the model; the number
is there to tell whether a node that is read is still the one the pointer was made for. A
read through a pointer to anything else is `wild`, and ends the thread. When a load that
validates a pointer finds the same address, the pointer just loaded takes the place of the
old one; to the machine they are the same.
-/

namespace CrossMachine.Queue

open Lib Reclaim.Hazard

variable {τ α π : Type*}

/-- `Node*`. -/
structure Ptr (π : Type*) where
  addr : π
  inc : Nat
  deriving DecidableEq, Repr

/-- `Node`, with the number of its allocation. -/
structure Node (π α : Type*) where
  inc : Nat
  data : Option α
  next : Option (Ptr π)
  deriving DecidableEq, Repr

/-- What a client asks for. -/
inductive Op (α : Type*) where
  | enqueue (v : α)
  | dequeue
  deriving DecidableEq, Repr

/-- `enqueue` has no result; `dequeue` returns false, or true and a value. -/
inductive Res (α : Type*) where
  | done
  | empty
  | got (v : α)
  deriving DecidableEq, Repr

/-- What is left to do for the domain before an operation returns: the guards are reset,
and the old sentinel is retired. -/
inductive Chore (π : Type*) where
  | reset (i : Slot)
  | retire (x : Ptr π)
  deriving DecidableEq, Repr

/-- Where a thread is, when the domain is not at work for it. The names of the arguments are
those of the local variables. -/
inductive Pc (π α : Type*) where
  | idle
  /-- `new Node`. -/
  | alloc (val : α)
  /-- Before the load of `tail_`. -/
  | enqLoad (node : Ptr π)
  /-- Before the load that validates `tail`. -/
  | enqValidate (node tail : Ptr π)
  /-- Before the load of `tail->next`. -/
  | enqNext (node tail : Ptr π)
  /-- Before `tail` is compared with `tail_` once more. -/
  | enqCheck (node tail : Ptr π) (next : Option (Ptr π))
  /-- Before the exchange of `tail->next`. -/
  | enqLink (node tail : Ptr π)
  /-- Linked in; before the exchange of `tail_`. -/
  | enqSwing (node tail : Ptr π)
  /-- `tail_` lags; before the exchange that helps it. -/
  | enqHelp (node tail next : Ptr π)
  /-- Before the load of `head_`. -/
  | deqLoad
  /-- Before the load that validates `head`. -/
  | deqValidate (head : Ptr π)
  /-- Before the load of `head->next`. -/
  | deqNext (head : Ptr π)
  /-- Before the load that validates `next`. -/
  | deqRevalidate (head : Ptr π) (next : Option (Ptr π))
  /-- Before `head` is compared with `head_` once more. -/
  | deqCheck (head : Ptr π) (next : Option (Ptr π))
  /-- Before the load of `tail_`. -/
  | deqTail (head next : Ptr π)
  /-- `tail_` lags; before the exchange that helps it. -/
  | deqHelp (head next tail : Ptr π)
  /-- Before `next->data` is copied. -/
  | deqRead (head next : Ptr π)
  /-- Before the exchange of `head_`. -/
  | deqCas (head next : Ptr π) (tmp : α)
  | finish (chores : List (Chore π)) (res : Res α)
  /-- The thread has read something that was not there. -/
  | crashed
  deriving DecidableEq, Repr

structure Thread (π α : Type*) where
  loc : Local (Ptr π) π
  pc : Pc π α
  /-- What the slots have protected since it was validated. The code has no such field. -/
  cover : Slot → Option (Ptr π)
  /-- The number of the operation the thread is in. -/
  id : Nat
  op : Op α

structure State (τ π α : Type*) where
  dom : Domain (Ptr π) π
  heap : π → Option (Node π α)
  /-- `head_`. -/
  head : Ptr π
  /-- `tail_`. -/
  tail : Ptr π
  /-- Numbers for allocations and operations. -/
  clock : Nat
  thread : τ → Thread π α

inductive Event (π α : Type*) where
  | client (e : HistoryEvent (Op α) (Res α))
  | wild (x : Ptr π)
  deriving DecidableEq, Repr

/-- The node a pointer was made for, if it is still there. -/
def deref (heap : π → Option (Node π α)) (x : Ptr π) : Option (Node π α) :=
  (heap x.addr).filter fun n => n.inc = x.inc

/-- What is reclaimed is freed. -/
def free [DecidableEq π] (heap : π → Option (Node π α)) :
    List (HazardEvent (Ptr π)) → π → Option (Node π α)
  | [] => heap
  | .retired _ :: ev => free heap ev
  | .reclaimed x :: ev => free (Function.update heap x.addr none) ev

section Step

variable [DecidableEq τ] [DecidableEq π]

/-- Only thread `t` changes. -/
def State.with (s : State τ π α) (t : τ) (th : Thread π α) : State τ π α :=
  { s with thread := Function.update s.thread t th }

/-- Only where thread `t` is changes. -/
def State.goto (s : State τ π α) (t : τ) (pc : Pc π α) : State τ π α :=
  s.with t { s.thread t with pc := pc }

/-- `protect_raw`. -/
def State.announce (s : State τ π α) (t : τ) (i : Slot) (p : Option π) (pc : Pc π α) :
    State τ π α :=
  s.with t
    { s.thread t with
      loc := (s.thread t).loc.setSlot i p, pc := pc
      cover := Function.update (s.thread t).cover i none }

/-- The pointer in slot `i` is validated. -/
def State.protect (s : State τ π α) (t : τ) (i : Slot) (x : Ptr π) (pc : Pc π α) : State τ π α :=
  s.with t
    { s.thread t with pc := pc, cover := Function.update (s.thread t).cover i (some x) }

/-- The exchange of `tail_`. -/
def State.swing (s : State τ π α) (tail next : Ptr π) : State τ π α :=
  if s.tail.addr = tail.addr then { s with tail := next } else s

/-- One atomic operation of a thread, when the domain is not at work for it. A weak exchange
may fail for no reason, and an allocation may get any address that is free. -/
def go (s : State τ π α) (t : τ) (weak : Bool) (a : π) :
    Option (State τ π α × List (Event π α)) :=
  match (s.thread t).pc with
  | .idle => none
  | .alloc val =>
      match s.heap a with
      | none =>
          let node := ⟨s.clock, some val, none⟩
          some ({ s.goto t (.enqLoad ⟨a, s.clock⟩) with
            heap := Function.update s.heap a (some node), clock := s.clock + 1 }, [])
      | some _ => none
  | .enqLoad node => some (s.announce t 0 s.tail.addr (.enqValidate node s.tail), [])
  | .enqValidate node tail =>
      if s.tail.addr = tail.addr then some (s.protect t 0 s.tail (.enqNext node s.tail), [])
      else some (s.goto t (.enqLoad node), [])
  | .enqNext node tail =>
      match deref s.heap tail with
      | some n => some (s.goto t (.enqCheck node tail n.next), [])
      | none => some (s.goto t .crashed, [.wild tail])
  | .enqCheck node tail next =>
      if s.tail.addr = tail.addr then
        match next with
        | none => some (s.goto t (.enqLink node tail), [])
        | some next => some (s.goto t (.enqHelp node tail next), [])
      else some (s.goto t (.enqLoad node), [])
  | .enqLink node tail =>
      match deref s.heap tail with
      | some n =>
          if n.next = none ∧ weak = false then
            let n' := { n with next := some node }
            some ({ s.goto t (.enqSwing node tail) with
              heap := Function.update s.heap tail.addr (some n') }, [])
          else some (s.goto t (.enqLoad node), [])
      | none => some (s.goto t .crashed, [.wild tail])
  | .enqSwing node tail => some ((s.swing tail node).goto t (.finish [.reset 0] .done), [])
  | .enqHelp node tail next => some ((s.swing tail next).goto t (.enqLoad node), [])
  | .deqLoad => some (s.announce t 0 s.head.addr (.deqValidate s.head), [])
  | .deqValidate head =>
      if s.head.addr = head.addr then some (s.protect t 0 s.head (.deqNext s.head), [])
      else some (s.goto t .deqLoad, [])
  | .deqNext head =>
      match deref s.heap head with
      | some n => some (s.announce t 1 (n.next.map Ptr.addr) (.deqRevalidate head n.next), [])
      | none => some (s.goto t .crashed, [.wild head])
  | .deqRevalidate head next =>
      match deref s.heap head with
      | some n =>
          if n.next.map Ptr.addr = next.map Ptr.addr then
            some (s.goto t (.deqCheck head n.next), [])
          else some (s.goto t (.deqNext head), [])
      | none => some (s.goto t .crashed, [.wild head])
  | .deqCheck head next =>
      if s.head.addr = head.addr then
        match next with
        | none => some (s.goto t (.finish [.reset 1, .reset 0] .empty), [])
        | some next => some (s.protect t 1 next (.deqTail head next), [])
      else some (s.goto t .deqLoad, [])
  | .deqTail head next =>
      if head.addr = s.tail.addr then some (s.goto t (.deqHelp head next s.tail), [])
      else some (s.goto t (.deqRead head next), [])
  | .deqHelp _ next tail => some ((s.swing tail next).goto t .deqLoad, [])
  | .deqRead head next =>
      match (deref s.heap next).bind Node.data with
      | some tmp => some (s.goto t (.deqCas head next tmp), [])
      | none => some (s.goto t .crashed, [.wild next])
  | .deqCas head next tmp =>
      if s.head.addr = head.addr ∧ weak = false then
        let chores := [.reset 0, .reset 1, .retire head, .reset 1, .reset 0]
        some ({ s.goto t (.finish chores (.got tmp)) with head := next }, [])
      else some (s.goto t .deqLoad, [])
  | .finish (.reset i :: chores) res => some (s.announce t i none (.finish chores res), [])
  | .finish (.retire x :: chores) res =>
      let th := s.thread t
      some (s.with t { th with loc := th.loc.retire x, pc := .finish chores res }, [])
  | .finish [] res => some (s.goto t .idle, [.client (.ret (s.thread t).id res)])
  | .crashed => none

/-- What a client can do. -/
inductive Call (α : Type*) where
  | run (op : Op α)
  /-- `drain`. -/
  | drain
  /-- The thread ends. -/
  | exit
  deriving DecidableEq, Repr

/-- The first step of a call. -/
def begin (s : State τ π α) (t : τ) : Call α → Option (State τ π α × List (Event π α))
  | .run op =>
      let pc := match op with | .enqueue val => .alloc val | .dequeue => .deqLoad
      let th := { s.thread t with pc := pc, id := s.clock, op := op }
      some ({ s.with t th with clock := s.clock + 1 }, [.client (.inv s.clock op)])
  | .drain => some (s.with t { s.thread t with loc := (s.thread t).loc.scan }, [])
  | .exit =>
      -- a guard is gone before its thread is
      if ∀ i, (s.thread t).cover i = none then
        let (D, l) := exit s.dom (s.thread t).loc
        some ({ s.with t { s.thread t with loc := l } with dom := D }, [])
      else none

/-- A thread begins something, or goes on. -/
inductive Action (τ π α : Type*) where
  | call (t : τ) (c : Call α)
  | run (t : τ) (weak : Bool) (a : π)
  deriving DecidableEq, Repr

/-- Any interleaving of the threads. -/
def step (s : State τ π α) : Action τ π α → Option (State τ π α × List (Event π α))
  | .call t c =>
      match (s.thread t).loc.op, (s.thread t).pc with
      | .idle, .idle => begin s t c
      | _, _ => none
  | .run t weak a =>
      match (s.thread t).loc.op with
      | .idle => go s t weak a
      | _ => (run Ptr.addr s.dom (s.thread t).loc weak).map fun (D, l, ev) =>
          ({ s.with t { s.thread t with loc := l } with dom := D, heap := free s.heap ev }, [])

/-- A queue that has just been made, with its sentinel at address `a`. -/
def init (a : π) : State τ π α :=
  { dom := { reg := ⟨[], 0⟩, retire := [] }
    heap := Function.update (fun _ => none) a (some ⟨0, none, none⟩)
    head := ⟨a, 0⟩, tail := ⟨a, 0⟩, clock := 1
    thread := fun _ =>
      { loc := ⟨none, .idle⟩, pc := .idle, cover := fun _ => none, id := 0, op := .dequeue } }

end Step

/-- The events of a run that its clients see. -/
def history (es : List (Event π α)) : List (HistoryEvent (Op α) (Res α)) :=
  es.filterMap fun
    | .client e => some e
    | .wild _ => none

/-- The sequential queue. -/
def fifo : List α → Op α → List α × Res α
  | q, .enqueue v => (q ++ [v], .done)
  | [], .dequeue => ([], .empty)
  | v :: q, .dequeue => (q, .got v)

end CrossMachine.Queue
