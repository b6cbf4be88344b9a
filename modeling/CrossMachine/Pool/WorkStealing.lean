import CrossMachine.Deque.ChaseLev
import CrossMachine.Lib.Prefix
import CrossMachine.Lib.Sum
import Mathlib.Algebra.Order.BigOperators.Group.Finset

/-!
# The work-stealing pool

`WorkStealingPool` of `ws_pool.h`. Every worker has a deque of its own, which is the machine
of `Deque.ChaseLev`; the workers are each other's thieves. Threads outside the pool hand
their tasks in through the inbox.

A task is known by the number it was allocated under. What it does, as far as the pool can
tell, is to submit further tasks one after the other (`Job`); they go to the deque of the
worker that runs it. So a deque is filled by its owner only, and that is why a worker may
leave when its own deque and the inbox are empty: what the others still have they will
finish themselves.

A critical section is one step. A lock that is only tried may be refused for no reason, and a
thread that sleeps may wake for none. Calls from outside the pool have no thread: any number
of them can be under way at the same time.
-/

namespace CrossMachine.Pool

open Lib

/-- What a task submits while it runs, in order. -/
inductive Job where
  | mk (spawns : List Job)

def Job.spawns : Job → List Job
  | .mk spawns => spawns

def kSpinCount : Nat := 200

/-- What a worker does next. `drain` says that it is in the second loop, after shutdown. -/
inductive WorkerPc where
  /-- Before the load of `shutdown_`. -/
  | loop (spin : Nat)
  /-- In `pop` of its own deque. -/
  | own (drain : Bool) (spin : Nat)
  /-- Before it looks into the inbox. -/
  | inbox (drain : Bool) (spin : Nat)
  /-- In `steal` of the `k`-th peer's deque. -/
  | steal (spin k : Nat)
  /-- On the condition variable. -/
  | sleep
  /-- In `execute`; `todo` is what the task has still to submit. -/
  | running (drain : Bool) (task : Nat) (todo : List Job)
  /-- In `submit`, in `push` of its own deque. -/
  | submitting (drain : Bool) (task child : Nat) (todo : List Job)
  /-- The task it got was never stored. -/
  | lost
  | exited

/-- A call of `wait`. -/
inductive WaitPc where
  | idle
  /-- Before the load of `pending_`. -/
  | waiting
  /-- It was zero. -/
  | leaving
  deriving DecidableEq, Repr

structure State (n : Nat) (κ : Type*) where
  deques : Fin n → Deque.State (Fin n) Nat
  worker : Fin n → WorkerPc
  inbox : List Nat
  /-- The tasks of the calls of `submit` from outside that have not reached the inbox. -/
  calls : List Nat
  /-- `pending_`. -/
  pending : Nat
  /-- `shutdown_`. -/
  shutdown : Bool
  /-- How many workers the destructor has joined. -/
  joined : Nat
  /-- What the tasks that were allocated do. -/
  jobs : Nat → List Job
  /-- The number of the next task. -/
  next : Nat
  wait : κ → WaitPc

inductive Event (κ : Type*) where
  /-- `submit` has counted task `id`. -/
  | submitted (id : Nat)
  /-- `execute` is called. -/
  | started (id : Nat)
  /-- `execute` has counted task `id` off. -/
  | completed (id : Nat)
  /-- `wait` returns. -/
  | waited (c : κ)
  /-- A task that was never stored is about to be executed. -/
  | wild
  deriving DecidableEq, Repr

open Event

section Step

variable {n : Nat} {κ : Type*}

def State.goto (s : State n κ) (i : Fin n) (pc : WorkerPc) : State n κ :=
  { s with worker := Function.update s.worker i pc }

def State.setDeque (s : State n κ) (i : Fin n) (d : Deque.State (Fin n) Nat) : State n κ :=
  { s with deques := Function.update s.deques i d }

/-- `new Task`, and `pending_.fetch_add(1)`. -/
def State.allocate (s : State n κ) (job : Job) : State n κ :=
  { s with
    jobs := Function.update s.jobs s.next job.spawns, next := s.next + 1,
    pending := s.pending + 1 }

/-- `execute` is called. -/
def State.start (s : State n κ) (i : Fin n) (drain : Bool) (id : Nat) :
    State n κ × List (Event κ) :=
  (s.goto i (.running drain id (s.jobs id)), [.started id])

/-- `(self + k) % n`. -/
def victim (i : Fin n) (k : Nat) : Fin n := ⟨(i + k) % n, Nat.mod_lt _ i.pos⟩

/-- `pop` of the own deque is called. -/
def State.callPop (s : State n κ) (i : Fin n) (drain : Bool) (spin : Nat) :
    Option (State n κ) :=
  (Deque.step (s.deques i) .pop).map fun (d, _) => (s.setDeque i d).goto i (.own drain spin)

/-- The loop of `try_steal`, and what follows when it finds nothing. -/
def State.callSteal (s : State n κ) (i : Fin n) (spin k : Nat) : Option (State n κ) :=
  if k < n then
    (Deque.step (s.deques (victim i k)) (.steal i)).map fun (d, _) =>
      (s.setDeque (victim i k) d).goto i (.steal spin k)
  else if spin + 1 < kSpinCount then some (s.goto i (.loop (spin + 1)))
  else some (s.goto i .sleep)

/-- One step of a worker. `lucky` says whether the lock it tries is given to it. -/
def workerGo (s : State n κ) (i : Fin n) (lucky : Bool) :
    Option (State n κ × List (Event κ)) :=
  match s.worker i with
  | .loop spin => (s.callPop i s.shutdown spin).map (·, [])
  | .own drain spin =>
      (Deque.step (s.deques i) .own).bind fun (d, ev) =>
        let s := s.setDeque i d
        match ev with
        | [] => some (s, [])
        | [.popped (some (some id))] => some (s.start i drain id)
        | [.popped (some none)] => some (s.goto i .lost, [.wild])
        | [.popped none] => some (s.goto i (.inbox drain spin), [])
        | _ => none
  | .inbox drain spin =>
      if drain = true ∨ lucky = true then
        match s.inbox.getLast? with
        | some id => some ({ s with inbox := s.inbox.dropLast }.start i drain id)
        | none =>
            if drain then some (s.goto i .exited, []) else (s.callSteal i spin 1).map (·, [])
      else (s.callSteal i spin 1).map (·, [])
  | .steal spin k =>
      (Deque.step (s.deques (victim i k)) (.thieve i)).bind fun (d, ev) =>
        let s := s.setDeque (victim i k) d
        match ev with
        | [] => some (s, [])
        | [.stolen _ (some (some id))] => some (s.start i false id)
        | [.stolen _ (some none)] => some (s.goto i .lost, [.wild])
        | [.stolen _ none] => (s.callSteal i spin (k + 1)).map (·, [])
        | _ => none
  | .sleep => some (s.goto i (.loop 0), [])
  | .running drain task (job :: todo) =>
      (Deque.step (s.deques i) (.push s.next)).map fun (d, _) =>
        (((s.allocate job).setDeque i d).goto i (.submitting drain task s.next todo),
          [.submitted s.next])
  | .running drain task [] =>
      let s := { s with pending := s.pending - 1 }
      if drain then (s.callPop i true 0).map (·, [.completed task])
      else some (s.goto i (.loop 0), [.completed task])
  | .submitting drain task _ todo =>
      (Deque.step (s.deques i) .own).bind fun (d, ev) =>
        let s := s.setDeque i d
        match ev with
        | [] => some (s, [])
        | [.pushed _] => some (s.goto i (.running drain task todo), [])
        | _ => none
  | .lost => none
  | .exited => none

inductive Action (n : Nat) (κ : Type*) where
  | work (i : Fin n) (lucky : Bool)
  /-- `submit` is called from outside the pool. -/
  | submit (job : Job)
  /-- One of these calls puts its task into the inbox. -/
  | deliver (id : Nat)
  /-- `wait` is called, or goes on. -/
  | wait (c : κ)
  /-- The destructor is called. -/
  | destroy
  /-- The destructor joins the next worker. -/
  | join

variable [DecidableEq κ]

/-- Any interleaving of the workers and the threads outside. -/
def step (s : State n κ) : Action n κ → Option (State n κ × List (Event κ))
  | .work i lucky => workerGo s i lucky
  | .submit job =>
      some ({ s.allocate job with calls := s.next :: s.calls }, [.submitted s.next])
  | .deliver id =>
      if id ∈ s.calls then
        some ({ s with calls := s.calls.erase id, inbox := s.inbox ++ [id] }, [])
      else none
  | .wait c =>
      match s.wait c with
      | .idle => some ({ s with wait := Function.update s.wait c .waiting }, [])
      | .waiting =>
          if s.pending = 0 then
            some ({ s with wait := Function.update s.wait c .leaving }, [])
          else none
      | .leaving => some ({ s with wait := Function.update s.wait c .idle }, [.waited c])
  | .destroy => if s.shutdown then none else some ({ s with shutdown := true }, [])
  | .join =>
      if h : s.joined < n then
        match s.shutdown, s.worker ⟨s.joined, h⟩ with
        | true, .exited => some ({ s with joined := s.joined + 1 }, [])
        | _, _ => none
      else none

end Step

/-- The constructor makes one worker when none are asked for. -/
def threads (nThreads : Nat) : Nat := if nThreads = 0 then 1 else nThreads

def init {n : Nat} {κ : Type*} : State n κ :=
  { deques := fun _ => Deque.init 256, worker := fun _ => .loop 0, inbox := [], calls := [],
    pending := 0, shutdown := false, joined := 0, jobs := fun _ => [], next := 0,
    wait := fun _ => .idle }

/-! ## Where the tasks are -/

/-- The task a worker executes. -/
@[simp] def WorkerPc.task : WorkerPc → Option Nat
  | .running _ task _ => some task
  | .submitting _ task _ _ => some task
  | _ => none

/-- The task a worker has allocated and not published. -/
@[simp] def WorkerPc.child : WorkerPc → Option Nat
  | .submitting _ _ child _ => some child
  | _ => none

def WorkerPc.hand (pc : WorkerPc) : List Nat := pc.task.toList ++ pc.child.toList

/-- The worker has seen the shutdown. -/
@[simp] def WorkerPc.draining : WorkerPc → Bool
  | .own drain _ => drain
  | .inbox drain _ => drain
  | .running drain _ _ => drain
  | .submitting drain _ _ _ => drain
  | .exited => true
  | _ => false

/-- The worker has seen the shutdown and found its deque empty. -/
@[simp] def WorkerPc.drained : WorkerPc → Bool
  | .inbox drain _ => drain
  | .exited => true
  | _ => false

@[simp] def Event.submit {κ : Type*} : Event κ → Option Nat
  | .submitted id => some id
  | _ => none

@[simp] def Event.start {κ : Type*} : Event κ → Option Nat
  | .started id => some id
  | _ => none

@[simp] def Event.complete {κ : Type*} : Event κ → Option Nat
  | .completed id => some id
  | _ => none

section Stock

variable {n : Nat} {κ : Type*}

def submits (es : List (Event κ)) : List Nat := es.filterMap Event.submit

def starts (es : List (Event κ)) : List Nat := es.filterMap Event.start

def completes (es : List (Event κ)) : List Nat := es.filterMap Event.complete

@[simp] theorem submits_append (es ev : List (Event κ)) :
    submits (es ++ ev) = submits es ++ submits ev := List.filterMap_append

@[simp] theorem starts_append (es ev : List (Event κ)) :
    starts (es ++ ev) = starts es ++ starts ev := List.filterMap_append

@[simp] theorem completes_append (es ev : List (Event κ)) :
    completes (es ++ ev) = completes es ++ completes ev := List.filterMap_append

/-- How often a task is somewhere in the pool. -/
def State.stock (s : State n κ) (x : Nat) : Nat :=
  ∑ i, (s.deques i).held.count (some x) + ∑ i, (s.worker i).hand.count x + s.inbox.count x +
    s.calls.count x

/-- How often a task is being executed. -/
def State.busy (s : State n κ) (x : Nat) : Nat := ∑ i, (s.worker i).task.toList.count x

variable (s : State n κ) (i : Fin n) (pc : WorkerPc) (d : Deque.State (Fin n) Nat) (x : Nat)

theorem stock_setDeque : (s.setDeque i d).stock x + (s.deques i).held.count (some x) =
    s.stock x + d.held.count (some x) := by
  have := sum_update_add (fun _ (d : Deque.State (Fin n) Nat) => d.held.count (some x)) s.deques i d
  unfold State.stock State.setDeque
  dsimp only at this ⊢
  omega

theorem stock_goto :
    (s.goto i pc).stock x + (s.worker i).hand.count x = s.stock x + pc.hand.count x := by
  have := sum_update_add (fun _ (pc : WorkerPc) => pc.hand.count x) s.worker i pc
  unfold State.stock State.goto
  dsimp only at this ⊢
  omega

theorem busy_goto :
    (s.goto i pc).busy x + (s.worker i).task.toList.count x =
      s.busy x + pc.task.toList.count x := by
  have := sum_update_add (fun _ (pc : WorkerPc) => pc.task.toList.count x) s.worker i pc
  unfold State.busy State.goto
  dsimp only at this ⊢
  omega

@[simp] theorem goto_self : (s.goto i pc).worker i = pc := by
  simp only [State.goto, Function.update_self]

theorem goto_other {j : Fin n} (h : j ≠ i) : (s.goto i pc).worker j = s.worker j := by
  simp only [State.goto, Function.update_of_ne h]

@[simp] theorem setDeque_self : (s.setDeque i d).deques i = d := by
  simp only [State.setDeque, Function.update_self]

theorem setDeque_other {j : Fin n} (h : j ≠ i) : (s.setDeque i d).deques j = s.deques j := by
  simp only [State.setDeque, Function.update_of_ne h]

end Stock

/-! ## The invariant -/

/-- What holds in every run. The tasks in `transit` have left one place and not reached the
next; between steps there are none. -/
structure Inv {n : Nat} {κ : Type*} (es : List (Event κ)) (s : State n κ) (transit : List Nat) :
    Prop where
  deque : ∀ i, Deque.Inv (s.deques i)
  /-- Nothing is taken from a deque that was not put there. -/
  solid : ∀ i, none ∉ (s.deques i).held
  carry : ∀ i child, (s.worker i).child = some child → (s.deques i).owner.pushing = some child
  /-- A task that was submitted is in one place, or it is completed. -/
  stock : ∀ x, (completes es).count x + s.stock x + transit.count x = if x < s.next then 1 else 0
  starts : ∀ x, (starts es).count x = (completes es).count x + s.busy x
  submits : submits es = List.range s.next
  pending : s.pending + (completes es).length = s.next
  tame : wild ∉ es
  drained : ∀ i, (s.worker i).drained = true → (s.deques i).held = 0
  draining : ∀ i, (s.worker i).draining = true → s.shutdown = true
  joined : ∀ i : Fin n, i < s.joined → s.worker i = .exited
  joined_le : s.joined ≤ n

theorem inv_init {n : Nat} {κ : Type*} : Inv [] (init : State n κ) [] := by
  constructor
  case deque => exact fun _ => Deque.inv_init ⟨by decide, by decide⟩
  case stock =>
      intro x
      simp [State.stock, completes, init, WorkerPc.hand]
  case starts =>
      intro x
      simp [State.busy, completes, starts, init]
  all_goals simp [init, submits, completes]

variable {id spin k : Nat} {drain : Bool}

section Micro

variable {n : Nat} {κ : Type*} {s : State n κ} {es : List (Event κ)} {T T' : List Nat}

/-- A deque changes hands with what is in transit. -/
theorem inv_setDeque (hI : Inv es s T) {j : Fin n} {d : Deque.State (Fin n) Nat}
    (hd : Deque.Inv d) (hsolid : none ∉ d.held)
    (hheld : ∀ x, d.held.count (some x) + T'.count x =
      (s.deques j).held.count (some x) + T.count x)
    (hcarry : (s.worker j).child = none ∨ d.owner.pushing = (s.deques j).owner.pushing)
    (hdrained : (s.worker j).drained = true → d.held = 0) : Inv es (s.setDeque j d) T' := by
  constructor
  case deque =>
      intro i
      by_cases hi : i = j
      · rw [hi, setDeque_self]
        exact hd
      · rw [setDeque_other _ _ _ hi]
        exact hI.deque i
  case solid =>
      intro i
      by_cases hi : i = j
      · rw [hi, setDeque_self]
        exact hsolid
      · rw [setDeque_other _ _ _ hi]
        exact hI.solid i
  case carry =>
      intro i child hchild
      have hold := hI.carry i child hchild
      by_cases hi : i = j
      · subst hi
        rw [setDeque_self]
        rcases hcarry with hnone | hsame
        · rw [show (s.setDeque i d).worker = s.worker from rfl, hnone] at hchild
          cases hchild
        · rw [hsame]
          exact hold
      · rw [setDeque_other _ _ _ hi]
        exact hold
  case stock =>
      intro x
      have hstock := hI.stock x
      have hset := stock_setDeque s j d x
      have hx := hheld x
      change (completes es).count x + (s.setDeque j d).stock x + _ = if x < s.next then 1 else 0
      omega
  case drained =>
      intro i hi
      by_cases hij : i = j
      · subst hij
        rw [setDeque_self]
        exact hdrained hi
      · rw [setDeque_other _ _ _ hij]
        exact hI.drained i hi
  case starts => exact hI.starts
  case submits => exact hI.submits
  case pending => exact hI.pending
  case tame => exact hI.tame
  case draining => exact hI.draining
  case joined => exact hI.joined
  case joined_le => exact hI.joined_le

/-- A worker goes on, and may take or leave what is in transit. -/
theorem inv_goto (hI : Inv es s T) {i : Fin n} {pc : WorkerPc} {p : Nat} {ev : List (Event κ)}
    (hhand : ∀ x, (completes ev).count x + pc.hand.count x + T'.count x =
      (s.worker i).hand.count x + T.count x)
    (hstarts : ∀ x, (starts ev).count x + (s.worker i).task.toList.count x =
      (completes ev).count x + pc.task.toList.count x)
    (hsubmits : submits ev = []) (hpending : p + (completes ev).length = s.pending)
    (htame : wild ∉ ev)
    (hcarry : ∀ child, pc.child = some child → (s.deques i).owner.pushing = some child)
    (hdrained : pc.drained = true → (s.deques i).held = 0)
    (hdraining : pc.draining = true → s.shutdown = true) (hexited : s.worker i ≠ .exited) :
    Inv (es ++ ev) { s.goto i pc with pending := p } T' := by
  constructor
  case deque => exact hI.deque
  case solid => exact hI.solid
  case carry =>
      intro j child hchild
      by_cases hj : j = i
      · rw [hj] at hchild ⊢
        exact hcarry child (goto_self s i pc ▸ hchild)
      · exact hI.carry j child (goto_other s i pc hj ▸ hchild)
  case stock =>
      intro x
      have hstock := hI.stock x
      have hgoto := stock_goto s i pc x
      have hx := hhand x
      rw [completes_append, List.count_append]
      change _ + _ + (s.goto i pc).stock x + _ = if x < s.next then 1 else 0
      omega
  case starts =>
      intro x
      have hbusy := busy_goto s i pc x
      have hx := hstarts x
      have hold := hI.starts x
      rw [completes_append, starts_append, List.count_append, List.count_append]
      change _ = _ + _ + (s.goto i pc).busy x
      omega
  case submits =>
      rw [submits_append, hsubmits, List.append_nil]
      exact hI.submits
  case pending =>
      have hold := hI.pending
      rw [completes_append, List.length_append]
      change p + _ = s.next
      omega
  case tame =>
      intro h
      rcases List.mem_append.mp h with h | h
      · exact hI.tame h
      · exact htame h
  case drained =>
      intro j hj
      by_cases hji : j = i
      · rw [hji] at hj ⊢
        exact hdrained (goto_self s i pc ▸ hj)
      · exact hI.drained j (goto_other s i pc hji ▸ hj)
  case draining =>
      intro j hj
      by_cases hji : j = i
      · rw [hji] at hj
        exact hdraining (goto_self s i pc ▸ hj)
      · exact hI.draining j (goto_other s i pc hji ▸ hj)
  case joined =>
      intro j hj
      have hold := hI.joined j hj
      refine Eq.trans (goto_other s i pc ?_) hold
      rintro rfl
      exact hexited hold
  case joined_le => exact hI.joined_le

/-- A worker goes on with what it has. -/
theorem inv_turn (hI : Inv es s T) {i : Fin n} {pc : WorkerPc}
    (htask : pc.task = (s.worker i).task) (hchild : pc.child = (s.worker i).child)
    (hdrained : pc.drained = true → (s.deques i).held = 0)
    (hdraining : pc.draining = true → s.shutdown = true) (hexited : s.worker i ≠ .exited) :
    Inv es (s.goto i pc) T := by
  have h : Inv (es ++ []) { s.goto i pc with pending := s.pending } T := by
    refine inv_goto hI (fun x => ?_) (fun x => ?_) rfl (Nat.add_zero _) (by simp)
      (fun child hc => hI.carry i child (hchild ▸ hc)) hdrained hdraining hexited
    · unfold WorkerPc.hand
      rw [htask, hchild]
      exact congrArg (· + _) (Nat.zero_add _)
    · rw [htask]
      rfl
  rwa [List.append_nil] at h

/-- A worker begins to execute the task that is in transit. -/
theorem inv_start (hI : Inv es s [id]) {i : Fin n} (htask : (s.worker i).task = none)
    (hchild : (s.worker i).child = none) (hdraining : drain = true → s.shutdown = true)
    (hexited : s.worker i ≠ .exited) : Inv (es ++ [started id]) (s.start i drain id).1 [] := by
  refine inv_goto hI (fun x => ?_) (fun x => ?_) rfl (Nat.add_zero _) (by simp) nofun nofun
    hdraining hexited
  · unfold WorkerPc.hand
    rw [htask, hchild]
    simp [completes, List.filterMap_cons]
  · rw [htask]
    simp [starts, completes, List.filterMap_cons]

/-- A call on a deque begins. -/
theorem inv_call (hI : Inv es s T) {j : Fin n} {a : Deque.Action (Fin n) Nat}
    {d : Deque.State (Fin n) Nat} {dev : List (Deque.Event (Fin n) Nat)}
    (h : Deque.step (s.deques j) a = some (d, dev)) (ha : a ≠ .own) (ha' : ∀ u, a ≠ .thieve u)
    (hcarry : (s.worker j).child = none ∨ d.owner.pushing = (s.deques j).owner.pushing) :
    Inv es (s.setDeque j d) T := by
  obtain ⟨hd, hheld⟩ := Deque.call_lands ha ha' (hI.deque j) h
  refine inv_setDeque hI hd (hheld ▸ hI.solid j) (fun x => by rw [hheld]) hcarry fun hdrained => ?_
  rw [hheld]
  exact hI.drained j hdrained

/-- A worker calls `pop` of its own deque. -/
theorem inv_callPop (hI : Inv es s T) {i : Fin n} {s' : State n κ}
    (h : s.callPop i drain spin = some s') (htask : (s.worker i).task = none)
    (hchild : (s.worker i).child = none) (hdraining : drain = true → s.shutdown = true)
    (hexited : s.worker i ≠ .exited) : Inv es s' T := by
  simp only [State.callPop, Option.map_eq_some_iff, Prod.exists] at h
  obtain ⟨d, dev, hstep, rfl⟩ := h
  have hcall := inv_call hI hstep nofun nofun (.inl hchild)
  exact inv_turn hcall htask.symm hchild.symm nofun hdraining hexited

/-- A worker calls `steal` of a peer's deque, or gives up. -/
theorem inv_callSteal (hI : Inv es s T) {i : Fin n} {s' : State n κ}
    (h : s.callSteal i spin k = some s') (htask : (s.worker i).task = none)
    (hchild : (s.worker i).child = none) (hexited : s.worker i ≠ .exited) : Inv es s' T := by
  unfold State.callSteal at h
  split at h
  · simp only [Option.map_eq_some_iff, Prod.exists] at h
    obtain ⟨d, dev, hstep, rfl⟩ := h
    have howner : d.owner = (s.deques (victim i k)).owner := by
      simp only [Deque.step] at hstep
      split at hstep
      · simp only [Option.some.injEq, Prod.mk.injEq] at hstep
        rw [← hstep.1]
        rfl
      · cases hstep
    have hcall := inv_call hI hstep (by rintro ⟨⟩) (by rintro _ ⟨⟩) (.inr (by rw [howner]))
    exact inv_turn hcall htask.symm hchild.symm (by rintro ⟨⟩) (by rintro ⟨⟩) hexited
  · split at h
    all_goals
      cases h
      exact inv_turn hI htask.symm hchild.symm (by rintro ⟨⟩) (by rintro ⟨⟩) hexited

end Micro

/-- What a step of a deque does. -/
theorem Inv.deque_step {n : Nat} {κ : Type*} {s : State n κ} {es : List (Event κ)} {T : List Nat}
    (hI : Inv es s T) {j : Fin n} {a : Deque.Action (Fin n) Nat} {d : Deque.State (Fin n) Nat}
    {dev : List (Deque.Event (Fin n) Nat)} (h : Deque.step (s.deques j) a = some (d, dev)) :
    Deque.Inv d ∧ none ∉ d.held ∧ none ∉ Deque.returns dev ∧
      ∀ x, d.held.count x + (Deque.returns dev).count x =
        (s.deques j).held.count x + (Deque.pushes dev).count x := by
  have hland := Deque.step_lands (hI.deque j) h
  obtain ⟨hsolid, hreturn⟩ := hland.solid (hI.solid j)
  refine ⟨hland.inv, hsolid, hreturn, fun x => ?_⟩
  rw [← Multiset.count_add, hland.balance, Multiset.count_add]

theorem count_some (id x : Nat) :
    ({some id} : Multiset (Option Nat)).count (some x) = [id].count x := by
  by_cases h : id = x
  · simp [h]
  · rw [Multiset.count_eq_zero.mpr, List.count_eq_zero.mpr]
    · simpa using Ne.symm h
    · simpa using Ne.symm h

section Work

variable {n : Nat} {κ : Type*} {s s' : State n κ} {es ev : List (Event κ)} {i : Fin n}

variable {lucky : Bool}

theorem own_inv (hI : Inv es s []) (hpc : s.worker i = .own drain spin)
    (h : workerGo s i lucky = some (s', ev)) : Inv (es ++ ev) s' [] := by
  simp only [workerGo, hpc, Option.bind_eq_some_iff, Prod.exists] at h
  obtain ⟨d, dev, hstep, h⟩ := h
  obtain ⟨hd, hsolid, hreturn, hbalance⟩ := hI.deque_step hstep
  have hexited : s.worker i ≠ .exited := by simp [hpc]
  have hshut : drain = true → s.shutdown = true := fun hd => hI.draining i (by simpa [hpc] using hd)
  split at h
  · -- in the middle of it
    cases h
    rw [List.append_nil]
    refine inv_setDeque hI hd hsolid (fun x => ?_) (.inl (by simp [hpc])) (by simp [hpc])
    simpa [Deque.pushes, Deque.returns] using hbalance (some x)
  · rename_i id
    cases h
    have hset : Inv es (s.setDeque i d) [id] := by
      refine inv_setDeque hI hd hsolid (fun x => ?_) (.inl (by simp [hpc])) (by simp [hpc])
      rw [← count_some]
      exact hbalance (some x)
    exact inv_start hset (by simp [State.setDeque, hpc]) (by simp [State.setDeque, hpc]) hshut
      hexited
  · exact absurd hreturn (by simp [Deque.returns])
  · cases h
    rw [List.append_nil]
    have hempty := Deque.ownerGo_none (hI.deque i) hstep
    have hset : Inv es (s.setDeque i d) [] := by
      refine inv_setDeque hI hd hsolid (fun x => ?_) (.inl (by simp [hpc])) (by simp [hpc])
      simpa [Deque.pushes, Deque.returns, List.filterMap_cons] using hbalance (some x)
    refine inv_turn hset (by simp [State.setDeque, hpc]) (by simp [State.setDeque, hpc])
      (fun _ => ?_) hshut hexited
    rw [setDeque_self]
    exact hempty
  · cases h

/-- The inbox, and the calls on their way to it. -/
theorem inv_inbox {T T' : List Nat} (hI : Inv es s T) {inbox calls : List Nat}
    (hcount : ∀ x, inbox.count x + calls.count x + T'.count x =
      s.inbox.count x + s.calls.count x + T.count x) :
    Inv es { s with inbox := inbox, calls := calls } T' := by
  refine { hI with stock := fun x => ?_ }
  have hstock := hI.stock x
  have hx := hcount x
  unfold State.stock at hstock ⊢
  dsimp only
  omega

theorem inbox_inv (hI : Inv es s []) (hpc : s.worker i = .inbox drain spin)
    (h : workerGo s i lucky = some (s', ev)) : Inv (es ++ ev) s' [] := by
  simp only [workerGo, hpc] at h
  have hexited : s.worker i ≠ .exited := by simp [hpc]
  have hshut : drain = true → s.shutdown = true := fun hd => hI.draining i (by simpa [hpc] using hd)
  -- nothing in the inbox, or nobody let in
  have hsteal : (s.callSteal i spin 1).map (fun s => (s, ([] : List (Event κ)))) = some (s', ev) →
      Inv (es ++ ev) s' [] := by
    intro h
    simp only [Option.map_eq_some_iff, Prod.mk.injEq] at h
    obtain ⟨s₁, hcall, rfl, rfl⟩ := h
    rw [List.append_nil]
    exact inv_callSteal hI hcall (by simp [hpc]) (by simp [hpc]) hexited
  split at h
  · split at h
    · rename_i id hlast
      cases h
      have hin : s.inbox.dropLast ++ [id] = s.inbox := List.dropLast_append_getLast? _ hlast
      have hbox : Inv es { s with inbox := s.inbox.dropLast } [id] := by
        refine inv_inbox hI fun x => ?_
        have := congrArg (List.count x) hin
        rw [List.count_append] at this
        rw [List.count_nil]
        omega
      exact inv_start hbox (by simp [hpc]) (by simp [hpc]) hshut hexited
    · split at h
      · rename_i hdrain
        cases h
        rw [List.append_nil]
        refine inv_turn hI (by simp [hpc]) (by simp [hpc]) (fun _ => ?_) (fun _ => hshut hdrain)
          hexited
        exact hI.drained i (by simpa [hpc] using hdrain)
      · exact hsteal h
  · exact hsteal h

theorem steal_inv (hI : Inv es s []) (hpc : s.worker i = .steal spin k)
    (h : workerGo s i lucky = some (s', ev)) : Inv (es ++ ev) s' [] := by
  simp only [workerGo, hpc, Option.bind_eq_some_iff, Prod.exists] at h
  obtain ⟨d, dev, hstep, h⟩ := h
  obtain ⟨hd, hsolid, hreturn, hbalance⟩ := hI.deque_step hstep
  have howner := Deque.thiefGo_owner hstep
  have hexited : s.worker i ≠ .exited := by simp [hpc]
  -- what a thief does to an empty deque
  have hdrained : Deque.pushes dev = 0 → (s.worker (victim i k)).drained = true → d.held = 0 := by
    intro hpushes hv
    have hheld := hI.drained _ hv
    refine Multiset.eq_zero_of_forall_notMem fun x hx => ?_
    have := hbalance x
    rw [hheld, hpushes] at this
    have := Multiset.count_pos.mpr hx
    simp_all
  have hset : ∀ T : List Nat, Deque.pushes dev = 0 →
      (∀ x, T.count x = (Deque.returns dev).count (some x)) →
      Inv es (s.setDeque (victim i k) d) T := by
    intro T hpushes hT
    refine inv_setDeque hI hd hsolid (fun x => ?_) (.inr (by rw [howner])) (hdrained hpushes)
    have := hbalance (some x)
    rw [hpushes, Multiset.count_zero] at this
    rw [hT x, List.count_nil]
    exact this
  split at h
  · cases h
    rw [List.append_nil]
    exact hset [] rfl fun x => rfl
  · rename_i id
    cases h
    exact inv_start (hset [id] rfl fun x => (count_some id x).symm)
      (by simp [State.setDeque, hpc]) (by simp [State.setDeque, hpc]) nofun hexited
  · exact absurd hreturn (by simp [Deque.returns])
  · simp only [Option.map_eq_some_iff, Prod.mk.injEq] at h
    obtain ⟨s₁, hcall, rfl, rfl⟩ := h
    rw [List.append_nil]
    exact inv_callSteal (hset [] rfl fun x => rfl) hcall (by simp [State.setDeque, hpc])
      (by simp [State.setDeque, hpc]) hexited
  · cases h

/-- A task is allocated. -/
theorem inv_allocate (hI : Inv es s []) (job : Job) :
    Inv (es ++ [submitted s.next]) (s.allocate job) [s.next] := by
  have hcompletes : completes (es ++ [submitted s.next]) = completes es := by
    rw [completes_append]
    exact List.append_nil _
  constructor
  case stock =>
      intro x
      have hstock := hI.stock x
      rw [hcompletes]
      change _ + s.stock x + _ = if x < s.next + 1 then 1 else 0
      rw [List.count_nil] at hstock
      rw [List.count_singleton]
      by_cases hx : x = s.next
      · rw [if_neg (by omega)] at hstock
        rw [if_pos (by simp [hx]), if_pos (by omega)]
        omega
      · rw [if_neg (by simpa using Ne.symm hx), hstock]
        exact if_congr (by omega) rfl rfl
  case starts =>
      intro x
      rw [hcompletes]
      have hstarts : starts (es ++ [submitted s.next]) = starts es := by
        rw [starts_append]
        exact List.append_nil _
      rw [hstarts]
      exact hI.starts x
  case submits =>
      rw [submits_append, hI.submits]
      exact List.range_succ.symm
  case pending =>
      have hold := hI.pending
      rw [hcompletes]
      change s.pending + 1 + _ = s.next + 1
      omega
  case tame => simpa using hI.tame
  case deque => exact hI.deque
  case solid => exact hI.solid
  case carry => exact hI.carry
  case drained => exact hI.drained
  case draining => exact hI.draining
  case joined => exact hI.joined
  case joined_le => exact hI.joined_le

theorem length_lt_of_count {l : List Nat} {m x : Nat}
    (h : ∀ y, l.count y ≤ if y < m then 1 else 0) (hx : x < m) (hnot : x ∉ l) : l.length < m := by
  have hnodup : (x :: l).Nodup := by
    refine List.nodup_cons.mpr ⟨hnot, List.nodup_iff_count_le_one.mpr fun y => ?_⟩
    have := h y
    split at this <;> omega
  have hsub : x :: l ⊆ List.range m := by
    intro y hy
    refine List.mem_range.mpr ?_
    rcases List.mem_cons.mp hy with rfl | hy
    · exact hx
    · have hpos := List.count_pos_iff.mpr hy
      have := h y
      split at this <;> omega
  have := (hnodup.subperm hsub).length_le
  rw [List.length_range, List.length_cons] at this
  omega

/-- A task that is somewhere in the pool is counted. -/
theorem Inv.pending_pos (hI : Inv es s []) {x : Nat} (hx : 0 < s.stock x) : 0 < s.pending := by
  have hstock := hI.stock x
  have hpending := hI.pending
  rw [List.count_nil] at hstock
  have hlt : x < s.next := by
    by_contra hge
    rw [if_neg hge] at hstock
    omega
  rw [if_pos hlt] at hstock
  have hlen := length_lt_of_count (l := completes es) (m := s.next) (fun y => ?_) hlt
    (List.count_eq_zero.mp (by omega))
  · omega
  · have := hI.stock y
    omega

theorem stock_pos {task : Nat} (h : (s.worker i).task = some task) : 0 < s.stock task := by
  have hmine : 0 < (s.worker i).hand.count task := by
    unfold WorkerPc.hand
    rw [h]
    simp
  have hle : (s.worker i).hand.count task ≤ ∑ j, (s.worker j).hand.count task :=
    Finset.single_le_sum (f := fun j => (s.worker j).hand.count task) (fun _ _ => Nat.zero_le _)
      (Finset.mem_univ i)
  unfold State.stock
  omega

theorem running_inv (hI : Inv es s []) {task : Nat} {todo : List Job}
    (hpc : s.worker i = .running drain task todo) (h : workerGo s i lucky = some (s', ev)) :
    Inv (es ++ ev) s' [] := by
  have hexited : s.worker i ≠ .exited := by simp [hpc]
  have hshut : drain = true → s.shutdown = true := fun hd => hI.draining i (by simpa [hpc] using hd)
  cases todo with
  | cons job todo =>
      simp only [workerGo, hpc, Option.map_eq_some_iff, Prod.exists, Prod.mk.injEq] at h
      obtain ⟨d, dev, hstep, rfl, rfl⟩ := h
      have hpushing : d.owner.pushing = some s.next := by
        simp only [Deque.step] at hstep
        split at hstep
        · simp only [Option.some.injEq, Prod.mk.injEq] at hstep
          rw [← hstep.1]
          rfl
        · cases hstep
      have hcall : Inv (es ++ [submitted s.next]) ((s.allocate job).setDeque i d) [s.next] :=
        inv_call (inv_allocate hI job) hstep (by rintro ⟨⟩) (by rintro _ ⟨⟩)
          (.inl (by simp [State.allocate, hpc]))
      have hlast : Inv (es ++ [submitted s.next] ++ [])
          { ((s.allocate job).setDeque i d).goto i (.submitting drain task s.next todo) with
            pending := s.pending + 1 } [] := by
        refine inv_goto hcall (fun x => ?_) (fun x => ?_) rfl rfl (by simp) ?_ (by rintro ⟨⟩) hshut
          hexited
        · simp [completes, WorkerPc.hand, State.setDeque, State.allocate, hpc, List.count_cons,
            Nat.add_comm]
        · simp [starts, completes, State.setDeque, State.allocate, hpc]
        · intro child hchild
          rw [setDeque_self, hpushing]
          exact hchild
      rwa [List.append_nil] at hlast
  | nil =>
      have hpos := hI.pending_pos (stock_pos (show (s.worker i).task = some task by simp [hpc]))
      -- the task is counted off, whatever the worker does next
      have hdone : ∀ {s₁ : State n κ} {pc : WorkerPc}, Inv es s₁ [] → s₁.worker i = s.worker i →
          s₁.pending = s.pending → pc.task = none → pc.child = none → pc.drained = false →
          (pc.draining = true → s₁.shutdown = true) →
          Inv (es ++ [completed task]) { s₁.goto i pc with pending := s.pending - 1 } [] := by
        intro s₁ pc hI₁ hworker hpending htask hchild hdrained hdraining
        refine inv_goto hI₁ (fun x => ?_) (fun x => ?_) rfl ?_ (by simp) ?_ ?_ hdraining
          (by rw [hworker]; exact hexited)
        · unfold WorkerPc.hand
          rw [hworker, hpc, htask, hchild]
          simp [completes]
        · rw [hworker, hpc, htask]
          simp [starts, completes, List.filterMap_cons]
        · simp only [completes, List.filterMap_cons, Event.complete, List.filterMap_nil,
            List.length_singleton]
          omega
        · intro child hc
          rw [hchild] at hc
          cases hc
        · intro hc
          rw [hdrained] at hc
          cases hc
      simp only [workerGo, hpc] at h
      split at h
      · rename_i hdrain
        simp only [State.callPop, Option.map_eq_some_iff, Prod.exists, Prod.mk.injEq] at h
        obtain ⟨s₁, ⟨d, dev, hstep, rfl⟩, rfl, rfl⟩ := h
        have hcall : Inv es (s.setDeque i d) [] :=
          inv_call hI hstep (by rintro ⟨⟩) (by rintro _ ⟨⟩) (.inl (by simp [hpc]))
        exact hdone hcall rfl rfl rfl rfl rfl fun _ => hshut hdrain
      · cases h
        exact hdone hI rfl rfl rfl rfl rfl (by rintro ⟨⟩)

theorem submitting_inv (hI : Inv es s []) {task child : Nat} {todo : List Job}
    (hpc : s.worker i = .submitting drain task child todo)
    (h : workerGo s i lucky = some (s', ev)) : Inv (es ++ ev) s' [] := by
  simp only [workerGo, hpc, Option.bind_eq_some_iff, Prod.exists] at h
  obtain ⟨d, dev, hstep, h⟩ := h
  obtain ⟨hd, hsolid, _, hbalance⟩ := hI.deque_step hstep
  have hcarry := hI.carry i child (by simp [hpc])
  have hexited : s.worker i ≠ .exited := by simp [hpc]
  have hshut : drain = true → s.shutdown = true := fun hd => hI.draining i (by simpa [hpc] using hd)
  rcases Deque.ownerGo_pushing hcarry hstep with ⟨rfl, hpushing⟩ | rfl
  · cases h
    rw [List.append_nil]
    refine inv_setDeque hI hd hsolid (fun x => ?_) (.inr (hpushing.trans hcarry.symm))
      (by simp [hpc])
    simpa [Deque.pushes, Deque.returns] using hbalance (some x)
  · cases h
    -- the worker lets go of the task, and the deque has it
    have hgoto : Inv (es ++ []) { s.goto i (.running drain task todo) with pending := s.pending }
        [child] := by
      refine inv_goto hI (fun x => ?_) (fun x => ?_) rfl rfl (by simp) nofun nofun hshut hexited
      · simp [completes, WorkerPc.hand, hpc, List.count_cons, Nat.add_comm]
      · simp [starts, completes, hpc]
    refine inv_setDeque hgoto hd hsolid (fun x => ?_) (.inl ?_) ?_
    · rw [← count_some]
      exact hbalance (some x)
    · exact congrArg WorkerPc.child (goto_self s i _)
    · intro hc
      rw [show State.worker { s.goto i (.running drain task todo) with pending := s.pending } i =
        .running drain task todo from goto_self s i _] at hc
      cases hc

theorem workerGo_inv (hI : Inv es s []) (h : workerGo s i lucky = some (s', ev)) :
    Inv (es ++ ev) s' [] := by
  cases hpc : s.worker i with
  | loop spin =>
      simp only [workerGo, hpc, Option.map_eq_some_iff, Prod.mk.injEq] at h
      obtain ⟨s₁, hcall, rfl, rfl⟩ := h
      rw [List.append_nil]
      exact inv_callPop hI hcall (by simp [hpc]) (by simp [hpc]) id (by simp [hpc])
  | own => exact own_inv hI hpc h
  | inbox => exact inbox_inv hI hpc h
  | steal => exact steal_inv hI hpc h
  | sleep =>
      simp only [workerGo, hpc, Option.some.injEq, Prod.mk.injEq] at h
      obtain ⟨rfl, rfl⟩ := h
      rw [List.append_nil]
      exact inv_turn hI (by simp [hpc]) (by simp [hpc]) nofun nofun (by simp [hpc])
  | running => exact running_inv hI hpc h
  | submitting => exact submitting_inv hI hpc h
  | lost | exited => simp [workerGo, hpc] at h

/-- What a worker leaves alone. -/
structure Frame (s s' : State n κ) (i : Fin n) (ev : List (Event κ)) : Prop where
  shutdown : s'.shutdown = s.shutdown
  calls : s'.calls = s.calls
  wait : s'.wait = s.wait
  inbox : s.inbox = [] → s'.inbox = []
  /-- A worker leaves when there is nothing in the inbox. -/
  exits : ∀ j, s'.worker j = .exited → s.worker j = .exited ∨ s.inbox = []
  /-- A worker that executes nothing counts nothing. -/
  pending : (s.worker i).task = none → s'.pending = s.pending
  silent : ∀ c, waited c ∉ ev

/-- Most steps go no further than a deque and the worker itself. -/
theorem frame_goto {pc : WorkerPc} (D : Fin n → Deque.State (Fin n) Nat) (hpc : pc ≠ .exited)
    (hev : ∀ c, waited c ∉ ev) : Frame s { s.goto i pc with deques := D } i ev := by
  refine ⟨rfl, rfl, rfl, id, fun j hj => .inl ?_, fun _ => rfl, hev⟩
  by_cases hji : j = i
  · rw [hji] at hj
    exact absurd ((goto_self s i pc).symm.trans hj) hpc
  · exact (goto_other s i pc hji).symm.trans hj

theorem frame_setDeque (j : Fin n) (d : Deque.State (Fin n) Nat) : Frame s (s.setDeque j d) i [] :=
  ⟨rfl, rfl, rfl, id, fun _ hj => .inl hj, fun _ => rfl, by simp⟩

theorem frame_callPop (h : s.callPop i drain spin = some s') : Frame s s' i [] := by
  simp only [State.callPop, Option.map_eq_some_iff, Prod.exists] at h
  obtain ⟨d, dev, _, rfl⟩ := h
  exact frame_goto _ nofun (by simp)

theorem frame_callSteal (D : Fin n → Deque.State (Fin n) Nat)
    (h : State.callSteal { s with deques := D } i spin k = some s') : Frame s s' i [] := by
  unfold State.callSteal at h
  split at h
  · simp only [Option.map_eq_some_iff, Prod.exists] at h
    obtain ⟨d, dev, _, rfl⟩ := h
    exact frame_goto _ nofun (by simp)
  · split at h
    all_goals
      cases h
      exact frame_goto D nofun (by simp)

theorem workerGo_frame (h : workerGo s i lucky = some (s', ev)) : Frame s s' i ev := by
  cases hpc : s.worker i with
  | loop spin =>
      simp only [workerGo, hpc, Option.map_eq_some_iff, Prod.mk.injEq] at h
      obtain ⟨s₁, hcall, rfl, rfl⟩ := h
      exact frame_callPop hcall
  | own drain spin =>
      simp only [workerGo, hpc, Option.bind_eq_some_iff, Prod.exists] at h
      obtain ⟨d, dev, _, h⟩ := h
      split at h <;> cases h
      · exact frame_setDeque i d
      all_goals exact frame_goto _ nofun (by simp)
  | inbox drain spin =>
      simp only [workerGo, hpc] at h
      have hsteal : (s.callSteal i spin 1).map (fun s => (s, ([] : List (Event κ)))) =
          some (s', ev) → Frame s s' i ev := by
        intro h
        simp only [Option.map_eq_some_iff, Prod.mk.injEq] at h
        obtain ⟨s₁, hcall, rfl, rfl⟩ := h
        exact frame_callSteal s.deques hcall
      split at h
      · split at h
        · rename_i id hlast
          cases h
          have hf : Frame s (s.goto i (.running drain id (s.jobs id))) i [.started id] :=
            frame_goto s.deques nofun (by simp)
          refine { hf with inbox := fun hempty => ?_ }
          rw [hempty] at hlast
          cases hlast
        · rename_i hnone
          split at h
          · cases h
            have hempty : s.inbox = [] := List.getLast?_eq_none_iff.mp hnone
            exact ⟨rfl, rfl, rfl, fun h => h, fun _ _ => .inr hempty, fun _ => rfl, by simp⟩
          · exact hsteal h
      · exact hsteal h
  | steal spin k =>
      simp only [workerGo, hpc, Option.bind_eq_some_iff, Prod.exists] at h
      obtain ⟨d, dev, _, h⟩ := h
      split at h
      · cases h
        exact frame_setDeque _ d
      · cases h
        exact frame_goto _ nofun (by simp)
      · cases h
        exact frame_goto _ nofun (by simp)
      · simp only [Option.map_eq_some_iff, Prod.mk.injEq] at h
        obtain ⟨s₁, hcall, rfl, rfl⟩ := h
        exact frame_callSteal _ hcall
      · cases h
  | sleep =>
      simp only [workerGo, hpc, Option.some.injEq, Prod.mk.injEq] at h
      obtain ⟨rfl, rfl⟩ := h
      exact frame_goto s.deques nofun (by simp)
  | running drain task todo =>
      have hbusy : ∀ p, (s.worker i).task = none → p = s.pending := by
        intro p hnone
        rw [hpc] at hnone
        cases hnone
      cases todo with
      | cons job todo =>
          simp only [workerGo, hpc, Option.map_eq_some_iff, Prod.exists, Prod.mk.injEq] at h
          obtain ⟨d, dev, _, rfl, rfl⟩ := h
          have hf : Frame s { s.goto i (.submitting drain task s.next todo) with
            deques := Function.update s.deques i d } i [.submitted s.next] :=
            frame_goto _ nofun (by simp)
          exact { hf with pending := hbusy _ }
      | nil =>
          simp only [workerGo, hpc] at h
          split at h
          · simp only [State.callPop, Option.map_eq_some_iff, Prod.exists, Prod.mk.injEq] at h
            obtain ⟨s₁, ⟨d, dev, _, rfl⟩, rfl, rfl⟩ := h
            have hf : Frame s { s.goto i (.own true 0) with
              deques := Function.update s.deques i d } i [.completed task] :=
              frame_goto _ nofun (by simp)
            exact { hf with pending := hbusy _ }
          · cases h
            have hf : Frame s (s.goto i (.loop 0)) i [.completed task] :=
              frame_goto s.deques nofun (by simp)
            exact { hf with pending := hbusy _ }
  | submitting drain task child todo =>
      simp only [workerGo, hpc, Option.bind_eq_some_iff, Prod.exists] at h
      obtain ⟨d, dev, _, h⟩ := h
      split at h <;> cases h
      · exact frame_setDeque i d
      · exact frame_goto _ nofun (by simp)
  | lost | exited => simp [workerGo, hpc] at h

end Work

/-! ## Whole runs -/

section Runs

variable {n : Nat} {κ : Type*} [DecidableEq κ] {s s' : State n κ} {es ev : List (Event κ)}
  {a : Action n κ}

theorem step_inv (hI : Inv es s []) (h : step s a = some (s', ev)) : Inv (es ++ ev) s' [] := by
  cases a with
  | work i lucky => exact workerGo_inv hI h
  | submit job =>
      simp only [step, Option.some.injEq, Prod.mk.injEq] at h
      obtain ⟨rfl, rfl⟩ := h
      refine inv_inbox (inv_allocate hI job) fun x => ?_
      change s.inbox.count x + (s.next :: s.calls).count x + _ =
        s.inbox.count x + s.calls.count x + _
      simp only [List.count_cons, List.count_nil]
      omega
  | deliver id =>
      simp only [step] at h
      split at h
      · rename_i hmem
        cases h
        rw [List.append_nil]
        refine inv_inbox hI fun x => ?_
        have := (List.perm_cons_erase hmem).count_eq x
        rw [List.count_cons] at this
        simp only [List.count_append, List.count_cons, List.count_nil]
        omega
      · cases h
  | wait c =>
      simp only [step] at h
      have hsame : ∀ w, Inv es { s with wait := w } [] := fun w => { hI with }
      split at h
      · cases h
        rw [List.append_nil]
        exact hsame _
      · split at h
        · cases h
          rw [List.append_nil]
          exact hsame _
        · cases h
      · cases h
        have hsubmits : submits (es ++ [waited c]) = submits es := by
          rw [submits_append]
          exact List.append_nil _
        have hstarts : starts (es ++ [waited c]) = starts es := by
          rw [starts_append]
          exact List.append_nil _
        have hcompletes : completes (es ++ [waited c]) = completes es := by
          rw [completes_append]
          exact List.append_nil _
        refine { hsame _ with
          stock := ?_, starts := ?_, submits := ?_, pending := ?_, tame := by simpa using hI.tame }
        · rw [hcompletes]
          exact (hsame _).stock
        · rw [hstarts, hcompletes]
          exact (hsame _).starts
        · rw [hsubmits]
          exact (hsame _).submits
        · rw [hcompletes]
          exact (hsame _).pending
  | destroy =>
      simp only [step] at h
      split at h
      · cases h
      · cases h
        rw [List.append_nil]
        exact { hI with draining := fun _ _ => rfl }
  | join =>
      simp only [step] at h
      split at h
      · rename_i hlt
        split at h
        · rename_i _ hexited
          cases h
          rw [List.append_nil]
          refine { hI with joined := fun i hi => ?_, joined_le := hlt }
          rcases Nat.lt_succ_iff_lt_or_eq.mp hi with hi | hi
          · exact hI.joined i hi
          · rwa [show (⟨s.joined, hlt⟩ : Fin n) = i from Fin.ext hi.symm] at hexited
        · cases h
      · cases h

theorem run_inv {ok : State n κ → Action n κ → Prop} (h : Run step ok init es s) :
    Inv es s [] := by
  refine Run.invariant (I := fun es s => Inv es s []) inv_init ?_ h
  exact fun hI _ hstep => step_inv hI hstep

/-! ### The destructor -/

/-- Nobody outside the pool submits once the destructor has been called, and nobody is about to
when it is. -/
def Apart (s : State n κ) : Action n κ → Prop
  | .submit _ => s.shutdown = false
  | .destroy => s.calls = []
  | _ => True

instance (s : State n κ) : (a : Action n κ) → Decidable (Apart s a)
  | .submit _ => inferInstanceAs (Decidable (s.shutdown = false))
  | .destroy => inferInstanceAs (Decidable (s.calls = []))
  | .work _ _ | .deliver _ | .wait _ | .join => isTrue trivial

/-- What holds when nobody submits too late. -/
structure Closed (s : State n κ) : Prop where
  calls : s.shutdown = true → s.calls = []
  inbox : ∀ i, s.worker i = .exited → s.inbox = []

theorem closed_step (hI : Inv es s []) (hC : Closed s) (hok : Apart s a)
    (h : step s a = some (s', ev)) : Closed s' := by
  cases a with
  | work i lucky =>
      have hf := workerGo_frame h
      constructor
      case calls =>
          rw [hf.shutdown, hf.calls]
          exact hC.calls
      case inbox =>
          intro j hj
          rcases hf.exits j hj with hj | hempty
          · exact hf.inbox (hC.inbox j hj)
          · exact hf.inbox hempty
  | submit job =>
      simp only [step, Option.some.injEq, Prod.mk.injEq] at h
      obtain ⟨rfl, _⟩ := h
      have hopen : s.shutdown = false := hok
      refine ⟨fun hshut => ?_, hC.inbox⟩
      exact absurd (hopen.symm.trans hshut) (by decide)
  | deliver id =>
      simp only [step] at h
      split at h
      · rename_i hmem
        cases h
        -- somebody is on the way, so there was no shutdown
        have hopen : s.shutdown ≠ true := by
          intro hshut
          rw [hC.calls hshut] at hmem
          cases hmem
        refine ⟨fun hshut => absurd hshut hopen, fun i hi => ?_⟩
        exact absurd (hI.draining i (show (s.worker i).draining = true by rw [hi]; rfl)) hopen
      · cases h
  | wait c =>
      simp only [step] at h
      split at h
      · cases h
        exact ⟨hC.calls, hC.inbox⟩
      · split at h
        · cases h
          exact ⟨hC.calls, hC.inbox⟩
        · cases h
      · cases h
        exact ⟨hC.calls, hC.inbox⟩
  | destroy =>
      simp only [step] at h
      split at h
      · cases h
      · cases h
        exact ⟨fun _ => hok, hC.inbox⟩
  | join =>
      simp only [step] at h
      split at h
      · split at h
        · cases h
          exact ⟨hC.calls, hC.inbox⟩
        · cases h
      · cases h

theorem run_closed (h : Run step Apart init es s) : Closed s := by
  refine (Run.invariant (I := fun es (s : State n κ) => Inv es s [] ∧ Closed s)
    ⟨inv_init, ⟨fun _ => rfl, fun _ _ => rfl⟩⟩ ?_ h).2
  intro es ev s s' a hI hok hstep
  exact ⟨step_inv hI.1 hstep, closed_step hI.1 hI.2 hok hstep⟩

omit [DecidableEq κ] in
/-- When all workers have left there is nothing anywhere. -/
theorem stock_eq_zero (hpos : 0 < n) (hI : Inv es s []) (hC : Closed s) (hjoined : s.joined = n)
    (x : Nat) : s.stock x = 0 := by
  have hexited : ∀ i, s.worker i = .exited := by
    intro i
    exact hI.joined i (by rw [hjoined]; exact i.isLt)
  have hshut : s.shutdown = true := hI.draining ⟨0, hpos⟩ (by rw [hexited]; rfl)
  have hheld : ∀ i, (s.deques i).held = 0 := fun i => hI.drained i (by rw [hexited]; rfl)
  have hdeques : ∑ i, (s.deques i).held.count (some x) = 0 := by
    refine Finset.sum_eq_zero fun i _ => ?_
    rw [hheld, Multiset.count_zero]
  have hhands : ∑ i, (s.worker i).hand.count x = 0 := by
    refine Finset.sum_eq_zero fun i _ => ?_
    rw [hexited]
    rfl
  unfold State.stock
  rw [hdeques, hhands, hC.inbox ⟨0, hpos⟩ (hexited _), hC.calls hshut]
  rfl

/-! ### Waiting -/

/-- Nobody outside the pool submits while somebody waits. -/
def Quiet (s : State n κ) : Action n κ → Prop
  | .submit _ => ∀ c, s.wait c = .idle
  | _ => True

instance [Fintype κ] (s : State n κ) : (a : Action n κ) → Decidable (Quiet s a)
  | .submit _ => inferInstanceAs (Decidable (∀ c, s.wait c = .idle))
  | .work _ _ | .deliver _ | .wait _ | .destroy | .join => isTrue trivial

omit [DecidableEq κ] in
theorem mem_submits : id ∈ submits es ↔ submitted id ∈ es := by
  constructor
  · intro h
    obtain ⟨e, he, hid⟩ := List.mem_filterMap.mp h
    cases e <;> simp only [Event.submit, Option.some.injEq, reduceCtorEq] at hid
    exact hid ▸ he
  · exact fun h => List.mem_filterMap.mpr ⟨_, h, rfl⟩

omit [DecidableEq κ] in
theorem mem_starts : id ∈ starts es ↔ started id ∈ es := by
  constructor
  · intro h
    obtain ⟨e, he, hid⟩ := List.mem_filterMap.mp h
    cases e <;> simp only [Event.start, Option.some.injEq, reduceCtorEq] at hid
    exact hid ▸ he
  · exact fun h => List.mem_filterMap.mpr ⟨_, h, rfl⟩

omit [DecidableEq κ] in
theorem mem_completes : id ∈ completes es ↔ completed id ∈ es := by
  constructor
  · intro h
    obtain ⟨e, he, hid⟩ := List.mem_filterMap.mp h
    cases e <;> simp only [Event.complete, Option.some.injEq, reduceCtorEq] at hid
    exact hid ▸ he
  · exact fun h => List.mem_filterMap.mpr ⟨_, h, rfl⟩

omit [DecidableEq κ] in
/-- A task that was submitted and is nowhere is completed. -/
theorem Inv.completed_of_stock (hI : Inv es s []) (h : submitted id ∈ es)
    (hstock : s.stock id = 0) : started id ∈ es ∧ completed id ∈ es := by
  have hlt : id < s.next := by
    have hmem := mem_submits.mpr h
    rw [hI.submits] at hmem
    exact List.mem_range.mp hmem
  have hcount := hI.stock id
  rw [hstock, if_pos hlt, List.count_nil] at hcount
  have hstarts := hI.starts id
  exact ⟨mem_starts.mp (List.count_pos_iff.mp (by omega)),
    mem_completes.mp (List.count_pos_iff.mp (by omega))⟩

omit [DecidableEq κ] in
/-- When nothing is pending, everything that was submitted is completed. -/
theorem Inv.all_completed (hI : Inv es s []) (hzero : s.pending = 0) (h : submitted id ∈ es) :
    completed id ∈ es := by
  refine (hI.completed_of_stock h ?_).2
  by_contra hne
  have := hI.pending_pos (Nat.pos_of_ne_zero hne)
  omega

/-- Whoever leaves `wait` leaves a pool with nothing to do. -/
def Left (s : State n κ) : Prop := ∀ c, s.wait c = .leaving → s.pending = 0

theorem left_step (hI : Inv es s []) (hL : Left s) (hok : Quiet s a)
    (h : step s a = some (s', ev)) : Left s' := by
  intro c hc
  cases a with
  | work i lucky =>
      have hf := workerGo_frame h
      have hzero := hL c (hf.wait ▸ hc)
      rw [hf.pending, hzero]
      -- nobody is executing anything
      cases htask : (s.worker i).task with
      | none => rfl
      | some task =>
          have := hI.pending_pos (stock_pos htask)
          omega
  | submit job =>
      simp only [step, Option.some.injEq, Prod.mk.injEq] at h
      obtain ⟨rfl, _⟩ := h
      have hidle : s.wait c = .idle := hok c
      exact absurd (hidle.symm.trans hc) nofun
  | deliver id =>
      simp only [step] at h
      split at h
      · cases h
        exact hL c hc
      · cases h
  | wait w =>
      simp only [step] at h
      split at h
      · cases h
        by_cases hcw : c = w
        · rw [hcw] at hc
          simp only [Function.update_self, reduceCtorEq] at hc
        · exact hL c (by simpa only [Function.update_of_ne hcw] using hc)
      · split at h
        · rename_i hzero
          cases h
          exact hzero
        · cases h
      · cases h
        by_cases hcw : c = w
        · rw [hcw] at hc
          simp only [Function.update_self, reduceCtorEq] at hc
        · exact hL c (by simpa only [Function.update_of_ne hcw] using hc)
  | destroy =>
      simp only [step] at h
      split at h
      · cases h
      · cases h
        exact hL c hc
  | join =>
      simp only [step] at h
      split at h
      · split at h
        · cases h
          exact hL c hc
        · cases h
      · cases h

/-- What the calls of `wait` have seen. -/
def Awaited (es : List (Event κ)) : Prop :=
  ∀ es₁ es₂ c, es = es₁ ++ waited c :: es₂ → ∀ id, submitted id ∈ es₁ → completed id ∈ es₁

/-- Only a call of `wait` says that it returns. -/
theorem wait_of_waited {c : κ} (h : step s a = some (s', ev)) (hmem : waited c ∈ ev) :
    s.wait c = .leaving ∧ ev = [waited c] := by
  cases a with
  | work i lucky => exact absurd hmem ((workerGo_frame h).silent c)
  | submit job =>
      simp only [step, Option.some.injEq, Prod.mk.injEq] at h
      rw [← h.2] at hmem
      simp at hmem
  | deliver id =>
      simp only [step] at h
      split at h <;> cases h
      simp at hmem
  | wait w =>
      simp only [step] at h
      split at h
      · cases h
        simp at hmem
      · split at h <;> cases h
        simp at hmem
      · rename_i hleave
        cases h
        simp only [List.mem_singleton, Event.waited.injEq] at hmem
        rw [hmem]
        exact ⟨hleave, rfl⟩
  | destroy =>
      simp only [step] at h
      split at h <;> cases h
      simp at hmem
  | join =>
      simp only [step] at h
      split at h
      · split at h <;> cases h
        simp at hmem
      · cases h

theorem awaited_step (hI : Inv es s []) (hL : Left s) (hA : Awaited es)
    (h : step s a = some (s', ev)) : Awaited (es ++ ev) := by
  intro es₁ es₂ c heq
  rcases append_eq_append_cons heq with ⟨us, hes, _⟩ | ⟨us, rfl, hev⟩
  · exact hA es₁ us c hes
  · obtain ⟨hleave, hone⟩ := wait_of_waited h (show waited c ∈ ev by rw [hev]; simp)
    have hus : us = [] := by
      rw [hone] at hev
      cases us with
      | nil => rfl
      | cons u us => simp at hev
    rw [hus, List.append_nil]
    exact fun id hid => hI.all_completed (hL c hleave) hid

theorem run_awaited (h : Run step Quiet init es s) : Awaited es := by
  refine (Run.invariant (I := fun es (s : State n κ) => Inv es s [] ∧ Left s ∧ Awaited es)
    ⟨inv_init, nofun, by simp [Awaited]⟩ ?_ h).2.2
  intro es ev s s' a hI hok hstep
  obtain ⟨hI, hL, hA⟩ := hI
  exact ⟨step_inv hI hstep, left_step hI hL hok hstep, awaited_step hI hL hA hstep⟩

omit [DecidableEq κ] in
/-- What was started was submitted, and was so once. -/
theorem Inv.starts_le (hI : Inv es s []) (x : Nat) :
    (Pool.starts es).count x ≤ if x < s.next then 1 else 0 := by
  have hstock := hI.stock x
  have hstarts := hI.starts x
  have hhands : s.busy x ≤ ∑ i, (s.worker i).hand.count x := by
    refine Finset.sum_le_sum fun i _ => ?_
    unfold WorkerPc.hand
    rw [List.count_append]
    omega
  unfold State.stock at hstock
  omega

omit [DecidableEq κ] in
theorem Inv.starts_nodup (hI : Inv es s []) : (Pool.starts es).Nodup := by
  refine List.nodup_iff_count_le_one.mpr fun x => ?_
  have := hI.starts_le x
  split at this <;> omega

omit [DecidableEq κ] in
theorem Inv.submitted_of_started (hI : Inv es s []) (h : started id ∈ es) : submitted id ∈ es := by
  have hle := hI.starts_le id
  have hpos := List.count_pos_iff.mpr (mem_starts.mpr h)
  have hlt : id < s.next := by
    by_contra hge
    rw [if_neg hge] at hle
    omega
  rw [← mem_submits, hI.submits]
  exact List.mem_range.mpr hlt

end Runs

/-- **Every task once.** In every run no task is executed twice, and `pending_` is the number
of tasks that were submitted less the number of those completed. When nobody outside submits
too late, all tasks are completed once the destructor has joined the workers. When nobody
outside submits while somebody waits, `wait` returns only when all tasks are completed. -/
theorem workStealingPool_complete (nThreads : Nat) {κ : Type*} [DecidableEq κ]
    {es : List (Event κ)} {s : State (threads nThreads) κ} :
    (Run step Any init es s →
      (starts es).Nodup ∧ (∀ id, started id ∈ es → submitted id ∈ es) ∧
        s.pending + (completes es).length = (submits es).length ∧ wild ∉ es) ∧
      (Run step Apart init es s → s.joined = threads nThreads →
        ∀ id, submitted id ∈ es → started id ∈ es ∧ completed id ∈ es) ∧
      (Run step Quiet init es s → ∀ es₁ es₂ c, es = es₁ ++ waited c :: es₂ →
        ∀ id, submitted id ∈ es₁ → completed id ∈ es₁) := by
  refine ⟨fun h => ?_, fun h hjoined id hid => ?_, fun h => run_awaited h⟩
  · have hI := run_inv h
    refine ⟨hI.starts_nodup, fun id hid => hI.submitted_of_started hid, ?_, hI.tame⟩
    rw [hI.submits, List.length_range]
    exact hI.pending
  · have hpos : 0 < threads nThreads := by
      unfold threads
      split <;> omega
    have hI := run_inv h
    exact hI.completed_of_stock hid (stock_eq_zero hpos hI (run_closed h) hjoined id)

/-- Two workers. One gets a task from the inbox and submits another one, which the other
worker steals. Somebody outside waits for both; then the pool is destroyed. -/
def shareSchedule : List (Action (threads 2) Unit) :=
  let first : Fin (threads 2) := ⟨0, by decide⟩
  let second : Fin (threads 2) := ⟨1, by decide⟩
  [Action.submit (.mk [.mk []]), .deliver 0, .wait ()] ++
  List.replicate 13 (Action.work first true) ++ List.replicate 13 (Action.work second true) ++
  [Action.work first true, .wait (), .wait (), .destroy] ++
  List.replicate 7 (Action.work first true) ++ List.replicate 7 (Action.work second true) ++
  [Action.join, .join]

theorem workStealingPool_complete_two :
    (∃ (es : List (Event Unit)) (s : State (threads 2) Unit), Run step Apart init es s ∧
      s.joined = threads 2 ∧ (starts es).Nodup ∧ started 1 ∈ es ∧ completed 1 ∈ es) ∧
    ∃ (es : List (Event Unit)) (s : State (threads 2) Unit), Run step Quiet init es s ∧
      ∃ es₁ es₂, es = es₁ ++ waited () :: es₂ ∧ submitted 1 ∈ es₁ ∧ completed 1 ∈ es₁ := by
  constructor
  · have h : Leads step Apart (init : State (threads 2) Unit) shareSchedule fun s es =>
        s.joined = threads 2 ∧ submitted 1 ∈ es := by
      decide +kernel
    obtain ⟨s, es, hrun, hjoined, hsub⟩ := h.run
    obtain ⟨hany, hapart, _⟩ := workStealingPool_complete 2 (s := s)
    obtain ⟨hstart, hcomplete⟩ := hapart hrun hjoined 1 hsub
    exact ⟨es, s, hrun, hjoined, (hany hrun.any).1, hstart, hcomplete⟩
  · have h : Leads step Quiet (init : State (threads 2) Unit) shareSchedule fun _ es =>
        es = [submitted 0, started 0, submitted 1, started 1, completed 1, completed 0] ++
          waited () :: [] := by
      decide +kernel
    obtain ⟨s, es, hrun, hes⟩ := h.run
    obtain ⟨_, _, hquiet⟩ := workStealingPool_complete 2 (s := s)
    exact ⟨es, s, hrun, _, _, hes, by decide, hquiet hrun _ _ () hes 1 (by decide)⟩

end CrossMachine.Pool
