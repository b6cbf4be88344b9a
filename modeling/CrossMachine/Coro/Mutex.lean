import CrossMachine.Lib.Custody
import CrossMachine.Lib.Instances
import CrossMachine.Lib.Links
import CrossMachine.Lib.Prefix
import CrossMachine.Lib.Run
import Mathlib.Data.Fintype.Basic

/-!
# The mutex for coroutines

`AwaitableMutex` of `coro.h`, one atomic operation at a time. One word says everything: 0 when
the mutex is free, 1 when it is locked and nobody waits, and otherwise the address of the
first of the waiters, which are linked to each other. The last of them is linked to whatever
the word was when it came, which is 1; so 1 is also the end of the list.

`unlock` does not free a mutex that somebody waits for. It takes the first waiter off the
list, and from that exchange on the mutex is that coroutine's, although it takes a while
until it is resumed: at once, by the coroutine that unlocks, or later, by a pool.

A waiter is part of the awaiter, which lives as long as `co_await` takes. Addresses of
awaiters that exist at the same time differ (`Apart`); afterwards they may be used again.
-/

namespace CrossMachine.Coro

open Lib

variable {τ : Type*}

def kUnlocked : Nat := 0

def kLockedNoWaiters : Nat := 1

/-- What a coroutine does next. `waiter` is the address of its awaiter's `waiter_`, and `x` is
the local copy of the word. -/
inductive Pc where
  | idle
  /-- In `await_ready`, before the exchange. -/
  | ready (waiter : Nat)
  /-- In `await_suspend`, before the load. -/
  | suspendLoad (waiter : Nat)
  /-- At the head of the loop. -/
  | suspendTry (waiter x : Nat)
  /-- The link is stored; before the exchange. -/
  | suspendPush (waiter x : Nat)
  | suspended (waiter : Nat)
  /-- It has the guard. -/
  | holding
  /-- In `unlock`, before the load. -/
  | unlockLoad (pool : Bool)
  /-- At the head of the loop. -/
  | unlockTry (pool : Bool) (x : Nat)
  /-- Before the exchange that takes the first waiter off. -/
  | unlockPop (pool : Bool) (x nextState : Nat)
  /-- Before the waiter is resumed. -/
  | handOver (pool : Bool) (head : Nat)
  deriving DecidableEq, Repr

structure State (τ : Type*) where
  /-- `state_`. -/
  word : Nat
  /-- `next` of the waiter at an address. -/
  next : Nat → Nat
  /-- `handle` of the waiter at an address. -/
  handle : Nat → Option τ
  pc : τ → Pc
  /-- Whom the pool is about to resume. -/
  queue : List (Option τ)

inductive Event (τ : Type*) where
  /-- Locked without waiting. -/
  | locked (t : τ)
  /-- On the list of waiters. -/
  | pushed (t : τ)
  | resumed (t : τ)
  /-- Unlocked; nobody was waiting. -/
  | unlocked (t : τ)
  /-- Unlocked in favour of the waiter at an address. -/
  | passed (t : τ) (head : Nat)
  /-- Something is resumed that is not suspended. -/
  | wild
  deriving DecidableEq, Repr

open Event

section Step

variable [DecidableEq τ]

def State.goto (s : State τ) (t : τ) (pc : Pc) : State τ :=
  { s with pc := Function.update s.pc t pc }

/-- `resume`. A coroutine that was suspended goes on with the guard. -/
def State.resume (s : State τ) (h : Option τ) : State τ × List (Event τ) :=
  match h with
  | none => (s, [.wild])
  | some u =>
      match s.pc u with
      | .suspended _ => (s.goto u .holding, [.resumed u])
      | _ => (s, [.wild])

/-- One atomic operation of a coroutine. A weak exchange may fail for no reason. -/
def go (s : State τ) (t : τ) (weak : Bool) : Option (State τ × List (Event τ)) :=
  match s.pc t with
  | .idle => none
  | .ready waiter =>
      if s.word = kUnlocked then
        some ({ s.goto t .holding with word := kLockedNoWaiters }, [.locked t])
      else some (s.goto t (.suspendLoad waiter), [])
  | .suspendLoad waiter =>
      some ({ s.goto t (.suspendTry waiter s.word) with
        handle := Function.update s.handle waiter (some t) }, [])
  | .suspendTry waiter x =>
      if x = kUnlocked then
        if s.word = x ∧ weak = false then
          some ({ s.goto t .holding with word := kLockedNoWaiters }, [.locked t])
        else some (s.goto t (.suspendTry waiter s.word), [])
      else
        some ({ s.goto t (.suspendPush waiter x) with
          next := Function.update s.next waiter x }, [])
  | .suspendPush waiter x =>
      if s.word = x ∧ weak = false then
        some ({ s.goto t (.suspended waiter) with word := waiter }, [.pushed t])
      else some (s.goto t (.suspendTry waiter s.word), [])
  | .suspended _ => none
  | .holding => none
  | .unlockLoad pool => some (s.goto t (.unlockTry pool s.word), [])
  | .unlockTry pool x =>
      if x = kLockedNoWaiters then
        if s.word = x ∧ weak = false then
          some ({ s.goto t .idle with word := kUnlocked }, [.unlocked t])
        else some (s.goto t (.unlockTry pool s.word), [])
      else
        let nextState := if s.next x = 0 then kLockedNoWaiters else s.next x
        some (s.goto t (.unlockPop pool x nextState), [])
  | .unlockPop pool x nextState =>
      if s.word = x ∧ weak = false then
        some ({ s.goto t (.handOver pool x) with word := nextState }, [.passed t x])
      else some (s.goto t (.unlockTry pool s.word), [])
  | .handOver pool head =>
      if pool then
        some ({ s.goto t .idle with queue := s.queue ++ [s.handle head] }, [])
      else some ((s.goto t .idle).resume (s.handle head))

inductive Action (τ : Type*) where
  /-- `co_await lock()`; the environment chooses where the awaiter is. -/
  | lock (t : τ) (waiter : Nat)
  | unlock (t : τ) (pool : Bool)
  | run (t : τ) (weak : Bool)
  /-- The pool resumes one of those it has. -/
  | dispatch (k : Nat)
  deriving DecidableEq, Repr

/-- Any interleaving of the coroutines. -/
def step (s : State τ) : Action τ → Option (State τ × List (Event τ))
  | .lock t waiter =>
      match s.pc t with
      | .idle => some (s.goto t (.ready waiter), [])
      | _ => none
  | .unlock t pool =>
      match s.pc t with
      | .holding => some (s.goto t (.unlockLoad pool), [])
      | _ => none
  | .run t weak => go s t weak
  | .dispatch k =>
      match s.queue[k]? with
      | none => none
      | some h => some ({ s with queue := s.queue.eraseIdx k }.resume h)

end Step

def init : State τ :=
  { word := kUnlocked, next := fun _ => 0, handle := fun _ => none, pc := fun _ => .idle,
    queue := [] }

/-- The awaiter a coroutine has. -/
@[simp] def Pc.waiter : Pc → Option Nat
  | .ready waiter => some waiter
  | .suspendLoad waiter => some waiter
  | .suspendTry waiter _ => some waiter
  | .suspendPush waiter _ => some waiter
  | .suspended waiter => some waiter
  | _ => none

/-- The address of a new awaiter is an address, and not that of another one. -/
def Apart (s : State τ) : Action τ → Prop
  | .lock _ waiter => 2 ≤ waiter ∧ ∀ u, (s.pc u).waiter ≠ some waiter
  | _ => True

instance [Fintype τ] (s : State τ) : (a : Action τ) → Decidable (Apart s a)
  | .lock _ waiter => inferInstanceAs (Decidable (2 ≤ waiter ∧ ∀ u, (s.pc u).waiter ≠ some waiter))
  | .unlock _ _ | .run _ _ | .dispatch _ => isTrue trivial

/-! ## Who has the mutex -/

/-- The coroutine is between locking and unlocking. -/
@[simp] def Pc.owns : Pc → Bool
  | .holding => true
  | .unlockLoad _ => true
  | .unlockTry _ _ => true
  | .unlockPop _ _ _ => true
  | _ => false

/-- The waiter a coroutine is about to resume. -/
@[simp] def Pc.passes : Pc → Option Nat
  | .handOver _ head => some head
  | _ => none

/-- The awaiter that has the handle of its coroutine. -/
@[simp] def Pc.pinned : Pc → Option Nat
  | .suspendTry waiter _ => some waiter
  | .suspendPush waiter _ => some waiter
  | .suspended waiter => some waiter
  | _ => none

variable {pc : Pc} {a : Nat} {u : τ}

theorem waiter_of_pinned (h : pc.pinned = some a) : pc.waiter = some a := by
  cases pc <;> simp_all

/-- Where the right to the mutex is. -/
inductive Where (τ : Type*) where
  | free
  | held (t : τ)
  /-- `t` has unlocked it in favour of `u`, and `u` is not resumed yet. -/
  | passing (t u : τ)
  /-- The pool is to resume `u`. -/
  | queued (u : τ)

/-- The coroutine that has the mutex without knowing it yet. -/
@[simp] def Where.grant : Where τ → Option τ
  | .passing _ u => some u
  | .queued u => some u
  | _ => none

@[simp] def Where.queue : Where τ → List (Option τ)
  | .queued u => [some u]
  | _ => []

/-- The awaiters do not get in each other's way. -/
structure Awaiters (s : State τ) : Prop where
  apart : Sole fun t => (s.pc t).waiter
  address : ∀ t a, (s.pc t).waiter = some a → 2 ≤ a
  handle : ∀ t a, (s.pc t).pinned = some a → s.handle a = some t
  linked : ∀ t a x, s.pc t = .suspendPush a x → x ≠ 0 ∧ s.next a = x

/-- The mutex is in one place. -/
structure Token (s : State τ) (w : Where τ) : Prop where
  owner : ∀ t, (s.pc t).owns = true ↔ w = .held t
  passer : ∀ t a, (s.pc t).passes = some a → ∃ u, w = .passing t u ∧ s.pc u = .suspended a
  passing : ∀ t u, w = .passing t u → ∃ a, (s.pc t).passes = some a
  queue : s.queue = w.queue

/-- The list is that of the waiters. -/
structure Waiters (s : State τ) (w : Where τ) (waiting : List Nat) : Prop where
  word : w = .free → s.word = 0 ∧ waiting = []
  links : w ≠ .free → Links s.next kLockedNoWaiters s.word waiting
  waits : ∀ a ∈ waiting, ∃ t, s.pc t = .suspended a
  suspended : ∀ t a, s.pc t = .suspended a → a ∈ waiting ∨ w.grant = some t
  granted : ∀ u, w.grant = some u → ∃ a, s.pc u = .suspended a ∧ a ∉ waiting
  /-- What a coroutine that unlocks has read is still there. -/
  reads : ∀ t pool x, s.pc t = .unlockTry pool x → x = kLockedNoWaiters ∨ x ∈ waiting
  pops : ∀ t pool x y, s.pc t = .unlockPop pool x y → x ∈ waiting ∧ y = s.next x

structure Inv (s : State τ) (w : Where τ) (waiting : List Nat) : Prop where
  awaiters : Awaiters s
  token : Token s w
  waiters : Waiters s w waiting

theorem inv_init : Inv (init : State τ) .free [] := by
  constructor
  case awaiters => exact ⟨by simp [init, Sole], by simp [init], by simp [init], by simp [init]⟩
  case token => exact ⟨by simp [init], by simp [init], by simp, rfl⟩
  case waiters =>
      exact ⟨fun _ => ⟨rfl, rfl⟩, fun h => absurd rfl h, by simp, by simp [init], by simp,
        by simp [init], by simp [init]⟩

section Steps

variable {s s' : State τ} {t : τ} {w w' : Where τ} {waiting waiting' : List Nat}

/-- A step of `t` that leaves the awaiters of the others alone. -/
theorem awaiters_of (hA : Awaiters s) (hself : s'.pc t = pc)
    (hother : ∀ u, u ≠ t → s'.pc u = s.pc u) (hwaiter : ∀ a, pc.waiter = some a → 2 ≤ a ∧
      ((s.pc t).waiter = some a ∨ ∀ u, u ≠ t → (s.pc u).waiter ≠ some a))
    (hnext : ∀ a, (s.pc t).waiter ≠ some a → s'.next a = s.next a)
    (hhandle : ∀ a, (s.pc t).waiter ≠ some a → s'.handle a = s.handle a)
    (hpinned : ∀ a, pc.pinned = some a → s'.handle a = some t)
    (hlinked : ∀ a x, pc = .suspendPush a x → x ≠ 0 ∧ s'.next a = x) : Awaiters s' := by
  -- the awaiter of somebody else is not that of `t`
  have hdiff : ∀ u a, u ≠ t → (s.pc u).waiter = some a → (s.pc t).waiter ≠ some a :=
    fun u a hu ha ht => hu (hA.apart u t a ha ht)
  constructor
  case apart =>
      refine hA.apart.step (t := t) (fun u hu => by rw [hother u hu]) fun a ha => ?_
      rw [hself] at ha
      exact (hwaiter a ha).2
  case address =>
      intro u a hu
      by_cases hut : u = t
      · rw [hut, hself] at hu
        exact (hwaiter a hu).1
      · rw [hother u hut] at hu
        exact hA.address u a hu
  case handle =>
      intro u a hu
      by_cases hut : u = t
      · rw [hut, hself] at hu
        rw [hut]
        exact hpinned a hu
      · rw [hother u hut] at hu
        rw [hhandle a (hdiff u a hut (waiter_of_pinned hu))]
        exact hA.handle u a hu
  case linked =>
      intro u a x hu
      by_cases hut : u = t
      · rw [hut, hself] at hu
        exact hlinked a x hu
      · rw [hother u hut] at hu
        obtain ⟨hx, hnext'⟩ := hA.linked u a x hu
        exact ⟨hx, (hnext a (hdiff u a hut (by simp [hu]))).trans hnext'⟩

/-- A coroutine that is not suspended does not come to be, nor is its awaiter on the list. -/
theorem Inv.not_waiting (hI : Inv s w waiting) (ha : (s.pc t).waiter = some a)
    (hsusp : ∀ b, s.pc t ≠ .suspended b) : a ∉ waiting := by
  intro hmem
  obtain ⟨u, hu⟩ := hI.waiters.waits a hmem
  have : u = t := hI.awaiters.apart u t a (by simp [hu]) ha
  subst this
  exact hsusp a hu

theorem Inv.next_of_waiting (hI : Inv s w waiting) (hsusp : ∀ b, s.pc t ≠ .suspended b)
    (hnext : ∀ a, (s.pc t).waiter ≠ some a → s'.next a = s.next a) (ha : a ∈ waiting) :
    s'.next a = s.next a :=
  hnext a fun hmine => hI.not_waiting hmine hsusp ha

/-- Who is suspended stays so, unless it is `t` that was. -/
theorem suspended_stays (hsusp : ∀ b, s.pc t ≠ .suspended b)
    (hother : ∀ u, u ≠ t → s'.pc u = s.pc u) (hu : s.pc u = .suspended a) :
    s'.pc u = .suspended a := by
  rw [hother u, hu]
  rintro rfl
  exact hsusp a hu

/-- A step of `t` that is of no concern to the mutex. -/
theorem inv_turn (hI : Inv s w waiting) (hself : s'.pc t = pc)
    (hother : ∀ u, u ≠ t → s'.pc u = s.pc u) (hword : s'.word = s.word)
    (hqueue : s'.queue = s.queue) (hA : Awaiters s')
    (hnext : ∀ a, (s.pc t).waiter ≠ some a → s'.next a = s.next a) (howns : pc.owns = (s.pc t).owns)
    (hpasses : pc.passes = (s.pc t).passes) (hsusp : ∀ b, s.pc t ≠ .suspended b)
    (hsusp' : ∀ b, pc ≠ .suspended b)
    (hreads : ∀ pool x, pc = .unlockTry pool x → x = kLockedNoWaiters ∨ x ∈ waiting)
    (hpops : ∀ pool x y, pc = .unlockPop pool x y → x ∈ waiting ∧ y = s.next x) :
    Inv s' w waiting := by
  have hstay {u : τ} {a : Nat} := suspended_stays (u := u) (a := a) hsusp hother
  have hstay' : ∀ {u a}, s'.pc u = .suspended a → s.pc u = .suspended a := by
    intro u a hu
    by_cases hut : u = t
    · rw [hut, hself] at hu
      exact absurd hu (hsusp' a)
    · rw [← hother u hut, hu]
  constructor
  case awaiters => exact hA
  case token =>
      constructor
      case owner =>
          intro u
          by_cases hut : u = t
          · rw [hut, hself, howns]
            exact hI.token.owner t
          · rw [hother u hut]
            exact hI.token.owner u
      case passer =>
          intro u a hu
          have hu' : (s.pc u).passes = some a := by
            by_cases hut : u = t
            · rw [hut, hself, hpasses] at hu
              rw [hut]
              exact hu
            · rwa [hother u hut] at hu
          obtain ⟨v, hw, hv⟩ := hI.token.passer u a hu'
          exact ⟨v, hw, hstay hv⟩
      case passing =>
          intro u v hw
          obtain ⟨a, ha⟩ := hI.token.passing u v hw
          refine ⟨a, ?_⟩
          by_cases hut : u = t
          · rw [hut, hself, hpasses, ← hut]
            exact ha
          · rw [hother u hut]
            exact ha
      case queue => rw [hqueue, hI.token.queue]
  case waiters =>
      constructor
      case word =>
          rw [hword]
          exact hI.waiters.word
      case links =>
          intro hw
          rw [hword]
          exact (hI.waiters.links hw).congr fun a ha => hI.next_of_waiting hsusp hnext ha
      case waits =>
          intro a ha
          obtain ⟨u, hu⟩ := hI.waiters.waits a ha
          exact ⟨u, hstay hu⟩
      case suspended => exact fun u a hu => hI.waiters.suspended u a (hstay' hu)
      case granted =>
          intro u hu
          obtain ⟨a, ha, hnot⟩ := hI.waiters.granted u hu
          exact ⟨a, hstay ha, hnot⟩
      case reads =>
          intro u pool x hu
          by_cases hut : u = t
          · rw [hut, hself] at hu
            exact hreads pool x hu
          · rw [hother u hut] at hu
            exact hI.waiters.reads u pool x hu
      case pops =>
          intro u pool x y hu
          have hold : x ∈ waiting ∧ y = s.next x := by
            by_cases hut : u = t
            · rw [hut, hself] at hu
              exact hpops pool x y hu
            · rw [hother u hut] at hu
              exact hI.waiters.pops u pool x y hu
          exact ⟨hold.1, hold.2.trans (hI.next_of_waiting hsusp hnext hold.1).symm⟩

/-- A mutex that somebody has is not marked free. -/
theorem Inv.word_ne_zero (hI : Inv s w waiting) (hw : w ≠ .free) : s.word ≠ 0 := by
  intro hzero
  have hlinks := hI.waiters.links hw
  rw [hzero] at hlinks
  obtain ⟨ys, rfl, _⟩ := hlinks.exists_cons (by decide)
  obtain ⟨t, ht⟩ := hI.waiters.waits 0 (List.mem_cons_self ..)
  have := hI.awaiters.address t 0 (by simp [ht])
  omega

theorem Inv.free_of_word (hI : Inv s w waiting) (h : s.word = 0) : w = .free := by
  by_contra hw
  exact hI.word_ne_zero hw h

/-- What a coroutine that has the mutex reads. -/
theorem Inv.word_mem (hI : Inv s w waiting) (hw : w ≠ .free) :
    s.word = kLockedNoWaiters ∨ s.word ∈ waiting := by
  by_cases hword : s.word = kLockedNoWaiters
  · exact .inl hword
  · obtain ⟨ys, hys, _⟩ := (hI.waiters.links hw).exists_cons hword
    rw [hys]
    exact .inr (List.mem_cons_self ..)

/-- Nobody else has the mutex. -/
theorem Inv.others (hI : Inv s w waiting) (ht : w = .held t) (hu : u ≠ t) :
    (s.pc u).owns ≠ true := by
  intro howns
  have := (hI.token.owner u).mp howns
  rw [ht] at this
  injection this with this
  exact hu this.symm

/-- A coroutine that is where `t` did not go was there before. -/
theorem pc_back {pc' : Pc} (hself : s'.pc t = pc) (hother : ∀ u, u ≠ t → s'.pc u = s.pc u)
    (hu : s'.pc u = pc') (hne : pc' ≠ pc) : s.pc u = pc' ∧ u ≠ t := by
  have hut : u ≠ t := by
    rintro rfl
    exact hne (hu.symm.trans hself)
  exact ⟨(hother u hut).symm.trans hu, hut⟩

/-- One who has the mutex now and is not where `t` went had it before. -/
theorem not_there {pc' : Pc} (hself : s'.pc t = pc) (hother : ∀ u, u ≠ t → s'.pc u = s.pc u)
    (hnobody : ∀ u, u ≠ t → (s.pc u).owns ≠ true) (howns : pc'.owns = true) (hne : pc' ≠ pc) :
    s'.pc u ≠ pc' := by
  intro hu
  obtain ⟨hu, hut⟩ := pc_back hself hother hu hne
  exact hnobody u hut (hu ▸ howns)

/-- A step of `t` by which it comes to have no awaiter. -/
theorem awaiters_without (hA : Awaiters s) (hself : s'.pc t = pc)
    (hother : ∀ u, u ≠ t → s'.pc u = s.pc u) (hnext : s'.next = s.next)
    (hhandle : s'.handle = s.handle) (hpc : pc.waiter = none) : Awaiters s' := by
  refine awaiters_of hA hself hother ?_ (fun _ _ => by rw [hnext]) (fun _ _ => by rw [hhandle])
    ?_ ?_
  · intro a ha
    cases hpc.symm.trans ha
  · intro a ha
    cases hpc.symm.trans (waiter_of_pinned ha)
  · rintro a x rfl
    cases hpc

theorem owner_taken (hself : s'.pc t = pc) (hother : ∀ u, u ≠ t → s'.pc u = s.pc u)
    (hnobody : ∀ u, u ≠ t → (s.pc u).owns ≠ true) (howns : pc.owns = true) (u : τ) :
    (s'.pc u).owns = true ↔ Where.held t = .held u := by
  by_cases hut : u = t
  · rw [hut, hself]
    exact ⟨fun _ => rfl, fun _ => howns⟩
  · rw [hother u hut]
    refine ⟨fun h => absurd h (hnobody u hut), fun h => ?_⟩
    injection h with h
    exact absurd h.symm hut

theorem owner_given (hself : s'.pc t = pc) (hother : ∀ u, u ≠ t → s'.pc u = s.pc u)
    (hnobody : ∀ u, u ≠ t → (s.pc u).owns ≠ true) (howns : pc.owns ≠ true) (hw' : ∀ u, w' ≠ .held u)
    (u : τ) : (s'.pc u).owns = true ↔ w' = .held u := by
  by_cases hut : u = t
  · rw [hut, hself]
    exact ⟨fun h => absurd h howns, fun h => absurd h (hw' t)⟩
  · rw [hother u hut]
    exact ⟨fun h => absurd h (hnobody u hut), fun h => absurd h (hw' u)⟩

/-- Where only `t` could pass the mutex on, nobody does after it. -/
theorem nobody_passes (hT : Token s w) (hself : s'.pc t = pc)
    (hother : ∀ u, u ≠ t → s'.pc u = s.pc u) (hpc : pc.passes = none)
    (hw : ∀ u v, w = .passing u v → u = t) (u : τ) (a : Nat) : (s'.pc u).passes ≠ some a := by
  intro hu
  by_cases hut : u = t
  · rw [hut, hself, hpc] at hu
    cases hu
  · rw [hother u hut] at hu
    obtain ⟨v, hv, _⟩ := hT.passer u a hu
    exact hut (hw u v hv)

/-- The mutex goes to `t` or is given back by it, and nobody waits. -/
theorem inv_unwaited (hI : Inv s w []) (hw : w = .free ∨ w = .held t) (hself : s'.pc t = pc)
    (hother : ∀ u, u ≠ t → s'.pc u = s.pc u)
    (hto : (w' = .held t ∧ pc = .holding ∧ s'.word = kLockedNoWaiters) ∨
      (w' = .free ∧ pc = .idle ∧ s'.word = kUnlocked))
    (hqueue : s'.queue = s.queue) (hnext : s'.next = s.next) (hhandle : s'.handle = s.handle) :
    Inv s' w' [] := by
  have hnobody : ∀ u, u ≠ t → (s.pc u).owns ≠ true := by
    intro u hut howns
    rcases hw with hw | hw
    · cases hw.symm.trans ((hI.token.owner u).mp howns)
    · exact hI.others hw hut howns
  have hnot : ∀ u a, s.pc u ≠ .suspended a := by
    intro u a hu
    rcases hI.waiters.suspended u a hu with h | h
    · cases h
    · rcases hw with rfl | rfl <;> cases h
  have hpass : ∀ u v, w = .passing u v → u = t := by rcases hw with rfl | rfl <;> exact nofun
  have hold : s.queue = [] := by rw [hI.token.queue]; rcases hw with rfl | rfl <;> rfl
  rcases hto with ⟨rfl, rfl, hword⟩ | ⟨rfl, rfl, hword⟩
  all_goals constructor
  case inl.awaiters | inr.awaiters =>
      exact awaiters_without hI.awaiters hself hother hnext hhandle rfl
  case inl.token =>
      exact ⟨owner_taken hself hother hnobody rfl, fun u a hu =>
        absurd hu (nobody_passes hI.token hself hother rfl hpass u a), nofun, hqueue.trans hold⟩
  case inr.token =>
      exact ⟨owner_given hself hother hnobody nofun nofun, fun u a hu =>
        absurd hu (nobody_passes hI.token hself hother rfl hpass u a), nofun, hqueue.trans hold⟩
  all_goals constructor
  case inl.waiters.word => exact nofun
  case inr.waiters.word => exact fun _ => ⟨hword, rfl⟩
  case inl.waiters.links => exact fun _ => hword
  case inr.waiters.links => exact fun h => absurd rfl h
  case inl.waiters.waits | inr.waiters.waits => exact nofun
  case inl.waiters.granted | inr.waiters.granted => exact nofun
  case inl.waiters.suspended | inr.waiters.suspended =>
      exact fun u a hu => absurd (pc_back hself hother hu nofun).1 (hnot u a)
  case inl.waiters.reads | inr.waiters.reads =>
      exact fun u pool x hu => absurd hu (not_there hself hother hnobody rfl nofun)
  case inl.waiters.pops | inr.waiters.pops =>
      exact fun u pool x y hu => absurd hu (not_there hself hother hnobody rfl nofun)

/-- Somebody locks a mutex that is free. -/
theorem inv_acquire (hI : Inv s .free waiting) (hself : s'.pc t = .holding)
    (hother : ∀ u, u ≠ t → s'.pc u = s.pc u) (hword : s'.word = kLockedNoWaiters)
    (hqueue : s'.queue = s.queue) (hnext : s'.next = s.next) (hhandle : s'.handle = s.handle) :
    Inv s' (.held t) [] := by
  obtain ⟨_, rfl⟩ := hI.waiters.word rfl
  exact inv_unwaited hI (.inl rfl) hself hother (.inl ⟨rfl, rfl, hword⟩) hqueue hnext hhandle

/-- Somebody unlocks a mutex that nobody waits for. -/
theorem inv_release (hI : Inv s (.held t) waiting) (hself : s'.pc t = .idle)
    (hother : ∀ u, u ≠ t → s'.pc u = s.pc u) (hold : s.word = kLockedNoWaiters)
    (hword : s'.word = kUnlocked) (hqueue : s'.queue = s.queue) (hnext : s'.next = s.next)
    (hhandle : s'.handle = s.handle) : Inv s' .free [] := by
  have hlinks := hI.waiters.links nofun
  rw [hold] at hlinks
  obtain rfl := hlinks.eq_nil
  exact inv_unwaited hI (.inr rfl) hself hother (.inr ⟨rfl, rfl, hword⟩) hqueue hnext hhandle

/-- Somebody joins those who wait. -/
theorem inv_push (hI : Inv s w waiting) {x : Nat} (hpc : s.pc t = .suspendPush a x)
    (hself : s'.pc t = .suspended a) (hother : ∀ u, u ≠ t → s'.pc u = s.pc u) (hold : s.word = x)
    (hword : s'.word = a) (hqueue : s'.queue = s.queue) (hnext : s'.next = s.next)
    (hhandle : s'.handle = s.handle) : Inv s' w (a :: waiting) := by
  obtain ⟨hx, hlink⟩ := hI.awaiters.linked t a x hpc
  have haddr := hI.awaiters.address t a (by simp [hpc])
  have hw : w ≠ .free := by
    rintro rfl
    exact hx (hold ▸ (hI.waiters.word rfl).1)
  have hstay {u : τ} {b : Nat} := suspended_stays (u := u) (a := b) (by simp [hpc]) hother
  constructor
  case awaiters =>
      refine awaiters_of hI.awaiters hself hother ?_ (fun _ _ => by rw [hnext])
        (fun _ _ => by rw [hhandle]) ?_ nofun
      · intro b hb
        simp only [Pc.waiter, Option.some.injEq] at hb
        subst hb
        exact ⟨haddr, .inl (by simp [hpc])⟩
      · intro b hb
        rw [hhandle]
        exact hI.awaiters.handle t b (by simpa [hpc] using hb)
  case token =>
      constructor
      case owner =>
          intro u
          by_cases hut : u = t
          · rw [hut, hself, ← hI.token.owner t, hpc]
            exact ⟨nofun, nofun⟩
          · rw [hother u hut]
            exact hI.token.owner u
      case passer =>
          intro u b hu
          by_cases hut : u = t
          · rw [hut, hself] at hu
            cases hu
          · rw [hother u hut] at hu
            obtain ⟨v, hv, hsusp⟩ := hI.token.passer u b hu
            exact ⟨v, hv, hstay hsusp⟩
      case passing =>
          intro u v hv
          obtain ⟨b, hb⟩ := hI.token.passing u v hv
          refine ⟨b, ?_⟩
          rw [hother u]
          · exact hb
          · rintro rfl
            rw [hpc] at hb
            cases hb
      case queue => rw [hqueue, hI.token.queue]
  case waiters =>
      constructor
      case word => exact fun h => absurd h hw
      case links =>
          intro _
          rw [hword, hnext]
          refine Links.push ?_ (by unfold kLockedNoWaiters; omega)
          rw [hlink, ← hold]
          exact hI.waiters.links hw
      case waits =>
          intro b hb
          rcases List.mem_cons.mp hb with rfl | hb
          · exact ⟨t, hself⟩
          · obtain ⟨u, hu⟩ := hI.waiters.waits b hb
            exact ⟨u, hstay hu⟩
      case suspended =>
          intro u b hu
          by_cases hut : u = t
          · rw [hut, hself] at hu
            injection hu with hu
            exact .inl (hu ▸ List.mem_cons_self ..)
          · rw [hother u hut] at hu
            rcases hI.waiters.suspended u b hu with h | h
            · exact .inl (List.mem_cons_of_mem _ h)
            · exact .inr h
      case granted =>
          intro u hu
          obtain ⟨b, hb, hnot⟩ := hI.waiters.granted u hu
          refine ⟨b, hstay hb, fun hmem => ?_⟩
          rcases List.mem_cons.mp hmem with rfl | hmem
          · have : u = t := hI.awaiters.apart u t b (by simp [hb]) (by simp [hpc])
            rw [this, hpc] at hb
            cases hb
          · exact hnot hmem
      case reads =>
          intro u pool y hu
          obtain ⟨hu, _⟩ := pc_back hself hother hu nofun
          rcases hI.waiters.reads u pool y hu with h | h
          · exact .inl h
          · exact .inr (List.mem_cons_of_mem _ h)
      case pops =>
          intro u pool y z hu
          obtain ⟨hu, _⟩ := pc_back hself hother hu nofun
          obtain ⟨hmem, hz⟩ := hI.waiters.pops u pool y z hu
          exact ⟨List.mem_cons_of_mem _ hmem, hnext ▸ hz⟩

/-- Somebody unlocks the mutex in favour of the first who waits. -/
theorem inv_pop (hI : Inv s (.held t) waiting) {pool : Bool} {x y : Nat}
    (hpc : s.pc t = .unlockPop pool x y) (hself : s'.pc t = .handOver pool x)
    (hother : ∀ u, u ≠ t → s'.pc u = s.pc u) (hold : s.word = x) (hword : s'.word = y)
    (hqueue : s'.queue = s.queue) (hnext : s'.next = s.next) (hhandle : s'.handle = s.handle) :
    ∃ u rest, waiting = x :: rest ∧ Inv s' (.passing t u) rest := by
  obtain ⟨hmem, rfl⟩ := hI.waiters.pops t pool x y hpc
  obtain ⟨u, hu⟩ := hI.waiters.waits x hmem
  have hne : x ≠ kLockedNoWaiters := by
    have := hI.awaiters.address u x (by simp [hu])
    unfold kLockedNoWaiters
    omega
  have hlinks := hI.waiters.links nofun
  have hnodup := hlinks.nodup
  rw [hold] at hlinks
  obtain ⟨rest, rfl, hrest⟩ := hlinks.exists_cons hne
  have hnot : x ∉ rest := (List.nodup_cons.mp hnodup).1
  have hnobody : ∀ v, v ≠ t → (s.pc v).owns ≠ true := fun v hvt => hI.others rfl hvt
  have hstay {v : τ} {b : Nat} := suspended_stays (u := v) (a := b) (by simp [hpc]) hother
  refine ⟨u, rest, rfl, ?_⟩
  constructor
  case awaiters =>
      exact awaiters_without hI.awaiters hself hother hnext hhandle rfl
  case token =>
      constructor
      case owner => exact owner_given hself hother hnobody nofun nofun
      case passer =>
          intro v b hv
          by_cases hvt : v = t
          · rw [hvt, hself] at hv
            injection hv with hv
            exact ⟨u, by rw [hvt], hv ▸ hstay hu⟩
          · rw [hother v hvt] at hv
            obtain ⟨_, hw, _⟩ := hI.token.passer v b hv
            cases hw
      case passing =>
          intro v u' hv
          injection hv with hv
          exact ⟨x, by rw [← hv, hself]; rfl⟩
      case queue => rw [hqueue, hI.token.queue]; rfl
  case waiters =>
      constructor
      case word => exact nofun
      case links =>
          intro _
          rw [hword, hnext]
          exact hrest
      case waits =>
          intro b hb
          obtain ⟨v, hv⟩ := hI.waiters.waits b (List.mem_cons_of_mem _ hb)
          exact ⟨v, hstay hv⟩
      case suspended =>
          intro v b hv
          obtain ⟨hv, _⟩ := pc_back hself hother hv nofun
          rcases hI.waiters.suspended v b hv with h | h
          · rcases List.mem_cons.mp h with rfl | h
            · exact .inr (congrArg some (hI.awaiters.apart u v b (by simp [hu]) (by simp [hv])))
            · exact .inl h
          · cases h
      case granted =>
          intro v hv
          injection hv with hv
          exact ⟨x, hv ▸ hstay hu, hnot⟩
      case reads => exact fun v pool x hv => absurd hv (not_there hself hother hnobody rfl nofun)
      case pops => exact fun v pool x y hv => absurd hv (not_there hself hother hnobody rfl nofun)

/-- The pool is given the waiter to resume. -/
theorem inv_enqueue (hI : Inv s (.passing t u) waiting) {pool : Bool}
    (hpc : s.pc t = .handOver pool a) (hself : s'.pc t = .idle)
    (hother : ∀ u, u ≠ t → s'.pc u = s.pc u) (hword : s'.word = s.word)
    (hqueue : s'.queue = s.queue ++ [s.handle a]) (hnext : s'.next = s.next)
    (hhandle : s'.handle = s.handle) : Inv s' (.queued u) waiting := by
  have hu : s.pc u = .suspended a := by
    obtain ⟨v, hw, hv⟩ := hI.token.passer t a (by simp [hpc])
    injection hw with _ hw
    exact hw ▸ hv
  have hstay {v : τ} {b : Nat} := suspended_stays (u := v) (a := b) (by simp [hpc]) hother
  have hnobody : ∀ v, v ≠ t → (s.pc v).owns ≠ true := fun v _ hv =>
    nomatch (hI.token.owner v).mp hv
  constructor
  case awaiters =>
      exact awaiters_without hI.awaiters hself hother hnext hhandle rfl
  case token =>
      constructor
      case owner => exact owner_given hself hother hnobody nofun nofun
      case passer =>
          intro v b hv
          refine absurd hv (nobody_passes hI.token hself hother rfl (fun _ _ hw => ?_) v b)
          injection hw with hw
          exact hw.symm
      case passing => exact nofun
      case queue =>
          rw [hqueue, hI.token.queue, hI.awaiters.handle u a (by simp [hu])]
          rfl
  case waiters =>
      constructor
      case word => exact nofun
      case links =>
          intro _
          rw [hword, hnext]
          exact hI.waiters.links nofun
      case waits =>
          intro b hb
          obtain ⟨v, hv⟩ := hI.waiters.waits b hb
          exact ⟨v, hstay hv⟩
      case suspended =>
          intro v b hv
          exact hI.waiters.suspended v b (pc_back hself hother hv nofun).1
      case granted =>
          intro v hv
          obtain ⟨b, hb, hnot⟩ := hI.waiters.granted v hv
          exact ⟨b, hstay hb, hnot⟩
      case reads => exact fun v pool x hv => absurd hv (not_there hself hother hnobody rfl nofun)
      case pops => exact fun v pool x y hv => absurd hv (not_there hself hother hnobody rfl nofun)

/-- The waiter goes on. -/
theorem inv_resume (hI : Inv s (.queued t) waiting) (hself : s'.pc t = .holding)
    (hother : ∀ u, u ≠ t → s'.pc u = s.pc u) (hword : s'.word = s.word) (hqueue : s'.queue = [])
    (hnext : s'.next = s.next) (hhandle : s'.handle = s.handle) : Inv s' (.held t) waiting := by
  obtain ⟨a, ha, hnot⟩ := hI.waiters.granted t rfl
  have hnobody : ∀ v, v ≠ t → (s.pc v).owns ≠ true := fun v _ hv =>
    nomatch (hI.token.owner v).mp hv
  constructor
  case awaiters =>
      exact awaiters_without hI.awaiters hself hother hnext hhandle rfl
  case token =>
      constructor
      case owner => exact owner_taken hself hother hnobody rfl
      case passer =>
          intro v b hv
          exact absurd hv (nobody_passes hI.token hself hother rfl nofun v b)
      case passing => exact nofun
      case queue => exact hqueue
  case waiters =>
      constructor
      case word => exact nofun
      case links =>
          intro _
          rw [hword, hnext]
          exact hI.waiters.links nofun
      case waits =>
          intro b hb
          obtain ⟨v, hv⟩ := hI.waiters.waits b hb
          refine ⟨v, ?_⟩
          rw [hother v, hv]
          rintro rfl
          rw [ha] at hv
          injection hv with hv
          exact hnot (hv ▸ hb)
      case suspended =>
          intro v b hv
          obtain ⟨hv, hvt⟩ := pc_back hself hother hv nofun
          rcases hI.waiters.suspended v b hv with h | h
          · exact .inl h
          · injection h with h
            exact absurd h.symm hvt
      case granted => exact nofun
      case reads => exact fun v pool x hv => absurd hv (not_there hself hother hnobody rfl nofun)
      case pops => exact fun v pool x y hv => absurd hv (not_there hself hother hnobody rfl nofun)

end Steps

/-! ## What a step does -/

/-- The coroutine has the mutex: it is between locking and unlocking, or the mutex was unlocked
in its favour. -/
def Holds (s : State τ) (t : τ) : Prop :=
  (s.pc t).owns = true ∨ (∃ v a, (s.pc v).passes = some a ∧ s.handle a = some t) ∨
    some t ∈ s.queue

@[simp] def Where.holder : Where τ → Option τ
  | .free => none
  | .held t => some t
  | .passing _ u => some u
  | .queued u => some u

theorem holds_iff {s : State τ} {w : Where τ} {waiting : List Nat} (hI : Inv s w waiting) (t : τ) :
    Holds s t ↔ w.holder = some t := by
  constructor
  · rintro (h | ⟨v, a, hv, ha⟩ | h)
    · rw [(hI.token.owner t).mp h]
      rfl
    · obtain ⟨u, rfl, hu⟩ := hI.token.passer v a hv
      rw [hI.awaiters.handle u a (by simp [hu])] at ha
      exact ha
    · rw [hI.token.queue] at h
      cases w with
      | queued u => exact (List.mem_singleton.mp h).symm
      | free | held | passing => cases h
  · intro h
    cases w with
    | free => cases h
    | held u =>
        injection h with h
        exact .inl ((hI.token.owner t).mpr (h ▸ rfl))
    | passing v u =>
        injection h with h
        obtain ⟨a, ha⟩ := hI.token.passing v u rfl
        obtain ⟨u', hw, hu'⟩ := hI.token.passer v a ha
        injection hw with _ hw
        subst hw h
        exact .inr (.inl ⟨v, a, ha, hI.awaiters.handle u a (by simp [hu'])⟩)
    | queued u =>
        injection h with h
        refine .inr (.inr ?_)
        rw [hI.token.queue, ← h]
        exact List.mem_singleton_self _

/-- Who is on the list does not have the mutex. -/
theorem Inv.not_holding {s : State τ} {w : Where τ} {waiting : List Nat} (hI : Inv s w waiting)
    {t : τ} (ht : s.pc t = .suspended a) (ha : a ∈ waiting) : ¬ Holds s t := by
  intro hh
  have hholder := (holds_iff hI t).mp hh
  have hgrant : w.grant = some t := by
    cases w with
    | free => cases hholder
    | held u =>
        injection hholder with hu
        have := (hI.token.owner u).mpr rfl
        rw [hu, ht] at this
        cases this
    | passing | queued => exact hholder
  obtain ⟨b, hb, hnot⟩ := hI.waiters.granted t hgrant
  rw [ht] at hb
  injection hb with hb
  exact hnot (hb ▸ ha)

@[simp] def Event.push : Event τ → Option τ
  | .pushed t => some t
  | _ => none

@[simp] def Event.resume : Event τ → Option τ
  | .resumed t => some t
  | _ => none

def pushes (es : List (Event τ)) : List τ := es.filterMap Event.push

def resumes (es : List (Event τ)) : List τ := es.filterMap Event.resume

/-- One, while a coroutine is suspended. -/
@[simp] def Pc.asleep : Pc → Nat
  | .suspended _ => 1
  | _ => 0

section Lands

variable [DecidableEq τ]

/-- Where a step ends. -/
structure Lands (s s' : State τ) (ev : List (Event τ)) : Prop where
  inv : ∃ w waiting, Inv s' w waiting
  /-- Who is suspended was pushed and not resumed. -/
  told : ∀ t, (pushes ev).count t + (s.pc t).asleep = (resumes ev).count t + (s'.pc t).asleep
  /-- Who is resumed had the mutex already. -/
  heir : ∀ t, .resumed t ∈ ev → Holds s t ∧ Holds s' t
  tame : .wild ∉ ev

variable {s s' : State τ} {t : τ} {w : Where τ} {waiting : List Nat} {ev : List (Event τ)}

@[simp] theorem goto_self (pc : Pc) : (s.goto t pc).pc t = pc := by
  simp only [State.goto, Function.update_self]

theorem goto_other (h : u ≠ t) (pc : Pc) : (s.goto t pc).pc u = s.pc u := by
  simp only [State.goto, Function.update_of_ne h]

/-- A step of `t` that nobody is resumed by. -/
theorem lands_of (hinv : ∃ w waiting, Inv s' w waiting) (hself : s'.pc t = pc)
    (hother : ∀ u, u ≠ t → s'.pc u = s.pc u) (hresumes : ∀ u, .resumed u ∉ ev) (htame : .wild ∉ ev)
    (htold : ∀ u, (pushes ev).count u + (if u = t then (s.pc t).asleep else 0) =
      if u = t then pc.asleep else 0) : Lands s s' ev := by
  have hnone : resumes ev = [] := by
    unfold resumes
    rw [List.filterMap_eq_nil_iff]
    intro e he
    cases e with
    | resumed u => exact absurd he (hresumes u)
    | _ => rfl
  refine ⟨hinv, fun u => ?_, fun u hu => absurd hu (hresumes u), htame⟩
  have h := htold u
  rw [hnone, List.count_nil, Nat.zero_add]
  by_cases hut : u = t
  · rw [if_pos hut, if_pos hut] at h
    rw [hut] at h ⊢
    rw [hself]
    exact h
  · rw [if_neg hut, if_neg hut] at h
    rw [hother u hut]
    omega

/-- A coroutine goes on, and the mutex is not touched. -/
theorem lands_turn (hI : Inv s w waiting) {next : Nat → Nat} {handle : Nat → Option τ}
    (hwaiter : ∀ a, pc.waiter = some a → 2 ≤ a ∧
      ((s.pc t).waiter = some a ∨ ∀ u, u ≠ t → (s.pc u).waiter ≠ some a))
    (hnext : ∀ a, (s.pc t).waiter ≠ some a → next a = s.next a)
    (hhandle : ∀ a, (s.pc t).waiter ≠ some a → handle a = s.handle a)
    (hpinned : ∀ a, pc.pinned = some a → handle a = some t)
    (hlinked : ∀ a x, pc = .suspendPush a x → x ≠ 0 ∧ next a = x) (howns : pc.owns = (s.pc t).owns)
    (hpasses : pc.passes = (s.pc t).passes) (hsusp : ∀ b, s.pc t ≠ .suspended b)
    (hsusp' : ∀ b, pc ≠ .suspended b)
    (hreads : ∀ pool x, pc = .unlockTry pool x → x = kLockedNoWaiters ∨ x ∈ waiting)
    (hpops : ∀ pool x y, pc = .unlockPop pool x y → x ∈ waiting ∧ y = s.next x) :
    Lands s { s.goto t pc with next := next, handle := handle } [] := by
  have hself : State.pc { s.goto t pc with next := next, handle := handle } t = pc := goto_self pc
  have hother : ∀ u, u ≠ t →
      State.pc { s.goto t pc with next := next, handle := handle } u = s.pc u :=
    fun u hu => goto_other hu pc
  have hawake : ∀ {pc' : Pc}, (∀ b, pc' ≠ .suspended b) → pc'.asleep = 0 := by
    intro pc' h
    cases pc' with
    | suspended b => exact absurd rfl (h b)
    | _ => rfl
  refine lands_of ⟨w, waiting, ?_⟩ hself hother (by simp) (by simp) fun u => ?_
  · refine inv_turn hI hself hother rfl rfl ?_ hnext howns hpasses hsusp hsusp' hreads hpops
    exact awaiters_of hI.awaiters hself hother hwaiter hnext hhandle hpinned hlinked
  · rw [hawake hsusp, hawake hsusp']
    exact Nat.zero_add _

/-- A coroutine goes on with the awaiter it has. -/
theorem lands_goto (hI : Inv s w waiting)
    (hwaiter : ∀ a, pc.waiter = some a → (s.pc t).waiter = some a)
    (hpinned : ∀ a, pc.pinned = some a → (s.pc t).pinned = some a)
    (hlinked : ∀ a x, pc ≠ .suspendPush a x) (howns : pc.owns = (s.pc t).owns)
    (hpasses : pc.passes = (s.pc t).passes) (hsusp : ∀ b, s.pc t ≠ .suspended b)
    (hsusp' : ∀ b, pc ≠ .suspended b)
    (hreads : ∀ pool x, pc = .unlockTry pool x → x = kLockedNoWaiters ∨ x ∈ waiting)
    (hpops : ∀ pool x y, pc = .unlockPop pool x y → x ∈ waiting ∧ y = s.next x) :
    Lands s (s.goto t pc) [] := by
  refine lands_turn hI (fun a ha => ⟨?_, .inl (hwaiter a ha)⟩) (fun _ _ => rfl) (fun _ _ => rfl)
    (fun a ha => hI.awaiters.handle t a (hpinned a ha)) (fun a x h => absurd h (hlinked a x))
    howns hpasses hsusp hsusp' hreads hpops
  exact hI.awaiters.address t a (hwaiter a ha)

/-- A coroutine locks the mutex without waiting. -/
theorem lands_acquire (hI : Inv s w waiting) (hzero : s.word = kUnlocked)
    (hsusp : (s.pc t).asleep = 0) :
    Lands s { s.goto t .holding with word := kLockedNoWaiters } [.locked t] := by
  have hfree := hI.free_of_word hzero
  subst hfree
  refine lands_of ⟨.held t, [], ?_⟩ (goto_self _) (fun u hu => goto_other hu _) (by simp) (by simp)
    fun u => ?_
  · exact inv_acquire hI (goto_self _) (fun u hu => goto_other hu _) rfl rfl rfl rfl
  · rw [hsusp]
    simp [pushes, List.filterMap_cons]

/-- The waiter at the head of what was taken off goes on. -/
theorem lands_resume (hI : Inv s (.queued u) waiting)
    (h : { s with queue := [] }.resume (some u) = (s', ev)) : Lands s s' ev := by
  obtain ⟨a, ha, _⟩ := hI.waiters.granted u rfl
  have hI' : Inv ({ s with queue := [] }.goto u .holding) (.held u) waiting :=
    inv_resume hI (goto_self _) (fun v hv => goto_other hv _) rfl rfl rfl rfl
  simp only [State.resume, ha, Prod.mk.injEq] at h
  obtain ⟨rfl, rfl⟩ := h
  refine ⟨⟨.held u, waiting, hI'⟩, fun v => ?_, fun v hv => ?_, by simp⟩
  · by_cases hvu : v = u
    · rw [hvu, goto_self, ha]
      simp [pushes, resumes, List.filterMap_cons]
    · rw [goto_other hvu]
      simp [pushes, resumes, Ne.symm hvu, List.filterMap_cons]
  · simp only [List.mem_singleton, Event.resumed.injEq] at hv
    subst hv
    exact ⟨(holds_iff hI v).mpr rfl, (holds_iff hI' v).mpr rfl⟩

theorem go_lands (hI : Inv s w waiting) {weak : Bool} (h : go s t weak = some (s', ev)) :
    Lands s s' ev := by
  cases hpc : s.pc t with
  | idle | suspended | holding => simp [go, hpc] at h
  | ready a =>
      simp only [go, hpc] at h
      split at h
      · rename_i hzero
        cases h
        exact lands_acquire hI hzero (by simp [hpc])
      · cases h
        exact lands_goto hI (by simp [hpc]) nofun nofun (by simp [hpc]) (by simp [hpc])
          (by simp [hpc]) nofun nofun nofun
  | suspendLoad a =>
      simp only [go, hpc] at h
      cases h
      refine lands_turn hI ?_ (fun _ _ => rfl) ?_ ?_ nofun (by simp [hpc]) (by simp [hpc])
        (by simp [hpc]) nofun nofun nofun
      · intro b hb
        have hmine : (s.pc t).waiter = some b := by simpa [hpc] using hb
        exact ⟨hI.awaiters.address t b hmine, .inl hmine⟩
      · intro b hb
        refine Function.update_of_ne ?_ _ _
        rintro rfl
        exact hb (by simp [hpc])
      · intro b hb
        simp only [Pc.pinned, Option.some.injEq] at hb
        rw [hb]
        exact Function.update_self ..
  | suspendTry a x =>
      simp only [go, hpc] at h
      have hretry : Lands s (s.goto t (.suspendTry a s.word)) [] :=
        lands_goto hI (by simp [hpc]) (by simp [hpc]) nofun (by simp [hpc]) (by simp [hpc])
          (by simp [hpc]) nofun nofun nofun
      split at h
      · rename_i hx
        split at h
        · rename_i hcas
          cases h
          exact lands_acquire hI (hcas.1.trans hx) (by simp [hpc])
        · cases h
          exact hretry
      · rename_i hx
        cases h
        refine lands_turn hI ?_ ?_ (fun _ _ => rfl) ?_ ?_ (by simp [hpc]) (by simp [hpc])
          (by simp [hpc]) nofun nofun nofun
        · intro b hb
          have hmine : (s.pc t).waiter = some b := by simpa [hpc] using hb
          exact ⟨hI.awaiters.address t b hmine, .inl hmine⟩
        · intro b hb
          refine Function.update_of_ne ?_ _ _
          rintro rfl
          exact hb (by simp [hpc])
        · exact fun b hb => hI.awaiters.handle t b (by simpa [hpc] using hb)
        · intro b y hb
          injection hb with hb hy
          rw [← hb, ← hy]
          exact ⟨hx, Function.update_self ..⟩
  | suspendPush a x =>
      simp only [go, hpc] at h
      split at h
      · rename_i hcas
        cases h
        refine lands_of ⟨w, a :: waiting, ?_⟩ (goto_self _) (fun u hu => goto_other hu _) (by simp)
          (by simp) fun u => ?_
        · exact inv_push hI hpc (goto_self _) (fun u hu => goto_other hu _) hcas.1 rfl rfl rfl rfl
        · rw [hpc]
          by_cases hut : u = t
          · simp [pushes, hut]
          · simp [pushes, hut, Ne.symm hut]
      · cases h
        exact lands_goto hI (by simp [hpc]) (by simp [hpc]) nofun (by simp [hpc]) (by simp [hpc])
          (by simp [hpc]) nofun nofun nofun
  | unlockLoad pool =>
      simp only [go, hpc] at h
      cases h
      have hw : w = .held t := (hI.token.owner t).mp (by simp [hpc])
      refine lands_goto hI nofun nofun nofun (by simp [hpc]) (by simp [hpc]) (by simp [hpc]) nofun
        ?_ nofun
      intro pool' x hx
      injection hx with _ hx
      rw [← hx]
      exact hI.word_mem (by rw [hw]; nofun)
  | unlockTry pool x =>
      have hw : w = .held t := (hI.token.owner t).mp (by simp [hpc])
      have hretry : Lands s (s.goto t (.unlockTry pool s.word)) [] := by
        refine lands_goto hI nofun nofun nofun (by simp [hpc]) (by simp [hpc]) (by simp [hpc]) nofun
          ?_ nofun
        intro pool' y hy
        injection hy with _ hy
        rw [← hy]
        exact hI.word_mem (by rw [hw]; nofun)
      simp only [go, hpc] at h
      split at h
      · rename_i hx
        split at h
        · rename_i hcas
          cases h
          subst hw
          refine lands_of ⟨.free, [], ?_⟩ (goto_self _) (fun u hu => goto_other hu _) (by simp)
            (by simp) fun u => ?_
          · exact inv_release hI (goto_self _) (fun u hu => goto_other hu _) (hcas.1.trans hx) rfl
              rfl rfl rfl
          · rw [hpc]
            simp [pushes, List.filterMap_cons]
        · cases h
          exact hretry
      · rename_i hx
        cases h
        have hmem : x ∈ waiting := (hI.waiters.reads t pool x hpc).resolve_left hx
        have hnonzero : s.next x ≠ 0 := by
          rcases (hI.waiters.links (by rw [hw]; nofun)).next_mem hmem with hn | hn
          · rw [hn]
            decide
          · intro hzero
            rw [hzero] at hn
            obtain ⟨u, hu⟩ := hI.waiters.waits 0 hn
            have := hI.awaiters.address u 0 (by simp [hu])
            omega
        rw [if_neg hnonzero]
        refine lands_goto hI nofun nofun nofun (by simp [hpc]) (by simp [hpc]) (by simp [hpc]) nofun
          nofun ?_
        intro pool' y z hy
        injection hy with _ hy hz
        rw [← hy, ← hz]
        exact ⟨hmem, rfl⟩
  | unlockPop pool x y =>
      have hw : w = .held t := (hI.token.owner t).mp (by simp [hpc])
      simp only [go, hpc] at h
      split at h
      · rename_i hcas
        cases h
        subst hw
        obtain ⟨u, rest, _, hI'⟩ : ∃ u rest, waiting = x :: rest ∧
            Inv { s.goto t (.handOver pool x) with word := y } (.passing t u) rest :=
          inv_pop hI hpc (goto_self _) (fun u hu => goto_other hu _) hcas.1 rfl rfl rfl rfl
        refine lands_of ⟨_, _, hI'⟩ (goto_self _) (fun u hu => goto_other hu _) (by simp) (by simp)
          fun u => ?_
        rw [hpc]
        simp [pushes, List.filterMap_cons]
      · cases h
        refine lands_goto hI nofun nofun nofun (by simp [hpc]) (by simp [hpc]) (by simp [hpc]) nofun
          ?_ nofun
        intro pool' z hz
        injection hz with _ hz
        rw [← hz]
        exact hI.word_mem (by rw [hw]; nofun)
  | handOver pool a =>
      obtain ⟨u, hw, hu⟩ := hI.token.passer t a (by simp [hpc])
      subst hw
      have hhandle : s.handle a = some u := hI.awaiters.handle u a (by simp [hu])
      have hqueue : s.queue = [] := hI.token.queue
      have hI' : Inv { s.goto t .idle with queue := s.queue ++ [s.handle a] } (.queued u) waiting :=
        inv_enqueue hI hpc (goto_self _) (fun u hu => goto_other hu _) rfl rfl rfl rfl
      have hlands : Lands s { s.goto t .idle with queue := s.queue ++ [s.handle a] } [] := by
        refine lands_of ⟨_, _, hI'⟩ (goto_self _) (fun u hu => goto_other hu _) (by simp) (by simp)
          fun v => ?_
        rw [hpc]
        simp [pushes]
      simp only [go, hpc] at h
      split at h
      · cases h
        exact hlands
      · -- as if the pool had been given the waiter, and resumed it at once
        have hstate : s.goto t .idle = { s.goto t .idle with queue := [] } := by
          simp [State.goto, hqueue]
        simp only [Option.some.injEq] at h
        rw [hhandle, hstate] at h
        have hresume := lands_resume hI' h
        refine ⟨hresume.inv, fun v => ?_, fun v hv => ?_, hresume.tame⟩
        · have h₁ := hlands.told v
          have h₂ := hresume.told v
          have hpushes : (pushes ([] : List (Event τ))).count v = 0 := rfl
          have hresumes : (resumes ([] : List (Event τ))).count v = 0 := rfl
          omega
        · obtain ⟨hold, hnew⟩ := hresume.heir v hv
          exact ⟨(holds_iff hI v).mpr ((holds_iff hI' v).mp hold), hnew⟩

theorem step_lands (hI : Inv s w waiting) {a : Action τ} (hok : Apart s a)
    (h : step s a = some (s', ev)) : Lands s s' ev := by
  cases a with
  | lock t b =>
      cases hpc : s.pc t <;> simp only [step, hpc] at h
      case idle =>
        cases h
        refine lands_turn hI ?_ (fun _ _ => rfl) (fun _ _ => rfl) nofun nofun (by simp [hpc])
          (by simp [hpc]) (by simp [hpc]) nofun nofun nofun
        intro c hc
        simp only [Pc.waiter, Option.some.injEq] at hc
        subst hc
        exact ⟨hok.1, .inr fun u _ => hok.2 u⟩
      all_goals cases h
  | unlock t pool =>
      cases hpc : s.pc t <;> simp only [step, hpc] at h
      case holding =>
        cases h
        exact lands_goto hI nofun nofun nofun (by simp [hpc]) (by simp [hpc]) (by simp [hpc]) nofun
          nofun nofun
      all_goals cases h
  | run t weak => exact go_lands hI h
  | dispatch k =>
      simp only [step] at h
      split at h
      · cases h
      · rename_i hd hget
        have hqueue := hI.token.queue
        cases w with
        | queued u =>
            rw [hqueue] at h hget
            cases k with
            | zero =>
                simp only [Where.queue, List.getElem?_cons_zero, Option.some.injEq] at hget
                subst hget
                simp only [Option.some.injEq] at h
                exact lands_resume hI h
            | succ k => simp at hget
        | free | held | passing =>
            rw [hqueue] at hget
            cases hget

end Lands

/-! ## Whole runs -/

section Runs

variable [DecidableEq τ] {s : State τ} {es : List (Event τ)}

theorem run_inv (h : Run step Apart init es s) :
    (∃ w waiting, Inv s w waiting) ∧
      (∀ t, (pushes es).count t = (resumes es).count t + (s.pc t).asleep) ∧ .wild ∉ es := by
  refine Run.invariant (I := fun es s => (∃ w waiting, Inv s w waiting) ∧
    (∀ t, (pushes es).count t = (resumes es).count t + (s.pc t).asleep) ∧ .wild ∉ es)
    ⟨⟨_, _, inv_init⟩, fun _ => rfl, by simp⟩ ?_ h
  intro es ev s s' a hI hok hstep
  obtain ⟨⟨w, waiting, hI⟩, htold, htame⟩ := hI
  have hland := step_lands hI hok hstep
  refine ⟨hland.inv, fun t => ?_, fun hmem => ?_⟩
  · have h₁ := htold t
    have h₂ := hland.told t
    have hpushes : pushes (es ++ ev) = pushes es ++ pushes ev := List.filterMap_append
    have hresumes : resumes (es ++ ev) = resumes es ++ resumes ev := List.filterMap_append
    rw [hpushes, hresumes, List.count_append, List.count_append]
    omega
  · rcases List.mem_append.mp hmem with hmem | hmem
    · exact htame hmem
    · exact hland.tame hmem

/-- **The mutex.** At most one coroutine has it. A coroutine that is pushed is resumed once
before it is pushed again, and when it is resumed it has the mutex. While the word says that
the mutex is free nobody has it and nobody is suspended. The links from the word lead exactly
to those who are suspended and do not have the mutex. -/
theorem awaitableMutex_correct (h : Run step Apart init es s) :
    (∀ t u, Holds s t → Holds s u → t = u) ∧
      (∀ t, (pushes es).count t = (resumes es).count t + (s.pc t).asleep) ∧
      (∀ a s' ev, Apart s a → step s a = some (s', ev) →
        ∀ t, .resumed t ∈ ev → Holds s t ∧ Holds s' t) ∧
      (s.word = kUnlocked → ∀ t, ¬ Holds s t ∧ (s.pc t).asleep = 0) ∧
      (s.word ≠ kUnlocked → ∃ waiting, Links s.next kLockedNoWaiters s.word waiting ∧
        (∀ a ∈ waiting, ∃ t, s.pc t = .suspended a ∧ ¬ Holds s t) ∧
        ∀ t a, s.pc t = .suspended a → ¬ Holds s t → a ∈ waiting) ∧
      .wild ∉ es := by
  obtain ⟨⟨w, waiting, hI⟩, htold, htame⟩ := run_inv h
  refine ⟨fun t u ht hu => ?_, htold, fun a s' ev hok hstep => (step_lands hI hok hstep).heir,
    fun hword t => ?_, fun hword => ⟨waiting, ?_, fun a ha => ?_, fun t a ht hnot => ?_⟩, htame⟩
  · rw [holds_iff hI] at ht hu
    exact Option.some.inj (ht.symm.trans hu)
  · have hfree := hI.free_of_word hword
    subst hfree
    refine ⟨fun ht => (nomatch (holds_iff hI t).mp ht), ?_⟩
    cases hpc : s.pc t with
    | suspended a =>
        obtain ⟨_, rfl⟩ := hI.waiters.word rfl
        rcases hI.waiters.suspended t a hpc with h | h
        · cases h
        · cases h
    | _ => rfl
  · refine hI.waiters.links ?_
    rintro rfl
    exact hword (hI.waiters.word rfl).1
  · obtain ⟨t, ht⟩ := hI.waiters.waits a ha
    refine ⟨t, ht, fun hh => ?_⟩
    exact hI.not_holding ht ha hh
  · rcases hI.waiters.suspended t a ht with h | h
    · exact h
    · refine absurd ((holds_iff hI t).mpr ?_) hnot
      cases w <;> simp_all

end Runs

/-- Three coroutines. The first locks the mutex and the others wait. The first unlocks it in
favour of the last one who came, whom a pool resumes, and waits again, with an awaiter where
that one's was. It came last, so it is resumed next; the second one is still waiting. -/
def chainSchedule : List (Action (Fin 3)) :=
  [Action.lock 0 8, .run 0 false, .lock 1 16] ++ List.replicate 4 (Action.run 1 false) ++
  [Action.lock 2 24] ++ List.replicate 4 (Action.run 2 false) ++
  [Action.unlock 0 true] ++ List.replicate 4 (Action.run 0 false) ++ [Action.dispatch 0] ++
  [Action.lock 0 24] ++ List.replicate 4 (Action.run 0 false) ++
  [Action.unlock 2 false] ++ List.replicate 4 (Action.run 2 false)

theorem awaitableMutex_correct_three :
    ∃ (es : List (Event (Fin 3))) (s : State (Fin 3)), Run step Apart init es s ∧
      es = [locked 0, pushed 1, pushed 2, passed 0 24, resumed 2, pushed 0, passed 2 24,
        resumed 0] ∧ s.word = 16 ∧
      (∃ waiting, Links s.next kLockedNoWaiters s.word waiting ∧
        ∀ a ∈ waiting, ∃ t, s.pc t = .suspended a ∧ ¬ Holds s t) ∧
      ∀ t u, Holds s t → Holds s u → t = u := by
  have h : Leads step Apart (init : State (Fin 3)) chainSchedule fun s es => s.word = 16 ∧ es =
      [locked 0, pushed 1, pushed 2, passed 0 24, resumed 2, pushed 0, passed 2 24,
        resumed 0] := by
    decide +kernel
  obtain ⟨s, es, hrun, hword, hes⟩ := h.run
  obtain ⟨hone, _, _, _, hlist, _⟩ := awaitableMutex_correct hrun
  obtain ⟨waiting, hlinks, hwaits, _⟩ := hlist (by rw [hword]; decide)
  exact ⟨es, s, hrun, hes, hword, ⟨waiting, hlinks, hwaits⟩, hone⟩

end CrossMachine.Coro
