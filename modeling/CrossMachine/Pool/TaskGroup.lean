import CrossMachine.Lib.Prefix
import CrossMachine.Lib.Run
import Mathlib.Algebra.Order.BigOperators.Group.List
import Mathlib.Algebra.Order.Ring.Int

/-!
# A task group

`TaskGroup` of `ws_pool.h`, one access to one of its members at a time. `run` counts the task
and hands it to the pool; the task counts itself off when it is done, and the one that brings
the counter to 0 takes the mutex and notifies. `wait` looks at the counter under the mutex and
sleeps as long as it is not 0. When the pool runs a task is left open: any task that was handed
in may start at any moment.

No notification is missed (`Roused`). But `wait` does not need one: it may look at the counter
after it has come to 0 and before the last task has the mutex. Then `wait` returns, the group
may be destroyed, and the task still has the mutex before it, the condition variable, and the
mutex again. Until the group's lifetime is safe it takes that `wait` does not look in between
(`Clear`).
-/

namespace CrossMachine.Pool.Group

open Lib

/-- What a task does next. -/
inductive TaskPc where
  /-- It is in the pool. -/
  | queued
  /-- In its function. -/
  | body
  /-- Its function has called `run` of the group, and has counted the new task. -/
  | adding
  /-- It has brought the counter to 0; before it takes the mutex. -/
  | lock
  | notify
  | unlock
  | done
  deriving DecidableEq, Repr

/-- What the owner of the group does next. -/
inductive OwnerPc where
  | idle
  /-- In `run`, when the task is counted. -/
  | adding
  /-- In `wait`, before it takes the mutex. -/
  | lock
  /-- Before it looks at the counter. -/
  | check
  /-- The counter was not 0; before it sleeps. -/
  | block
  | asleep
  /-- The counter was 0; before it releases the mutex and returns. -/
  | leave
  deriving DecidableEq, Repr

inductive Holder where
  | owner
  | task (x : Nat)
  deriving DecidableEq, Repr

structure State where
  /-- `remaining_`. -/
  remaining : Int
  /-- `mu_`. -/
  mu : Option Holder
  owner : OwnerPc
  /-- The tasks, in the order in which they were handed to the pool. -/
  tasks : List TaskPc
  deriving DecidableEq, Repr

inductive Event where
  /-- A task is handed to the pool. -/
  | submitted (x : Nat)
  /-- A task uses a member of the group. -/
  | accessed (x : Nat)
  /-- `wait` returns. -/
  | returned
  deriving DecidableEq, Repr

open Event

def State.goto (s : State) (x : Nat) (pc : TaskPc) : State :=
  { s with tasks := s.tasks.set x pc }

/-- `pool_.submit`. -/
def State.submit (s : State) : State := { s with tasks := s.tasks ++ [.queued] }

/-- `notify_all`. -/
def State.notifyAll (s : State) : State :=
  { s with owner := if s.owner = .asleep then .lock else s.owner }

/-- One step of the owner in `run` or `wait`. -/
def ownerGo (s : State) : Option (State × List Event) :=
  match s.owner with
  | .idle => none
  | .adding => some ({ s.submit with owner := .idle }, [submitted s.tasks.length])
  | .lock => if s.mu = none then some ({ s with mu := some .owner, owner := .check }, []) else none
  | .check =>
      if s.remaining = 0 then some ({ s with owner := .leave }, [])
      else some ({ s with owner := .block }, [])
  | .block => some ({ s with mu := none, owner := .asleep }, [])
  | .asleep => none
  | .leave => some ({ s with mu := none, owner := .idle }, [returned])

/-- One step of a task. -/
def taskGo (s : State) (x : Nat) : Option (State × List Event) :=
  match s.tasks[x]? with
  | none => none
  | some .queued => some (s.goto x .body, [])
  | some .body =>
      let s' := { s with remaining := s.remaining - 1 }
      if s.remaining = 1 then some (s'.goto x .lock, [accessed x])
      else some (s'.goto x .done, [accessed x])
  | some .adding => some ((s.goto x .body).submit, [accessed x, submitted s.tasks.length])
  | some .lock =>
      if s.mu = none then
        some ({ s.goto x .notify with mu := some (.task x) }, [accessed x])
      else none
  | some .notify => some ((s.goto x .unlock).notifyAll, [accessed x])
  | some .unlock => some ({ s.goto x .done with mu := none }, [accessed x])
  | some .done => none

inductive Action where
  /-- The owner calls `run` or `wait`, or goes on. -/
  | run
  | wait
  | owner
  /-- The owner wakes up although nobody has notified it. -/
  | wake
  /-- A task goes on. -/
  | task (x : Nat)
  /-- The function of a task calls `run`. -/
  | spawn (x : Nat)
  deriving DecidableEq, Repr

/-- Any interleaving of the owner and the tasks. -/
def step (s : State) : Action → Option (State × List Event)
  | .run =>
      if s.owner = .idle then
        some ({ s with remaining := s.remaining + 1, owner := .adding }, [])
      else none
  | .wait => if s.owner = .idle then some ({ s with owner := .lock }, []) else none
  | .owner => ownerGo s
  | .wake => if s.owner = .asleep then some ({ s with owner := .lock }, []) else none
  | .task x => taskGo s x
  | .spawn x =>
      if s.tasks[x]? = some .body then
        some ({ s.goto x .adding with remaining := s.remaining + 1 }, [accessed x])
      else none

def init : State := { remaining := 0, mu := none, owner := .idle, tasks := [] }

/-- When `wait` has returned, no task that was started before uses the group again. -/
def Lifetime (es : List Event) : Prop :=
  ∀ es₁ es₂, es = es₁ ++ returned :: es₂ → ∀ x, submitted x ∈ es₁ → accessed x ∉ es₂

/-- `wait` does not find the counter at 0 while a task is between bringing it there and
releasing the mutex. -/
def Clear (s : State) : Action → Prop
  | .owner => s.owner = .check → s.remaining = 0 →
      TaskPc.lock ∉ s.tasks ∧ TaskPc.notify ∉ s.tasks ∧ TaskPc.unlock ∉ s.tasks
  | _ => True

instance (s : State) : ∀ a, Decidable (Clear s a)
  | .owner => inferInstanceAs (Decidable (s.owner = .check → s.remaining = 0 → _))
  | .run | .wait | .wake | .task _ | .spawn _ => isTrue trivial

/-! ## Counting -/

/-- What the task has in the counter. -/
@[simp] def TaskPc.weight : TaskPc → Int
  | .queued => 1
  | .body => 1
  | .adding => 2
  | _ => 0

@[simp] def OwnerPc.weight : OwnerPc → Int
  | .adding => 1
  | _ => 0

def weight (tasks : List TaskPc) : Int := (tasks.map TaskPc.weight).sum

theorem TaskPc.weight_nonneg (pc : TaskPc) : 0 ≤ pc.weight := by
  cases pc <;> simp

theorem weight_concat (tasks : List TaskPc) (pc : TaskPc) :
    weight (tasks ++ [pc]) = weight tasks + pc.weight := by
  simp [weight]

theorem weight_set {tasks : List TaskPc} {x : Nat} {pc : TaskPc} (h : tasks[x]? = some pc)
    (pc' : TaskPc) : weight (tasks.set x pc') + pc.weight = weight tasks + pc'.weight := by
  induction tasks generalizing x with
  | nil => cases h
  | cons pc₀ tasks ih =>
      cases x with
      | zero =>
          obtain rfl := Option.some.inj h
          simp only [weight, List.set_cons_zero, List.map_cons, List.sum_cons]
          omega
      | succ x =>
          have := ih h
          simp only [weight, List.set_cons_succ, List.map_cons, List.sum_cons] at this ⊢
          omega

theorem le_weight {tasks : List TaskPc} {pc : TaskPc} (h : pc ∈ tasks) :
    pc.weight ≤ weight tasks := by
  induction tasks with
  | nil => cases h
  | cons pc₀ tasks ih =>
      have hrest : 0 ≤ weight tasks :=
        List.sum_nonneg (by simpa using fun pc _ => pc.weight_nonneg)
      simp only [weight, List.map_cons, List.sum_cons] at hrest ⊢
      rcases List.mem_cons.mp h with rfl | h
      · omega
      · have := ih h
        have := pc₀.weight_nonneg
        simp only [weight] at *
        omega

/-! ## What every step keeps -/

/-- The owner has the mutex. -/
@[simp] def OwnerPc.holds : OwnerPc → Prop
  | .check => True
  | .block => True
  | .leave => True
  | _ => False

/-- The task has the mutex. -/
@[simp] def TaskPc.holds : TaskPc → Prop
  | .notify => True
  | .unlock => True
  | _ => False

structure Inv (s : State) : Prop where
  count : s.remaining = s.owner.weight + weight s.tasks
  owner : s.owner.holds → s.mu = some .owner
  task : ∀ x pc, s.tasks[x]? = some pc → pc.holds → s.mu = some (.task x)
  /-- The owner does not sleep over the end: the task that notifies it is still to come. -/
  roused : s.remaining = 0 → (s.owner = .block → .lock ∈ s.tasks) ∧
    (s.owner = .asleep → .lock ∈ s.tasks ∨ .notify ∈ s.tasks)

theorem inv_init : Inv init := by
  constructor <;> simp [init, weight]

section Steps

variable {s s' : State} {ev : List Event} {x : Nat} {pc pc' : TaskPc}

theorem getElem?_goto {y : Nat} (h : s.tasks[x]? = some pc') :
    (s.goto x pc).tasks[y]? = if x = y then some pc else s.tasks[y]? := by
  have hlt := (List.getElem?_eq_some_iff.mp h).1
  rw [State.goto, List.getElem?_set, if_pos hlt]

theorem getElem?_submit {y : Nat} {pc : TaskPc} (h : s.submit.tasks[y]? = some pc) :
    s.tasks[y]? = some pc ∨ pc = .queued := by
  rw [State.submit, List.getElem?_append] at h
  split at h
  · exact .inl h
  · exact .inr (by simpa using List.mem_of_getElem? h)

/-- Others stay where they are. -/
theorem mem_goto {pc₁ : TaskPc} (h : s.tasks[x]? = some pc') (hne : pc' ≠ pc₁)
    (hmem : pc₁ ∈ s.tasks) : pc₁ ∈ (s.goto x pc).tasks := by
  obtain ⟨y, hy⟩ := List.getElem?_of_mem hmem
  refine List.mem_of_getElem? (i := y) ?_
  rw [getElem?_goto h, if_neg, hy]
  rintro rfl
  exact hne (Option.some.inj (h.symm.trans hy))

theorem mem_goto_self (h : s.tasks[x]? = some pc') : pc ∈ (s.goto x pc).tasks := by
  refine List.mem_of_getElem? (i := x) ?_
  rw [getElem?_goto h, if_pos rfl]

/-- A task goes on and leaves the mutex alone. -/
theorem inv_goto (hI : Inv s) (hx : s.tasks[x]? = some pc') {r : Int}
    (hr : r + pc'.weight = s.remaining + pc.weight) (hpc : ¬ pc.holds)
    (hroused : r = 0 → pc = .lock ∨ (s.remaining = 0 ∧ pc' ≠ .lock ∧ pc' ≠ .notify)) :
    Inv { s.goto x pc with remaining := r } := by
  have hsum := weight_set hx pc
  have hcount := hI.count
  constructor
  case count =>
      simp only [State.goto]
      omega
  case owner => exact hI.owner
  case task =>
      intro y pc₁ hy hholds
      rw [getElem?_goto hx] at hy
      split at hy
      · exact absurd (Option.some.inj hy ▸ hholds) hpc
      · exact hI.task y pc₁ hy hholds
  case roused =>
      intro hr0
      rcases hroused hr0 with rfl | ⟨hzero, hlock, hnotify⟩
      · exact ⟨fun _ => mem_goto_self hx, fun _ => .inl (mem_goto_self hx)⟩
      · obtain ⟨hblock, hasleep⟩ := hI.roused hzero
        exact ⟨fun ho => mem_goto hx hlock (hblock ho),
          fun ho => (hasleep ho).imp (mem_goto hx hlock) (mem_goto hx hnotify)⟩

theorem inv_submit (hI : Inv s) {r : Int} {o : OwnerPc}
    (hr : r = s.remaining + o.weight - s.owner.weight + 1) (hpos : 0 < r)
    (ho : o.holds → s.owner.holds) : Inv { s.submit with remaining := r, owner := o } := by
  have hcount := hI.count
  have hsum : weight (s.tasks ++ [.queued]) = weight s.tasks + 1 := weight_concat ..
  constructor
  case count =>
      change r = o.weight + weight (s.tasks ++ [.queued])
      omega
  case owner => exact fun h => hI.owner (ho h)
  case task =>
      intro y pc₁ hy hholds
      rcases getElem?_submit hy with hy | rfl
      · exact hI.task y pc₁ hy hholds
      · cases hholds
  case roused => exact fun hr0 => absurd hr0 (Int.ne_of_gt hpos)

/-- A task that has the mutex keeps the owner from having it. -/
theorem Inv.not_holds (hI : Inv s) (hx : s.tasks[x]? = some pc) (hpc : pc.holds) :
    ¬ s.owner.holds := by
  intro ho
  have hmine := hI.task x pc hx hpc
  rw [hI.owner ho] at hmine
  cases hmine

theorem inv_lock (hI : Inv s) (hx : s.tasks[x]? = some .lock) (hfree : s.mu = none) :
    Inv { s.goto x .notify with mu := some (.task x) } := by
  have hsum := weight_set hx .notify
  have hcount := hI.count
  constructor
  case count =>
      change s.remaining = s.owner.weight + weight (s.tasks.set x .notify)
      simp only [TaskPc.weight] at hsum
      omega
  case owner =>
      intro ho
      have := hI.owner ho
      rw [hfree] at this
      cases this
  case task =>
      intro y pc hy hholds
      rw [getElem?_goto hx] at hy
      split at hy
      · rename_i heq
        rw [heq]
      · have := hI.task y pc hy hholds
        rw [hfree] at this
        cases this
  case roused =>
      refine fun _ => ⟨fun ho => ?_, fun _ => .inr (mem_goto_self hx)⟩
      have := hI.owner (by simp [show s.owner = .block from ho])
      rw [hfree] at this
      cases this

theorem inv_notify (hI : Inv s) (hx : s.tasks[x]? = some .notify) :
    Inv (s.goto x .unlock).notifyAll := by
  have hsum := weight_set hx .unlock
  have hcount := hI.count
  have hmu := hI.task x _ hx (by simp)
  have hnot := hI.not_holds hx (by simp)
  have howner : ¬ (if s.owner = .asleep then OwnerPc.lock else s.owner).holds := by
    split
    · simp
    · exact hnot
  constructor
  case count =>
      change s.remaining = OwnerPc.weight (if s.owner = .asleep then .lock else s.owner) +
        weight (s.tasks.set x .unlock)
      simp only [TaskPc.weight] at hsum
      split
      · rename_i ho
        simp only [ho, OwnerPc.weight] at hcount ⊢
        omega
      · omega
  case owner => exact fun ho => absurd ho howner
  case task =>
      intro y pc hy hholds
      have hy : (s.goto x .unlock).tasks[y]? = some pc := hy
      rw [getElem?_goto hx] at hy
      split at hy
      · rename_i heq
        exact heq ▸ hmu
      · exact hI.task y pc hy hholds
  case roused =>
      refine fun _ => ⟨fun ho => ?_, fun ho => ?_⟩
      · have ho : (if s.owner = .asleep then OwnerPc.lock else s.owner) = .block := ho
        rw [ho] at howner
        simp at howner
      · -- everybody who slept has been woken
        have ho : (if s.owner = .asleep then OwnerPc.lock else s.owner) = .asleep := ho
        split at ho
        · cases ho
        · contradiction

theorem inv_unlock (hI : Inv s) (hx : s.tasks[x]? = some .unlock) :
    Inv { s.goto x .done with mu := none } := by
  have hsum := weight_set hx .done
  have hcount := hI.count
  have hmu := hI.task x _ hx (by simp)
  have hnot := hI.not_holds hx (by simp)
  constructor
  case count =>
      change s.remaining = s.owner.weight + weight (s.tasks.set x .done)
      simp only [TaskPc.weight] at hsum
      omega
  case owner => exact fun ho => absurd ho hnot
  case task =>
      intro y pc hy hholds
      rw [getElem?_goto hx] at hy
      split at hy
      · obtain rfl := Option.some.inj hy
        cases hholds
      · rename_i hne
        have := hI.task y pc hy hholds
        rw [hmu] at this
        exact absurd (Holder.task.inj (Option.some.inj this)) hne
  case roused =>
      intro hr0
      obtain ⟨hblock, hasleep⟩ := hI.roused hr0
      exact ⟨fun ho => mem_goto hx (by simp) (hblock ho),
        fun ho => (hasleep ho).imp (mem_goto hx (by simp)) (mem_goto hx (by simp))⟩

/-- Nobody is alive when the counter is at 0. -/
theorem Inv.weight_eq_zero (hI : Inv s) (hzero : s.remaining = 0) (hmem : pc ∈ s.tasks) :
    pc.weight = 0 := by
  have := hI.count
  have := le_weight hmem
  have := pc.weight_nonneg
  have : 0 ≤ s.owner.weight := by cases s.owner <;> simp
  omega

/-- The owner goes on, and neither counts nor hands in anything. -/
theorem inv_owner (hI : Inv s) {o : OwnerPc} {m : Option Holder}
    (hweight : s.owner.weight = 0 ∧ o.weight = 0) (hm : o.holds → m = some .owner)
    (htask : ∀ y, s.mu = some (.task y) → m = some (.task y))
    (hroused : s.remaining = 0 → (o = .block → .lock ∈ s.tasks) ∧
      (o = .asleep → .lock ∈ s.tasks ∨ .notify ∈ s.tasks)) :
    Inv { s with owner := o, mu := m } := by
  have hcount := hI.count
  constructor
  case count =>
      simp only
      omega
  case owner => exact hm
  case task => exact fun y pc hy hholds => htask y (hI.task y pc hy hholds)
  case roused => exact hroused

theorem ownerGo_inv (hI : Inv s) (h : ownerGo s = some (s', ev)) : Inv s' := by
  have hcount := hI.count
  have hheld : s.owner.holds → ∀ y, s.mu ≠ some (.task y) := by
    intro ho y
    rw [hI.owner ho]
    nofun
  cases ho : s.owner <;> simp only [ownerGo, ho, Option.some.injEq, Prod.mk.injEq] at h
  case idle | asleep => cases h
  case adding =>
    obtain ⟨rfl, rfl⟩ := h
    have hpos : 0 ≤ weight s.tasks :=
      List.sum_nonneg (by simpa using fun pc _ => pc.weight_nonneg)
    simp only [ho, OwnerPc.weight] at hcount
    exact inv_submit (r := s.remaining) hI (by simp [ho]) (by omega) (by simp)
  case lock =>
    split at h
    · rename_i hfree
      obtain ⟨rfl, rfl⟩ := Prod.mk.inj (Option.some.inj h)
      exact inv_owner hI (by simp [ho]) (by simp) (by simp [hfree]) (by simp)
    · cases h
  case check =>
    have hmine := hI.owner (by simp [ho])
    split at h
    · obtain ⟨rfl, rfl⟩ := Prod.mk.inj (Option.some.inj h)
      exact inv_owner hI (by simp [ho]) (fun _ => hmine) (fun _ => id) (by simp)
    · rename_i hne
      obtain ⟨rfl, rfl⟩ := Prod.mk.inj (Option.some.inj h)
      exact inv_owner hI (by simp [ho]) (fun _ => hmine) (fun _ => id) fun hr => absurd hr hne
  case block =>
    obtain ⟨rfl, rfl⟩ := h
    refine inv_owner hI (by simp [ho]) (by simp) (fun y hy => ?_) fun hr => ⟨by simp, fun _ => ?_⟩
    · exact absurd hy (hheld (by simp [ho]) y)
    · exact .inl ((hI.roused hr).1 ho)
  case leave =>
    obtain ⟨rfl, rfl⟩ := h
    refine inv_owner hI (by simp [ho]) (by simp) (fun y hy => ?_) (by simp)
    exact absurd hy (hheld (by simp [ho]) y)

theorem taskGo_inv (hI : Inv s) (h : taskGo s x = some (s', ev)) : Inv s' := by
  have hcount := hI.count
  unfold taskGo at h
  split at h
  · cases h
  · rename_i hx
    obtain ⟨rfl, rfl⟩ := Prod.mk.inj (Option.some.inj h)
    exact inv_goto hI hx rfl (by simp) fun hr => .inr ⟨hr, by simp, by simp⟩
  · rename_i hx
    split at h
    · obtain ⟨rfl, rfl⟩ := Prod.mk.inj (Option.some.inj h)
      exact inv_goto hI hx (by simp) (by simp) fun _ => .inl rfl
    · rename_i hlast
      obtain ⟨rfl, rfl⟩ := Prod.mk.inj (Option.some.inj h)
      exact inv_goto (r := s.remaining - 1) hI hx (by simp) (by simp)
        fun hr => absurd (by omega) hlast
  · rename_i hx
    obtain ⟨rfl, rfl⟩ := Prod.mk.inj (Option.some.inj h)
    have hle := le_weight (List.mem_of_getElem? hx)
    have hpos : 0 ≤ s.owner.weight := by cases s.owner <;> simp
    simp only [TaskPc.weight] at hle
    have hbody : Inv { s.goto x .body with remaining := s.remaining - 1 } :=
      inv_goto hI hx (by simp; omega) (by simp) fun hr => absurd hr (by omega)
    exact inv_submit (r := s.remaining) hbody (by simp [State.goto]) (by omega) id
  · rename_i hx
    split at h
    · rename_i hfree
      obtain ⟨rfl, rfl⟩ := Prod.mk.inj (Option.some.inj h)
      exact inv_lock hI hx hfree
    · cases h
  · rename_i hx
    obtain ⟨rfl, rfl⟩ := Prod.mk.inj (Option.some.inj h)
    exact inv_notify hI hx
  · rename_i hx
    obtain ⟨rfl, rfl⟩ := Prod.mk.inj (Option.some.inj h)
    exact inv_unlock hI hx
  · cases h

theorem step_inv {a : Action} (hI : Inv s) (h : step s a = some (s', ev)) : Inv s' := by
  have hcount := hI.count
  cases a with
  | run =>
      simp only [step] at h
      split at h
      · rename_i ho
        obtain ⟨rfl, rfl⟩ := Prod.mk.inj (Option.some.inj h)
        have hpos : 0 ≤ weight s.tasks :=
          List.sum_nonneg (by simpa using fun pc _ => pc.weight_nonneg)
        simp only [ho, OwnerPc.weight] at hcount
        constructor
        case count =>
            simp only [OwnerPc.weight]
            omega
        case owner => simp
        case task => exact hI.task
        case roused => simp
      · cases h
  | wait =>
      simp only [step] at h
      split at h
      · rename_i ho
        obtain ⟨rfl, rfl⟩ := Prod.mk.inj (Option.some.inj h)
        exact inv_owner (m := s.mu) hI (by simp [ho]) (by simp) (fun _ => id) (by simp)
      · cases h
  | owner => exact ownerGo_inv hI h
  | wake =>
      simp only [step] at h
      split at h
      · rename_i ho
        obtain ⟨rfl, rfl⟩ := Prod.mk.inj (Option.some.inj h)
        exact inv_owner (m := s.mu) hI (by simp [ho]) (by simp) (fun _ => id) (by simp)
      · cases h
  | task x => exact taskGo_inv hI h
  | spawn x =>
      simp only [step] at h
      split at h
      · rename_i hx
        obtain ⟨rfl, rfl⟩ := Prod.mk.inj (Option.some.inj h)
        have hle := le_weight (List.mem_of_getElem? hx)
        have hpos : 0 ≤ s.owner.weight := by cases s.owner <;> simp
        simp only [TaskPc.weight] at hle
        exact inv_goto (r := s.remaining + 1) hI hx (by simp; omega) (by simp)
          fun hr => absurd hr (by omega)
      · cases h

end Steps

/-! ## Along a run -/

section Runs

variable {ok : State → Action → Prop} {s s' : State} {es ev : List Event} {a : Action} {x : Nat}

theorem run_inv (h : Run step ok init es s) : Inv s :=
  h.invariant (I := fun _ s => Inv s) inv_init fun hI _ hs => step_inv hI hs

/-- **No wakeup is lost**: where the owner sleeps and no task is left, the one that notifies it
is on its way. -/
theorem run_roused (h : Run step ok init es s) (hzero : s.remaining = 0)
    (ho : s.owner = .asleep) : .lock ∈ s.tasks ∨ .notify ∈ s.tasks :=
  ((run_inv h).roused hzero).2 ho

/-! ### The lifetime -/

/-- What a step can be, as far as tasks come and go. -/
inductive Steps (s : State) (a : Action) : State → List Event → Prop where
  /-- The owner goes on. -/
  | owner {r : Int} {m : Option Holder} {o : OwnerPc}
      (ho : o = .leave → a = .owner ∧ s.owner = .check ∧ s.remaining = 0) :
      Steps s a { s with remaining := r, mu := m, owner := o } []
  | leave (ho : s.owner = .leave) : Steps s a { s with mu := none, owner := .idle } [returned]
  | submit (ho : s.owner = .adding) :
      Steps s a { s.submit with owner := .idle } [submitted s.tasks.length]
  /-- A task goes on. -/
  | task {x : Nat} {pc pc' : TaskPc} {r : Int} {m : Option Holder} {o : OwnerPc}
      {ev : List Event} (hx : s.tasks[x]? = some pc) (hpc : pc ≠ .done)
      (ho : o = .leave → s.owner = .leave) (hev : ev = [] ∨ ev = [accessed x]) :
      Steps s a { s.goto x pc' with remaining := r, mu := m, owner := o } ev
  | spawn {x : Nat} (hx : s.tasks[x]? = some .adding) :
      Steps s a (s.goto x .body).submit [accessed x, submitted s.tasks.length]

theorem ownerGo_steps (h : ownerGo s = some (s', ev)) : Steps s .owner s' ev := by
  cases ho : s.owner <;> simp only [ownerGo, ho, Option.some.injEq, Prod.mk.injEq] at h
  case idle | asleep => cases h
  case adding =>
    obtain ⟨rfl, rfl⟩ := h
    exact .submit ho
  case lock =>
    split at h
    · obtain ⟨rfl, rfl⟩ := Prod.mk.inj (Option.some.inj h)
      exact .owner (by simp)
    · cases h
  case check =>
    split at h
    · rename_i hzero
      obtain ⟨rfl, rfl⟩ := Prod.mk.inj (Option.some.inj h)
      exact .owner fun _ => ⟨rfl, ho, hzero⟩
    · obtain ⟨rfl, rfl⟩ := Prod.mk.inj (Option.some.inj h)
      exact .owner (by simp)
  case block =>
    obtain ⟨rfl, rfl⟩ := h
    exact .owner (by simp)
  case leave =>
    obtain ⟨rfl, rfl⟩ := h
    exact .leave ho

theorem taskGo_steps (h : taskGo s x = some (s', ev)) : Steps s a s' ev := by
  unfold taskGo at h
  split at h
  · cases h
  · rename_i hx
    obtain ⟨rfl, rfl⟩ := Prod.mk.inj (Option.some.inj h)
    exact .task hx (by simp) id (.inl rfl)
  · rename_i hx
    split at h
    all_goals
      obtain ⟨rfl, rfl⟩ := Prod.mk.inj (Option.some.inj h)
      exact .task hx (by simp) id (.inr rfl)
  · rename_i hx
    obtain ⟨rfl, rfl⟩ := Prod.mk.inj (Option.some.inj h)
    exact .spawn hx
  · rename_i hx
    split at h
    · obtain ⟨rfl, rfl⟩ := Prod.mk.inj (Option.some.inj h)
      exact .task hx (by simp) id (.inr rfl)
    · cases h
  · rename_i hx
    obtain ⟨rfl, rfl⟩ := Prod.mk.inj (Option.some.inj h)
    refine .task hx (by simp) (fun ho => ?_) (.inr rfl)
    -- whoever is woken is not leaving
    have ho : (if s.owner = .asleep then OwnerPc.lock else s.owner) = .leave := ho
    split at ho
    · cases ho
    · exact ho
  · rename_i hx
    obtain ⟨rfl, rfl⟩ := Prod.mk.inj (Option.some.inj h)
    exact .task hx (by simp) id (.inr rfl)
  · cases h

theorem step_steps (h : step s a = some (s', ev)) : Steps s a s' ev := by
  cases a with
  | run | wait | wake =>
      simp only [step] at h
      split at h
      · obtain ⟨rfl, rfl⟩ := Prod.mk.inj (Option.some.inj h)
        exact .owner (by simp)
      · cases h
  | owner => exact ownerGo_steps h
  | task x => exact taskGo_steps h
  | spawn x =>
      simp only [step] at h
      split at h
      · rename_i hx
        obtain ⟨rfl, rfl⟩ := Prod.mk.inj (Option.some.inj h)
        exact .task hx (by simp) id (.inr rfl)
      · cases h

/-- What the events of a step say: who uses the group is not done, a task that is handed in is
a new one, and `wait` returns from where it has seen the counter at 0. -/
theorem Steps.events (h : Steps s a s' ev) :
    (∀ x, accessed x ∈ ev → s.tasks[x]? ≠ some .done) ∧
      (∀ x, submitted x ∈ ev → x < s'.tasks.length) ∧
      (returned ∈ ev → ev = [returned] ∧ s.owner = .leave) := by
  cases h with
  | owner => simp
  | leave ho => simp [ho]
  | submit => simp [State.submit]
  | task hx hpc _ hev =>
      rcases hev with rfl | rfl
      · simp
      · simpa [hx] using hpc
  | spawn hx => simp [hx, State.submit, State.goto]

/-- A task that is done stays so. -/
theorem Steps.done (h : Steps s a s' ev) {y : Nat} (hy : s.tasks[y]? = some .done) :
    s'.tasks[y]? = some .done := by
  have hgoto : ∀ {x pc pc'}, s.tasks[x]? = some pc' → pc' ≠ .done →
      (s.goto x pc).tasks[y]? = some .done := by
    intro x pc pc' hx hne
    rw [getElem?_goto hx, if_neg, hy]
    rintro rfl
    exact hne (Option.some.inj (hx.symm.trans hy))
  cases h with
  | owner | leave => exact hy
  | submit => exact (List.getElem?_append_left (List.getElem?_eq_some_iff.mp hy).1).trans hy
  | task hx hpc => exact hgoto hx hpc
  | spawn hx =>
      have hbody : (s.goto _ .body).tasks[y]? = some .done := hgoto hx (by simp)
      exact (List.getElem?_append_left (List.getElem?_eq_some_iff.mp hbody).1).trans hbody

theorem Steps.length_le (h : Steps s a s' ev) : s.tasks.length ≤ s'.tasks.length := by
  cases h <;> simp [State.submit, State.goto]

/-- Everybody is done when the owner leaves. -/
def Left (s : State) : Prop := s.owner = .leave → ∀ pc ∈ s.tasks, pc = .done

theorem left_step (hI : Inv s) (hL : Left s) (hok : Clear s a) (h : step s a = some (s', ev)) :
    Left s' := by
  cases step_steps h with
  | owner ho =>
      intro hleave pc hpc
      obtain ⟨rfl, hcheck, hzero⟩ := ho hleave
      obtain ⟨hlock, hnotify, hunlock⟩ := hok hcheck hzero
      have hweight := hI.weight_eq_zero hzero hpc
      cases pc with
      | done => rfl
      | lock => exact absurd hpc hlock
      | notify => exact absurd hpc hnotify
      | unlock => exact absurd hpc hunlock
      | queued | body | adding => simp at hweight
  | leave | submit => exact nofun
  | task hx hpc ho =>
      exact fun hleave => absurd (hL (ho hleave) _ (List.mem_of_getElem? hx)) hpc
  | spawn hx => exact fun hleave => nomatch hL hleave _ (List.mem_of_getElem? hx)

/-- When `wait` has returned, whoever was there is done. -/
structure Safe (es : List Event) (s : State) : Prop where
  known : ∀ x, submitted x ∈ es → x < s.tasks.length
  finished : ∀ es₁ es₂, es = es₁ ++ returned :: es₂ → ∀ x, submitted x ∈ es₁ →
    s.tasks[x]? = some .done ∧ accessed x ∉ es₂

theorem safe_step (hL : Left s) (hS : Safe es s) (h : Steps s a s' ev) : Safe (es ++ ev) s' := by
  obtain ⟨haccessed, hsubmitted, hreturned⟩ := h.events
  constructor
  case known =>
      intro x hx
      rcases List.mem_append.mp hx with hx | hx
      · exact (hS.known x hx).trans_le h.length_le
      · exact hsubmitted x hx
  case finished =>
      intro es₁ es₂ heq x hx
      rcases append_eq_append_cons heq with ⟨us, hes, rfl⟩ | ⟨us, rfl, hev⟩
      · obtain ⟨hdone, hnot⟩ := hS.finished es₁ us hes x hx
        refine ⟨h.done hdone, fun hin => ?_⟩
        rcases List.mem_append.mp hin with hin | hin
        · exact hnot hin
        · exact haccessed x hin hdone
      · -- `wait` returns just now
        obtain ⟨hsingle, hleave⟩ := hreturned (by simp [hev])
        have hlen := congrArg List.length (hsingle.symm.trans hev)
        simp only [List.length_append, List.length_cons, List.length_nil] at hlen
        have hus := List.length_eq_zero_iff.mp (show us.length = 0 by omega)
        have hes₂ := List.length_eq_zero_iff.mp (show es₂.length = 0 by omega)
        rw [hus, List.append_nil] at hx
        have hlt := hS.known x hx
        have hdone := hL hleave _ (List.getElem_mem hlt)
        refine ⟨h.done ?_, by simp [hes₂]⟩
        rw [List.getElem?_eq_getElem hlt, hdone]

/-- **The group may be destroyed after `wait`** where `wait` does not look at the counter
between the last task's decrement and its release of the mutex. -/
theorem taskGroup_lifetime (h : Run step Clear init es s) : Lifetime es := by
  have hall : Inv s ∧ Left s ∧ Safe es s := by
    refine h.invariant (I := fun es s => Inv s ∧ Left s ∧ Safe es s) ⟨inv_init, nofun, ?_⟩ ?_
    · constructor <;> simp
    · rintro es ev s s' a ⟨hI, hL, hS⟩ hok hs
      exact ⟨step_inv hI hs, left_step hI hL hok hs, safe_step hL hS (step_steps hs)⟩
  exact fun es₁ es₂ heq x hx => (hall.2.2.finished es₁ es₂ heq x hx).2

end Runs

/-- The owner hands in a task and waits. It is notified, and goes to sleep before that. -/
def waitSchedule : List Action :=
  [Action.run, .owner, .wait, .task 0, .owner, .owner, .owner, .spawn 0, .task 0, .task 0,
    .task 1, .task 1, .task 1, .task 1, .task 1, .owner, .owner, .owner]

theorem taskGroup_lifetime_wait : ∃ es s, Run step Clear init es s ∧
    es = [submitted 0, accessed 0, accessed 0, submitted 1, accessed 0, accessed 1, accessed 1,
      accessed 1, accessed 1, returned] ∧ Lifetime es := by
  have h : Leads step Clear init waitSchedule fun _ es =>
      es = [submitted 0, accessed 0, accessed 0, submitted 1, accessed 0, accessed 1, accessed 1,
        accessed 1, accessed 1, returned] := by
    decide
  obtain ⟨s, es, hrun, hes⟩ := h.run
  exact ⟨es, s, hrun, hes, taskGroup_lifetime hrun⟩

/-- The task brings the counter to 0 and rests. `wait` sees that and returns; the task goes on
with a mutex that need not be there any more. -/
def lateSchedule : List Action :=
  [Action.run, .owner, .task 0, .task 0, .wait, .owner, .owner, .owner, .task 0, .task 0, .task 0]

theorem run_roused_asleep : ∃ es s, Run step Any init es s ∧
    (.lock ∈ s.tasks ∨ .notify ∈ s.tasks) := by
  have h : Leads step Any init [.run, .owner, .task 0, .wait, .owner, .owner, .owner, .task 0]
      fun s _ => s.remaining = 0 ∧ s.owner = .asleep := by
    decide
  obtain ⟨s, es, hrun, hzero, ho⟩ := h.run
  exact ⟨es, s, hrun, run_roused hrun hzero ho⟩

theorem taskGroup_late : ¬ ∀ es s, Run step Any init es s → Lifetime es := by
  intro h
  have hlead : Leads step Any init lateSchedule fun _ es =>
      es = [submitted 0, accessed 0, returned, accessed 0, accessed 0, accessed 0] := by
    decide
  obtain ⟨s, es, hrun, rfl⟩ := hlead.run
  exact h _ s hrun [submitted 0, accessed 0] [accessed 0, accessed 0, accessed 0] rfl 0
    (by decide) (by decide)

end CrossMachine.Pool.Group
