import CrossMachine.Lib.Instances
import CrossMachine.Lib.Run
import CrossMachine.Lib.Sum
import CrossMachine.Pool.WorkStealing

/-!
# Nested task groups

What threads do with the groups of `ws_pool.h`: a program (`Code`) runs tasks in groups and
waits for groups, and each of the tasks is such a program again. `parallelFor` is one of the
ways to do so. Threads outside the pool have programs of their own.

A worker that waits does nothing else. The tasks it waits for are in its own deque, or in that
of whoever has taken one of them, and it takes another worker to run them. Where there is none
left, nothing happens any more (`deadlocked_of_blocked`). So there must always be one worker to
spare: no worker may begin to wait while all the others do (`Spare`).

Deques and the inbox are lists here; what is behind them is shown elsewhere, and so is that a
group wakes up whoever waits for it. A counter is a natural number.
-/

namespace CrossMachine.Pool.Nested

open Lib

/-- What a task or a thread does with groups, one call after the other. -/
inductive Code where
  | done
  /-- `run` of a group. -/
  | run (group : Nat) (task rest : Code)
  /-- `wait` of a group. -/
  | wait (group : Nat) (rest : Code)
  deriving DecidableEq, Repr

/-- `parallel_for`: the tasks are run in a group, and the group is waited for. -/
def parallelFor (group : Nat) (tasks : List Code) (rest : Code) : Code :=
  tasks.foldr (Code.run group) (.wait group rest)

/-- What a task or a thread does next. -/
inductive Frame where
  | code (c : Code)
  /-- In `run`, when the task is counted; before it is submitted. -/
  | adding (group : Nat) (task rest : Code)
  /-- In `wait`, when the counter was not 0. -/
  | waiting (group : Nat) (rest : Code)
  deriving DecidableEq, Repr

structure Task where
  group : Nat
  code : Code
  deriving DecidableEq, Repr

/-- What a worker does next. -/
inductive Worker where
  /-- Before it looks into its own deque. -/
  | own
  /-- Before it looks into the inbox. -/
  | inbox
  /-- Before it looks into the `k`-th peer's deque. -/
  | steal (k : Nat)
  /-- It executes a task of a group. -/
  | task (group : Nat) (frame : Frame)
  deriving DecidableEq, Repr

structure State (n : Nat) (κ : Type*) where
  /-- `remaining_` of every group. -/
  remaining : Nat → Nat
  deques : Fin n → List Task
  inbox : List Task
  worker : Fin n → Worker
  /-- The threads outside the pool. -/
  external : κ → Frame

/-- What a step in a program does to the group or the pool. -/
inductive Effect where
  | silent
  | count (group : Nat)
  | submit (task : Task)

/-- One step of a program. -/
def frameGo (remaining : Nat → Nat) : Frame → Option (Frame × Effect)
  | .code .done => none
  | .code (.run group task rest) => some (.adding group task rest, .count group)
  | .adding group task rest => some (.code rest, .submit ⟨group, task⟩)
  | .code (.wait group rest) =>
      if remaining group = 0 then some (.code rest, .silent)
      else some (.waiting group rest, .silent)
  | .waiting group rest => if remaining group = 0 then some (.code rest, .silent) else none

section Step

variable {n : Nat} {κ : Type*} [DecidableEq κ]

def State.goto (s : State n κ) (i : Fin n) (w : Worker) : State n κ :=
  { s with worker := Function.update s.worker i w }

def State.setDeque (s : State n κ) (i : Fin n) (d : List Task) : State n κ :=
  { s with deques := Function.update s.deques i d }

/-- The counter of a group, and what `submit` does with a task. -/
def State.effect (s : State n κ) (submit : Task → State n κ) : Effect → State n κ
  | .silent => s
  | .count group =>
      { s with remaining := Function.update s.remaining group (s.remaining group + 1) }
  | .submit task => submit task

/-- The worker has got a task. -/
def State.start (s : State n κ) (i : Fin n) (t : Task) : State n κ :=
  s.goto i (.task t.group (.code t.code))

/-- One step of a worker. A lock that is only tried may be refused, and a race with another
thief may be lost. -/
def workerGo (s : State n κ) (i : Fin n) (lucky : Bool) : Option (State n κ) :=
  match s.worker i with
  | .own =>
      match (s.deques i).getLast? with
      | some t => some ((s.setDeque i (s.deques i).dropLast).start i t)
      | none => some (s.goto i .inbox)
  | .inbox =>
      match s.inbox.getLast?, lucky with
      | some t, true => some ({ s with inbox := s.inbox.dropLast }.start i t)
      | _, _ => some (s.goto i (.steal 1))
  | .steal k =>
      if k < n then
        match (s.deques (victim i k)).head?, lucky with
        | some t, true => some ((s.setDeque (victim i k) (s.deques (victim i k)).tail).start i t)
        | _, _ => some (s.goto i (.steal (k + 1)))
      else some (s.goto i .own)
  | .task group (.code .done) =>
      some ({ s with
        remaining := Function.update s.remaining group (s.remaining group - 1) }.goto i .own)
  | .task group frame =>
      (frameGo s.remaining frame).map fun (frame', e) =>
        (s.effect (fun t => s.setDeque i (s.deques i ++ [t])) e).goto i (.task group frame')

inductive Action (n : Nat) (κ : Type*) where
  | worker (i : Fin n) (lucky : Bool)
  | external (c : κ)
  deriving DecidableEq, Repr

/-- Any interleaving of the workers and the threads outside. -/
def step (s : State n κ) : Action n κ → Option (State n κ × List Empty)
  | .worker i lucky => (workerGo s i lucky).map fun s' => (s', [])
  | .external c =>
      (frameGo s.remaining (s.external c)).map fun (frame, e) =>
        ({ s.effect (fun t => { s with inbox := s.inbox ++ [t] }) e with
          external := Function.update s.external c frame }, [])

/-- Idle workers, and the programs of the threads outside. -/
def init (code : κ → Code) : State n κ :=
  { remaining := fun _ => 0, deques := fun _ => [], inbox := [], worker := fun _ => .own,
    external := fun c => .code (code c) }

end Step

/-! ## Deadlock -/

/-- The group in whose `wait` a worker is. -/
@[simp] def Worker.awaits : Worker → Option Nat
  | .task _ (.waiting group _) => some group
  | _ => none

/-- The group that a worker is about to wait for. -/
@[simp] def Worker.entering : Worker → Option Nat
  | .task _ (.code (.wait group _)) => some group
  | _ => none

/-- The group in which a program is about to run a task. -/
@[simp] def Frame.counting : Frame → Option Nat
  | .code (.run group _ _) => some group
  | _ => none

section Deadlock

variable {n : Nat} {κ : Type*}

/-- The worker is in `wait`, and the group has tasks left. -/
def Blocked (s : State n κ) (i : Fin n) : Prop :=
  ∃ group, (s.worker i).awaits = some group ∧ s.remaining group ≠ 0

/-- There are tasks that have not been executed to their end. -/
def Unfinished (s : State n κ) : Prop :=
  s.inbox ≠ [] ∨ ∃ i, s.deques i ≠ [] ∨ ∃ group frame, s.worker i = .task group frame

def Deadlocked [DecidableEq κ] (s : State n κ) : Prop :=
  Unfinished s ∧ (∀ i, Blocked s i) ∧ ∀ a, step s a = none

/-- One worker is left. A worker that begins to wait for tasks leaves another one; and so does
a thread outside that runs a task in a group with none, for which somebody waits. -/
def Spare (s : State n κ) : Action n κ → Prop
  | .worker i _ => ∀ group ∈ (s.worker i).entering,
      s.remaining group ≠ 0 → ∃ j, j ≠ i ∧ ¬ Blocked s j
  | .external c => ∀ group ∈ (s.external c).counting,
      s.remaining group = 0 → ∃ j, ¬ Blocked s j ∧ (s.worker j).awaits ≠ some group

end Deadlock

section Steps

variable {n : Nat} {κ : Type*} {s s' : State n κ} {i j : Fin n} {lucky : Bool}

@[simp] theorem goto_self (w : Worker) : (s.goto i w).worker i = w := Function.update_self ..

theorem goto_other (w : Worker) (h : j ≠ i) : (s.goto i w).worker j = s.worker j :=
  Function.update_of_ne h ..

theorem not_blocked_of_awaits (h : (s.worker i).awaits = none) : ¬ Blocked s i := by
  rintro ⟨group, hgroup, -⟩
  rw [h] at hgroup
  cases hgroup

/-- Where a program goes on. It begins to wait only for tasks that are there. -/
theorem frameGo_awaits {remaining : Nat → Nat} {frame frame' : Frame} {e : Effect} (group : Nat)
    (h : frameGo remaining frame = some (frame', e)) :
    (Worker.task group frame').awaits = none ∨ ∃ group' rest, frame = .code (.wait group' rest) ∧
      remaining group' ≠ 0 ∧ frame' = .waiting group' rest ∧ e = .silent := by
  unfold frameGo at h
  split at h
  · cases h
  · cases h
    exact .inl rfl
  · cases h
    exact .inl rfl
  · split at h
    · cases h
      exact .inl rfl
    · rename_i hne
      cases h
      exact .inr ⟨_, _, rfl, hne, rfl, rfl⟩
  · split at h
    · cases h
      exact .inl rfl
    · cases h

theorem frameGo_count {remaining : Nat → Nat} {frame frame' : Frame} {group : Nat}
    (h : frameGo remaining frame = some (frame', .count group)) :
    ∃ task rest, frame = .code (.run group task rest) := by
  unfold frameGo at h
  split at h
  · cases h
  · cases h
    exact ⟨_, _, rfl⟩
  · cases h
  · split at h <;> cases h
  · split at h <;> cases h

/-- A worker that takes a step is not blocked afterwards, unless it has begun to wait. -/
theorem workerGo_awaits (h : workerGo s i lucky = some s') :
    (s'.worker i).awaits = none ∨ ∃ group group' rest,
      s.worker i = .task group (.code (.wait group' rest)) ∧ s.remaining group' ≠ 0 ∧
        s' = s.goto i (.task group (.waiting group' rest)) := by
  unfold workerGo at h
  split at h
  · split at h
    all_goals
      cases h
      left
      simp [State.start]
  · split at h
    all_goals
      cases h
      left
      simp [State.start]
  · split at h
    · split at h
      all_goals
        cases h
        left
        simp [State.start]
    · cases h
      left
      simp
  · cases h
    left
    simp
  · rename_i group frame hnot hw
    obtain ⟨⟨frame', e⟩, hgo, rfl⟩ := Option.map_eq_some_iff.mp h
    rcases frameGo_awaits group hgo with hnone | ⟨group', rest, rfl, hne, rfl, rfl⟩
    · left
      simpa using hnone
    · exact .inr ⟨group, group', rest, hw, hne, rfl⟩

/-- A worker that neither moves nor waits for the group in question stays unblocked. -/
theorem not_blocked_of_count {group : Nat} (h : ¬ Blocked s j)
    (hgroup : (s.worker j).awaits ≠ some group) {f : κ → Frame} {x : Nat} :
    ¬ Blocked { s with remaining := Function.update s.remaining group x, external := f } j := by
  rintro ⟨group', hawaits, hne⟩
  refine h ⟨group', hawaits, ?_⟩
  have hne' : group' ≠ group := by
    rintro rfl
    exact hgroup hawaits
  exact fun hzero => hne ((Function.update_of_ne hne' ..).trans hzero)

variable [DecidableEq κ] {ev : List Empty} {a : Action n κ}

/-- **One worker is always left** where one is spared. -/
theorem spare_step (hfree : ∃ j, ¬ Blocked s j) (hok : Spare s a)
    (h : step s a = some (s', ev)) : ∃ j, ¬ Blocked s' j := by
  cases a with
  | worker i lucky =>
      obtain ⟨s₁, hgo, heq⟩ := Option.map_eq_some_iff.mp h
      obtain ⟨rfl, rfl⟩ := Prod.mk.inj heq
      rcases workerGo_awaits hgo with hnone | ⟨group, group', rest, hw, hne, rfl⟩
      · exact ⟨i, not_blocked_of_awaits hnone⟩
      · obtain ⟨j, hji, hj⟩ := hok group' (by simp [hw]) hne
        refine ⟨j, fun ⟨g, hg, hne'⟩ => hj ⟨g, ?_, hne'⟩⟩
        rwa [goto_other _ hji] at hg
  | external c =>
      obtain ⟨⟨frame, e⟩, hgo, heq⟩ := Option.map_eq_some_iff.mp h
      obtain ⟨rfl, rfl⟩ := Prod.mk.inj heq
      obtain ⟨j, hj⟩ := hfree
      cases e with
      | silent => exact ⟨j, hj⟩
      | submit t => exact ⟨j, hj⟩
      | count group =>
          obtain ⟨task, rest, hc⟩ := frameGo_count hgo
          by_cases hzero : s.remaining group = 0
          · obtain ⟨j, hj, hne⟩ := hok group (by simp [hc]) hzero
            exact ⟨j, not_blocked_of_count hj hne⟩
          · exact ⟨j, not_blocked_of_count hj fun hawaits => hj ⟨group, hawaits, hzero⟩⟩

omit [DecidableEq κ] in
theorem Blocked.worker_stuck (h : Blocked s i) : workerGo s i lucky = none := by
  obtain ⟨group, hawaits, hne⟩ := h
  cases hw : s.worker i with
  | own | inbox | steal k => simp [hw] at hawaits
  | task group' frame =>
      cases frame with
      | code c | adding g task rest => simp [hw] at hawaits
      | waiting g rest =>
          simp only [hw, Worker.awaits, Option.some.injEq] at hawaits
          subst hawaits
          simp [workerGo, hw, frameGo, hne]

omit [DecidableEq κ] in
/-- A worker that is not blocked can go on. -/
theorem workerGo_isSome (h : ¬ Blocked s i) : (workerGo s i lucky).isSome := by
  unfold workerGo
  split
  · split <;> rfl
  · split <;> rfl
  · split
    · split <;> rfl
    · rfl
  · rfl
  · rename_i group frame hnot hw
    cases frame with
    | code c =>
        cases c with
        | done => exact (hnot rfl).elim
        | run g task rest => rfl
        | wait g rest =>
            simp only [frameGo]
            split <;> rfl
    | adding g task rest => rfl
    | waiting g rest =>
        have hzero : s.remaining g = 0 := by
          by_contra hne
          exact h ⟨g, by simp [hw], hne⟩
        simp [frameGo, hzero]

/-! ## Where no worker is left -/

/-- What a program outside has still to do. -/
def Code.size : Code → Nat
  | .done => 0
  | .run _ _ rest => rest.size + 2
  | .wait _ rest => rest.size + 2

def Frame.size : Frame → Nat
  | .code c => c.size
  | .adding _ _ rest => rest.size + 1
  | .waiting _ rest => rest.size + 1

omit [DecidableEq κ] in
theorem frameGo_size {remaining : Nat → Nat} {frame frame' : Frame} {e : Effect}
    (h : frameGo remaining frame = some (frame', e)) : frame'.size < frame.size := by
  unfold frameGo at h
  split at h
  · cases h
  · cases h
    simp [Frame.size, Code.size]
  · cases h
    simp [Frame.size]
  · split at h
    all_goals
      cases h
      simp [Frame.size, Code.size]
  · split at h
    · cases h
      simp [Frame.size]
    · cases h

/-- The threads outside free nobody. -/
theorem external_blocked {c : κ} (hall : ∀ i, Blocked s i)
    (h : step s (.external c) = some (s', ev)) :
    (∀ i, Blocked s' i) ∧ ∃ frame, frame.size < (s.external c).size ∧
      s'.external = Function.update s.external c frame := by
  obtain ⟨⟨frame, e⟩, hgo, heq⟩ := Option.map_eq_some_iff.mp h
  obtain ⟨rfl, rfl⟩ := Prod.mk.inj heq
  have hsize := frameGo_size hgo
  cases e with
  | silent => exact ⟨hall, frame, hsize, rfl⟩
  | submit t => exact ⟨hall, frame, hsize, rfl⟩
  | count group =>
      refine ⟨fun i => ?_, frame, hsize, rfl⟩
      obtain ⟨group', hawaits, hne⟩ := hall i
      refine ⟨group', hawaits, ?_⟩
      by_cases heq : group' = group
      · subst heq
        exact fun hzero => absurd ((Function.update_self ..).symm.trans hzero) (Nat.succ_ne_zero _)
      · exact fun hzero => hne ((Function.update_of_ne heq ..).symm.trans hzero)

theorem external_of_blocked (hall : ∀ i, Blocked s i) (h : step s a = some (s', ev)) :
    ∃ c, a = .external c := by
  cases a with
  | worker i lucky =>
      rw [step, (hall i).worker_stuck] at h
      cases h
  | external c => exact ⟨c, rfl⟩

/-- **Nothing helps any more** when every worker is blocked: the threads outside come to their
ends, and that is a deadlock. -/
theorem deadlocked_of_blocked [Fintype κ] (hn : 0 < n) (hall : ∀ i, Blocked s i) :
    ∃ es s', Run step Any s es s' ∧ Deadlocked s' := by
  -- by induction on what the threads outside have still to do
  generalize hm : ∑ c, (s.external c).size = m
  induction m using Nat.strong_induction_on generalizing s with
  | _ m ih =>
      by_cases hstuck : ∀ a, step s a = none
      · refine ⟨[], s, .refl, .inr ⟨⟨0, hn⟩, .inr ?_⟩, hall, hstuck⟩
        obtain ⟨group, hawaits, -⟩ := hall ⟨0, hn⟩
        cases hw : s.worker ⟨0, hn⟩ with
        | own | inbox | steal k => simp [hw] at hawaits
        | task group' frame => exact ⟨group', frame, rfl⟩
      · obtain ⟨a, ha⟩ := not_forall.mp hstuck
        obtain ⟨⟨s₁, ev⟩, hs⟩ := Option.ne_none_iff_exists'.mp ha
        obtain ⟨c, rfl⟩ := external_of_blocked hall hs
        obtain ⟨hall₁, frame, hsize, hext⟩ := external_blocked hall hs
        have hsum := sum_update_add (fun _ f => Frame.size f) s.external c frame
        obtain ⟨es, s', hrun, hdead⟩ := ih (∑ c, (s₁.external c).size)
          (by rw [hext]; omega) hall₁ rfl
        exact ⟨_, s', (Run.tail .refl trivial hs).trans hrun, hdead⟩

/-- Where no worker is spared, none is left. -/
theorem blocked_of_not_spare (hok : ¬ Spare s a) (h : step s a = some (s', ev)) (i : Fin n) :
    Blocked s' i := by
  cases a with
  | worker k lucky =>
      simp only [Spare, not_forall, not_exists, not_and, not_not] at hok
      obtain ⟨group', hentering, hne, hothers⟩ := hok
      obtain ⟨group, rest, hw⟩ : ∃ group rest,
          s.worker k = .task group (.code (.wait group' rest)) := by
        unfold Worker.entering at hentering
        split at hentering
        · rename_i group g rest hw
          cases hentering
          exact ⟨group, rest, hw⟩
        · cases hentering
      simp only [step, workerGo, hw, frameGo, if_neg hne, Option.map_some, Option.some.injEq,
        Prod.mk.injEq] at h
      obtain ⟨rfl, rfl⟩ := h
      by_cases hi : i = k
      · subst hi
        exact ⟨group', by rw [goto_self]; rfl, hne⟩
      · obtain ⟨g, hg, hne'⟩ := hothers i hi
        exact ⟨g, by rwa [goto_other _ hi], hne'⟩
  | external c =>
      simp only [Spare, not_forall, not_exists, not_and, not_not] at hok
      obtain ⟨group, hcounting, -, hothers⟩ := hok
      obtain ⟨task, rest, hc⟩ : ∃ task rest, s.external c = .code (.run group task rest) := by
        unfold Frame.counting at hcounting
        split at hcounting
        · rename_i g task rest hc
          cases hcounting
          exact ⟨task, rest, hc⟩
        · cases hcounting
      simp only [step, hc, frameGo, Option.map_some, Option.some.injEq, Prod.mk.injEq] at h
      obtain ⟨rfl, rfl⟩ := h
      have hgroup : Function.update s.remaining group (s.remaining group + 1) group ≠ 0 := by
        rw [Function.update_self]
        exact Nat.succ_ne_zero _
      by_cases hblocked : Blocked s i
      · obtain ⟨g, hg, hne⟩ := hblocked
        refine ⟨g, hg, ?_⟩
        by_cases heq : g = group
        · exact heq ▸ hgroup
        · exact fun hzero => hne ((Function.update_of_ne heq ..).symm.trans hzero)
      · exact ⟨group, hothers i hblocked, hgroup⟩

/-! ## Whole runs -/

variable {code : κ → Code} {es : List Empty}

theorem run_free (hn : 0 < n) (h : Run step Spare (init code : State n κ) es s) :
    ∃ j, ¬ Blocked s j := by
  refine h.invariant (I := fun _ s => ∃ j, ¬ Blocked s j) ?_ fun hI hok hs => spare_step hI hok hs
  exact ⟨⟨0, hn⟩, not_blocked_of_awaits rfl⟩

/-- **Nested groups do not deadlock where one worker is spared**: in every state of such a run
some worker is not blocked, and it can take a step. -/
theorem nested_no_deadlock (hn : 0 < n) (h : Run step Spare (init code : State n κ) es s) :
    ¬ Deadlocked s ∧ ∃ i lucky, (step s (.worker i lucky)).isSome := by
  obtain ⟨j, hj⟩ := run_free hn h
  have hgo : (step s (.worker j true)).isSome := by
    rw [step, Option.isSome_map]
    exact workerGo_isSome hj
  refine ⟨fun hdead => ?_, j, true, hgo⟩
  exact hj (hdead.2.1 j)

/-- Where the condition is broken once, a deadlock cannot be avoided: wherever a run goes from
there, every worker is blocked. -/
theorem nested_deadlock [Fintype κ] (hn : 0 < n) (hok : ¬ Spare s a)
    (h : step s a = some (s', ev)) {t : State n κ} (hrun : Run step Any s' es t) :
    (∀ i, Blocked t i) ∧ ∃ es' u, Run step Any t es' u ∧ Deadlocked u := by
  have hall : ∀ i, Blocked t i := by
    refine hrun.invariant (I := fun _ s => ∀ i, Blocked s i) (blocked_of_not_spare hok h) ?_
    intro es s a s' ev hI _ hs
    obtain ⟨c, rfl⟩ := external_of_blocked hI hs
    exact (external_blocked hI hs).1
  exact ⟨hall, deadlocked_of_blocked hn hall⟩

end Steps

section Runs

variable {n : Nat} {κ : Type*}

instance (s : State n κ) (i : Fin n) : Decidable (Blocked s i) :=
  match h : (s.worker i).awaits with
  | none => isFalse (not_blocked_of_awaits h)
  | some group =>
      decidable_of_iff (s.remaining group ≠ 0)
        ⟨fun hne => ⟨group, h, hne⟩, fun ⟨_, hg, hne⟩ => Option.some.inj (h.symm.trans hg) ▸ hne⟩

instance (s : State n κ) : ∀ a, Decidable (Spare s a)
  | .worker i _ => inferInstanceAs (Decidable (∀ group ∈ (s.worker i).entering,
      s.remaining group ≠ 0 → ∃ j, j ≠ i ∧ ¬ Blocked s j))
  | .external c => inferInstanceAs (Decidable (∀ group ∈ (s.external c).counting,
      s.remaining group = 0 → ∃ j, ¬ Blocked s j ∧ (s.worker j).awaits ≠ some group))

end Runs

/-- A loop in a loop, one turn each. -/
def loops : Code := parallelFor 0 [parallelFor 1 [.done] .done] .done

/-- The first worker waits for the inner turn. The second one takes it from the first one's
deque, and both groups come to their ends. -/
def spareSchedule : List (Action 2 Unit) :=
  List.replicate 3 (Action.external ()) ++ List.replicate 5 (Action.worker 0 true) ++
  List.replicate 5 (Action.worker 1 true) ++ List.replicate 2 (Action.worker 0 true) ++
  [Action.external ()]

theorem nested_no_deadlock_two : ∃ es s,
    Run step Spare (init (fun _ => loops) : State 2 Unit) es s ∧
    (s.remaining 0 = 0 ∧ s.remaining 1 = 0 ∧ s.external () = .code .done) ∧ ¬ Deadlocked s := by
  have h : Leads step Spare (init (fun _ => loops) : State 2 Unit) spareSchedule fun s _ =>
      s.remaining 0 = 0 ∧ s.remaining 1 = 0 ∧ s.external () = .code .done := by
    decide
  obtain ⟨s, es, hrun, hs⟩ := h.run
  exact ⟨es, s, hrun, hs, (nested_no_deadlock (by decide) hrun).1⟩

/-- There is only one worker, and it waits for what is in its own deque. -/
def stuckSchedule : List (Action 1 Unit) :=
  List.replicate 3 (Action.external ()) ++ List.replicate 5 (Action.worker 0 true)

theorem nested_deadlock_one : ∃ es s, Run step Any (init (fun _ => loops) : State 1 Unit) es s ∧
    Deadlocked s := by
  have h : Leads step Any (init (fun _ => loops) : State 1 Unit) stuckSchedule.dropLast fun s _ =>
      ¬ Spare s (.worker 0 true) ∧ (step s (.worker 0 true)).isSome := by
    decide
  obtain ⟨s, es, hrun, hspare, hstep⟩ := h.run
  obtain ⟨⟨s', ev⟩, hs⟩ := Option.isSome_iff_exists.mp hstep
  obtain ⟨-, es', s'', hrun', hdead⟩ := nested_deadlock (by decide) hspare hs .refl
  exact ⟨_, s'', (hrun.tail trivial hs).trans hrun', hdead⟩

theorem nested_stuck : ¬ ∀ es s, Run step Any (init (fun _ => loops) : State 1 Unit) es s →
    ¬ Deadlocked s := by
  intro hall
  have h : Leads step Any (init (fun _ => loops) : State 1 Unit) stuckSchedule fun s _ =>
      s.deques 0 ≠ [] ∧ (∀ i, Blocked s i) ∧ (∀ i lucky, (step s (.worker i lucky)).isNone) ∧
        ∀ c, (step s (.external c)).isNone := by
    decide
  obtain ⟨s, es, hrun, hdeque, hblocked, hworker, hexternal⟩ := h.run
  refine hall es s hrun ⟨.inr ⟨0, .inl hdeque⟩, hblocked, fun a => ?_⟩
  cases a with
  | worker i lucky => exact Option.isNone_iff_eq_none.mp (hworker i lucky)
  | external c => exact Option.isNone_iff_eq_none.mp (hexternal c)

end CrossMachine.Pool.Nested
