import CrossMachine.Lib.CInt
import Mathlib.Algebra.BigOperators.Intervals
import Mathlib.Algebra.Order.BigOperators.Group.Finset
import Mathlib.Algebra.Order.Field.Rat
import Mathlib.Tactic.Linarith

/-!
# Simulating a pipeline schedule

Every stage of a pipeline runs a list of operations in order, the forward and the backward
pass of each microbatch. `simulate` sweeps over the stages again and again and lets each of
them run its next operation if what it depends on has been run: the forward pass of the stage
before, or the own forward pass and the backward pass of the stage behind. An operation starts
when its stage is free and its dependencies are done.

In which sweep an operation is run has no influence on when it starts. So the times can be
known in advance: a timetable `T` is one whose times satisfy the equation by which the
simulation computes them (`TimedFrom`). The simulation then computes this timetable (`Inv`),
and it cannot get stuck: of the operations that are next, the one that ends first by the
timetable depends on operations that end before it, and these have been run.

Times are exact, and arrays are functions of the stage and the microbatch. The cap on the number
of sweeps is an `int`, and not a positive one if it wraps far enough.
-/

namespace CrossMachine.Training

open Lib

structure PipelineOp where
  microbatch : Nat
  isForward : Bool
  deriving DecidableEq, Repr

abbrev Schedule := List (List PipelineOp)

/-- The operations of a stage. -/
def Schedule.ops (schedule : Schedule) (i : Nat) : List PipelineOp := schedule.getD i []

/-! ## The simulation -/

structure Sim where
  forwardDone : Nat → Nat → ℚ
  backwardDone : Nat → Nat → ℚ
  ptr : Nat → Nat
  stageFreeAt : Nat → ℚ
  busyTime : Nat → ℚ

def kUnset : ℚ := -1

def Sim.init : Sim where
  forwardDone := fun _ _ => kUnset
  backwardDone := fun _ _ => kUnset
  ptr := fun _ => 0
  stageFreeAt := fun _ => 0
  busyTime := fun _ => 0

def Sim.doneAt (s : Sim) (i : Nat) (op : PipelineOp) : ℚ :=
  if op.isForward then s.forwardDone i op.microbatch else s.backwardDone i op.microbatch

/-- When the next operation of stage `i` can start, if its dependencies are done. -/
def Sim.readyAt (s : Sim) (p i : Nat) (op : PipelineOp) : Option ℚ :=
  let ready := s.stageFreeAt i
  if op.isForward then
    if 0 < i then
      let dep := s.forwardDone (i - 1) op.microbatch
      if dep = kUnset then none else some (max ready dep)
    else some ready
  else
    let ownForward := s.forwardDone i op.microbatch
    if ownForward = kUnset then none
    else
      let ready := max ready ownForward
      if i + 1 < p then
        let dep := s.backwardDone (i + 1) op.microbatch
        if dep = kUnset then none else some (max ready dep)
      else some ready

def update₂ (f : Nat → Nat → ℚ) (i j : Nat) (t : ℚ) : Nat → Nat → ℚ :=
  Function.update f i (Function.update (f i) j t)

/-- The operation is run and ends at `finish`. -/
def Sim.record (s : Sim) (i : Nat) (op : PipelineOp) (duration finish : ℚ) : Sim where
  forwardDone :=
    if op.isForward then update₂ s.forwardDone i op.microbatch finish else s.forwardDone
  backwardDone :=
    if op.isForward then s.backwardDone else update₂ s.backwardDone i op.microbatch finish
  ptr := Function.update s.ptr i (s.ptr i + 1)
  stageFreeAt := Function.update s.stageFreeAt i finish
  busyTime := Function.update s.busyTime i (s.busyTime i + duration)

section

variable (schedule : Schedule) (forwardTime backwardTime : ℚ)

def PipelineOp.duration (op : PipelineOp) : ℚ := if op.isForward then forwardTime else backwardTime

/-- The body of the loop over the stages, and whether an operation was run. -/
def visit (s : Sim) (i : Nat) : Sim × Bool :=
  match (schedule.ops i)[s.ptr i]? with
  | none => (s, false)
  | some op =>
      match s.readyAt schedule.length i op with
      | none => (s, false)
      | some ready =>
          let duration := op.duration forwardTime backwardTime
          (s.record i op duration (ready + duration), true)

/-- The loop over the stages, with `progress`. -/
def sweep (s : Sim) : Sim × Bool :=
  (List.range schedule.length).foldl
    (fun acc i =>
      let (s, ran) := visit schedule forwardTime backwardTime acc.1 i
      (s, acc.2 || ran))
    (s, false)

/-- The outer loop with as many sweeps left as `safety` allows. The second component is
`progress`, so that it is `true` when the cap has ended the loop. -/
def simulateLoop : Nat → Sim → Sim × Bool
  | 0, s => (s, true)
  | k + 1, s =>
      let (s, progress) := sweep schedule forwardTime backwardTime s
      if progress then simulateLoop k s else (s, false)

def numMicrobatches : Nat :=
  schedule.foldl (fun m ops => ops.foldl (fun m op => max m (op.microbatch + 1)) m) 0

/-- `p * m * 4 + 10`, an `int`. -/
def safetyCap (p m : Nat) : Int := int32 (int32 (int32 (p * m) * 4) + 10)

/-- The state in which the loop ends, with `progress`. -/
def simulateStages : Sim × Bool :=
  simulateLoop schedule forwardTime backwardTime
    (safetyCap schedule.length (numMicrobatches schedule)).toNat Sim.init

/-- The largest number of microbatches in flight at stage `i`: events at one time are sorted
with the ends first. -/
def peakInFlight (s : Sim) (m i : Nat) : Int :=
  let events := (List.range m).flatMap fun j =>
    [(s.forwardDone i j, (1 : Int)), (s.backwardDone i j, -1)]
  let sorted := events.mergeSort fun a b => a.1 < b.1 ∨ a.1 = b.1 ∧ a.2 ≤ b.2
  (sorted.foldl (fun (acc : Int × Int) e => (acc.1 + e.2, max acc.2 (acc.1 + e.2))) (0, 0)).2

structure SimulationResult where
  makespan : ℚ
  bubbleFraction : ℚ
  peakInFlightPerStage : List Int

def simulate : SimulationResult :=
  let p := schedule.length
  let s := (simulateStages schedule forwardTime backwardTime).1
  let makespan := (List.range p).foldl (fun t i => max t (s.stageFreeAt i)) 0
  let totalBusy := (List.range p).foldl (fun b i => b + s.busyTime i) 0
  { makespan := makespan
    bubbleFraction := 1 - totalBusy / (p * makespan)
    peakInFlightPerStage := (List.range p).map (peakInFlight s (numMicrobatches schedule)) }

end

theorem safetyCap_of_fits {p m : Nat} (h : p * m * 4 + 10 < 2 ^ 31) :
    safetyCap p m = (p * m * 4 + 10 : Nat) := by
  rw [safetyCap, int32_mul_left, int32_add_left]
  exact_mod_cast int32_of_nonneg (Int.natCast_nonneg (p * m * 4 + 10)) (by exact_mod_cast h)

/-! ## Timetables -/

/-- What an operation depends on, with the stages. -/
def deps (p i : Nat) (op : PipelineOp) : List (Nat × PipelineOp) :=
  if op.isForward then if 0 < i then [(i - 1, op)] else []
  else (i, ⟨op.microbatch, true⟩) :: if i + 1 < p then [(i + 1, op)] else []

/-- The latest of a time and the ends of some operations. -/
def latest (T : Nat → PipelineOp → ℚ) (t : ℚ) (ds : List (Nat × PipelineOp)) : ℚ :=
  ds.foldl (fun t d => max t (T d.1 d.2)) t

/-- When the stage is free after some operations. -/
def freeAfter (T : Nat → PipelineOp → ℚ) (i : Nat) (t : ℚ) (ops : List PipelineOp) : ℚ :=
  ops.foldl (fun _ op => T i op) t

section

variable (p : Nat) (tf tb : ℚ) (T : Nat → PipelineOp → ℚ)

/-- The times of the operations of a stage are those at which they end, one after another from
`t` on. -/
def TimedFrom (i : Nat) : ℚ → List PipelineOp → Prop
  | _, [] => True
  | t, op :: ops =>
      T i op = latest T t (deps p i op) + op.duration tf tb ∧ TimedFrom i (T i op) ops

/-- A schedule that runs by this timetable. -/
structure Timetable (schedule : Schedule) : Prop where
  timed : ∀ i < schedule.length, TimedFrom schedule.length tf tb T i 0 (schedule.ops i)
  closed : ∀ i < schedule.length, ∀ op ∈ schedule.ops i, ∀ d ∈ deps schedule.length i op,
    d.1 < schedule.length ∧ d.2 ∈ schedule.ops d.1

end

variable {p i : Nat} {tf tb t : ℚ} {T : Nat → PipelineOp → ℚ} {ops : List PipelineOp}
  {op : PipelineOp}

theorem le_latest (ds : List (Nat × PipelineOp)) (t : ℚ) : t ≤ latest T t ds := by
  induction ds generalizing t with
  | nil => exact le_refl t
  | cons d ds ih => exact (le_max_left _ _).trans (ih _)

variable {ds : List (Nat × PipelineOp)} {d : Nat × PipelineOp}

theorem dep_le_latest (h : d ∈ ds) (t : ℚ) : T d.1 d.2 ≤ latest T t ds := by
  induction ds generalizing t with
  | nil => cases h
  | cons d' ds ih =>
      rcases List.mem_cons.mp h with rfl | h
      · exact (le_max_right _ _).trans (le_latest ds _)
      · exact ih h _

theorem duration_pos (hf : 0 < tf) (hb : 0 < tb) (op : PipelineOp) : 0 < op.duration tf tb := by
  rw [PipelineOp.duration]
  split
  · exact hf
  · exact hb

theorem freeAfter_append (pre post : List PipelineOp) :
    freeAfter T i t (pre ++ post) = freeAfter T i (freeAfter T i t pre) post :=
  List.foldl_append

theorem TimedFrom.append {pre post : List PipelineOp} (h : TimedFrom p tf tb T i t (pre ++ post)) :
    TimedFrom p tf tb T i (freeAfter T i t pre) post := by
  induction pre generalizing t with
  | nil => exact h
  | cons op pre ih => exact ih h.2

/-- An operation ends after what it depends on. -/
theorem TimedFrom.dep_lt (h : TimedFrom p tf tb T i t ops) (hop : op ∈ ops) (hd : d ∈ deps p i op) :
    T d.1 d.2 + op.duration tf tb ≤ T i op := by
  obtain ⟨pre, post, rfl⟩ := List.append_of_mem hop
  have heq := h.append.1
  have hle := dep_le_latest (T := T) hd (freeAfter T i t pre)
  linarith

/-- An operation starts when its stage is free. -/
theorem TimedFrom.start_le (h : TimedFrom p tf tb T i t (op :: ops)) :
    t + op.duration tf tb ≤ T i op := by
  have hle := le_latest (T := T) (deps p i op) t
  have heq := h.1
  linarith

section

variable (hf : 0 < tf) (hb : 0 < tb)

include hf hb

/-- The operations of a stage come one after the other. -/
theorem TimedFrom.spaced (h : TimedFrom p tf tb T i t ops) :
    (∀ op ∈ ops, t + op.duration tf tb ≤ T i op) ∧
      ops.Pairwise fun op op' => T i op + op'.duration tf tb ≤ T i op' := by
  induction ops generalizing t with
  | nil => simp
  | cons op ops ih =>
      obtain ⟨hafter, hpairwise⟩ := ih h.2
      refine ⟨fun op' hop' => ?_, List.pairwise_cons.mpr ⟨hafter, hpairwise⟩⟩
      have hstart := h.start_le
      rcases List.mem_cons.mp hop' with rfl | hop'
      · exact hstart
      · have hlater := hafter op' hop'
        have hpos := duration_pos hf hb op
        linarith

/-- So they end one after the other. -/
theorem TimedFrom.increasing (h : TimedFrom p tf tb T i t ops) :
    (∀ op ∈ ops, t < T i op) ∧ ops.Pairwise fun op op' => T i op < T i op' := by
  obtain ⟨hfirst, hpairwise⟩ := h.spaced hf hb
  refine ⟨fun op hop => ?_, hpairwise.imp fun {op op'} hle => ?_⟩
  · have hle := hfirst op hop
    have hpos := duration_pos hf hb op
    linarith
  · have hpos := duration_pos hf hb op'
    linarith

end

/-! ## One stage of a sweep -/

/-- The operations that a stage has run. -/
def Sim.ran (schedule : Schedule) (s : Sim) (i : Nat) : List PipelineOp :=
  (schedule.ops i).take (s.ptr i)

/-- The operations that a stage has still to run. -/
def Sim.todo (schedule : Schedule) (s : Sim) (i : Nat) : List PipelineOp :=
  (schedule.ops i).drop (s.ptr i)

/-- What has been run has its time from the timetable, and nothing else has a time. -/
structure Inv (schedule : Schedule) (tf tb : ℚ) (T : Nat → PipelineOp → ℚ) (s : Sim) : Prop where
  ptr_le : ∀ i < schedule.length, s.ptr i ≤ (schedule.ops i).length
  ran : ∀ i < schedule.length, ∀ op ∈ s.ran schedule i, s.doneAt i op = T i op
  todo : ∀ i < schedule.length, ∀ op ∈ s.todo schedule i, s.doneAt i op = kUnset
  free : ∀ i < schedule.length, s.stageFreeAt i = freeAfter T i 0 (s.ran schedule i)
  busy : ∀ i < schedule.length,
    s.busyTime i = ((s.ran schedule i).map (PipelineOp.duration tf tb)).sum

/-- The number of operations that have been run. -/
def Sim.executed (schedule : Schedule) (s : Sim) : Nat :=
  ∑ i ∈ Finset.range schedule.length, s.ptr i

def Schedule.total (schedule : Schedule) : Nat :=
  ∑ i ∈ Finset.range schedule.length, (schedule.ops i).length

variable {schedule : Schedule} {s : Sim}

theorem mem_ran_or_todo (h : op ∈ schedule.ops i) :
    op ∈ s.ran schedule i ∨ op ∈ s.todo schedule i := by
  rw [← List.mem_append, Sim.ran, Sim.todo, List.take_append_drop]
  exact h

theorem inv_init : Inv schedule tf tb T Sim.init where
  ptr_le _ _ := Nat.zero_le _
  ran i _ op hop := by simp [Sim.ran, Sim.init] at hop
  todo i _ op _ := by simp [Sim.doneAt, Sim.init]
  free i _ := by simp [Sim.ran, Sim.init, freeAfter]
  busy i _ := by simp [Sim.ran, Sim.init]

/-- `readyAt` in terms of the list of dependencies. -/
theorem readyAt_eq (s : Sim) (p i : Nat) (op : PipelineOp) :
    s.readyAt p i op = (deps p i op).foldl (fun ready d => ready.bind fun t =>
      if s.doneAt d.1 d.2 = kUnset then none else some (max t (s.doneAt d.1 d.2)))
      (some (s.stageFreeAt i)) := by
  obtain ⟨j, forward⟩ := op
  cases forward with
  | true =>
      rw [Sim.readyAt, deps]
      by_cases hi : 0 < i <;> simp [Sim.doneAt, hi]
  | false =>
      rw [Sim.readyAt, deps]
      by_cases hown : s.forwardDone i j = kUnset
      · by_cases hp : i + 1 < p <;> simp [Sim.doneAt, hown, hp]
      · by_cases hp : i + 1 < p <;> simp [Sim.doneAt, hown, hp]

theorem ready_of_done (h : ∀ d ∈ ds, s.doneAt d.1 d.2 = T d.1 d.2 ∧ T d.1 d.2 ≠ kUnset) (t : ℚ) :
    ds.foldl (fun ready d => ready.bind fun t =>
      if s.doneAt d.1 d.2 = kUnset then none else some (max t (s.doneAt d.1 d.2))) (some t) =
        some (latest T t ds) := by
  induction ds generalizing t with
  | nil => rfl
  | cons d ds ih =>
      obtain ⟨hdone, hset⟩ := h d List.mem_cons_self
      rw [List.foldl_cons, Option.bind_some, hdone, if_neg hset]
      exact ih (fun d' hd' => h d' (List.mem_cons_of_mem _ hd')) _

theorem ready_of_unset (hd : d ∈ ds) (h : s.doneAt d.1 d.2 = kUnset) (ready : Option ℚ) :
    ds.foldl (fun ready d => ready.bind fun t =>
      if s.doneAt d.1 d.2 = kUnset then none else some (max t (s.doneAt d.1 d.2))) ready =
        none := by
  induction ds generalizing ready with
  | nil => cases hd
  | cons d' ds ih =>
      rcases List.mem_cons.mp hd with rfl | hd
      · -- from here on it stays `none`
        have hnone : (ready.bind fun t => if s.doneAt d.1 d.2 = kUnset then none
            else some (max t (s.doneAt d.1 d.2))) = none := by
          cases ready <;> simp [h]
        rw [List.foldl_cons, hnone]
        clear ih hd
        induction ds with
        | nil => rfl
        | cons d' ds ih => exact ih
      · exact ih hd _

theorem doneAt_record (s : Sim) (i i' : Nat) (op op' : PipelineOp) (duration finish : ℚ) :
    (s.record i op duration finish).doneAt i' op' =
      if i' = i ∧ op' = op then finish else s.doneAt i' op' := by
  obtain ⟨j, forward⟩ := op
  obtain ⟨j', forward'⟩ := op'
  cases forward <;> cases forward' <;>
    simp only [Sim.doneAt, Sim.record, if_true, if_false, Bool.false_eq_true, Bool.true_eq_false,
      PipelineOp.mk.injEq, and_false, and_true, update₂, Function.update_apply] <;>
    by_cases hi : i' = i <;> by_cases hj : j' = j <;> simp [hi, hj]

theorem ptr_record (s : Sim) (i i' : Nat) (op : PipelineOp) (duration finish : ℚ) :
    (s.record i op duration finish).ptr i' = if i' = i then s.ptr i + 1 else s.ptr i' :=
  Function.update_apply ..

theorem stageFreeAt_record (s : Sim) (i i' : Nat) (op : PipelineOp) (duration finish : ℚ) :
    (s.record i op duration finish).stageFreeAt i' =
      if i' = i then finish else s.stageFreeAt i' := Function.update_apply ..

theorem busyTime_record (s : Sim) (i i' : Nat) (op : PipelineOp) (duration finish : ℚ) :
    (s.record i op duration finish).busyTime i' =
      if i' = i then s.busyTime i + duration else s.busyTime i' := Function.update_apply ..

/-- The stage has nothing more to run, or its next operation waits for another. -/
def Blocked (schedule : Schedule) (s : Sim) (i : Nat) : Prop :=
  ∀ op ∈ (s.todo schedule i).head?, ∃ d ∈ deps schedule.length i op,
    d.2 ∈ s.todo schedule d.1

section

variable (hf : 0 < tf) (hb : 0 < tb)

include hf hb

theorem Timetable.pos (htable : Timetable tf tb T schedule) (hi : i < schedule.length)
    (hop : op ∈ schedule.ops i) : 0 < T i op :=
  ((htable.timed i hi).increasing hf hb).1 op hop

theorem Timetable.ne_unset (htable : Timetable tf tb T schedule) (hi : i < schedule.length)
    (hop : op ∈ schedule.ops i) : T i op ≠ kUnset := by
  have hpos := htable.pos hf hb hi hop
  rw [kUnset]
  linarith

/-- Running the next operation, when what it depends on has been run. -/
theorem Inv.record (htable : Timetable tf tb T schedule) (hinv : Inv schedule tf tb T s)
    (hi : i < schedule.length) {rest : List PipelineOp}
    (htodo : s.todo schedule i = op :: rest) :
    Inv schedule tf tb T (s.record i op (op.duration tf tb)
      (latest T (s.stageFreeAt i) (deps schedule.length i op) + op.duration tf tb)) := by
  have hsplit : s.ran schedule i ++ op :: rest = schedule.ops i := by
    rw [← htodo, Sim.ran, Sim.todo, List.take_append_drop]
  have htimed := htable.timed i hi
  rw [← hsplit] at htimed
  have hfinish : latest T (s.stageFreeAt i) (deps schedule.length i op) + op.duration tf tb =
      T i op := by
    rw [hinv.free i hi]
    exact htimed.append.1.symm
  have hlt : s.ptr i < (schedule.ops i).length := by
    have hlen := congrArg List.length htodo
    rw [Sim.todo, List.length_drop, List.length_cons] at hlen
    omega
  -- the stage of the operation moves it from one list to the other
  have hran : (schedule.ops i).take (s.ptr i + 1) = s.ran schedule i ++ [op] := by
    have hget : (schedule.ops i)[s.ptr i]? = some op := by
      rw [← List.head?_drop]
      exact congrArg List.head? htodo
    rw [List.take_add_one, hget]
    rfl
  have hrest : (schedule.ops i).drop (s.ptr i + 1) = rest := by
    rw [← List.drop_drop]
    exact congrArg (List.drop 1) htodo
  have hdistinct := ((htimed.increasing hf hb).2.imp fun h => ne_of_apply_ne (T i) (ne_of_lt h))
  have hnodup := List.pairwise_append.mp hdistinct
  refine ⟨fun i' hi' => ?_, fun i' hi' op' hop' => ?_, fun i' hi' op' hop' => ?_,
    fun i' hi' => ?_, fun i' hi' => ?_⟩
  · rw [ptr_record]
    split
    next heq => subst heq; omega
    next => exact hinv.ptr_le i' hi'
  · rw [doneAt_record, hfinish]
    rw [Sim.ran, ptr_record] at hop'
    split at hop'
    next heq =>
      subst heq
      rw [hran] at hop'
      rcases List.mem_append.mp hop' with hold | hnew
      · have hne : op' ≠ op := hnodup.2.2 op' hold op List.mem_cons_self
        rw [if_neg fun h => hne h.2]
        exact hinv.ran i' hi' op' hold
      · rw [List.mem_singleton.mp hnew, if_pos ⟨rfl, rfl⟩]
    next hne =>
      rw [if_neg fun h => hne h.1]
      exact hinv.ran i' hi' op' hop'
  · rw [doneAt_record]
    rw [Sim.todo, ptr_record] at hop'
    split at hop'
    next heq =>
      subst heq
      rw [hrest] at hop'
      have hne : op' ≠ op := Ne.symm ((List.pairwise_cons.mp hnodup.2.1).1 op' hop')
      rw [if_neg fun h => hne h.2]
      exact hinv.todo i' hi' op' (htodo ▸ List.mem_cons_of_mem _ hop')
    next hne =>
      rw [if_neg fun h => hne h.1]
      exact hinv.todo i' hi' op' hop'
  · rw [Sim.ran, ptr_record, stageFreeAt_record]
    split
    next heq => subst heq; rw [hran, freeAfter_append, hfinish]; rfl
    next => exact hinv.free i' hi'
  · rw [Sim.ran, ptr_record, busyTime_record]
    split
    next heq =>
      subst heq
      rw [hran, hinv.busy i' hi', List.map_append, List.sum_append, List.map_singleton,
        List.sum_singleton]
    next => exact hinv.busy i' hi'

/-- A visit runs one operation, or leaves a blocked stage as it is. -/
theorem Inv.visit (htable : Timetable tf tb T schedule) (hinv : Inv schedule tf tb T s)
    (hi : i < schedule.length) :
    visit schedule tf tb s i = (s, false) ∧ Blocked schedule s i ∨
      ∃ s', visit schedule tf tb s i = (s', true) ∧ Inv schedule tf tb T s' ∧
        s'.ptr = Function.update s.ptr i (s.ptr i + 1) := by
  have hget : (schedule.ops i)[s.ptr i]? = (s.todo schedule i).head? := List.head?_drop.symm
  rw [Training.visit, hget, Blocked]
  cases htodo : s.todo schedule i with
  | nil => exact .inl ⟨rfl, by simp⟩
  | cons op rest =>
      have hop : op ∈ schedule.ops i :=
        List.mem_of_mem_drop (htodo ▸ List.mem_cons_self : op ∈ s.todo schedule i)
      simp only [List.head?_cons]
      by_cases hwait : ∃ d ∈ deps schedule.length i op, d.2 ∈ s.todo schedule d.1
      · obtain ⟨d, hd, hdtodo⟩ := hwait
        have hunset := hinv.todo d.1 (htable.closed i hi op hop d hd).1 d.2 hdtodo
        refine .inl ⟨?_, fun op' hop' => ?_⟩
        · rw [readyAt_eq, ready_of_unset hd hunset]
        · cases hop'
          exact ⟨d, hd, hdtodo⟩
      · refine .inr ⟨_, ?_, hinv.record hf hb htable hi htodo, rfl⟩
        have hdone : ∀ d ∈ deps schedule.length i op,
            s.doneAt d.1 d.2 = T d.1 d.2 ∧ T d.1 d.2 ≠ kUnset := by
          intro d hd
          obtain ⟨hd1, hd2⟩ := htable.closed i hi op hop d hd
          have hran := (mem_ran_or_todo hd2).resolve_right fun h => hwait ⟨d, hd, h⟩
          exact ⟨hinv.ran d.1 hd1 d.2 hran, htable.ne_unset hf hb hd1 hd2⟩
        rw [readyAt_eq, ready_of_done hdone]

/-! ## A sweep and all sweeps -/

/-- The stages `l` of a sweep: it says that nothing was run only if it found all of them
blocked. -/
theorem Inv.sweepOn (htable : Timetable tf tb T schedule) (hinv : Inv schedule tf tb T s)
    (l : List Nat) (hl : ∀ i ∈ l, i < schedule.length) (ran : Bool) :
    ∃ s' ran', l.foldl (fun acc i =>
        let (s, ran) := Training.visit schedule tf tb acc.1 i
        (s, acc.2 || ran)) (s, ran) = (s', ran') ∧
      Inv schedule tf tb T s' ∧ s.executed schedule ≤ s'.executed schedule ∧
      (ran' = true → ran = true ∨ s.executed schedule < s'.executed schedule) ∧
      (ran' = false → ran = false ∧ s' = s ∧ ∀ i ∈ l, Blocked schedule s i) := by
  induction l generalizing s ran with
  | nil => exact ⟨s, ran, rfl, hinv, le_refl _, .inl, fun hran => ⟨hran, rfl, by simp⟩⟩
  | cons i l ih =>
      have hi := hl i List.mem_cons_self
      have hl' : ∀ i' ∈ l, i' < schedule.length := fun i' hi' => hl i' (List.mem_cons_of_mem _ hi')
      rw [List.foldl_cons]
      rcases hinv.visit hf hb htable hi with ⟨hvisit, hblocked⟩ | ⟨s₁, hvisit, hinv₁, hptr⟩
      · simp only [hvisit, Bool.or_false]
        obtain ⟨s', ran', hfold, hinv', hle, hmore, hnone⟩ := ih hinv hl' ran
        refine ⟨s', ran', hfold, hinv', hle, hmore, fun hfalse => ?_⟩
        obtain ⟨hran, hsame, hall⟩ := hnone hfalse
        exact ⟨hran, hsame, List.forall_mem_cons.mpr ⟨hblocked, hall⟩⟩
      · simp only [hvisit, Bool.or_true]
        obtain ⟨s', ran', hfold, hinv', hle, hmore, hnone⟩ := ih hinv₁ hl' true
        have hone : s.executed schedule < s₁.executed schedule := by
          rw [Sim.executed, Sim.executed, hptr]
          refine Finset.sum_lt_sum (fun i' _ => ?_) ⟨i, Finset.mem_range.mpr hi, ?_⟩
          · rw [Function.update_apply]
            split
            next heq => rw [heq]; exact Nat.le_succ _
            next => exact le_refl _
          · rw [Function.update_self]
            exact Nat.lt_succ_self _
        refine ⟨s', ran', hfold, hinv', by omega, fun _ => .inr (by omega), fun hfalse => ?_⟩
        exact absurd (hnone hfalse).1 (by simp)

/-- When all stages are blocked, all are done: the operation that would end first waits for
none. -/
theorem Timetable.done_of_blocked (htable : Timetable tf tb T schedule)
    (hblocked : ∀ i < schedule.length, Blocked schedule s i) :
    ∀ i < schedule.length, s.todo schedule i = [] := by
  by_contra hsome
  simp only [not_forall] at hsome
  obtain ⟨i₀, hi₀, hne⟩ := hsome
  -- the stages with something to do, and the end of their next operation
  let waiting := (Finset.range schedule.length).filter fun i => s.todo schedule i ≠ []
  let nextEnd := fun i => ((s.todo schedule i).head?.map (T i)).getD 0
  obtain ⟨i, hmem, hmin⟩ := Finset.exists_min_image waiting nextEnd
    ⟨i₀, Finset.mem_filter.mpr ⟨Finset.mem_range.mpr hi₀, hne⟩⟩
  obtain ⟨hrange, hi⟩ := Finset.mem_filter.mp hmem
  have hip := Finset.mem_range.mp hrange
  obtain ⟨op, rest, htodo⟩ := List.exists_cons_of_ne_nil hi
  have hop : op ∈ schedule.ops i :=
    List.mem_of_mem_drop (htodo ▸ List.mem_cons_self : op ∈ s.todo schedule i)
  obtain ⟨d, hd, hdtodo⟩ := hblocked i hip op (by rw [htodo]; rfl)
  obtain ⟨hd1, hd2⟩ := htable.closed i hip op hop d hd
  obtain ⟨op', rest', htodo'⟩ := List.exists_cons_of_ne_nil (List.ne_nil_of_mem hdtodo)
  -- the next operation of that stage ends no later than the one waited for
  have hfirst : T d.1 op' ≤ T d.1 d.2 := by
    have hpairwise := ((htable.timed d.1 hd1).increasing hf hb).2
    rw [← List.take_append_drop (s.ptr d.1) (schedule.ops d.1)] at hpairwise
    have hdrop := (List.pairwise_append.mp hpairwise).2.1
    rw [show (schedule.ops d.1).drop (s.ptr d.1) = op' :: rest' from htodo'] at hdrop
    rw [htodo'] at hdtodo
    rcases List.mem_cons.mp hdtodo with heq | hlater
    · rw [heq]
    · exact le_of_lt ((List.pairwise_cons.mp hdrop).1 d.2 hlater)
  have hends := hmin d.1 (Finset.mem_filter.mpr
    ⟨Finset.mem_range.mpr hd1, by rw [htodo']; exact List.cons_ne_nil _ _⟩)
  have hearlier := (htable.timed i hip).dep_lt hop hd
  have hpos := duration_pos hf hb op
  simp only [nextEnd, htodo, htodo', List.head?_cons, Option.map_some, Option.getD_some] at hends
  linarith

/-- With enough sweeps allowed the loop ends by itself, and then everything has been run. -/
theorem Inv.simulateLoop (htable : Timetable tf tb T schedule) (hinv : Inv schedule tf tb T s)
    (k : Nat) (hk : schedule.total < k + s.executed schedule) :
    ∃ s', Training.simulateLoop schedule tf tb k s = (s', false) ∧ Inv schedule tf tb T s' ∧
      ∀ i < schedule.length, s'.todo schedule i = [] := by
  induction k generalizing s with
  | zero =>
      have hle : s.executed schedule ≤ schedule.total :=
        Finset.sum_le_sum fun i hi => hinv.ptr_le i (Finset.mem_range.mp hi)
      omega
  | succ k ih =>
      obtain ⟨s', ran, hfold, hinv', hle, hmore, hnone⟩ := hinv.sweepOn hf hb htable
        (List.range schedule.length) (fun i hi => List.mem_range.mp hi) false
      have hsweep : sweep schedule tf tb s = (s', ran) := hfold
      rw [Training.simulateLoop, hsweep]
      cases ran with
      | true =>
          have hlt := (hmore rfl).resolve_left (by simp)
          exact ih hinv' (by omega)
      | false =>
          obtain ⟨-, rfl, hblocked⟩ := hnone rfl
          refine ⟨s', rfl, hinv', htable.done_of_blocked hf hb fun i hi => ?_⟩
          exact hblocked i (List.mem_range.mpr hi)

end

end CrossMachine.Training
