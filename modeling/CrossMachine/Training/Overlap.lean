import CrossMachine.Collectives.Ring
import CrossMachine.Lib.Implements

/-!
# Communication behind the backward pass

`overlapped_backward` computes the gradients of the layers from the last to the first on the
calling thread and hands each to a second thread, which takes them from the queue one at a time
and all-reduces them. `serial_backward` does both on one thread.

The queue is first in, first out, so the second thread makes the all-reduces in the order in
which the gradients were computed, which is the serial one. What is in the queue, what the second
thread is at and what the first has still to compute make up at every moment the rest of the
serial program (`Overlap.residual`). So the threads implement it: no rank can tell which of the
two another rank runs, and where the serial programs end, the overlapped ones end with the same
results.

`compute_fn` may have a state of its own. It does not touch the channel, and the queue, which
belongs to the function, is never closed.
-/

namespace CrossMachine.Training

open Lib Collectives
open Relation (ReflTransGen)

/-- `Matrix`: its elements stand row by row. -/
structure Grad (F : Type*) where
  rows : Nat
  cols : Nat
  data : List F
  deriving DecidableEq, Repr

/-- `Matrix()`. -/
def Grad.empty {F : Type*} : Grad F := ⟨0, 0, []⟩

/-- What a rank calls the functions with. `σ` is the state of `compute_fn`. -/
structure Backward (n : Nat) (σ F : Type*) where
  numLayers : Nat
  rank : Nat
  computeFn : σ → Nat → Grad F × σ

variable {n : Nat} {σ F : Type*}

section

variable [Add F]

/-- `ring_allreduce(g.data(), g.size(), channel)`. -/
def reduceGrad (n rank : Nat) (g : Grad F) : Proc (Fin n) F (Grad F) :=
  (ringAllreduce (· + ·) n g.data.length rank g.data).bind fun data => .done { g with data := data }

/-! ## On one thread -/

/-- The loop of `serial_backward`, with the layers that it has still to do. -/
def serialLoop (b : Backward n σ F) : Nat → σ → List (Grad F) → Proc (Fin n) F (List (Grad F))
  | 0, _, results => .done results
  | layer + 1, c, results =>
      let (g, c') := b.computeFn c layer
      (reduceGrad n b.rank g).bind fun g' => serialLoop b layer c' (results.set layer g')

def serialBackward (b : Backward n σ F) (c : σ) : Proc (Fin n) F (List (Grad F)) :=
  serialLoop b b.numLayers c (List.replicate b.numLayers .empty)

/-! ## On two threads -/

/-- Where the calling thread is. -/
inductive MainPc (F : Type*) where
  /-- At the head of the loop, with this many layers to do. -/
  | computing (layers : Nat)
  /-- In `queue.push`, with this many layers behind it. -/
  | pushing (layer : Nat) (grad : Grad F)
  | returned

/-- Where `comm_thread` is, with its `i`. -/
inductive CommPc (n : Nat) (F : Type*) where
  /-- At the head of the loop, or in `queue.pop`. -/
  | popping (i : Nat)
  /-- In `ring_allreduce` for this layer. -/
  | reducing (i layer : Nat) (rest : Proc (Fin n) F (Grad F))

structure Overlap (n : Nat) (σ F : Type*) where
  closure : σ
  main : MainPc F
  comm : CommPc n F
  queue : List (Nat × Grad F)
  results : List (Grad F)

def Overlap.init (b : Backward n σ F) (c : σ) : Overlap n σ F where
  closure := c
  main := .computing b.numLayers
  comm := .popping 0
  queue := []
  results := List.replicate b.numLayers .empty

inductive OverlapAct (F : Type*) where
  | compute
  | push
  | pop
  | send
  /-- `channel.recv` returns this. -/
  | recv (data : List F)
  | store
  | join

def overlapStep (b : Backward n σ F) (s : Overlap n σ F) :
    OverlapAct F → Option (Overlap n σ F × List (Lib.Op (Fin n) F))
  | .compute =>
      match s.main with
      | .computing (layer + 1) =>
          let (g, c') := b.computeFn s.closure layer
          some ({ s with main := .pushing layer g, closure := c' }, [])
      | _ => none
  | .push =>
      match s.main with
      | .pushing layer g =>
          if s.queue.length < b.numLayers then
            some ({ s with main := .computing layer, queue := s.queue ++ [(layer, g)] }, [])
          else none
      | _ => none
  | .pop =>
      match s.comm, s.queue with
      | .popping i, task :: queue =>
          if i < b.numLayers then
            some ({ s with comm := .reducing i task.1 (reduceGrad n b.rank task.2)
                           queue := queue }, [])
          else none
      | _, _ => none
  | .send =>
      match s.comm with
      | .reducing i layer (.send dst data next) =>
          some ({ s with comm := .reducing i layer next }, [.send dst data])
      | _ => none
  | .recv data =>
      match s.comm with
      | .reducing i layer (.recv src len next) =>
          if data.length = len then
            some ({ s with comm := .reducing i layer (next data) }, [.recv src data])
          else none
      | _ => none
  | .store =>
      match s.comm with
      | .reducing i layer (.done g) =>
          some ({ s with comm := .popping (i + 1), results := s.results.set layer g }, [])
      | _ => none
  | .join =>
      match s.main, s.comm with
      | .computing 0, .popping i =>
          if i < b.numLayers then none else some ({ s with main := .returned }, [])
      | _, _ => none

/-- What `overlapped_backward` has returned. -/
def Overlap.result (s : Overlap n σ F) : Option (List (Grad F)) :=
  match s.main with
  | .returned => some s.results
  | _ => none

/-! ## What is left to do -/

/-- The layers that have still to be computed. -/
def MainPc.layers : MainPc F → Nat
  | .computing layers => layers
  | .pushing layer _ => layer
  | .returned => 0

/-- The gradient that is on its way into the queue. -/
def MainPc.pending : MainPc F → List (Nat × Grad F)
  | .pushing layer g => [(layer, g)]
  | _ => []

/-- The all-reduces of these tasks, and the loop of the layers that have not been computed. -/
def tasksThen (b : Backward n σ F) (layers : Nat) (c : σ) :
    List (Nat × Grad F) → List (Grad F) → Proc (Fin n) F (List (Grad F))
  | [], results => serialLoop b layers c results
  | task :: tasks, results =>
      (reduceGrad n b.rank task.2).bind fun g =>
        tasksThen b layers c tasks (results.set task.1 g)

/-- What comes behind the all-reduce that is under way. -/
def Overlap.ahead (b : Backward n σ F) (s : Overlap n σ F) (results : List (Grad F)) :
    Proc (Fin n) F (List (Grad F)) :=
  tasksThen b s.main.layers s.closure (s.queue ++ s.main.pending) results

/-- The rest of the serial program. -/
def Overlap.residual (b : Backward n σ F) (s : Overlap n σ F) :
    Proc (Fin n) F (List (Grad F)) :=
  match s.comm with
  | .popping _ => s.ahead b s.results
  | .reducing _ layer rest => rest.bind fun g => s.ahead b (s.results.set layer g)

/-- The tasks that the second thread has taken. -/
def CommPc.taken : CommPc n F → Nat
  | .popping i => i
  | .reducing i _ _ => i + 1

/-- Every layer is with one of the threads or in the queue. -/
structure Overlap.Inv (b : Backward n σ F) (s : Overlap n σ F) : Prop where
  count : s.comm.taken + s.queue.length + s.main.pending.length + s.main.layers = b.numLayers
  joined : s.main = .returned → ∃ i, s.comm = .popping i ∧ s.queue = []

/-- The steps that the threads have still to take, all-reduces apart. -/
def Overlap.work (s : Overlap n σ F) : Nat :=
  4 * s.main.layers + 3 * s.main.pending.length + 2 * s.queue.length +
    (match s.comm with | .popping _ => 0 | .reducing _ _ _ => 1) +
    (match s.main with | .returned => 0 | _ => 1)

variable {b : Backward n σ F} {s s' : Overlap n σ F} {c : σ}

/-- A gradient that has been computed is a task. -/
theorem tasksThen_compute (b : Backward n σ F) (layer : Nat) (c : σ)
    (tasks : List (Nat × Grad F)) (results : List (Grad F)) :
    tasksThen b (layer + 1) c tasks results =
      tasksThen b layer (b.computeFn c layer).2 (tasks ++ [(layer, (b.computeFn c layer).1)])
        results := by
  induction tasks generalizing results with
  | nil => rfl
  | cons task tasks ih =>
      rw [List.cons_append, tasksThen, tasksThen]
      congr 1
      funext g
      exact ih _

theorem Overlap.residual_init (b : Backward n σ F) (c : σ) :
    (Overlap.init b c).residual b = serialBackward b c := rfl

omit [Add F] in
theorem Overlap.inv_init (b : Backward n σ F) (c : σ) : (Overlap.init b c).Inv b :=
  ⟨by simp [init, CommPc.taken, MainPc.pending, MainPc.layers], fun h => by cases h⟩

/-! ## The threads do what is left to do -/

/-- A step of either thread. -/
theorem Overlap.moves {a : OverlapAct F} {ev : List (Lib.Op (Fin n) F)} (h : s.Inv b)
    (hs : overlapStep b s a = some (s', ev)) :
    s'.Inv b ∧ (ev = [] ∧ s'.residual b = s.residual b ∧ s'.work < s.work ∨
      ∃ op, ev = [op] ∧ (s.residual b).Does op (s'.residual b) ∧ s'.work ≤ s.work) := by
  obtain ⟨hcount, hjoined⟩ := h
  obtain ⟨closure, main, comm, queue, results⟩ := s
  cases a with
  | compute =>
      simp only [overlapStep] at hs
      split at hs
      next _ layer =>
        cases hs
        simp only [MainPc.pending, MainPc.layers, List.length_nil] at hcount
        refine ⟨⟨?_, fun h => by cases h⟩, .inl ⟨rfl, ?_, ?_⟩⟩
        · simp only [MainPc.pending, MainPc.layers, List.length_singleton]
          omega
        · -- the new task stands behind the queue, where the loop stood
          have htask (results : List (Grad F)) := tasksThen_compute b layer closure queue results
          cases comm <;> simp only [residual, ahead, MainPc.layers, MainPc.pending,
            List.append_nil, htask]
        · simp only [work, MainPc.pending, MainPc.layers, List.length_nil, List.length_singleton]
          omega
      next => cases hs
  | push =>
      simp only [overlapStep] at hs
      split at hs
      next _ layer g =>
        split at hs
        next =>
          cases hs
          simp only [MainPc.pending, MainPc.layers, List.length_singleton] at hcount
          refine ⟨⟨?_, fun h => by cases h⟩, .inl ⟨rfl, ?_, ?_⟩⟩
          · simp only [MainPc.pending, MainPc.layers, List.length_append, List.length_singleton,
              List.length_nil]
            omega
          · cases comm <;> simp only [residual, ahead, MainPc.layers, MainPc.pending,
              List.append_nil]
          · simp only [work, MainPc.pending, MainPc.layers, List.length_append,
              List.length_singleton, List.length_nil]
            omega
        next => cases hs
      next => cases hs
  | pop =>
      simp only [overlapStep] at hs
      split at hs
      next _ _ i task rest =>
        split at hs
        next =>
          cases hs
          simp only [CommPc.taken, List.length_cons] at hcount
          refine ⟨⟨?_, fun hmain => ?_⟩, .inl ⟨rfl, rfl, ?_⟩⟩
          · simp only [CommPc.taken]
            omega
          · obtain ⟨-, -, hempty⟩ := hjoined hmain
            cases hempty
          · simp only [work, List.length_cons]
            omega
        next => cases hs
      next => cases hs
  | send =>
      simp only [overlapStep] at hs
      split at hs
      next _ i layer dst data next =>
        cases hs
        refine ⟨⟨hcount, fun hmain => ?_⟩, .inr ⟨_, rfl, .send, le_rfl⟩⟩
        obtain ⟨_, hpop, -⟩ := hjoined hmain
        cases hpop
      next => cases hs
  | recv data =>
      simp only [overlapStep] at hs
      split at hs
      next _ i layer src len next =>
        split at hs
        next hlen =>
          cases hs
          refine ⟨⟨hcount, fun hmain => ?_⟩, .inr ⟨_, rfl, .recv hlen, le_rfl⟩⟩
          obtain ⟨_, hpop, -⟩ := hjoined hmain
          cases hpop
        next => cases hs
      next => cases hs
  | store =>
      simp only [overlapStep] at hs
      split at hs
      next _ i layer g =>
        cases hs
        refine ⟨⟨hcount, fun hmain => ?_⟩, .inl ⟨rfl, rfl, ?_⟩⟩
        · obtain ⟨_, hpop, -⟩ := hjoined hmain
          cases hpop
        · simp only [work]
          omega
      next => cases hs
  | join =>
      simp only [overlapStep] at hs
      split at hs
      next _ _ i =>
        split at hs
        next => cases hs
        next hall =>
          cases hs
          -- all tasks have been taken, so the queue is empty
          simp only [CommPc.taken, MainPc.pending, MainPc.layers, List.length_nil] at hcount
          obtain rfl : queue = [] := List.length_eq_zero_iff.mp (by omega)
          refine ⟨⟨hcount, fun _ => ⟨i, rfl, rfl⟩⟩, .inl ⟨rfl, rfl, ?_⟩⟩
          simp [work, MainPc.pending, MainPc.layers]
      next => cases hs

/-- When neither thread has a step of its own to take, the second is where the serial program
is, or both are done. -/
theorem Overlap.ready (h : s.Inv b) :
    (∃ a s', overlapStep b s a = some (s', [])) ∨
      (∀ op p, (s.residual b).Does op p →
        ∃ a s', overlapStep b s a = some (s', [op]) ∧ s'.residual b = p) ∧
      ∀ r, s.residual b = .done r → s.result = some r := by
  obtain ⟨hcount, hjoined⟩ := h
  obtain ⟨closure, main, comm, queue, results⟩ := s
  cases comm with
  | reducing i layer rest =>
      cases rest with
      | done g => exact .inl ⟨.store, _, rfl⟩
      | send dst data next =>
          refine .inr ⟨fun op p hdoes => ?_, fun r hr => nomatch hr⟩
          cases hdoes
          exact ⟨.send, _, rfl, rfl⟩
      | recv src len next =>
          refine .inr ⟨fun op p hdoes => ?_, fun r hr => nomatch hr⟩
          cases hdoes with
          | @recv _ _ _ data hlen =>
              exact ⟨.recv data, ⟨closure, main, .reducing i layer (next data), queue, results⟩,
                if_pos hlen, rfl⟩
      | fault => exact .inr ⟨fun op p hdoes => (nomatch hdoes), fun r hr => nomatch hr⟩
  | popping i =>
      cases queue with
      | cons task rest =>
          simp only [CommPc.taken, List.length_cons] at hcount
          have hlt : i < b.numLayers := by omega
          exact .inl ⟨.pop, _, if_pos hlt⟩
      | nil =>
          cases main with
          | pushing layer g =>
              simp only [MainPc.pending, List.length_singleton] at hcount
              have hroom : 0 < b.numLayers := by omega
              exact .inl ⟨.push, _, if_pos hroom⟩
          | computing layers =>
              cases layers with
              | succ layer => exact .inl ⟨.compute, _, rfl⟩
              | zero =>
                  simp only [CommPc.taken, MainPc.pending, MainPc.layers,
                    List.length_nil] at hcount
                  have hall : ¬ i < b.numLayers := by omega
                  exact .inl ⟨.join, _, if_neg hall⟩
          | returned =>
              refine .inr ⟨fun op p hdoes => (nomatch hdoes), fun r hr => ?_⟩
              cases hr
              rfl

/-- **The threads implement the serial program.** -/
theorem overlap_implements (b : Backward n σ F) :
    Implements (overlapStep b) Overlap.result (Overlap.Inv b) Overlap.work
      (Overlap.residual b) where
  moves := Overlap.moves
  ready := Overlap.ready
  result {s r} h hr := by
    obtain ⟨closure, main, comm, queue, results⟩ := s
    cases main with
    | returned =>
        obtain ⟨i, rfl, rfl⟩ := h.joined rfl
        cases hr
        rfl
    | _ => cases hr

/-! ## Seen from the channel -/

/-- **Overlap changes nothing but the time.** Whatever the two threads of a rank do, the channel
operations so far are operations of the serial program; when they return, the serial program
returns the same after the same operations; and when neither has a step of its own to take, they
offer what the serial program offers. Everything that the serial program can do on the channel
they can do. So whatever all the threads of all ranks do, the ranks stay matched: if the serial
programs come to an end together, so do the overlapped ones, with the same results. -/
theorem overlapped_backward_serial (b : Fin n → Backward n σ F) (c : Fin n → σ) :
    (∀ i ops s, Run (overlapStep (b i)) Any (Overlap.init (b i) (c i)) ops s →
      ∃ p, (serialBackward (b i) (c i)).Performs ops p ∧
        (∀ r, s.result = some r → p = .done r) ∧
        ((∃ a s', overlapStep (b i) s a = some (s', [])) ∨
          (∀ op q, p.Does op q → ∃ a s', overlapStep (b i) s a = some (s', [op])) ∧
            ∀ r, p = .done r → s.result = some r)) ∧
    (∀ i ops r, (serialBackward (b i) (c i)).Performs ops (.done r) →
      ∃ s, Run (overlapStep (b i)) Any (Overlap.init (b i) (c i)) ops s ∧ s.result = some r) ∧
    ∀ r, Completes (fun i => serialBackward (b i) (c i)) r →
      ∃ N, ∀ m f, Steps (Fleet.Step fun i => overlapStep (b i)) m
          (Fleet.start fun i => Overlap.init (b i) (c i)) f →
        m ≤ N ∧ (Stuck (Fleet.Step fun i => overlapStep (b i)) f →
          ∀ i, (f.state i).result = some (r i)) := by
  have himp (i : Fin n) := overlap_implements (b i)
  have hinit (i : Fin n) := Overlap.inv_init (b i) (c i)
  refine ⟨fun i ops s hrun => ?_, fun i ops r hperforms => ?_, fun r hcompletes => ?_⟩
  · obtain ⟨hinv, hperforms⟩ := (himp i).performs (hinit i) hrun
    refine ⟨s.residual (b i), hperforms, fun r hr => (himp i).result hinv hr, ?_⟩
    refine ((himp i).ready hinv).imp_right fun ⟨hoffers, hreturns⟩ => ⟨?_, hreturns⟩
    intro op q hdoes
    obtain ⟨a, s', hs, -⟩ := hoffers op q hdoes
    exact ⟨a, s', hs⟩
  · exact ((himp i).returns_iff (hinit i)).mpr hperforms
  · exact Implements.settles himp hinit hcompletes

end

/-! ## Together -/

section

variable [AddCommMonoid F]

/-- The gradient of a layer, when `compute_fn` is called for `layers` layers from the last on. -/
def gradAt (b : Backward n σ F) : Nat → σ → Nat → Grad F
  | 0, _, _ => .empty
  | layers + 1, c, layer =>
      if layer = layers then (b.computeFn c layers).1
      else gradAt b layers (b.computeFn c layers).2 layer

/-- A rank's gradient with the elements summed over all ranks. -/
def summed (g : Fin n → Grad F) (i : Fin n) : Grad F :=
  { g i with data := (List.range (g i).data.length).map fun y => ∑ j, (g j).data.getD y 0 }

theorem reduceGrad_meets {g : Fin n → Grad F} {rank : Fin n → Nat} (hrank : ∀ i, rank i = i)
    (hsize : ∀ i j, (g i).data.length = (g j).data.length) :
    ReflTransGen Meet (fun i => reduceGrad n (rank i) (g i)) fun i => .done (summed g i) := by
  rcases isEmpty_or_nonempty (Fin n) with hempty | ⟨⟨i₀⟩⟩
  · have hsame : (fun i => reduceGrad n (rank i) (g i)) =
        fun i => (.done (summed g i) : Proc (Fin n) F (Grad F)) := funext fun i => isEmptyElim i
    rw [hsame]
  · obtain ⟨count, hcount⟩ : ∃ count, ∀ i, (g i).data.length = count := ⟨_, fun i => hsize i i₀⟩
    have hdata (i : Fin n) :
        (g i).data = List.ofFn fun y : Fin count => (g i).data.getD y 0 := by
      refine List.ext_getElem (by rw [List.length_ofFn, hcount i]) fun y hy hy' => ?_
      rw [List.getElem_ofFn, List.getD_eq_getElem?_getD, List.getElem?_eq_getElem hy,
        Option.getD_some]
    have hsum (i : Fin n) : (summed g i).data =
        List.ofFn fun y : Fin count => ∑ j, (g j).data.getD y 0 := by
      refine List.ext_getElem (by simp [summed, hcount i]) fun y hy hy' => ?_
      rw [List.getElem_ofFn]
      simp [summed]
    have hrun := meets_bind (fun i data => .done { g i with data := data })
      (ringAllreduce_sum_meets fun i (y : Fin count) => (g i).data.getD y 0)
    have hstart : (fun i => reduceGrad n (rank i) (g i)) = fun i : Fin n =>
        (ringAllreduce (· + ·) n count i
          (List.ofFn fun y : Fin count => (g i).data.getD y 0)).bind
            fun data => .done { g i with data := data } := by
      funext i
      rw [← hdata i, ← hcount i, reduceGrad, hrank i]
    rw [hstart]
    convert hrun using 1
    funext i
    rw [Proc.bind_done, ← hsum i]
    rfl

/-- Layer by layer the ranks go through the serial loop together. -/
theorem serialLoop_meets {b : Fin n → Backward n σ F} (hrank : ∀ i, (b i).rank = i)
    (layers : Nat) (c : Fin n → σ) (results : Fin n → List (Grad F))
    (hlen : ∀ i, layers ≤ (results i).length)
    (hsize : ∀ layer < layers, ∀ i j, (gradAt (b i) layers (c i) layer).data.length =
      (gradAt (b j) layers (c j) layer).data.length) :
    ReflTransGen Meet (fun i => serialLoop (b i) layers (c i) (results i)) fun i =>
      .done ((List.range layers).map (fun layer =>
        summed (fun j => gradAt (b j) layers (c j) layer) i) ++ (results i).drop layers) := by
  induction layers generalizing c results with
  | zero => exact .refl
  | succ layers ih =>
      have hnow (i : Fin n) : gradAt (b i) (layers + 1) (c i) layers =
          ((b i).computeFn (c i) layers).1 := if_pos rfl
      have hlater (i : Fin n) (layer : Nat) (hlt : layer < layers) :
          gradAt (b i) (layers + 1) (c i) layer =
            gradAt (b i) layers ((b i).computeFn (c i) layers).2 layer :=
        if_neg (Nat.ne_of_lt hlt)
      have hreduce := reduceGrad_meets (g := fun i => ((b i).computeFn (c i) layers).1) hrank
        fun i j => by
          have h := hsize layers (Nat.lt_succ_self _) i j
          rwa [hnow, hnow] at h
      have hfirst := meets_bind (fun i g => serialLoop (b i) layers
        ((b i).computeFn (c i) layers).2 ((results i).set layers g)) hreduce
      have hrest := ih (fun i => ((b i).computeFn (c i) layers).2)
        (fun i => (results i).set layers
          (summed (fun j => ((b j).computeFn (c j) layers).1) i))
        (fun i => by rw [List.length_set]; exact Nat.le_of_succ_le (hlen i))
        fun layer hlt i j => by
          have h := hsize layer (Nat.lt_succ_of_lt hlt) i j
          rwa [hlater i layer hlt, hlater j layer hlt] at h
      refine hfirst.trans ?_
      simp only [Proc.bind_done]
      convert hrest using 1
      funext i
      congr 1
      have hdrop : ((results i).set layers
          (summed (fun j => ((b j).computeFn (c j) layers).1) i)).drop layers =
          summed (fun j => ((b j).computeFn (c j) layers).1) i ::
            (results i).drop (layers + 1) := by
        rw [List.drop_eq_getElem_cons (by rw [List.length_set]; exact hlen i),
          List.getElem_set_self, List.drop_set_of_lt (Nat.lt_succ_self _)]
      rw [hdrop, List.range_succ, List.map_append, List.append_assoc]
      congr 1
      · refine List.map_congr_left fun layer hlayer => ?_
        have hlt := List.mem_range.mp hlayer
        congr 1
        funext j
        exact hlater j layer hlt
      · simp only [List.map_singleton, List.singleton_append, hnow]

/-- Ranks whose gradients have the same sizes all end with the sums, whatever the threads of all
of them do. -/
theorem overlapped_backward_sums (b : Fin n → Backward n σ F) (c : Fin n → σ) (numLayers : Nat)
    (hlayers : ∀ i, (b i).numLayers = numLayers) (hrank : ∀ i, (b i).rank = i)
    (hsize : ∀ layer < numLayers, ∀ i j, (gradAt (b i) numLayers (c i) layer).data.length =
      (gradAt (b j) numLayers (c j) layer).data.length) :
    ∃ N, ∀ m f, Steps (Fleet.Step fun i => overlapStep (b i)) m
        (Fleet.start fun i => Overlap.init (b i) (c i)) f →
      m ≤ N ∧ (Stuck (Fleet.Step fun i => overlapStep (b i)) f →
        ∀ i, (f.state i).result = some ((List.range numLayers).map fun layer =>
          summed (fun j => gradAt (b j) numLayers (c j) layer) i)) := by
  refine Implements.settles (fun i => overlap_implements (b i))
    (fun i => Overlap.inv_init (b i) (c i)) (completes_of_meets ?_)
  have hrun := serialLoop_meets hrank numLayers c (fun _ => List.replicate numLayers .empty)
    (fun i => List.length_replicate.ge) hsize
  simp only [Overlap.residual_init, serialBackward, hlayers]
  simpa using hrun

end

/-- Two layers of one element. -/
def twoRanks (i : Fin 2) : Backward 2 Unit ℤ :=
  ⟨2, i, fun c layer => (⟨1, 1, [(layer + i : Nat)]⟩, c)⟩

theorem overlapped_backward_sums_two :
    ∃ N, ∀ m f, Steps (Fleet.Step fun i => overlapStep (twoRanks i)) m
        (Fleet.start fun i => Overlap.init (twoRanks i) ()) f →
      m ≤ N ∧ (Stuck (Fleet.Step fun i => overlapStep (twoRanks i)) f →
        ∀ i, (f.state i).result = some [⟨1, 1, [1]⟩, ⟨1, 1, [3]⟩]) :=
  overlapped_backward_sums twoRanks (fun _ => ()) 2 (fun _ => rfl) (fun _ => rfl) (by decide)

end CrossMachine.Training
