import CrossMachine.Training.Timetable
import Mathlib.Data.Prod.Lex

/-!
# How many microbatches are in flight

The simulation finds the peak of a stage by going through the ends of its forward and backward
passes in the order of time. No two of them are at the same time, since a stage runs one
operation after another and each of them takes time. So the order is that of the schedule, and
the peak does not depend on the times at all (`peakInFlight_eq`).

Along the schedule, warmup adds one microbatch after another, a pair of the steady state adds
one and takes one away, and the drain only takes away.
-/

namespace CrossMachine.Training

/-- What the end of an operation adds to the microbatches in flight. -/
def PipelineOp.delta (op : PipelineOp) : Int := if op.isForward then 1 else -1

/-- The microbatches in flight after some operations, and the most there were. -/
def fly (acc : Int × Int) (ops : List PipelineOp) : Int × Int :=
  ops.foldl (fun acc op => (acc.1 + op.delta, max acc.2 (acc.1 + op.delta))) acc

section

variable {acc : Int × Int} {ops : List PipelineOp} {p m i n : Nat} {tf tb : ℚ}

/-! ## Along a schedule -/

theorem fly_append (acc : Int × Int) (pre post : List PipelineOp) :
    fly acc (pre ++ post) = fly (fly acc pre) post := List.foldl_append

theorem fly_cons (acc : Int × Int) (op : PipelineOp) (ops : List PipelineOp) :
    fly acc (op :: ops) = fly (acc.1 + op.delta, max acc.2 (acc.1 + op.delta)) ops := rfl

theorem fly_forwards (hacc : acc.1 ≤ acc.2) (h : ∀ op ∈ ops, op.isForward) :
    fly acc ops = (acc.1 + ops.length, max acc.2 (acc.1 + ops.length)) := by
  induction ops generalizing acc with
  | nil => simp [fly, hacc]
  | cons op ops ih =>
      obtain ⟨hop, hops⟩ := List.forall_mem_cons.mp h
      have hdelta : op.delta = 1 := if_pos hop
      rw [fly_cons, ih (le_max_right _ _) hops, hdelta, List.length_cons]
      push_cast
      refine Prod.ext (by ring) ?_
      simp only
      omega

theorem fly_backwards (hacc : acc.1 ≤ acc.2) (h : ∀ op ∈ ops, op.isForward = false) :
    fly acc ops = (acc.1 - ops.length, acc.2) := by
  induction ops generalizing acc with
  | nil => simp [fly]
  | cons op ops ih =>
      obtain ⟨hop, hops⟩ := List.forall_mem_cons.mp h
      have hdelta : op.delta = -1 := by rw [PipelineOp.delta, hop]; rfl
      rw [fly_cons, ih (le_max_right _ _) hops, hdelta, List.length_cons]
      push_cast
      refine Prod.ext (by ring) ?_
      simp only
      omega

/-- A forward pass and a backward pass in turn. -/
theorem fly_steady (acc : Int × Int) (f g : Nat → Nat) (n : Nat) :
    fly acc ((List.range n).flatMap fun k => [forwardOp (f k), backwardOp (g k)]) =
      (acc.1, if n = 0 then acc.2 else max acc.2 (acc.1 + 1)) := by
  induction n with
  | zero => rfl
  | succ n ih =>
      rw [List.range_succ, List.flatMap_append, fly_append, ih, List.flatMap_singleton,
        if_neg (Nat.succ_ne_zero n)]
      simp only [fly, List.foldl_cons, List.foldl_nil, PipelineOp.delta, forwardOp, backwardOp]
      refine Prod.ext (by simp) ?_
      simp only [if_true, Bool.false_eq_true, if_false]
      split <;> omega

theorem fly_gpipe (m : Nat) :
    (fly (0, 0) ((List.range m).map forwardOp ++ (List.range m).map backwardOp)).2 = m := by
  have hup : fly (0, 0) ((List.range m).map forwardOp) = ((m : Int), (m : Int)) := by
    rw [fly_forwards (le_refl _) (by simp [forwardOp])]
    simp
  rw [fly_append, hup, fly_backwards (le_refl _) (by simp [backwardOp])]

/-- The stage has as many in flight as it has warmup passes, and one more in the steady state
if there is one. -/
theorem fly_oneFOneB (hi : i < p) :
    (fly (0, 0) (oneFOneBOps p m i)).2 = (min m (p - i) : Nat) := by
  have hup : fly (0, 0) ((List.range (numWarmup p m i)).map forwardOp) =
      ((numWarmup p m i : Int), (numWarmup p m i : Int)) := by
    rw [fly_forwards (le_refl _) (by simp [forwardOp])]
    simp
  rw [oneFOneBOps, fly_append, fly_append, hup, fly_steady, fly_backwards ?_ (by simp [backwardOp])]
  · by_cases hn : m - numWarmup p m i = 0
    · rw [if_pos hn]
      rw [numWarmup] at hn ⊢
      omega
    · rw [if_neg hn]
      rw [numWarmup] at hn ⊢
      simp only
      omega
  · simp only
    split <;> omega

/-! ## By the time -/

/-- The operations of a stage that are sorted by their ends are found in that order. -/
theorem peakInFlight_eq {s : Sim}
    (hperm : ops.Perm ((List.range m).map forwardOp ++ (List.range m).map backwardOp))
    (hsorted : ops.Pairwise fun op op' =>
      s.doneAt i op < s.doneAt i op' ∨ s.doneAt i op = s.doneAt i op' ∧ op.delta ≤ op'.delta) :
    peakInFlight s m i = (fly (0, 0) ops).2 := by
  let event := fun op : PipelineOp => (s.doneAt i op, op.delta)
  let le := fun a b : ℚ × Int => decide (a.1 < b.1 ∨ a.1 = b.1 ∧ a.2 ≤ b.2)
  have hevents : ((List.range m).flatMap fun j =>
      [(s.forwardDone i j, (1 : Int)), (s.backwardDone i j, -1)]).Perm (ops.map event) := by
    have hpair := List.flatMap_append_perm (List.range m)
      (fun j => [(s.forwardDone i j, (1 : Int))]) fun j => [(s.backwardDone i j, (-1 : Int))]
    rw [← List.map_eq_flatMap, ← List.map_eq_flatMap] at hpair
    refine hpair.symm.trans (.trans (.of_eq ?_) (hperm.map event).symm)
    rw [List.map_append, List.map_map, List.map_map]
    rfl
  -- the order of the pairs is a linear one, so a list has one sorted arrangement
  have hle : ∀ a b : ℚ × Int, le a b ↔ toLex a ≤ toLex b := fun a b =>
    decide_eq_true_iff.trans Prod.Lex.toLex_le_toLex.symm
  have htrans : ∀ a b c : ℚ × Int, le a b → le b c → le a c := by
    intro a b c hab hbc
    exact (hle a c).mpr (((hle a b).mp hab).trans ((hle b c).mp hbc))
  have htotal : ∀ a b : ℚ × Int, le a b || le b a := by
    intro a b
    rw [Bool.or_eq_true, hle, hle]
    exact le_total _ _
  have hantisymm : ∀ a b : ℚ × Int, le a b → le b a → a = b := by
    intro a b hab hba
    exact toLex.injective (le_antisymm ((hle a b).mp hab) ((hle b a).mp hba))
  have hmerge : ((List.range m).flatMap fun j =>
      [(s.forwardDone i j, (1 : Int)), (s.backwardDone i j, -1)]).mergeSort le =
        ops.map event := by
    refine ((List.mergeSort_perm _ _).trans hevents).eq_of_pairwise
      (fun a b _ _ hab hba => hantisymm a b hab hba)
      (List.pairwise_mergeSort htrans htotal _) ?_
    refine List.pairwise_map.mpr (hsorted.imp fun {op op'} hlt => ?_)
    exact decide_eq_true hlt
  rw [peakInFlight]
  simp only [le] at hmerge
  rw [hmerge, List.foldl_map]
  rfl

theorem Planned.peakInFlightPerStage {schedule : Schedule} {T : Nat → PipelineOp → ℚ}
    (hf : 0 < tf) (hb : 0 < tb) (hm : 0 < m) (hp : 0 < p) (hcap : p * m * 4 + 10 < 2 ^ 31)
    (h : Planned schedule p m tf tb T) :
    (simulate schedule tf tb).peakInFlightPerStage =
      (List.range p).map fun i => (fly (0, 0) (schedule.ops i)).2 := by
  obtain ⟨s, hloop, hinv, hall⟩ := h.simulateStages hf hb hm hp hcap
  simp only [simulate, hloop, h.covers.length, h.covers.numMicrobatches hp hm]
  refine List.map_congr_left fun i hi => ?_
  have hi := List.mem_range.mp hi
  refine peakInFlight_eq (h.covers.ops i hi) ?_
  refine List.Pairwise.imp_of_mem (fun {op op'} hop hop' hlt => ?_)
    ((h.timed i hi).1.increasing hf hb).2
  have hran := fun i hi => (hall i hi).1
  rw [h.doneAt hinv hran hi hop, h.doneAt hinv hran hi hop']
  exact .inl hlt

/-- Of a simulation that has run nothing all times are equal, and the ends come first. -/
theorem peakInFlight_init (m i : Nat) : peakInFlight Sim.init m i = 0 := by
  have hdown : fly (0, 0) ((List.range m).map backwardOp) = (-(m : Int), 0) := by
    rw [fly_backwards (le_refl _) (by simp [backwardOp])]
    simp
  let ends := (List.range m).map backwardOp ++ (List.range m).map forwardOp
  rw [peakInFlight_eq (s := Sim.init) (i := i) (List.perm_append_comm : ends.Perm _), fly_append,
    hdown, fly_forwards (by simp) (by simp [forwardOp])]
  · simp
  · have htime (op : PipelineOp) : Sim.init.doneAt i op = kUnset := by simp [Sim.doneAt, Sim.init]
    simp only [htime, true_and, lt_self_iff_false, false_or]
    refine List.pairwise_append.mpr ⟨List.pairwise_map.mpr ?_, List.pairwise_map.mpr ?_, ?_⟩
    · exact List.pairwise_lt_range.imp fun _ => le_refl _
    · exact List.pairwise_lt_range.imp fun _ => le_refl _
    · simp [forwardOp, backwardOp, PipelineOp.delta]

end

/-- **The memory bound of 1F1B.** Stage `i` of `p` never holds more than `p - i` microbatches,
nor more than there are; under GPipe every stage holds all of them. The cap of the simulation is
taken to be an `int`. -/
theorem simulate_peakInFlight (p m : Nat) (tf tb : ℚ) (hp : 1 ≤ p) (hm : 1 ≤ m) (hf : 0 < tf)
    (hb : 0 < tb) (hcap : p * m * 4 + 10 < 2 ^ 31) :
    (simulate (oneFOneBSchedule p m) tf tb).peakInFlightPerStage =
        (List.range p).map (fun i => ((min m (p - i) : Nat) : Int)) ∧
      (simulate (gpipeSchedule p m) tf tb).peakInFlightPerStage =
        (List.range p).map (fun _ => (m : Int)) := by
  constructor
  · rw [(planned_oneFOneB hf hb hm).peakInFlightPerStage hf hb hm hp hcap]
    refine List.map_congr_left fun i hi => ?_
    have hi := List.mem_range.mp hi
    rw [oneFOneBSchedule, ops_map_range _ hi, fly_oneFOneB hi]
  · rw [(planned_gpipe hf hb hm).peakInFlightPerStage hf hb hm hp hcap]
    refine List.map_congr_left fun i hi => ?_
    rw [gpipeSchedule, ops_map_range _ (List.mem_range.mp hi), fly_gpipe]

/-- Four stages and two microbatches: the last stage holds one at a time. -/
theorem simulate_peakInFlight_short :
    (simulate (oneFOneBSchedule 4 2) 1 2).peakInFlightPerStage = [2, 2, 2, 1] ∧
      (simulate (gpipeSchedule 4 2) 1 2).peakInFlightPerStage = [2, 2, 2, 2] :=
  simulate_peakInFlight 4 2 1 2 (by omega) (by omega) (by norm_num) (by norm_num) (by norm_num)

/-- Nothing is in flight where the cap is negative. -/
theorem simulate_peakInFlight_capped :
    (simulate (gpipeSchedule 24000 24000) 1 1).peakInFlightPerStage ≠
      (List.range 24000).map fun _ => (24000 : Int) := by
  have hcovers := covers_gpipe 24000 24000
  have hpeak : (simulate (gpipeSchedule 24000 24000) 1 1).peakInFlightPerStage =
      (List.range 24000).map fun _ => (0 : Int) := by
    simp only [simulate, hcovers.simulateStages_capped (by omega) (by omega) (by decide),
      hcovers.length]
    exact List.map_congr_left fun i _ => peakInFlight_init _ i
  intro h
  rw [hpeak] at h
  have hfirst := List.map_inj_left.mp h 0 (List.mem_range.mpr (by omega))
  simp at hfirst

end CrossMachine.Training
