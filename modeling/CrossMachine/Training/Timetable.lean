import CrossMachine.Training.Pipeline
import Mathlib.Tactic.FieldSimp
import Mathlib.Tactic.Ring

/-!
# The timetables of GPipe and 1F1B

GPipe runs all forward passes and then all backward passes. 1F1B runs at each stage as many
forward passes as there are stages behind it, then a forward and a backward pass in turn, and
then the backward passes that are left.

All times are sums of forward and backward times, so a time is known by two numbers (`val`),
and times are compared number by number. At stage `i` of `p` the backward pass of microbatch
`j` ends after `p + j` forward and `p - i + j` backward times under 1F1B, and after `m + p - 1`
and `p - i + j` under GPipe; so the last pass of all ends at the same time under both.
-/

namespace CrossMachine.Training

def forwardOp (j : Nat) : PipelineOp := ⟨j, true⟩

def backwardOp (j : Nat) : PipelineOp := ⟨j, false⟩

def gpipeSchedule (numStages numMicrobatches : Nat) : Schedule :=
  (List.range numStages).map fun _ =>
    (List.range numMicrobatches).map forwardOp ++ (List.range numMicrobatches).map backwardOp

/-- `std::min(num_microbatches, num_stages - i - 1)`. -/
def numWarmup (numStages numMicrobatches i : Nat) : Nat := min numMicrobatches (numStages - i - 1)

/-- The operations of stage `i`: warmup, steady state and drain. -/
def oneFOneBOps (numStages numMicrobatches i : Nat) : List PipelineOp :=
  let w := numWarmup numStages numMicrobatches i
  let steadyState := numMicrobatches - w
  (List.range w).map forwardOp ++
    (List.range steadyState).flatMap (fun k => [forwardOp (w + k), backwardOp k]) ++
    (List.range w).map fun k => backwardOp (steadyState + k)

def oneFOneBSchedule (numStages numMicrobatches : Nat) : Schedule :=
  (List.range numStages).map (oneFOneBOps numStages numMicrobatches)

section

variable {p m i j n a b c d : Nat} {tf tb t : ℚ} {T : Nat → PipelineOp → ℚ}

/-! ## Times as pairs of numbers -/

/-- `a` forward times and `b` backward times. -/
def val (tf tb : ℚ) (a b : Nat) : ℚ := a * tf + b * tb

theorem val_le (hf : 0 < tf) (hb : 0 < tb) (ha : a ≤ c) (hb' : b ≤ d) :
    val tf tb a b ≤ val tf tb c d := by
  have hfirst : (a : ℚ) * tf ≤ c * tf :=
    mul_le_mul_of_nonneg_right (Nat.cast_le.mpr ha) (le_of_lt hf)
  have hsecond : (b : ℚ) * tb ≤ d * tb :=
    mul_le_mul_of_nonneg_right (Nat.cast_le.mpr hb') (le_of_lt hb)
  rw [val, val]
  linarith

theorem val_forward : val tf tb a b + tf = val tf tb (a + 1) b := by
  rw [val, val]
  push_cast
  ring

theorem val_backward : val tf tb a b + tb = val tf tb a (b + 1) := by
  rw [val, val]
  push_cast
  ring

section

variable (hf : 0 < tf) (hb : 0 < tb)

include hf hb

/-- A forward pass starts at `(a, b)`: its stage and the stage before are ready by then, and
one of them not earlier. -/
theorem forward_eq (hown : T i (forwardOp j) = val tf tb (a + 1) b) (hc : c ≤ a) (hd : d ≤ b)
    (hfirst : i = 0 → c = a ∧ d = b)
    (hdep : 0 < i → ∃ a' b', T (i - 1) (forwardOp j) = val tf tb a' b' ∧ a' ≤ a ∧ b' ≤ b ∧
      (c = a ∧ d = b ∨ a' = a ∧ b' = b)) :
    T i (forwardOp j) =
      latest T (val tf tb c d) (deps p i (forwardOp j)) + (forwardOp j).duration tf tb := by
  have hready : latest T (val tf tb c d) (deps p i (forwardOp j)) = val tf tb a b := by
    by_cases hi : 0 < i
    · obtain ⟨a', b', hT, ha', hb'', heq⟩ := hdep hi
      have hdeps : deps p i (forwardOp j) = [(i - 1, forwardOp j)] := by
        simp [deps, forwardOp, hi]
      rw [hdeps, latest, List.foldl_cons, List.foldl_nil, hT]
      rcases heq with ⟨rfl, rfl⟩ | ⟨rfl, rfl⟩
      · exact max_eq_left (val_le hf hb ha' hb'')
      · exact max_eq_right (val_le hf hb hc hd)
    · have hdeps : deps p i (forwardOp j) = [] := by simp [deps, forwardOp, hi]
      obtain ⟨rfl, rfl⟩ := hfirst (by omega)
      rw [hdeps]
      rfl
  rw [hown, hready, ← val_forward]
  rfl

/-- A backward pass starts at `(a, b)`: when the stage behind is done with it, and at the last
stage when the stage is free. -/
theorem backward_eq (hown : T i (backwardOp j) = val tf tb a (b + 1)) (hc : c ≤ a) (hd : d ≤ b)
    (hforward : ∃ a' b', T i (forwardOp j) = val tf tb a' b' ∧ a' ≤ a ∧ b' ≤ b)
    (hdep : i + 1 < p → T (i + 1) (backwardOp j) = val tf tb a b)
    (hlast : ¬ i + 1 < p → c = a ∧ d = b) :
    T i (backwardOp j) =
      latest T (val tf tb c d) (deps p i (backwardOp j)) + (backwardOp j).duration tf tb := by
  obtain ⟨a', b', hT, ha', hb'⟩ := hforward
  have hready : latest T (val tf tb c d) (deps p i (backwardOp j)) = val tf tb a b := by
    by_cases hi : i + 1 < p
    · have hdeps : deps p i (backwardOp j) = [(i, forwardOp j), (i + 1, backwardOp j)] := by
        simp [deps, backwardOp, forwardOp, hi]
      rw [hdeps, latest, List.foldl_cons, List.foldl_cons, List.foldl_nil, hT, hdep hi]
      exact max_eq_right (max_le (val_le hf hb hc hd) (val_le hf hb ha' hb'))
    · have hdeps : deps p i (backwardOp j) = [(i, forwardOp j)] := by
        simp [deps, backwardOp, forwardOp, hi]
      obtain ⟨rfl, rfl⟩ := hlast hi
      rw [hdeps, latest, List.foldl_cons, List.foldl_nil, hT]
      exact max_eq_left (val_le hf hb ha' hb')
  rw [hown, hready, ← val_backward]
  rfl

end

/-! ## Lists of operations -/

theorem timedFrom_append {pre post : List PipelineOp} (hpre : TimedFrom p tf tb T i t pre)
    (hpost : TimedFrom p tf tb T i (freeAfter T i t pre) post) :
    TimedFrom p tf tb T i t (pre ++ post) := by
  induction pre generalizing t with
  | nil => exact hpost
  | cons op pre ih => exact ⟨hpre.1, ih hpre.2 hpost⟩

/-- Blocks of operations one behind the other, of which block `k` runs from `e k` to
`e (k + 1)`. -/
theorem timedFrom_blocks (p : Nat) (tf tb : ℚ) (T : Nat → PipelineOp → ℚ) (i : Nat)
    (g : Nat → List PipelineOp) (e : Nat → ℚ) (n : Nat)
    (h : ∀ k < n, TimedFrom p tf tb T i (e k) (g k) ∧ freeAfter T i (e k) (g k) = e (k + 1)) :
    TimedFrom p tf tb T i (e 0) ((List.range n).flatMap g) ∧
      freeAfter T i (e 0) ((List.range n).flatMap g) = e n := by
  induction n with
  | zero => exact ⟨trivial, rfl⟩
  | succ n ih =>
      obtain ⟨htimed, hfree⟩ := ih fun k hk => h k (by omega)
      obtain ⟨hlast, hend⟩ := h n (Nat.lt_succ_self n)
      rw [List.range_succ, List.flatMap_append, List.flatMap_singleton]
      refine ⟨timedFrom_append htimed (by rwa [hfree]), ?_⟩
      rw [freeAfter_append, hfree, hend]

/-- Single operations one behind the other. -/
theorem timedFrom_map (p : Nat) (tf tb : ℚ) (T : Nat → PipelineOp → ℚ) (i : Nat)
    (f : Nat → PipelineOp) (e : Nat → ℚ) (n : Nat)
    (h : ∀ k < n, T i (f k) = latest T (e k) (deps p i (f k)) + (f k).duration tf tb ∧
      T i (f k) = e (k + 1)) :
    TimedFrom p tf tb T i (e 0) ((List.range n).map f) ∧
      freeAfter T i (e 0) ((List.range n).map f) = e n := by
  rw [List.map_eq_flatMap]
  exact timedFrom_blocks p tf tb T i (fun k => [f k]) e n
    fun k hk => ⟨⟨(h k hk).1, trivial⟩, (h k hk).2⟩

/-! ## GPipe -/

def gpipeTime (p m : Nat) (tf tb : ℚ) (i : Nat) (op : PipelineOp) : ℚ :=
  if op.isForward then val tf tb (i + op.microbatch + 1) 0
  else val tf tb (m + p - 1) (p - i + op.microbatch)

theorem val_zero (tf tb : ℚ) : val tf tb 0 0 = 0 := by simp [val]

section

variable (hf : 0 < tf) (hb : 0 < tb)

include hf hb

theorem gpipe_stage (hi : i < p) (hm : 0 < m) :
    let ops := (List.range m).map forwardOp ++ (List.range m).map backwardOp
    TimedFrom p tf tb (gpipeTime p m tf tb) i 0 ops ∧
      freeAfter (gpipeTime p m tf tb) i 0 ops = val tf tb (m + p - 1) (p - i + m - 1) := by
  intro ops
  obtain ⟨hforwards, hfree⟩ := timedFrom_map p tf tb (gpipeTime p m tf tb) i forwardOp
    (fun k => val tf tb (if k = 0 then 0 else i + k) 0) m fun k _ => by
      refine ⟨forward_eq (a := i + k) (b := 0) hf hb rfl ?_ (le_refl 0) ?_ ?_, ?_⟩
      · split <;> omega
      · intro hzero
        split <;> omega
      · intro hpos
        refine ⟨i + k, 0, ?_, le_refl _, le_refl _, .inr ⟨rfl, rfl⟩⟩
        show val tf tb (i - 1 + k + 1) 0 = _
        rw [show i - 1 + k + 1 = i + k by omega]
      · rw [if_neg (Nat.succ_ne_zero k)]
        rfl
  obtain ⟨hbackwards, hend⟩ := timedFrom_map p tf tb (gpipeTime p m tf tb) i backwardOp
    (fun k => val tf tb (if k = 0 then i + m else m + p - 1) (if k = 0 then 0 else p - i + k - 1))
    m fun k hk => by
      have hown : gpipeTime p m tf tb i (backwardOp k) =
          val tf tb (m + p - 1) (p - i - 1 + k + 1) := by
        show val tf tb (m + p - 1) (p - i + k) = _
        rw [show p - i - 1 + k + 1 = p - i + k by omega]
      refine ⟨backward_eq hf hb hown ?_ ?_ ⟨i + k + 1, 0, rfl, by omega, by omega⟩ ?_ ?_, ?_⟩
      · split <;> omega
      · split <;> omega
      · intro _
        show val tf tb (m + p - 1) (p - (i + 1) + k) = _
        rw [show p - (i + 1) + k = p - i - 1 + k by omega]
      · intro hlast
        split <;> omega
      · rw [hown, if_neg (Nat.succ_ne_zero k), if_neg (Nat.succ_ne_zero k)]
        congr 1
        omega
  simp only [if_true, val_zero, if_neg (Nat.ne_of_gt hm)] at hforwards hfree hbackwards hend
  refine ⟨timedFrom_append hforwards (by rwa [hfree]), ?_⟩
  rw [freeAfter_append, hfree, hend]

end

/-! ## 1F1B -/

def oneFOneBTime (p : Nat) (tf tb : ℚ) (i : Nat) (op : PipelineOp) : ℚ :=
  let j := op.microbatch
  if op.isForward then val tf tb (i + j + 1) (if p ≤ i + j then j else 0)
  else val tf tb (p + j) (p - i + j)

theorem oneFOneBTime_backward (p : Nat) (tf tb : ℚ) (i j : Nat) :
    oneFOneBTime p tf tb i (backwardOp j) = val tf tb (p + j) (p - i + j) := rfl

theorem oneFOneBTime_forward (p : Nat) (tf tb : ℚ) (i j : Nat) :
    oneFOneBTime p tf tb i (forwardOp j) =
      val tf tb (i + j + 1) (if p ≤ i + j then j else 0) := rfl

section

variable (hf : 0 < tf) (hb : 0 < tb)

include hf hb

/-- Before the stage has a backward pass to run, its forward passes follow those of the stage
before. -/
theorem oneFOneB_warmup (hi : i < p) (w : Nat) (hw : w ≤ p - i - 1) :
    TimedFrom p tf tb (oneFOneBTime p tf tb) i 0 ((List.range w).map forwardOp) ∧
      freeAfter (oneFOneBTime p tf tb) i 0 ((List.range w).map forwardOp) =
        val tf tb (if w = 0 then 0 else i + w) 0 := by
  have h := timedFrom_map p tf tb (oneFOneBTime p tf tb) i
    forwardOp (fun k => val tf tb (if k = 0 then 0 else i + k) 0) w fun k hk => by
      have hown : oneFOneBTime p tf tb i (forwardOp k) = val tf tb (i + k + 1) 0 := by
        rw [oneFOneBTime_forward, if_neg (by omega)]
      refine ⟨forward_eq hf hb hown ?_ (le_refl 0) ?_ ?_, ?_⟩
      · split <;> omega
      · intro hzero
        split <;> omega
      · intro hpos
        refine ⟨i + k, 0, ?_, le_refl _, le_refl _, .inr ⟨rfl, rfl⟩⟩
        rw [oneFOneBTime_forward, if_neg (by omega), show i - 1 + k + 1 = i + k by omega]
      · rw [hown, if_neg (Nat.succ_ne_zero k)]
        rfl
  simpa only [if_true, val_zero] using h

/-- In the steady state the stage is never idle: it starts where the warmup ends. -/
theorem oneFOneB_steady (hi : i < p) (n : Nat) :
    let w := p - i - 1
    let steady := (List.range n).flatMap fun k => [forwardOp (w + k), backwardOp k]
    let start := val tf tb (if w = 0 then 0 else i + w) 0
    TimedFrom p tf tb (oneFOneBTime p tf tb) i start steady ∧
      freeAfter (oneFOneBTime p tf tb) i start steady =
        val tf tb (if n = 0 then if w = 0 then 0 else i + w else p + n - 1)
          (if n = 0 then 0 else p - i + n - 1) := by
  intro w steady start
  refine timedFrom_blocks p tf tb (oneFOneBTime p tf tb) i
    (fun k => [forwardOp (w + k), backwardOp k])
    (fun k => val tf tb (if k = 0 then if w = 0 then 0 else i + w else p + k - 1)
      (if k = 0 then 0 else p - i + k - 1)) n fun k _ => ?_
  have hforward : oneFOneBTime p tf tb i (forwardOp (w + k)) =
      val tf tb (p + k - 1 + 1) (if k = 0 then 0 else p - i + k - 1) := by
    rw [oneFOneBTime_forward]
    congr 1
    · omega
    · split <;> split <;> omega
  have hbackward : oneFOneBTime p tf tb i (backwardOp k) =
      val tf tb (p + k) (p - i - 1 + k + 1) := by
    rw [oneFOneBTime_backward]
    congr 1
    omega
  refine ⟨⟨forward_eq hf hb hforward ?_ (le_refl _) ?_ ?_, ?_, trivial⟩, ?_⟩
  · split
    · split <;> omega
    · exact le_refl _
  · intro hzero
    refine ⟨?_, rfl⟩
    split
    · split <;> omega
    · rfl
  · intro hpos
    refine ⟨p + k - 1, if p ≤ i - 1 + (w + k) then w + k else 0, ?_, le_refl _, ?_, ?_⟩
    · rw [oneFOneBTime_forward, show i - 1 + (w + k) + 1 = p + k - 1 by omega]
    · split <;> split <;> omega
    · by_cases hk : k = 0
      · exact .inr ⟨rfl, by rw [if_pos hk, if_neg (by omega)]⟩
      · exact .inl ⟨by rw [if_neg hk], rfl⟩
  · rw [hforward, show p + k - 1 + 1 = p + k by omega]
    refine backward_eq hf hb hbackward (le_refl _) ?_ ?_ ?_ ?_
    · split <;> omega
    · refine ⟨_, _, oneFOneBTime_forward p tf tb i k, by omega, ?_⟩
      split <;> omega
    · intro _
      rw [oneFOneBTime_backward, show p - (i + 1) + k = p - i - 1 + k by omega]
    · intro hlast
      refine ⟨rfl, ?_⟩
      split <;> omega
  · show oneFOneBTime p tf tb i (backwardOp k) = _
    rw [hbackward, if_neg (Nat.succ_ne_zero k), if_neg (Nat.succ_ne_zero k)]
    congr 1
    omega

/-- In the drain the backward passes follow those of the stage behind. -/
theorem oneFOneB_drain (w : Nat) (hw : w ≤ p - i - 1) (n : Nat) (hc : c ≤ p + n)
    (hd : d ≤ p - i - 1 + n) :
    let drain := (List.range w).map fun k => backwardOp (n + k)
    TimedFrom p tf tb (oneFOneBTime p tf tb) i (val tf tb c d) drain ∧
      freeAfter (oneFOneBTime p tf tb) i (val tf tb c d) drain =
        val tf tb (if w = 0 then c else p + n + w - 1)
          (if w = 0 then d else p - i + n + w - 1) := by
  refine timedFrom_map p tf tb (oneFOneBTime p tf tb) i
    (fun k => backwardOp (n + k))
    (fun k => val tf tb (if k = 0 then c else p + n + k - 1)
      (if k = 0 then d else p - i + n + k - 1)) w fun k hk => ?_
  have hown : oneFOneBTime p tf tb i (backwardOp (n + k)) =
      val tf tb (p + n + k) (p - i - 1 + n + k + 1) := by
    rw [oneFOneBTime_backward]
    congr 1 <;> omega
  refine ⟨backward_eq hf hb hown ?_ ?_ ?_ ?_ ?_, ?_⟩
  · split <;> omega
  · split <;> omega
  · refine ⟨_, _, oneFOneBTime_forward p tf tb i (n + k), by omega, ?_⟩
    split <;> omega
  · intro _
    rw [oneFOneBTime_backward]
    congr 1 <;> omega
  · intro hlast
    omega
  · rw [hown, if_neg (Nat.succ_ne_zero k), if_neg (Nat.succ_ne_zero k)]
    congr 1
    omega

theorem oneFOneB_stage (hi : i < p) (hm : 0 < m) :
    TimedFrom p tf tb (oneFOneBTime p tf tb) i 0 (oneFOneBOps p m i) ∧
      freeAfter (oneFOneBTime p tf tb) i 0 (oneFOneBOps p m i) =
        val tf tb (m + p - 1) (p - i + m - 1) := by
  have hwarmup := oneFOneB_warmup hf hb hi (numWarmup p m i) (by rw [numWarmup]; omega)
  have hsplit : oneFOneBOps p m i = (List.range (numWarmup p m i)).map forwardOp ++
      ((List.range (m - numWarmup p m i)).flatMap
          (fun k => [forwardOp (numWarmup p m i + k), backwardOp k]) ++
        (List.range (numWarmup p m i)).map fun k =>
          backwardOp (m - numWarmup p m i + k)) := by
    simp only [oneFOneBOps, List.append_assoc]
  rw [hsplit]
  by_cases hfew : m ≤ p - i - 1
  · -- all forward passes are warmup
    have hw : numWarmup p m i = m := by
      rw [numWarmup]
      omega
    rw [hw] at hwarmup ⊢
    rw [Nat.sub_self]
    have hdrain := oneFOneB_drain (c := i + m) (d := 0) hf hb m hfew 0 (by omega) (by omega)
    rw [if_neg (Nat.ne_of_gt hm)] at hwarmup
    simp only [if_neg (Nat.ne_of_gt hm)] at hdrain
    refine ⟨timedFrom_append hwarmup.1 (by rw [hwarmup.2]; exact hdrain.1), ?_⟩
    rw [freeAfter_append, hwarmup.2]
    refine hdrain.2.trans ?_
    congr 1
    omega
  · have hw : numWarmup p m i = p - i - 1 := by
      rw [numWarmup]
      omega
    rw [hw] at hwarmup ⊢
    have hsteady := oneFOneB_steady hf hb hi (m - (p - i - 1))
    have hdrain := oneFOneB_drain (c := p + (m - (p - i - 1)) - 1)
      (d := p - i + (m - (p - i - 1)) - 1) hf hb (p - i - 1) (le_refl _) (m - (p - i - 1))
      (by omega) (by omega)
    simp only [if_neg (show ¬ m - (p - i - 1) = 0 by omega)] at hsteady
    refine ⟨timedFrom_append hwarmup.1 ?_, ?_⟩
    · rw [hwarmup.2]
      exact timedFrom_append hsteady.1 (by rw [hsteady.2]; exact hdrain.1)
    · rw [freeAfter_append, hwarmup.2, freeAfter_append, hsteady.2]
      refine hdrain.2.trans ?_
      congr 1 <;> split <;> omega

end

end

/-! ## Both schedules -/

/-- Every stage runs the forward and the backward pass of each microbatch once. -/
structure Covers (schedule : Schedule) (p m : Nat) : Prop where
  length : schedule.length = p
  ops : ∀ i < p, (schedule.ops i).Perm
    ((List.range m).map forwardOp ++ (List.range m).map backwardOp)

theorem ops_map_range {p i : Nat} (f : Nat → List PipelineOp) (hi : i < p) :
    Schedule.ops ((List.range p).map f) i = f i := by
  simp [Schedule.ops, hi]

theorem covers_gpipe (p m : Nat) : Covers (gpipeSchedule p m) p m where
  length := by rw [gpipeSchedule, List.length_map, List.length_range]
  ops i hi := by
    rw [gpipeSchedule, ops_map_range _ hi]

theorem covers_oneFOneB (p m : Nat) : Covers (oneFOneBSchedule p m) p m where
  length := by rw [oneFOneBSchedule, List.length_map, List.length_range]
  ops i hi := by
    rw [oneFOneBSchedule, ops_map_range _ hi, oneFOneBOps]
    obtain ⟨n, hn⟩ : ∃ n, m = numWarmup p m i + n :=
      Nat.exists_eq_add_of_le (by rw [numWarmup]; exact Nat.min_le_left _ _)
    generalize numWarmup p m i = w at hn ⊢
    subst hn
    rw [Nat.add_sub_cancel_left]
    -- the steady state is its forward passes and its backward passes
    have hsteady : ((List.range n).flatMap fun k => [forwardOp (w + k), backwardOp k]).Perm
        ((List.range n).map (fun k => forwardOp (w + k)) ++ (List.range n).map backwardOp) := by
      have h := List.flatMap_append_perm (List.range n) (fun k => [forwardOp (w + k)])
        fun k => [backwardOp k]
      rw [← List.map_eq_flatMap, ← List.map_eq_flatMap] at h
      exact h.symm
    have hforwards : (List.range (w + n)).map forwardOp =
        (List.range w).map forwardOp ++ (List.range n).map fun k => forwardOp (w + k) := by
      rw [List.range_add, List.map_append, List.map_map]
      rfl
    have hbackwards : (List.range (w + n)).map backwardOp =
        (List.range n).map backwardOp ++ (List.range w).map fun k => backwardOp (n + k) := by
      rw [Nat.add_comm w n, List.range_add, List.map_append, List.map_map]
      rfl
    rw [hforwards, hbackwards]
    simp only [List.append_assoc]
    refine List.Perm.append_left _ ?_
    rw [← List.append_assoc]
    exact hsteady.append_right _

section

variable {p m i : Nat} {tf tb : ℚ} {schedule : Schedule} {op : PipelineOp}

theorem Covers.mem_iff (h : Covers schedule p m) (hi : i < p) :
    op ∈ schedule.ops i ↔ op.microbatch < m := by
  rw [(h.ops i hi).mem_iff]
  obtain ⟨j, forward⟩ := op
  cases forward <;> simp [forwardOp, backwardOp]

theorem Covers.length_ops (h : Covers schedule p m) (hi : i < p) :
    (schedule.ops i).length = 2 * m := by
  rw [(h.ops i hi).length_eq]
  simp
  omega

theorem Covers.busy (h : Covers schedule p m) (hi : i < p) :
    ((schedule.ops i).map (PipelineOp.duration tf tb)).sum = m * (tf + tb) := by
  rw [((h.ops i hi).map _).sum_eq]
  simp only [List.map_append, List.map_map, List.sum_append]
  have hconst (f : Nat → PipelineOp) (t : ℚ) (hf : ∀ k, (f k).duration tf tb = t) :
      ((List.range m).map (PipelineOp.duration tf tb ∘ f)).sum = m * t := by
    have hmap : (List.range m).map (PipelineOp.duration tf tb ∘ f) = List.replicate m t :=
      List.eq_replicate_iff.mpr ⟨by simp, by simp [hf]⟩
    rw [hmap, List.sum_replicate, nsmul_eq_mul]
  rw [hconst forwardOp tf fun _ => rfl, hconst backwardOp tb fun _ => rfl]
  ring

/-- The largest of some values, when one of them is `top` and none is above. -/
theorem foldl_max_eq {α β : Type*} [LinearOrder β] (f : α → β) (l : List α) {b top : β}
    (hb : b ≤ top) (hle : ∀ x ∈ l, f x ≤ top) (hex : b = top ∨ ∃ x ∈ l, f x = top) :
    l.foldl (fun t x => max t (f x)) b = top := by
  induction l generalizing b with
  | nil => simpa using hex
  | cons x l ih =>
      have hx := hle x List.mem_cons_self
      refine ih (max_le hb hx) (fun y hy => hle y (List.mem_cons_of_mem _ hy)) ?_
      rcases hex with rfl | ⟨y, hy, htop⟩
      · exact .inl (max_eq_left hx)
      · rcases List.mem_cons.mp hy with rfl | hy
        · refine .inl ?_
          show max b (f y) = top
          rw [htop]
          exact max_eq_right hb
        · exact .inr ⟨y, hy, htop⟩

theorem foldl_add_const {α : Type*} (f : α → ℚ) (l : List α) {b c : ℚ} (h : ∀ x ∈ l, f x = c) :
    l.foldl (fun t x => t + f x) b = b + l.length * c := by
  induction l generalizing b with
  | nil => simp
  | cons x l ih =>
      rw [List.foldl_cons, ih fun y hy => h y (List.mem_cons_of_mem _ hy), h x List.mem_cons_self,
        List.length_cons]
      push_cast
      ring

theorem numMicrobatches_eq_flatten (schedule : Schedule) :
    numMicrobatches schedule =
      schedule.flatten.foldl (fun m op => max m (op.microbatch + 1)) 0 := by
  rw [numMicrobatches, List.foldl_flatten]

theorem Covers.numMicrobatches (h : Covers schedule p m) (hp : 0 < p) (hm : 0 < m) :
    Training.numMicrobatches schedule = m := by
  rw [numMicrobatches_eq_flatten]
  have hget (i : Nat) (hi : i < schedule.length) : schedule[i] = schedule.ops i := by
    simp [Schedule.ops, hi]
  refine foldl_max_eq (fun op : PipelineOp => op.microbatch + 1) _ (Nat.zero_le m)
    (fun op hop => ?_) (.inr ⟨forwardOp (m - 1), ?_, Nat.sub_add_cancel hm⟩)
  · obtain ⟨ops, hops, hop⟩ := List.mem_flatten.mp hop
    obtain ⟨i, hi, rfl⟩ := List.getElem_of_mem hops
    rw [hget i hi] at hop
    exact (h.mem_iff (h.length ▸ hi)).mp hop
  · have hlen : 0 < schedule.length := h.length ▸ hp
    refine List.mem_flatten.mpr ⟨schedule[0], List.getElem_mem hlen, ?_⟩
    rw [hget 0 hlen]
    exact (h.mem_iff hp).mpr (Nat.sub_lt hm Nat.one_pos)

theorem Covers.closed (h : Covers schedule p m) (hi : i < p) (hop : op ∈ schedule.ops i)
    {d : Nat × PipelineOp} (hd : d ∈ deps p i op) : d.1 < p ∧ d.2 ∈ schedule.ops d.1 := by
  have hj := (h.mem_iff hi).mp hop
  have hstage : d.1 < p ∧ d.2.microbatch = op.microbatch := by
    rw [deps] at hd
    split at hd
    · split at hd
      · rw [List.mem_singleton.mp hd]
        exact ⟨by omega, rfl⟩
      · cases hd
    · rcases List.mem_cons.mp hd with rfl | hd
      · exact ⟨hi, rfl⟩
      · split at hd
        · rw [List.mem_singleton.mp hd]
          exact ⟨by omega, rfl⟩
        · cases hd
  exact ⟨hstage.1, (h.mem_iff hstage.1).mpr (by omega)⟩

/-- A schedule with a timetable by which stage `i` is free after `m + p - 1` forward and
`p - i + m - 1` backward times. -/
structure Planned (schedule : Schedule) (p m : Nat) (tf tb : ℚ) (T : Nat → PipelineOp → ℚ) :
    Prop where
  covers : Covers schedule p m
  timed : ∀ i < p, TimedFrom p tf tb T i 0 (schedule.ops i) ∧
    freeAfter T i 0 (schedule.ops i) = val tf tb (m + p - 1) (p - i + m - 1)

theorem Planned.timetable {T : Nat → PipelineOp → ℚ} (h : Planned schedule p m tf tb T) :
    Timetable tf tb T schedule where
  timed i hi := by
    rw [h.covers.length] at hi ⊢
    exact (h.timed i hi).1
  closed i hi op hop d hd := by
    rw [h.covers.length] at hi hd ⊢
    exact h.covers.closed hi hop hd

/-- What a simulation records that has run everything is the timetable. -/
theorem Planned.doneAt {T : Nat → PipelineOp → ℚ} (h : Planned schedule p m tf tb T) {s : Sim}
    (hinv : Inv schedule tf tb T s) (hran : ∀ i < p, s.ran schedule i = schedule.ops i)
    (hi : i < p) (hop : op ∈ schedule.ops i) : s.doneAt i op = T i op :=
  hinv.ran i (h.covers.length ▸ hi) op (by rwa [hran i hi])

/-- So an operation has started when its dependencies were done. -/
theorem Planned.respects {T : Nat → PipelineOp → ℚ} (h : Planned schedule p m tf tb T) {s : Sim}
    (hinv : Inv schedule tf tb T s) (hran : ∀ i < p, s.ran schedule i = schedule.ops i)
    (hi : i < p) (hop : op ∈ schedule.ops i) {d : Nat × PipelineOp} (hd : d ∈ deps p i op) :
    s.doneAt d.1 d.2 + op.duration tf tb ≤ s.doneAt i op := by
  obtain ⟨hd1, hd2⟩ := h.covers.closed hi hop hd
  rw [h.doneAt hinv hran hi hop, h.doneAt hinv hran hd1 hd2]
  exact (h.timed i hi).1.dep_lt hop hd

section

variable (hf : 0 < tf) (hb : 0 < tb) (hm : 0 < m)

include hf hb hm

theorem planned_gpipe : Planned (gpipeSchedule p m) p m tf tb (gpipeTime p m tf tb) where
  covers := covers_gpipe p m
  timed i hi := by
    rw [gpipeSchedule, ops_map_range _ hi]
    exact gpipe_stage hf hb hi hm

theorem planned_oneFOneB : Planned (oneFOneBSchedule p m) p m tf tb (oneFOneBTime p tf tb) where
  covers := covers_oneFOneB p m
  timed i hi := by
    rw [oneFOneBSchedule, ops_map_range _ hi]
    exact oneFOneB_stage hf hb hi hm

variable {T : Nat → PipelineOp → ℚ} (hp : 0 < p)

include hp

/-- The cap is at twice the number of operations, and every sweep but the last runs one. -/
theorem Planned.simulateStages (hcap : p * m * 4 + 10 < 2 ^ 31)
    (h : Planned schedule p m tf tb T) :
    ∃ s, simulateStages schedule tf tb = (s, false) ∧ Inv schedule tf tb T s ∧
      ∀ i < p, s.ran schedule i = schedule.ops i ∧ s.ptr i = (schedule.ops i).length := by
  have htotal : schedule.total = p * (2 * m) := by
    rw [Schedule.total, h.covers.length,
      Finset.sum_congr rfl fun i hi => h.covers.length_ops (Finset.mem_range.mp hi)]
    simp
  obtain ⟨s, hloop, hinv, htodo⟩ := (inv_init (T := T)).simulateLoop hf hb h.timetable
    (safetyCap schedule.length (numMicrobatches schedule)).toNat (by
      rw [htotal, h.covers.length, h.covers.numMicrobatches hp hm, safetyCap_of_fits hcap,
        Int.toNat_natCast]
      have htwice : p * (2 * m) = p * m * 2 := by ring
      omega)
  refine ⟨s, hloop, hinv, fun i hi => ?_⟩
  rw [← h.covers.length] at hi
  have hle := hinv.ptr_le i hi
  have hge : (schedule.ops i).length ≤ s.ptr i := List.drop_eq_nil_iff.mp (htodo i hi)
  exact ⟨List.take_of_length_le hge, le_antisymm hle hge⟩

theorem Planned.makespan (hcap : p * m * 4 + 10 < 2 ^ 31) (h : Planned schedule p m tf tb T) :
    (simulate schedule tf tb).makespan = (m + p - 1) * (tf + tb) := by
  obtain ⟨s, hloop, hinv, hran⟩ := h.simulateStages hf hb hm hp hcap
  have hfree (i : Nat) (hi : i < p) :
      s.stageFreeAt i = val tf tb (m + p - 1) (p - i + m - 1) := by
    rw [hinv.free i (h.covers.length ▸ hi), (hran i hi).1]
    exact (h.timed i hi).2
  have htop : val tf tb (m + p - 1) (m + p - 1) = (m + p - 1) * (tf + tb) := by
    rw [val, Nat.cast_sub (by omega)]
    push_cast
    ring
  rw [← htop, simulate, hloop, h.covers.length]
  refine foldl_max_eq s.stageFreeAt _ ?_ (fun i hi => ?_) (.inr ⟨0, List.mem_range.mpr hp, ?_⟩)
  · rw [← val_zero tf tb]
    exact val_le hf hb (Nat.zero_le _) (Nat.zero_le _)
  · rw [hfree i (List.mem_range.mp hi)]
    exact val_le hf hb (le_refl _) (by omega)
  · rw [hfree 0 hp]
    exact congrArg (val tf tb (m + p - 1)) (by omega)

/-- Every stage is busy for `m` forward and `m` backward times. -/
theorem Planned.bubbleFraction (hcap : p * m * 4 + 10 < 2 ^ 31) (h : Planned schedule p m tf tb T) :
    (simulate schedule tf tb).bubbleFraction = (p - 1) / (m + p - 1) := by
  obtain ⟨s, hloop, hinv, hran⟩ := h.simulateStages hf hb hm hp hcap
  have hbusy : (List.range p).foldl (fun b i => b + s.busyTime i) 0 = p * (m * (tf + tb)) := by
    rw [foldl_add_const s.busyTime (List.range p) (c := m * (tf + tb)) fun i hi => ?_]
    · rw [List.length_range, zero_add]
    · have hi := List.mem_range.mp hi
      rw [hinv.busy i (h.covers.length ▸ hi), (hran i hi).1, h.covers.busy hi]
  have hbubble : (simulate schedule tf tb).bubbleFraction =
      1 - p * (m * (tf + tb)) / (p * (simulate schedule tf tb).makespan) := by
    rw [← hbusy]
    simp only [simulate, hloop, h.covers.length]
  have hp' : (p : ℚ) ≠ 0 := Nat.cast_ne_zero.mpr (by omega)
  have hsum : tf + tb ≠ 0 := by linarith
  have hstages : (m : ℚ) + p - 1 ≠ 0 := by
    have hm' : (1 : ℚ) ≤ m := by exact_mod_cast hm
    have hp'' : (1 : ℚ) ≤ p := by exact_mod_cast hp
    linarith
  rw [hbubble, h.makespan hf hb hm hp hcap]
  field_simp
  ring

end

end

/-- As long as the cap is an `int`, both schedules are simulated to their end, in the order of the
data, and take the same time. -/
theorem pipeline_schedules (p m : Nat) (tf tb : ℚ) (hp : 1 ≤ p) (hm : 1 ≤ m) (hf : 0 < tf)
    (hb : 0 < tb) (hcap : p * m * 4 + 10 < 2 ^ 31) (schedule : Schedule)
    (hschedule : schedule = gpipeSchedule p m ∨ schedule = oneFOneBSchedule p m) :
    ∃ s, simulateStages schedule tf tb = (s, false) ∧
      (∀ i < p, s.ptr i = (schedule.ops i).length) ∧
      (∀ i < p, ∀ j < m, s.forwardDone i j ≠ kUnset ∧ s.backwardDone i j ≠ kUnset) ∧
      (∀ i < p, ∀ j < m,
        (0 < i → s.forwardDone (i - 1) j + tf ≤ s.forwardDone i j) ∧
        s.forwardDone i j + tb ≤ s.backwardDone i j ∧
        (i + 1 < p → s.backwardDone (i + 1) j + tb ≤ s.backwardDone i j)) ∧
      (∀ i < p, (schedule.ops i).Pairwise fun op op' =>
        s.doneAt i op + op'.duration tf tb ≤ s.doneAt i op') ∧
      (simulate schedule tf tb).makespan = (m + p - 1) * (tf + tb) ∧
      (simulate schedule tf tb).bubbleFraction = (p - 1) / (m + p - 1) := by
  obtain ⟨T, h⟩ : ∃ T, Planned schedule p m tf tb T := by
    rcases hschedule with rfl | rfl
    · exact ⟨_, planned_gpipe hf hb hm⟩
    · exact ⟨_, planned_oneFOneB hf hb hm⟩
  obtain ⟨s, hloop, hinv, hall⟩ := h.simulateStages hf hb hm hp hcap
  have hran (i : Nat) (hi : i < p) := (hall i hi).1
  have hforward {i j : Nat} (hi : i < p) (hj : j < m) : forwardOp j ∈ schedule.ops i :=
    (h.covers.mem_iff hi).mpr hj
  have hbackward {i j : Nat} (hi : i < p) (hj : j < m) : backwardOp j ∈ schedule.ops i :=
    (h.covers.mem_iff hi).mpr hj
  have hset {i : Nat} {op : PipelineOp} (hi : i < p) (hop : op ∈ schedule.ops i) :
      s.doneAt i op ≠ kUnset := by
    rw [h.doneAt hinv hran hi hop]
    exact h.timetable.ne_unset hf hb (h.covers.length ▸ hi) hop
  refine ⟨s, hloop, fun i hi => (hall i hi).2, fun i hi j hj => ⟨?_, ?_⟩,
    fun i hi j hj => ⟨fun hpos => ?_, ?_, fun hlast => ?_⟩, fun i hi => ?_,
    h.makespan hf hb hm hp hcap, h.bubbleFraction hf hb hm hp hcap⟩
  · exact hset hi (hforward hi hj)
  · exact hset hi (hbackward hi hj)
  · exact h.respects hinv hran hi (hforward hi hj) (d := (i - 1, forwardOp j))
      (by simp [deps, forwardOp, hpos])
  · exact h.respects hinv hran hi (hbackward hi hj) (d := (i, forwardOp j))
      (by simp [deps, forwardOp, backwardOp])
  · exact h.respects hinv hran hi (hbackward hi hj) (d := (i + 1, backwardOp j))
      (by simp [deps, backwardOp, hlast])
  · refine List.Pairwise.imp_of_mem (fun {op op'} hop hop' hle => ?_)
      ((h.timed i hi).1.spaced hf hb).2
    rw [h.doneAt hinv hran hi hop, h.doneAt hinv hran hi hop']
    exact hle

/-- Three stages and two microbatches: all forward passes of the first stage are warmup. -/
theorem pipeline_schedules_short :
    ∃ s, simulateStages (oneFOneBSchedule 3 2) 1 2 = (s, false) ∧
      (simulate (oneFOneBSchedule 3 2) 1 2).makespan = 12 := by
  obtain ⟨s, hloop, -, -, -, -, hmakespan, -⟩ := pipeline_schedules 3 2 1 2 (by omega) (by omega)
    (by norm_num) (by norm_num) (by norm_num) (oneFOneBSchedule 3 2) (.inr rfl)
  refine ⟨s, hloop, ?_⟩
  rw [hmakespan]
  norm_num

/-- A cap that is not positive lets no sweep run. -/
theorem Covers.simulateStages_capped {schedule : Schedule} {p m : Nat} {tf tb : ℚ}
    (h : Covers schedule p m) (hp : 0 < p) (hm : 0 < m) (hcap : (safetyCap p m).toNat = 0) :
    simulateStages schedule tf tb = (Sim.init, true) := by
  rw [simulateStages, h.length, h.numMicrobatches hp hm, hcap, simulateLoop]

/-- With 24000 stages and as many microbatches the cap is negative. -/
theorem pipeline_schedules_capped :
    ¬ ∃ s, simulateStages (gpipeSchedule 24000 24000) 1 1 = (s, false) := by
  rw [(covers_gpipe 24000 24000).simulateStages_capped (by omega) (by omega) (by decide)]
  simp

end CrossMachine.Training
