import CrossMachine.DataLoading.Loader

/-!
# The data loader is destroyed

`~DataLoader` joins the workers one after another and does nothing else: it does not close the
queue, and a worker in `push` would not look. Nobody pops any more, so a worker that finds the
queue full waits for ever, and the destructor waits for it.

How many samples are left when the consumer stops decides it. What fits into the queue does no
harm, and if more is left the workers can always fill the queue and one of them stands in front
of it (`blocks_iff`).
-/

namespace CrossMachine.DataLoading

open Lib

/-- A loader, and which worker its destructor has come to. -/
structure Life (n : Nat) where
  loader : Loader n
  joining : Option Nat

def Life.init (n : Nat) : Life n := ⟨Loader.init n, none⟩

inductive LifeAct (n : Nat) where
  | run (a : Act n)
  /-- The owner calls the destructor. -/
  | destroy
  /-- `t.join()` returns. -/
  | join
  deriving DecidableEq, Repr

section

variable {n : Nat}

/-- The thread has returned. One that was never created is not in `workers_`. -/
def WorkerPc.joinable : WorkerPc → Bool
  | .unborn | .finished => false
  | _ => true

/-- The owner is between two calls. -/
def ConsumerPc.idle : ConsumerPc → Bool
  | .starting _ => false
  | _ => true

/-- Workers go on while the destructor waits; the owner's calls are over. -/
def Act.goesOn : Act n → Option Nat → Bool
  | .worker _, _ => true
  | _, joining => joining.isNone

def lifeStep (c : Config) (s : Life n) : LifeAct n → Option (Life n × List (Option Sample))
  | .run a =>
      if a.goesOn s.joining then
        (step c s.loader a).map fun (l, ev) => ({ s with loader := l }, ev)
      else none
  | .destroy =>
      if s.joining = none ∧ s.loader.consumer.idle then some ({ s with joining := some 0 }, [])
      else none
  | .join =>
      match s.joining with
      | none => none
      | some w =>
          if h : w < n then
            if (s.loader.worker ⟨w, h⟩).joinable then none
            else some ({ s with joining := some (w + 1) }, [])
          else none

/-- The destructor waits for a worker that cannot take a step. -/
def Stuck (c : Config) (s : Life n) : Prop :=
  ∃ i : Fin n, s.joining = some i.val ∧ (s.loader.worker i).joinable ∧
    workerGo c s.loader i = none

variable {c : Config} {es ev : List (Option Sample)} {s s' : Life n} {l l' : Loader n}
  {i : Fin n}

/-! ## The worker that is waited for -/

/-- A worker that cannot take a step is in front of a full queue. -/
theorem workerGo_none (h : workerGo c l i = none) (hjoinable : (l.worker i).joinable) :
    ∃ x r, l.worker i = .pushing x r ∧ c.capacity ≤ l.queue.length := by
  unfold workerGo at h
  cases hpc : l.worker i with
  | unborn => simp [hpc, WorkerPc.joinable] at hjoinable
  | finished => simp [hpc, WorkerPc.joinable] at hjoinable
  | fetch => simp [hpc] at h
  | reading r =>
      simp only [hpc] at h
      split at h <;> cases h
  | pushing x r =>
      simp only [hpc] at h
      split at h
      · cases h
      next hfull => exact ⟨x, r, rfl, Nat.le_of_not_lt hfull⟩
  | leaving => simp [hpc] at h
  | closing => simp [hpc] at h

/-- What a worker's step leaves alone. -/
theorem workerGo_frame (h : workerGo c l i = some l') :
    l'.consumer = l.consumer ∧ l.queue.length ≤ l'.queue.length ∧
      (l.queue.length ≤ c.capacity → l'.queue.length ≤ c.capacity) ∧
      ∀ j, j ≠ i → l'.worker j = l.worker j := by
  have hother (pc : WorkerPc) (j : Fin n) (hj : j ≠ i) :
      (l.goto i pc).worker j = l.worker j := by
    rw [worker_goto, if_neg hj]
  unfold workerGo at h
  cases hpc : l.worker i with
  | unborn => simp [hpc] at h
  | finished => simp [hpc] at h
  | fetch =>
      simp only [hpc, Option.some.injEq] at h
      subst h
      exact ⟨rfl, le_rfl, id, hother _⟩
  | reading r =>
      simp only [hpc] at h
      split at h
      · cases h
        exact ⟨rfl, le_rfl, id, hother _⟩
      · cases h
        exact ⟨rfl, le_rfl, id, hother _⟩
  | pushing x r =>
      simp only [hpc] at h
      split at h
      next hroom =>
        cases h
        have hlen : (l.queue ++ [x]).length = l.queue.length + 1 := List.length_append
        exact ⟨rfl, by rw [hlen]; omega, fun _ => by rw [hlen]; omega, hother _⟩
      · cases h
  | leaving =>
      simp only [hpc, Option.some.injEq] at h
      subst h
      exact ⟨rfl, le_rfl, id, hother _⟩
  | closing =>
      simp only [hpc, Option.some.injEq] at h
      subst h
      exact ⟨rfl, le_rfl, id, hother _⟩

/-- Nothing that can still happen lets the worker go on. -/
theorem Stuck.step {a : LifeAct n} (h : Stuck c s) (hs : lifeStep c s a = some (s', ev)) :
    Stuck c s' := by
  obtain ⟨i, hjoin, hjoinable, hnone⟩ := h
  cases a with
  | destroy =>
      rw [lifeStep, hjoin] at hs
      simp at hs
  | join =>
      -- the destructor waits for this very worker
      simp [lifeStep, hjoin, hjoinable] at hs
  | run a =>
      rw [lifeStep] at hs
      split at hs
      next hgoes =>
        obtain ⟨⟨l', ev'⟩, hstep, heq⟩ := Option.map_eq_some_iff.mp hs
        cases heq
        cases a with
        | start => simp [Act.goesOn, hjoin] at hgoes
        | next => simp [Act.goesOn, hjoin] at hgoes
        | worker j =>
            obtain ⟨l₁, hgo, heq⟩ := Option.map_eq_some_iff.mp hstep
            cases heq
            have hne : i ≠ j := fun heq => by
              rw [heq, hgo] at hnone
              cases hnone
            obtain ⟨-, hqueue, -, hframe⟩ := workerGo_frame hgo
            obtain ⟨x, r, hpc, hfull⟩ := workerGo_none hnone hjoinable
            have hsame := hframe i hne
            refine ⟨i, hjoin, by rw [hsame]; exact hjoinable, ?_⟩
            unfold workerGo
            simp only [hsame, hpc]
            rw [if_neg (by omega)]
      · cases hs

/-- Stuck for good. -/
theorem Stuck.run (h : Stuck c s) (hrun : Run (lifeStep c) Any s es s') : Stuck c s' :=
  hrun.invariant (I := fun _ s => Stuck c s) h fun hstuck _ hs => hstuck.step hs

/-! ## What is left fits into the queue -/

/-- The invariant of the loader, for a loader that has workers. -/
structure LifeInv (c : Config) (es : List (Option Sample)) (s : Life n) : Prop where
  inv : Inv c es s.loader
  bound : s.loader.queue.length ≤ c.capacity

theorem step_bound {a : Act n} (hs : step c l a = some (l', ev))
    (hbound : l.queue.length ≤ c.capacity) : l'.queue.length ≤ c.capacity := by
  cases a with
  | worker i =>
      obtain ⟨l₁, hgo, heq⟩ := Option.map_eq_some_iff.mp hs
      cases heq
      exact (workerGo_frame hgo).2.2.1 hbound
  | start =>
      obtain ⟨l₁, hgo, heq⟩ := Option.map_eq_some_iff.mp hs
      cases heq
      unfold startGo at hgo
      split at hgo
      · split at hgo <;> cases hgo <;> exact hbound
      · split at hgo <;> cases hgo <;> exact hbound
      · cases hgo
  | next =>
      obtain ⟨⟨l₁, x⟩, hgo, heq⟩ := Option.map_eq_some_iff.mp hs
      cases heq
      unfold nextGo at hgo
      split at hgo
      next y queue hpc hqueue =>
        cases hgo
        rw [hqueue, List.length_cons] at hbound
        exact Nat.le_of_succ_le hbound
      · split at hgo
        · cases hgo
          exact hbound
        · cases hgo
      · cases hgo

theorem LifeInv.step {a : LifeAct n} (h : LifeInv c es s)
    (hs : lifeStep c s a = some (s', ev)) : LifeInv c (es ++ ev) s' := by
  cases a with
  | run a =>
      rw [lifeStep] at hs
      split at hs
      · obtain ⟨⟨l', ev'⟩, hstep, heq⟩ := Option.map_eq_some_iff.mp hs
        cases heq
        exact ⟨h.inv.step hstep, step_bound hstep h.bound⟩
      · cases hs
  | destroy =>
      rw [lifeStep] at hs
      split at hs
      · cases hs
        rw [List.append_nil]
        exact ⟨h.inv, h.bound⟩
      · cases hs
  | join =>
      simp only [lifeStep] at hs
      split at hs
      · cases hs
      · split at hs
        · split at hs
          · cases hs
          · cases hs
            rw [List.append_nil]
            exact ⟨h.inv, h.bound⟩
        · cases hs

theorem lifeInv_run (hn : 0 < n) (h : Run (lifeStep c) Any (Life.init n) es s) :
    LifeInv c es s :=
  h.invariant ⟨inv_init c hn, Nat.zero_le _⟩ fun hinv _ hs => hinv.step hs

/-- The samples that the workers have still to push. -/
def Loader.held (l : Loader n) : List Sample :=
  (List.finRange n).flatMap fun i => (l.worker i).held

/-- `Inv.count`, for the number of samples. -/
theorem Inv.length (h : Inv c es l) :
    (returned es).length + l.queue.length + l.held.length + (l.untaken c).length =
      c.samples.length := by
  have hperm : (returned es ++ l.queue ++ l.held ++ l.untaken c).Perm c.samples := by
    refine List.perm_iff_count.mpr fun x => ?_
    have hheld : l.held.count x = ∑ i, (l.worker i).held.count x := by
      rw [Loader.held, List.count_flatMap, Fin.sum_univ_def]
      rfl
    have hcount := h.count x
    rw [List.count_append, List.count_append, List.count_append, hheld]
    exact hcount
  have hlen := hperm.length_eq
  rw [List.length_append, List.length_append, List.length_append] at hlen
  exact hlen

/-- A worker in front of a full queue means that more is left than the queue can take. -/
theorem LifeInv.stuck_lt (h : LifeInv c es s) (hstuck : Stuck c s) :
    (returned es).length + c.capacity < c.samples.length := by
  obtain ⟨i, -, hjoinable, hnone⟩ := hstuck
  obtain ⟨x, r, hpc, hfull⟩ := workerGo_none hnone hjoinable
  have hpos : 0 < s.loader.held.length := by
    refine List.length_pos_of_mem (a := x) ?_
    refine List.mem_flatMap.mpr ⟨i, List.mem_finRange i, ?_⟩
    rw [hpc]
    exact List.mem_cons_self
  have hlen := h.inv.length
  omega

/-! ## More is left -/

theorem length_returned_step {a : Act n} (hs : step c l a = some (l', ev)) :
    (returned ev).length ≤ 1 := by
  cases a with
  | start =>
      obtain ⟨l₁, -, heq⟩ := Option.map_eq_some_iff.mp hs
      cases heq
      exact Nat.zero_le _
  | worker i =>
      obtain ⟨l₁, -, heq⟩ := Option.map_eq_some_iff.mp hs
      cases heq
      exact Nat.zero_le _
  | next =>
      obtain ⟨⟨l₁, x⟩, -, heq⟩ := Option.map_eq_some_iff.mp hs
      cases heq
      exact List.length_filterMap_le id [x]

/-- A consumer that has not taken all samples can take as many as it likes. -/
theorem Inv.takes (hn : 0 < n) (hcap : 0 < c.capacity) {k : Nat} (hk : k < c.samples.length)
    (h : Inv c es l) (hle : (returned es).length ≤ k) :
    ∃ es' l', Run (DataLoading.step c) Any l es' l' ∧ (returned (es ++ es')).length = k ∧
      l'.consumer = .running := by
  induction hwork : l.work c using Nat.strong_induction_on generalizing es l with
  | _ work ih =>
      subst hwork
      by_cases hdone : (returned es).length = k ∧ l.consumer = .running
      · exact ⟨[], l, .refl, by rw [List.append_nil]; exact hdone.1, hdone.2⟩
      · -- a step that returns nothing too much
        have hstep : ∃ a l' ev, DataLoading.step c l a = some (l', ev) ∧
            (returned (es ++ ev)).length ≤ k := by
          by_cases hpc : l.consumer = .running
          · obtain ⟨a, l', ev, hs⟩ := h.progress hcap
            have hone := length_returned_step hs
            have hless : (returned es).length ≠ k := fun heq => hdone ⟨heq, hpc⟩
            refine ⟨a, l', ev, hs, ?_⟩
            rw [returned_append, List.length_append]
            omega
          · have hgo : (DataLoading.startGo c l).isSome := by
              unfold DataLoading.startGo
              cases hc : l.consumer with
              | constructed => simp only; split <;> rfl
              | starting w => simp only; split <;> rfl
              | running => exact absurd hc hpc
            obtain ⟨l', hgo⟩ := Option.isSome_iff_exists.mp hgo
            exact ⟨.start, l', [], by rw [DataLoading.step, hgo]; rfl,
              by rwa [List.append_nil]⟩
        obtain ⟨a, l', ev, hs, hle'⟩ := hstep
        have hrun : Run (DataLoading.step c) Any l ev l' := .tail .refl trivial hs
        rcases h.work_step hs with hnone | hless
        · -- `nullopt` comes behind all samples
          cases a with
          | start =>
              obtain ⟨l₁, -, heq⟩ := Option.map_eq_some_iff.mp hs
              cases heq
              cases hnone
          | worker i =>
              obtain ⟨l₁, -, heq⟩ := Option.map_eq_some_iff.mp hs
              cases heq
              cases hnone
          | next =>
              obtain ⟨⟨l₁, x⟩, hgo, heq⟩ := Option.map_eq_some_iff.mp hs
              cases heq
              obtain rfl : x = none := (List.mem_singleton.mp hnone).symm
              obtain ⟨hclosed, hqueue⟩ := nextGo_none hgo
              have hall := (h.closed_perm hn hclosed hqueue).length_eq
              omega
        · obtain ⟨es', l'', hrest, hk', hpc⟩ := ih _ hless (h.step hs) hle' rfl
          exact ⟨ev ++ es', l'', hrun.trans hrest, by rwa [← List.append_assoc], hpc⟩

/-- What the loader does before it is destroyed. -/
theorem lift_run (h : Run (step c) Any l es l') :
    Run (lifeStep c) Any ⟨l, none⟩ es ⟨l', none⟩ := by
  induction h with
  | refl => exact .refl
  | @tail es ev l₁ l₂ a _ _ hs ih =>
      have hgoes : a.goesOn none = true := by cases a <;> rfl
      have hstep : lifeStep c ⟨l₁, none⟩ (.run a) = some (⟨l₂, none⟩, ev) := by
        rw [lifeStep, if_pos hgoes, hs]
        rfl
      exact ih.tail trivial hstep

/-- The workers on their own go on until none can. -/
theorem Inv.settles (h : Inv c es l) (w : Nat) :
    ∃ l', Run (lifeStep c) Any ⟨l, some w⟩ [] ⟨l', some w⟩ ∧ Inv c es l' ∧
      l'.consumer = l.consumer ∧ ∀ i, DataLoading.workerGo c l' i = none := by
  induction hwork : l.work c using Nat.strong_induction_on generalizing l with
  | _ work ih =>
      subst hwork
      by_cases hall : ∀ i, DataLoading.workerGo c l i = none
      · exact ⟨l, .refl, h, rfl, hall⟩
      · obtain ⟨i, hi⟩ := not_forall.mp hall
        obtain ⟨l₁, hgo⟩ := Option.ne_none_iff_exists'.mp hi
        have hs : lifeStep c ⟨l, some w⟩ (.run (.worker i)) = some (⟨l₁, some w⟩, []) := by
          simp [lifeStep, Act.goesOn, DataLoading.step, hgo]
        obtain ⟨l', hrun, hinv, hpc, hnone⟩ := ih _ (work_workerGo hgo) (h.workerGo hgo) rfl
        have hfirst : Run (lifeStep c) Any ⟨l, some w⟩ [] ⟨l₁, some w⟩ := .tail .refl trivial hs
        exact ⟨l', hfirst.trans hrun, hinv, hpc.trans (workerGo_frame hgo).1, hnone⟩

/-- The destructor gets past the workers that have returned. -/
theorem join_run {w : Nat} (hw : w ≤ n)
    (hreturned : ∀ i : Fin n, i.val < w → (l.worker i).joinable = false) :
    Run (lifeStep c) Any ⟨l, some 0⟩ [] ⟨l, some w⟩ := by
  induction w with
  | zero => exact .refl
  | succ w ih =>
      have hdone := hreturned ⟨w, hw⟩ (Nat.lt_succ_self w)
      have hs : lifeStep c ⟨l, some w⟩ .join = some (⟨l, some (w + 1)⟩, []) := by
        have hw' : w < n := hw
        simp [lifeStep, hw', hdone]
      exact (ih (by omega) fun i hi => hreturned i (by omega)).tail trivial hs

/-- When all workers have returned, what is left is in the queue. -/
theorem Inv.all_returned (hn : 0 < n) (h : Inv c es l) (hpc : l.consumer = .running)
    (hreturned : ∀ i, (l.worker i).joinable = false) :
    (returned es).length + l.queue.length = c.samples.length := by
  have hheld : l.held = [] := by
    refine List.flatMap_eq_nil_iff.mpr fun i _ => ?_
    have hi := hreturned i
    cases hw : l.worker i <;> simp [hw, WorkerPc.joinable, WorkerPc.held] at hi ⊢
  have huntaken : l.untaken c = [] := by
    cases hw : l.worker ⟨0, hn⟩ with
    | finished =>
        have hend := h.past ⟨0, hn⟩ (by rw [hw]; rfl)
        rw [Loader.untaken, List.drop_of_length_le hend, List.flatMap_nil]
    | unborn =>
        -- nobody was created, so there are no shards
        have hclosed : l.closed :=
          (h.births.running hpc).resolve_right fun hborn => hborn ⟨0, hn⟩ hw
        rcases h.closed hclosed with hnil | hzero
        · rw [Loader.untaken, hnil, List.drop_nil, List.flatMap_nil]
        · have hone := h.producing_le ⟨0, hn⟩
          rw [hw, hzero] at hone
          exact absurd hone (by decide)
    | _ =>
        have hi := hreturned ⟨0, hn⟩
        rw [hw] at hi
        cases hi
  have hlen := h.length
  rw [hheld, huntaken] at hlen
  simpa using hlen

/-- If more samples are left than fit into the queue, the destructor can get stuck. -/
theorem stuck_reachable (hn : 0 < n) (hcap : 0 < c.capacity) {k : Nat}
    (hmore : k + c.capacity < c.samples.length) :
    ∃ es s, Run (lifeStep c) Any (Life.init n) es s ∧ (returned es).length = k ∧ Stuck c s := by
  obtain ⟨es, l, hrun, hk, hpc⟩ :=
    (inv_init c hn).takes hn hcap (k := k) (by omega) (Nat.zero_le _)
  rw [List.nil_append] at hk
  obtain ⟨l', hsettle, hinv, hpc', hnone⟩ := (inv_run hn hrun).settles 0
  have hdestroy : lifeStep c ⟨l, none⟩ .destroy = some (⟨l, some 0⟩, []) := by
    simp [lifeStep, hpc, ConsumerPc.idle]
  have hlife : Run (lifeStep c) Any (Life.init n) es ⟨l', some 0⟩ := by
    have hall := ((lift_run hrun).tail trivial hdestroy).trans hsettle
    rwa [List.append_nil, List.append_nil] at hall
  have hbound : l'.queue.length ≤ c.capacity := (lifeInv_run hn hlife).bound
  have hstands : ∃ w, ∃ h : w < n, (l'.worker ⟨w, h⟩).joinable = true := by
    by_contra hnobody
    have hlen := hinv.all_returned hn (hpc'.trans hpc) fun i => by
      by_contra hi
      exact hnobody ⟨i.val, i.isLt, by simpa using hi⟩
    omega
  -- the destructor comes to the first of them
  classical
  obtain ⟨hlt, hjoinable⟩ := Nat.find_spec hstands
  have hjoin : Run (lifeStep c) Any ⟨l', some 0⟩ [] ⟨l', some (Nat.find hstands)⟩ := by
    refine join_run (Nat.le_of_lt hlt) fun i hi => ?_
    have hmin := Nat.find_min hstands hi
    simpa using fun hj => hmin ⟨i.isLt, hj⟩
  have hall := hlife.trans hjoin
  rw [List.append_nil] at hall
  exact ⟨es, _, hall, hk, ⟨Nat.find hstands, hlt⟩, rfl, hjoinable, hnone _⟩

/-- **When the destructor returns.** Whatever the shards, a consumer that stops after `k`
samples and destroys the loader never waits for a blocked worker exactly when there are no
workers, or the samples that are left fit into the queue. -/
theorem blocks_iff (c : Config) (n k : Nat) (hcap : 1 ≤ c.capacity) :
    (∀ es (s : Life n), Run (lifeStep c) Any (Life.init n) es s → (returned es).length = k →
        ¬ Stuck c s) ↔
      n = 0 ∨ c.samples.length ≤ k + c.capacity := by
  constructor
  · intro hnever
    by_contra hmore
    obtain ⟨hn, hmore⟩ := not_or.mp hmore
    obtain ⟨es, s, hrun, hk, hstuck⟩ :=
      stuck_reachable (c := c) (k := k) (Nat.pos_of_ne_zero hn) hcap (by omega)
    exact hnever es s hrun hk hstuck
  · rintro hfits es s hrun rfl hstuck
    rcases Nat.eq_zero_or_pos n with rfl | hn
    · obtain ⟨i, -⟩ := hstuck
      exact i.elim0
    · have hlt := (lifeInv_run hn hrun).stuck_lt hstuck
      omega

end

/-- The rank of `oneShard` with room for this many samples. -/
def roomFor (capacity : Nat) : Config := ⟨oneShard, [[97]], capacity⟩

theorem samples_roomFor (capacity : Nat) : (roomFor capacity).samples = twoSamples :=
  (List.flatMap_singleton ..).trans (delivers_writeShard shardOk_twoSamples).samples

/-- Two samples and room for two. -/
theorem blocks_iff_room : 1 ≤ (roomFor 2).capacity ∧
    ∀ es (s : Life 1), Run (lifeStep (roomFor 2)) Any (Life.init 1) es s →
      (returned es).length = 0 → ¬ Stuck (roomFor 2) s := by
  refine ⟨by decide, (blocks_iff (roomFor 2) 1 0 (by decide)).mpr (.inr ?_)⟩
  rw [samples_roomFor]
  decide

/-- Two samples, room for one and nobody who takes any: the destructor waits for ever. -/
theorem destructor_blocks : ∃ es, ∃ s : Life 1,
    Run (lifeStep (roomFor 1)) Any (Life.init 1) es s ∧ (returned es).length = 0 ∧
      Stuck (roomFor 1) s ∧
        ∀ es' s', Run (lifeStep (roomFor 1)) Any s es' s' → Stuck (roomFor 1) s' := by
  obtain ⟨es, s, hrun, hnone, hstuck⟩ := stuck_reachable (c := roomFor 1) (n := 1) (k := 0)
    (by decide) (by decide) (by rw [samples_roomFor]; decide)
  exact ⟨es, s, hrun, hnone, hstuck, fun es' s' hlater => hstuck.run hlater⟩

end CrossMachine.DataLoading
