import CrossMachine.DataLoading.Shard
import CrossMachine.Lib.Run
import CrossMachine.Lib.Sum
import Mathlib.Algebra.BigOperators.Fin
import Mathlib.Algebra.Order.BigOperators.Group.Finset
import Mathlib.Data.List.Perm.Basic

/-!
# The data loader: shards to samples, through workers and a bounded queue

Every rank has a loader of its own, with the shards whose position is the rank's modulo the
world size. Its workers take shards from a shared cursor, read them and push the samples into
a bounded queue; the consumer pops them. The last worker to find no more shards closes the
queue, and `next` returns `nullopt` once the queue is closed and empty.

A critical section and an access of an atomic variable are one step each. A thread that waits
on a condition variable can go on when the condition holds. Reading from a file concerns
nobody else, so a call of `reader.next()` is a step as well. What `next` returns are the
events.

Every sample of the rank is at any time in one place: returned, in the queue, with a worker
or in a shard that no worker has taken yet (`Inv.count`). A worker counts as a producer until
it has counted itself off, and then the cursor is past the last shard.
-/

namespace CrossMachine.DataLoading

open Lib

/-- What the loader of a rank is given: the files, the rank's shards and the capacity of the
queue. A file that cannot be opened is `none`. -/
structure Config where
  disk : Str → Option Str
  rankShards : List Str
  capacity : Nat

inductive ConsumerPc where
  /-- Before `start()`. -/
  | constructed
  /-- In the loop of `start()`. -/
  | starting (w : Nat)
  | running
  deriving DecidableEq, Repr

inductive WorkerPc where
  /-- The thread has not been created yet. -/
  | unborn
  /-- Before it takes a shard. -/
  | fetch
  /-- Before it reads a sample. -/
  | reading (r : ShardReader)
  /-- In `queue_.push`. -/
  | pushing (sample : Sample) (r : ShardReader)
  /-- Behind the loop. -/
  | leaving
  /-- It was the last, before `queue_.close()`. -/
  | closing
  | finished
  deriving DecidableEq, Repr

structure Loader (n : Nat) where
  consumer : ConsumerPc
  worker : Fin n → WorkerPc
  queue : List Sample
  closed : Bool
  nextShardIdx : Nat
  activeProducers : Int

/-- The constructor. -/
def Loader.init (n : Nat) : Loader n where
  consumer := .constructed
  worker := fun _ => .unborn
  queue := []
  closed := false
  nextShardIdx := 0
  activeProducers := n

inductive Act (n : Nat) where
  /-- A step of `start()`. -/
  | start
  | next
  | worker (i : Fin n)
  deriving DecidableEq, Repr

section

variable {n : Nat}

def Loader.goto (l : Loader n) (i : Fin n) (pc : WorkerPc) : Loader n :=
  { l with worker := Function.update l.worker i pc }

def startGo (c : Config) (l : Loader n) : Option (Loader n) :=
  match l.consumer with
  | .constructed =>
      if c.rankShards = [] ∨ n = 0 then some { l with closed := true, consumer := .running }
      else some { l with consumer := .starting 0 }
  | .starting w =>
      if h : w < n then some { l.goto ⟨w, h⟩ .fetch with consumer := .starting (w + 1) }
      else some { l with consumer := .running }
  | .running => none

/-- `DataLoader::next`, which is `pop`. -/
def nextGo (l : Loader n) : Option (Loader n × Option Sample) :=
  match l.consumer, l.queue with
  | .running, s :: queue => some ({ l with queue := queue }, some s)
  | .running, [] => if l.closed then some (l, none) else none
  | _, _ => none

/-- What a worker does with the shard it has taken. -/
def takeShard (c : Config) (idx : Nat) : WorkerPc :=
  match c.rankShards[idx]? with
  | none => .leaving
  | some path =>
      match c.disk path with
      | none => .fetch
      | some file => .reading ⟨some file, none⟩

/-- One step of `worker_loop`. -/
def workerGo (c : Config) (l : Loader n) (i : Fin n) : Option (Loader n) :=
  match l.worker i with
  | .fetch => some { l.goto i (takeShard c l.nextShardIdx) with nextShardIdx := l.nextShardIdx + 1 }
  | .reading r =>
      match r.next with
      | (none, _) => some (l.goto i .fetch)
      | (some s, r') => some (l.goto i (.pushing s r'))
  | .pushing s r =>
      if l.queue.length < c.capacity then
        some { l.goto i (.reading r) with queue := l.queue ++ [s] }
      else none
  | .leaving =>
      some { l.goto i (if l.activeProducers = 1 then .closing else .finished) with
        activeProducers := l.activeProducers - 1 }
  | .closing => some { l.goto i .finished with closed := true }
  | .unborn | .finished => none

def step (c : Config) (l : Loader n) : Act n → Option (Loader n × List (Option Sample))
  | .start => (startGo c l).map (·, [])
  | .next => (nextGo l).map fun (l, s) => (l, [s])
  | .worker i => (workerGo c l i).map (·, [])

/-! ## Where the samples are -/

/-- The samples of a shard, none if it cannot be opened. -/
def shardSamples (disk : Str → Option Str) (path : Str) : List Sample :=
  match disk path with
  | none => []
  | some file => ShardReader.samples ⟨some file, none⟩

/-- The samples of the rank. -/
def Config.samples (c : Config) : List Sample := c.rankShards.flatMap (shardSamples c.disk)

/-- The samples that a worker has still to push. -/
def WorkerPc.held : WorkerPc → List Sample
  | .reading r => r.samples
  | .pushing s r => s :: r.samples
  | _ => []

/-- The samples in shards that nobody has taken. -/
def Loader.untaken (c : Config) (l : Loader n) : List Sample :=
  (c.rankShards.drop l.nextShardIdx).flatMap (shardSamples c.disk)

/-- The samples that `next` has returned. -/
def returned (es : List (Option Sample)) : List Sample := es.filterMap id

/-- The worker has not counted itself off. -/
def WorkerPc.producing : WorkerPc → Nat
  | .closing | .finished => 0
  | _ => 1

/-- The worker has seen the end of the shards. -/
def WorkerPc.past : WorkerPc → Bool
  | .leaving | .closing | .finished => true
  | _ => false

/-- Which workers have been created. -/
structure Births (c : Config) (l : Loader n) : Prop where
  /-- Without shards there are none. -/
  idle : c.rankShards = [] → ∀ i, l.worker i = .unborn
  fresh : l.consumer = .constructed → ∀ i, l.worker i = .unborn
  starting : ∀ w, l.consumer = .starting w → c.rankShards ≠ [] ∧
    ∀ i : Fin n, l.worker i = .unborn ↔ w ≤ i
  running : l.consumer = .running → l.closed ∨ ∀ i, l.worker i ≠ .unborn

structure Inv (c : Config) (es : List (Option Sample)) (l : Loader n) : Prop where
  /-- Every sample of the rank is in one place. -/
  count : ∀ x, (returned es).count x + l.queue.count x + ∑ i, (l.worker i).held.count x +
    (l.untaken c).count x = c.samples.count x
  active : l.activeProducers = ∑ i, (l.worker i).producing
  past : ∀ i, (l.worker i).past → c.rankShards.length ≤ l.nextShardIdx
  /-- The queue is closed when nobody produces any more. -/
  closed : l.closed → c.rankShards = [] ∨ l.activeProducers = 0
  /-- Whoever counted off last closes it. -/
  last : l.activeProducers = 0 → l.closed ∨ ∃ i, l.worker i = .closing
  closing : ∀ i, l.worker i = .closing → l.activeProducers = 0
  births : Births c l

variable {c : Config} {es : List (Option Sample)} {l l' : Loader n} {i : Fin n} {pc : WorkerPc}

/-! ## One step -/

/-- Steps of workers create nobody. -/
theorem Births.keep (h : Births c l) (hconsumer : l'.consumer = l.consumer)
    (hclosed : l.closed → l'.closed)
    (hunborn : ∀ j, l'.worker j = .unborn ↔ l.worker j = .unborn) : Births c l' where
  idle hnil j := (hunborn j).mpr (h.idle hnil j)
  fresh hpc j := (hunborn j).mpr (h.fresh (hconsumer ▸ hpc) j)
  starting w hpc := by
    obtain ⟨hne, hborn⟩ := h.starting w (hconsumer ▸ hpc)
    exact ⟨hne, fun j => (hunborn j).trans (hborn j)⟩
  running hpc := (h.running (hconsumer ▸ hpc)).imp hclosed fun hall j hj =>
    hall j ((hunborn j).mp hj)

theorem unborn_goto (hold : l.worker i ≠ .unborn) (hnew : pc ≠ .unborn) (j : Fin n) :
    (l.goto i pc).worker j = .unborn ↔ l.worker j = .unborn := by
  by_cases hj : j = i
  · subst hj
    simp [Loader.goto, hold, hnew]
  · simp [Loader.goto, hj]

/-- What a worker's step does to a sum over all workers. -/
theorem sum_goto (f : WorkerPc → Nat) (l : Loader n) (i : Fin n) (pc : WorkerPc) :
    ∑ j, f ((l.goto i pc).worker j) + f (l.worker i) = ∑ j, f (l.worker j) + f pc :=
  sum_update_add (fun _ => f) l.worker i pc

/-- Taking a shard moves its samples to the worker. -/
theorem untaken_takeShard (c : Config) (idx : Nat) :
    (c.rankShards.drop idx).flatMap (shardSamples c.disk) =
      (takeShard c idx).held ++ (c.rankShards.drop (idx + 1)).flatMap (shardSamples c.disk) := by
  rw [takeShard]
  cases hget : c.rankShards[idx]? with
  | none =>
      have hlen := List.getElem?_eq_none_iff.mp hget
      rw [List.drop_of_length_le hlen, List.drop_of_length_le (by omega)]
      rfl
  | some path =>
      obtain ⟨hlt, rfl⟩ := List.getElem?_eq_some_iff.mp hget
      rw [List.drop_eq_getElem_cons hlt, List.flatMap_cons]
      congr 1
      rw [shardSamples]
      cases hdisk : c.disk c.rankShards[idx] with
      | none => simp only [hdisk]; rfl
      | some file => simp only [hdisk]; rfl

theorem takeShard_cases (c : Config) (idx : Nat) :
    takeShard c idx ≠ .unborn ∧ (takeShard c idx).producing = 1 ∧
      ((takeShard c idx).past → c.rankShards.length ≤ idx) ∧ takeShard c idx ≠ .closing := by
  rw [takeShard]
  cases hget : c.rankShards[idx]? with
  | none => exact ⟨by simp, rfl, fun _ => List.getElem?_eq_none_iff.mp hget, by simp⟩
  | some path =>
      cases hdisk : c.disk path with
      | none => simp [hdisk, WorkerPc.producing, WorkerPc.past]
      | some file => simp [hdisk, WorkerPc.producing, WorkerPc.past]

theorem worker_goto (l : Loader n) (i j : Fin n) (pc : WorkerPc) :
    (l.goto i pc).worker j = if j = i then pc else l.worker j := Function.update_apply ..

/-- A step to or from `closing` is told by the count. -/
theorem Inv.closing_goto (h : Inv c es l) (pc : WorkerPc) (hold : l.worker i ≠ .closing)
    (hnew : pc ≠ .closing) :
    (l.activeProducers = 0 → l.closed ∨ ∃ j, (l.goto i pc).worker j = .closing) ∧
      ∀ j, (l.goto i pc).worker j = .closing → l.activeProducers = 0 := by
  refine ⟨fun hzero => (h.last hzero).imp_right ?_, fun j hj => ?_⟩
  · rintro ⟨j, hj⟩
    have hne : j ≠ i := fun heq => hold (heq ▸ hj)
    exact ⟨j, by rwa [worker_goto, if_neg hne]⟩
  · rw [worker_goto] at hj
    split at hj
    · exact absurd hj hnew
    · exact h.closing j hj

/-- A step of worker `i`: what leaves it arrives elsewhere, and it is counted off when it says
so. -/
theorem Inv.move (h : Inv c es l) (hworker : l'.worker = (l.goto i pc).worker)
    (hconsumer : l'.consumer = l.consumer) (hcloses : l.closed → l'.closed)
    (hold : l.worker i ≠ .unborn) (hnew : pc ≠ .unborn)
    (hcount : ∀ x, l'.queue.count x + pc.held.count x + (l'.untaken c).count x =
      l.queue.count x + (l.worker i).held.count x + (l.untaken c).count x)
    (hactive : l'.activeProducers + (l.worker i).producing = l.activeProducers + pc.producing)
    (hidx : l.nextShardIdx ≤ l'.nextShardIdx)
    (hpast : pc.past → c.rankShards.length ≤ l'.nextShardIdx)
    (hclosed : l'.closed → c.rankShards = [] ∨ l'.activeProducers = 0)
    (hlast : l'.activeProducers = 0 → l'.closed ∨ ∃ j, l'.worker j = .closing)
    (hclosing : ∀ j, l'.worker j = .closing → l'.activeProducers = 0) : Inv c es l' where
  count x := by
    have hsum := sum_goto (fun pc => pc.held.count x) l i pc
    have hbefore := h.count x
    have hmoved := hcount x
    simp only [hworker]
    omega
  active := by
    have hsum := sum_goto WorkerPc.producing l i pc
    have hbefore := h.active
    rw [hworker]
    omega
  past j hj := by
    rw [hworker] at hj
    by_cases heq : j = i
    · subst heq
      exact hpast (by simpa [Loader.goto] using hj)
    · have hbefore := h.past j (by simpa [Loader.goto, heq] using hj)
      omega
  closed := hclosed
  last := hlast
  closing := hclosing
  births := h.births.keep hconsumer hcloses fun j => by
    rw [hworker]
    exact unborn_goto hold hnew j

/-- A step of a worker that only the worker and what it holds are concerned with. -/
theorem Inv.local (h : Inv c es l) (hold : l.worker i ≠ .unborn ∧ l.worker i ≠ .closing)
    (hnew : pc ≠ .unborn ∧ pc ≠ .closing ∧ pc.past = false) (hheld : pc.held = (l.worker i).held)
    (hproducing : pc.producing = (l.worker i).producing) : Inv c es (l.goto i pc) := by
  obtain ⟨hlast, hclosing⟩ := h.closing_goto pc hold.2 hnew.2.1
  refine h.move rfl rfl id hold.1 hnew.1 (fun x => ?_) ?_ (Nat.le_refl _) ?_ h.closed hlast
    hclosing
  · rw [hheld]
    rfl
  · rw [hproducing]
    rfl
  · rw [hnew.2.2]
    exact fun hpast => absurd hpast (by decide)

/-- A worker that has not counted itself off is counted. -/
theorem Inv.producing_le (h : Inv c es l) (i : Fin n) :
    ((l.worker i).producing : Int) ≤ l.activeProducers := by
  rw [h.active]
  exact Int.ofNat_le.mpr (Finset.single_le_sum (f := fun j => (l.worker j).producing)
    (fun j _ => Nat.zero_le _) (Finset.mem_univ i))

theorem Inv.workerGo (h : Inv c es l) (hgo : workerGo c l i = some l') : Inv c es l' := by
  rw [DataLoading.workerGo] at hgo
  cases hpc : l.worker i with
  | unborn => simp [hpc] at hgo
  | finished => simp [hpc] at hgo
  | fetch =>
      simp only [hpc, Option.some.injEq] at hgo
      subst hgo
      obtain ⟨hunborn, hproducing, hpast, hnew⟩ := takeShard_cases c l.nextShardIdx
      obtain ⟨hlast, hclosing⟩ := h.closing_goto (i := i) _ (by simp [hpc]) hnew
      refine h.move rfl rfl id (by simp [hpc]) hunborn (fun x => ?_) ?_ (Nat.le_succ _)
        (fun hp => Nat.le_succ_of_le (hpast hp)) h.closed hlast hclosing
      · have huntaken := congrArg (List.count x) (untaken_takeShard c l.nextShardIdx)
        rw [List.count_append] at huntaken
        simp only [Loader.untaken, huntaken, hpc, WorkerPc.held, Loader.goto, List.count_nil]
        omega
      · rw [hpc, hproducing]
        rfl
  | reading r =>
      simp only [hpc] at hgo
      split at hgo
      next r' hnext =>
        cases hgo
        refine h.local (by simp [hpc]) (by simp [WorkerPc.past]) ?_ (by rw [hpc]; rfl)
        rw [hpc]
        exact (ShardReader.samples_none hnext).symm
      next s r' hnext =>
        cases hgo
        refine h.local (by simp [hpc]) (by simp [WorkerPc.past]) ?_ (by rw [hpc]; rfl)
        rw [hpc]
        exact (ShardReader.samples_some hnext).symm
  | pushing s r =>
      simp only [hpc] at hgo
      split at hgo
      case isTrue hroom =>
        cases hgo
        obtain ⟨hlast, hclosing⟩ := h.closing_goto (i := i) (.reading r) (by simp [hpc])
          (by simp)
        refine h.move rfl rfl id (by simp [hpc]) (by simp) (fun x => ?_) (by rw [hpc]; rfl)
          (Nat.le_refl _) (by simp [WorkerPc.past]) h.closed hlast hclosing
        rw [hpc]
        simp only [WorkerPc.held, List.count_append, List.count_cons, List.count_nil,
          Loader.untaken, Loader.goto]
        omega
      case isFalse => cases hgo
  | leaving =>
      simp only [hpc, Option.some.injEq] at hgo
      subst hgo
      have hend := h.past i (by rw [hpc]; rfl)
      have hpos : 1 ≤ l.activeProducers := by simpa [hpc, WorkerPc.producing] using h.producing_le i
      refine h.move rfl rfl id (by simp [hpc]) ?_ (fun x => ?_) ?_ (Nat.le_refl _) (fun _ => hend)
        (fun hc => ?_) (fun hzero => ?_) fun j hj => ?_
      · split <;> simp
      · rw [hpc]
        split <;> rfl
      · rw [hpc]
        split <;> simp [WorkerPc.producing]
      · exact (h.closed hc).imp_right fun hzero => by omega
      · have hone : l.activeProducers = 1 := Int.sub_eq_zero.mp hzero
        exact .inr ⟨i, by simp [worker_goto, hone]⟩
      · rw [worker_goto] at hj
        split at hj
        · split at hj
          next hone => exact Int.sub_eq_zero.mpr hone
          next => cases hj
        · have hzero := h.closing j hj
          omega
  | closing =>
      simp only [hpc, Option.some.injEq] at hgo
      subst hgo
      have hend := h.past i (by rw [hpc]; rfl)
      have hzero := h.closing i hpc
      refine h.move rfl rfl (fun _ => rfl) (by simp [hpc]) (by simp) (fun x => ?_)
        (by rw [hpc]; rfl) (Nat.le_refl _) (fun _ => hend) (fun _ => .inr hzero)
        (fun _ => .inl rfl) fun _ _ => hzero
      rw [hpc]
      rfl

theorem Inv.startGo (h : Inv c es l) (hgo : startGo c l = some l') : Inv c es l' := by
  rw [DataLoading.startGo] at hgo
  cases hpc : l.consumer with
  | constructed =>
      have hfresh := h.births.fresh hpc
      simp only [hpc] at hgo
      split at hgo
      case isTrue hnone =>
        cases hgo
        refine ⟨h.count, h.active, h.past, fun _ => ?_, fun _ => .inl rfl, h.closing, ?_⟩
        · rcases hnone with hnil | rfl
          · exact .inl hnil
          · exact .inr (by rw [h.active]; simp)
        · exact ⟨h.births.idle, fun _ => hfresh, by simp, fun _ => .inl rfl⟩
      case isFalse hsome =>
        cases hgo
        refine ⟨h.count, h.active, h.past, h.closed, h.last, h.closing, ?_⟩
        refine ⟨h.births.idle, fun _ => hfresh, fun w hw => ?_, by simp⟩
        cases hw
        exact ⟨fun hnil => hsome (.inl hnil), fun i => by simp [hfresh i]⟩
  | starting w =>
      obtain ⟨hne, hborn⟩ := h.births.starting w hpc
      simp only [hpc] at hgo
      split at hgo
      case isTrue hlt =>
        cases hgo
        have hunborn : l.worker ⟨w, hlt⟩ = .unborn := (hborn ⟨w, hlt⟩).mpr (Nat.le_refl w)
        obtain ⟨hlast, hclosing⟩ := h.closing_goto (i := ⟨w, hlt⟩) .fetch
          (by simp [hunborn]) (by simp)
        refine ⟨fun x => ?_, ?_, fun j hj => h.past j ?_, h.closed, hlast, hclosing, ?_⟩
        · have hsum := sum_goto (fun pc => pc.held.count x) l ⟨w, hlt⟩ .fetch
          have hcount := h.count x
          rw [hunborn] at hsum
          simp only [WorkerPc.held] at hsum
          simp only [Loader.untaken, Loader.goto, WorkerPc.held] at hsum hcount ⊢
          omega
        · have hsum := sum_goto WorkerPc.producing l ⟨w, hlt⟩ .fetch
          have hactive := h.active
          rw [hunborn] at hsum
          simp only [WorkerPc.producing, Loader.goto] at hsum hactive ⊢
          omega
        · rw [worker_goto] at hj
          split at hj
          · simp [WorkerPc.past] at hj
          · exact hj
        · refine ⟨fun hnil => absurd hnil hne, by simp, fun w' hw' => ⟨hne, fun j => ?_⟩, by simp⟩
          cases hw'
          rw [worker_goto]
          split
          next heq => subst heq; simp
          next hj =>
            rw [hborn j]
            have hval : j.val ≠ w := fun hval => hj (Fin.ext hval)
            omega
      case isFalse hge =>
        cases hgo
        refine ⟨h.count, h.active, h.past, h.closed, h.last, h.closing, ?_⟩
        refine ⟨h.births.idle, by simp, by simp, fun _ => .inr fun i hi => ?_⟩
        have := (hborn i).mp hi
        omega
  | running => simp [hpc] at hgo

theorem returned_append (es es' : List (Option Sample)) :
    returned (es ++ es') = returned es ++ returned es' := List.filterMap_append

theorem Inv.nextGo {s : Option Sample} (h : Inv c es l) (hgo : nextGo l = some (l', s)) :
    Inv c (es ++ [s]) l' := by
  rw [DataLoading.nextGo] at hgo
  split at hgo
  next x queue hpc hqueue =>
    cases hgo
    refine ⟨fun y => ?_, h.active, h.past, h.closed, h.last, h.closing,
      h.births.keep rfl id fun _ => Iff.rfl⟩
    have hcount := h.count y
    rw [hqueue, List.count_cons] at hcount
    rw [returned_append, List.count_append]
    simp only [returned, List.filterMap_cons, id, List.filterMap_nil, List.count_cons,
      List.count_nil, Loader.untaken] at hcount ⊢
    omega
  next hpc hqueue =>
    split at hgo
    · cases hgo
      refine ⟨fun y => ?_, h.active, h.past, h.closed, h.last, h.closing, h.births⟩
      rw [returned_append, show returned [none] = [] from rfl, List.append_nil]
      exact h.count y
    · cases hgo
  next => cases hgo

theorem inv_init (c : Config) (hn : 0 < n) : Inv c [] (Loader.init n) where
  count x := by simp [Loader.init, returned, WorkerPc.held, Loader.untaken, Config.samples]
  active := by simp [Loader.init, WorkerPc.producing]
  past i hi := by simp [Loader.init, WorkerPc.past] at hi
  closed hc := by simp [Loader.init] at hc
  last hzero := by
    simp only [Loader.init] at hzero
    omega
  closing i hi := by simp [Loader.init] at hi
  births := ⟨fun _ _ => rfl, fun _ _ => rfl, by simp [Loader.init], by simp [Loader.init]⟩

theorem Inv.step {a : Act n} {ev : List (Option Sample)} (h : Inv c es l)
    (hs : step c l a = some (l', ev)) : Inv c (es ++ ev) l' := by
  cases a with
  | start =>
      obtain ⟨l₁, hgo, heq⟩ := Option.map_eq_some_iff.mp hs
      cases heq
      rw [List.append_nil]
      exact h.startGo hgo
  | next =>
      obtain ⟨⟨l₁, s⟩, hgo, heq⟩ := Option.map_eq_some_iff.mp hs
      cases heq
      exact h.nextGo hgo
  | worker i =>
      obtain ⟨l₁, hgo, heq⟩ := Option.map_eq_some_iff.mp hs
      cases heq
      rw [List.append_nil]
      exact h.workerGo hgo

theorem inv_run (hn : 0 < n) (h : Run (DataLoading.step c) Any (Loader.init n) es l) :
    Inv c es l :=
  h.invariant (inv_init c hn) fun hinv _ hs => hinv.step hs

/-- When the queue is closed, all samples are in it or returned. -/
theorem Inv.closed_perm (hn : 0 < n) (h : Inv c es l) (hc : l.closed) (hqueue : l.queue = []) :
    (returned es).Perm c.samples := by
  have hdone : (∀ i, (l.worker i).held = []) ∧ l.untaken c = [] := by
    rcases h.closed hc with hnil | hzero
    · exact ⟨fun i => by rw [h.births.idle hnil i]; rfl, by simp [Loader.untaken, hnil]⟩
    · have hoff (i : Fin n) : (l.worker i).producing = 0 := by
        have hle := h.producing_le i
        omega
      have hpast : c.rankShards.length ≤ l.nextShardIdx := by
        refine h.past ⟨0, hn⟩ ?_
        have hzero := hoff ⟨0, hn⟩
        cases hpc : l.worker ⟨0, hn⟩ <;> simp [hpc, WorkerPc.producing, WorkerPc.past] at hzero ⊢
      refine ⟨fun i => ?_, by simp [Loader.untaken, List.drop_of_length_le hpast]⟩
      have hzero := hoff i
      cases hpc : l.worker i <;> simp [hpc, WorkerPc.producing, WorkerPc.held] at hzero ⊢
  refine List.perm_iff_count.mpr fun x => ?_
  have hcount := h.count x
  simp only [hdone.1, hdone.2, hqueue, List.count_nil, Finset.sum_const_zero] at hcount
  omega

/-- `nullopt` is returned by a closed and empty queue. -/
theorem nextGo_none (hgo : nextGo l = some (l', none)) : l.closed ∧ l.queue = [] := by
  rw [nextGo] at hgo
  split at hgo
  · cases hgo
  next hpc hqueue =>
    split at hgo
    next hc => exact ⟨hc, hqueue⟩
    next => cases hgo
  next => cases hgo

/-- In front of a `nullopt` stand all samples of the rank. -/
theorem none_after (hn : 0 < n) (h : Run (DataLoading.step c) Any (Loader.init n) es l) :
    ∀ es₁ es₂, es = es₁ ++ none :: es₂ → (returned es₁).Perm c.samples := by
  induction h with
  | refl => simp
  | @tail es ev l l' a hrun _ hs ih =>
      intro es₁ es₂ heq
      cases a with
      | next =>
          obtain ⟨⟨l₁, s⟩, hgo, heq'⟩ := Option.map_eq_some_iff.mp hs
          cases heq'
          rcases List.eq_nil_or_concat es₂ with rfl | ⟨es₂', s', rfl⟩
          · obtain ⟨rfl, hs⟩ := List.append_inj' heq rfl
            cases hs
            obtain ⟨hc, hqueue⟩ := nextGo_none hgo
            exact (inv_run hn hrun).closed_perm hn hc hqueue
          · rw [List.concat_eq_append, ← List.cons_append, ← List.append_assoc] at heq
            exact ih es₁ es₂' (List.append_inj' heq rfl).1
      | start =>
          obtain ⟨l₁, -, heq'⟩ := Option.map_eq_some_iff.mp hs
          cases heq'
          exact ih es₁ es₂ (by rwa [List.append_nil] at heq)
      | worker i =>
          obtain ⟨l₁, -, heq'⟩ := Option.map_eq_some_iff.mp hs
          cases heq'
          exact ih es₁ es₂ (by rwa [List.append_nil] at heq)

/-! ## The end is reached -/

/-- Some thread can go on. -/
theorem Inv.progress (hcap : 0 < c.capacity) (h : Inv c es l) :
    ∃ a l' ev, DataLoading.step c l a = some (l', ev) := by
  suffices hgo : (DataLoading.startGo c l).isSome ∨ (DataLoading.nextGo l).isSome ∨
      ∃ i, (DataLoading.workerGo c l i).isSome by
    rcases hgo with hgo | hgo | ⟨i, hgo⟩
    · obtain ⟨l', hgo⟩ := Option.isSome_iff_exists.mp hgo
      exact ⟨.start, l', [], by rw [DataLoading.step, hgo]; rfl⟩
    · obtain ⟨⟨l', s⟩, hgo⟩ := Option.isSome_iff_exists.mp hgo
      exact ⟨.next, l', [s], by rw [DataLoading.step, hgo]; rfl⟩
    · obtain ⟨l', hgo⟩ := Option.isSome_iff_exists.mp hgo
      exact ⟨.worker i, l', [], by rw [DataLoading.step, hgo]; rfl⟩
  cases hpc : l.consumer with
  | constructed =>
      refine .inl ?_
      rw [DataLoading.startGo, hpc]
      simp only
      split <;> rfl
  | starting w =>
      refine .inl ?_
      rw [DataLoading.startGo, hpc]
      simp only
      split <;> rfl
  | running =>
      refine .inr ?_
      cases hqueue : l.queue with
      | cons s queue => exact .inl (by simp [DataLoading.nextGo, hpc, hqueue])
      | nil =>
          cases hclosed : l.closed with
          | true => exact .inl (by simp [DataLoading.nextGo, hpc, hqueue, hclosed])
          | false =>
              -- the queue is open and has room, so only finished workers could not go on
              refine .inr ?_
              by_contra hstuck
              have hborn : ∀ i, l.worker i ≠ .unborn :=
                (h.births.running hpc).resolve_left (by simp [hclosed])
              have hfinished (i : Fin n) : l.worker i = .finished := by
                have hnone : DataLoading.workerGo c l i = none := by
                  by_contra hne
                  exact hstuck ⟨i, Option.isSome_iff_ne_none.mpr hne⟩
                rw [DataLoading.workerGo] at hnone
                cases hw : l.worker i with
                | unborn => exact absurd hw (hborn i)
                | finished => rfl
                | reading r =>
                    simp only [hw] at hnone
                    split at hnone <;> cases hnone
                | pushing s r =>
                    simp only [hw, hqueue, List.length_nil, hcap, if_true] at hnone
                    cases hnone
                | fetch => simp [hw] at hnone
                | leaving => simp [hw] at hnone
                | closing => simp [hw] at hnone
              have hzero : l.activeProducers = 0 := by
                rw [h.active]
                simp [hfinished, WorkerPc.producing]
              rcases h.last hzero with hc | ⟨i, hi⟩
              · simp [hclosed] at hc
              · simp [hfinished i] at hi

/-- The steps that a worker has still to take, and that its samples need. -/
def WorkerPc.work : WorkerPc → Nat
  | .unborn => 4
  | .fetch => 3
  | .reading r => 3 * r.samples.length + 4
  | .pushing _ r => 3 * r.samples.length + 6
  | .leaving => 2
  | .closing => 1
  | .finished => 0

def ConsumerPc.work : ConsumerPc → Nat
  | .constructed => 2
  | .starting _ => 1
  | .running => 0

/-- The same for shards that nobody has taken. -/
def shardsWork (disk : Str → Option Str) (shards : List Str) : Nat :=
  (shards.map fun path => 3 * (shardSamples disk path).length + 2).sum

def Loader.work (c : Config) (l : Loader n) : Nat :=
  l.consumer.work + l.queue.length + ∑ i, (l.worker i).work +
    shardsWork c.disk (c.rankShards.drop l.nextShardIdx)

theorem work_takeShard (c : Config) (idx : Nat) :
    (takeShard c idx).work + shardsWork c.disk (c.rankShards.drop (idx + 1)) <
      3 + shardsWork c.disk (c.rankShards.drop idx) := by
  rw [takeShard]
  cases hget : c.rankShards[idx]? with
  | none =>
      have hlen := List.getElem?_eq_none_iff.mp hget
      rw [List.drop_of_length_le hlen, List.drop_of_length_le (by omega)]
      simp [WorkerPc.work]
  | some path =>
      obtain ⟨hlt, rfl⟩ := List.getElem?_eq_some_iff.mp hget
      rw [List.drop_eq_getElem_cons hlt, shardsWork, shardsWork, List.map_cons, List.sum_cons,
        shardSamples]
      cases hdisk : c.disk c.rankShards[idx] with
      | none => simp only [hdisk, WorkerPc.work]; omega
      | some file => simp only [hdisk, WorkerPc.work]; omega

theorem work_workerGo (hgo : workerGo c l i = some l') : l'.work c < l.work c := by
  rw [workerGo] at hgo
  have hsum (pc : WorkerPc) := sum_goto WorkerPc.work l i pc
  cases hpc : l.worker i with
  | unborn => simp [hpc] at hgo
  | finished => simp [hpc] at hgo
  | fetch =>
      simp only [hpc, Option.some.injEq] at hgo
      subst hgo
      have hmoved := hsum (takeShard c l.nextShardIdx)
      have htaken := work_takeShard c l.nextShardIdx
      rw [hpc] at hmoved
      simp only [Loader.work, Loader.goto, WorkerPc.work] at hmoved htaken ⊢
      omega
  | reading r =>
      simp only [hpc] at hgo
      split at hgo
      next r' hnext =>
        cases hgo
        have hmoved := hsum .fetch
        rw [hpc] at hmoved
        simp only [Loader.work, Loader.goto, WorkerPc.work, ShardReader.samples_none hnext,
          List.length_nil] at hmoved ⊢
        omega
      next s r' hnext =>
        cases hgo
        have hmoved := hsum (.pushing s r')
        rw [hpc] at hmoved
        simp only [Loader.work, Loader.goto, WorkerPc.work, ShardReader.samples_some hnext,
          List.length_cons] at hmoved ⊢
        omega
  | pushing s r =>
      simp only [hpc] at hgo
      split at hgo
      case isTrue hroom =>
        cases hgo
        have hmoved := hsum (.reading r)
        rw [hpc] at hmoved
        simp only [Loader.work, Loader.goto, WorkerPc.work, List.length_append,
          List.length_singleton] at hmoved ⊢
        omega
      case isFalse => cases hgo
  | leaving =>
      simp only [hpc, Option.some.injEq] at hgo
      subst hgo
      have hmoved := hsum (if l.activeProducers = 1 then .closing else .finished)
      have hless : (if l.activeProducers = 1 then WorkerPc.closing else .finished).work < 2 := by
        split <;> decide
      rw [hpc] at hmoved
      simp only [Loader.work, Loader.goto, WorkerPc.work] at hmoved hless ⊢
      omega
  | closing =>
      simp only [hpc, Option.some.injEq] at hgo
      subst hgo
      have hmoved := hsum .finished
      rw [hpc] at hmoved
      simp only [Loader.work, Loader.goto, WorkerPc.work] at hmoved ⊢
      omega

theorem Inv.work_startGo (h : Inv c es l) (hgo : DataLoading.startGo c l = some l') :
    l'.work c < l.work c := by
  rw [DataLoading.startGo] at hgo
  cases hpc : l.consumer with
  | constructed =>
      simp only [hpc] at hgo
      split at hgo
      · cases hgo
        simp only [Loader.work, hpc, ConsumerPc.work]
        omega
      · cases hgo
        simp only [Loader.work, hpc, ConsumerPc.work]
        omega
  | starting w =>
      simp only [hpc] at hgo
      split at hgo
      case isTrue hlt =>
        cases hgo
        have hunborn : l.worker ⟨w, hlt⟩ = .unborn :=
          ((h.births.starting w hpc).2 ⟨w, hlt⟩).mpr (Nat.le_refl w)
        have hmoved := sum_goto WorkerPc.work l ⟨w, hlt⟩ .fetch
        rw [hunborn] at hmoved
        simp only [Loader.work, Loader.goto, WorkerPc.work, hpc, ConsumerPc.work] at hmoved ⊢
        omega
      case isFalse =>
        cases hgo
        simp only [Loader.work, hpc, ConsumerPc.work]
        omega
  | running => simp [hpc] at hgo

/-- Every step but a `nullopt` is one of finitely many. -/
theorem Inv.work_step {a : Act n} {ev : List (Option Sample)} (h : Inv c es l)
    (hs : DataLoading.step c l a = some (l', ev)) : none ∈ ev ∨ l'.work c < l.work c := by
  cases a with
  | start =>
      obtain ⟨l₁, hgo, heq⟩ := Option.map_eq_some_iff.mp hs
      cases heq
      exact .inr (h.work_startGo hgo)
  | worker i =>
      obtain ⟨l₁, hgo, heq⟩ := Option.map_eq_some_iff.mp hs
      cases heq
      exact .inr (work_workerGo hgo)
  | next =>
      obtain ⟨⟨l₁, s⟩, hgo, heq⟩ := Option.map_eq_some_iff.mp hs
      cases heq
      rw [DataLoading.nextGo] at hgo
      split at hgo
      next x queue hpc hqueue =>
        cases hgo
        simp only [Loader.work, hqueue, List.length_cons]
        omega
      next =>
        split at hgo
        · cases hgo
          exact .inl List.mem_cons_self
        · cases hgo
      next => cases hgo

/-- From every state a `nullopt` can be reached. -/
theorem Inv.reaches_none (hcap : 0 < c.capacity) (h : Inv c es l) :
    ∃ es' l', Run (DataLoading.step c) Any l es' l' ∧ none ∈ es' := by
  induction hwork : l.work c using Nat.strong_induction_on generalizing es l with
  | _ k ih =>
      subst hwork
      obtain ⟨a, l', ev, hs⟩ := h.progress hcap
      have hrun : Run (DataLoading.step c) Any l ev l' := .tail .refl trivial hs
      rcases h.work_step hs with hnone | hless
      · exact ⟨ev, l', hrun, hnone⟩
      · obtain ⟨es', l'', hrest, hnone⟩ := ih _ hless (h.step hs) rfl
        exact ⟨ev ++ es', l'', hrun.trans hrest, List.mem_append_right _ hnone⟩

end

/-! ## All ranks -/

/-- `rank_shards_`: every `worldSize`-th shard from the rank on. -/
def shardsOfRank (shardPaths : List Str) (worldSize rank : Nat) : List Str :=
  (shardPaths.zipIdx.filter fun p => p.2 % worldSize = rank).map Prod.fst

/-- The loader of a rank. -/
def Config.ofRank (disk : Str → Option Str) (shardPaths : List Str)
    (worldSize capacity rank : Nat) : Config where
  disk := disk
  rankShards := shardsOfRank shardPaths worldSize rank
  capacity := capacity

/-- Elements put into buckets by a number below `k` are all there. -/
theorem buckets_perm {α : Type*} (l : List α) (f : α → Nat) (k : Nat) :
    ((List.range k).flatMap fun r => l.filter fun x => f x = r).Perm
      (l.filter fun x => f x < k) := by
  induction k with
  | zero => simp
  | succ k ih =>
      rw [List.range_succ, List.flatMap_append, List.flatMap_singleton]
      refine (ih.append_right _).trans ?_
      have hsplit := List.filter_append_perm (fun x => decide (f x < k))
        (l.filter fun x => f x < k + 1)
      rw [List.filter_filter, List.filter_filter] at hsplit
      refine List.Perm.trans (List.Perm.of_eq ?_) hsplit
      congr 1
      · refine List.filter_congr fun x _ => ?_
        rw [← Bool.decide_and, decide_eq_decide]
        omega
      · refine List.filter_congr fun x _ => ?_
        rw [← decide_not, ← Bool.decide_and, decide_eq_decide]
        omega

/-- The ranks share out the shards. -/
theorem shardsOfRank_perm (shardPaths : List Str) {worldSize : Nat} (h : 0 < worldSize) :
    ((List.range worldSize).flatMap (shardsOfRank shardPaths worldSize)).Perm shardPaths := by
  have hall : (shardPaths.zipIdx.filter fun p => p.2 % worldSize < worldSize) =
      shardPaths.zipIdx := List.filter_eq_self.mpr fun p _ => by simpa using Nat.mod_lt _ h
  have hbuckets := buckets_perm shardPaths.zipIdx (fun p => p.2 % worldSize) worldSize
  rw [hall] at hbuckets
  have hmap := hbuckets.map Prod.fst
  rw [List.map_flatMap] at hmap
  refine hmap.trans (List.Perm.of_eq ?_)
  exact List.zipIdx_map_fst 0 shardPaths

/-- No sample is returned twice. -/
theorem Inv.subperm {n : Nat} {c : Config} {es : List (Option Sample)} {l : Loader n}
    (h : Inv c es l) : (returned es).Subperm c.samples := by
  refine List.subperm_ext_iff.mpr fun x _ => ?_
  have hcount := h.count x
  omega

/-- A rank that has seen a `nullopt` has got all of its samples. -/
theorem returned_perm {n : Nat} {c : Config} {es : List (Option Sample)} {l : Loader n}
    (hn : 0 < n) (h : Run (step c) Any (Loader.init n) es l) (hnone : none ∈ es) :
    (returned es).Perm c.samples := by
  obtain ⟨es₁, es₂, rfl⟩ := List.append_of_mem hnone
  have hsub := (inv_run hn h).subperm
  refine hsub.perm_of_length_le ?_
  rw [← (none_after hn h es₁ es₂ rfl).length_eq, returned_append, List.length_append]
  exact Nat.le_add_right _ _

/-- Delivery. In every run of every rank no sample is returned twice, `next` returns `nullopt`
only after all samples of the rank, some thread can always go on, and a `nullopt` can be
reached. When all ranks have got theirs, together they have got every sample of every readable
shard exactly once. -/
theorem dataLoader_delivery (disk : Str → Option Str) (shardPaths : List Str)
    (worldSize numWorkers capacity : Nat) (hworld : 1 ≤ worldSize) (hworkers : 1 ≤ numWorkers)
    (hcapacity : 1 ≤ capacity) :
    (∀ rank < worldSize, ∀ es (l : Loader numWorkers),
      let c := Config.ofRank disk shardPaths worldSize capacity rank
      Run (step c) Any (Loader.init numWorkers) es l →
        (returned es).Subperm c.samples ∧
        (∀ es₁ es₂, es = es₁ ++ none :: es₂ → (returned es₁).Perm c.samples) ∧
        (∃ a l' ev, step c l a = some (l', ev)) ∧
        ∃ es' l', Run (step c) Any l es' l' ∧ none ∈ es') ∧
    ∀ es : Nat → List (Option Sample),
      (∀ rank < worldSize, none ∈ es rank ∧ ∃ l : Loader numWorkers,
        Run (step (Config.ofRank disk shardPaths worldSize capacity rank)) Any
          (Loader.init numWorkers) (es rank) l) →
      ((List.range worldSize).flatMap fun rank => returned (es rank)).Perm
        (shardPaths.flatMap (shardSamples disk)) := by
  refine ⟨fun rank _ es l hrun => ?_, fun es hall => ?_⟩
  · have hinv := inv_run hworkers hrun
    exact ⟨hinv.subperm, none_after hworkers hrun, hinv.progress hcapacity,
      hinv.reaches_none hcapacity⟩
  · have hranks : ((List.range worldSize).flatMap fun rank => returned (es rank)).Perm
        ((List.range worldSize).flatMap fun rank =>
          (shardsOfRank shardPaths worldSize rank).flatMap (shardSamples disk)) := by
      refine List.Perm.flatMap_left _ fun rank hrank => ?_
      obtain ⟨hnone, l, hrun⟩ := hall rank (List.mem_range.mp hrank)
      exact returned_perm hworkers hrun hnone
    refine hranks.trans ?_
    rw [← List.flatMap_assoc]
    exact (shardsOfRank_perm shardPaths hworld).flatMap_right _

/-- The first of two files is a shard, and the second is missing. -/
def oneShard (path : Str) : Option Str :=
  if path = [97] then some (writeShard twoSamples) else none

/-- Rank 0 of one with both files gets to the end with two workers and room for one sample. -/
theorem dataLoader_delivery_one :
    ∃ es, ∃ l : Loader 2, Run (step (Config.ofRank oneShard [[97], [98]] 1 1 0)) Any
      (Loader.init 2) es l ∧ none ∈ es :=
  ((dataLoader_delivery oneShard [[97], [98]] 1 2 1 (by decide) (by decide) (by decide)).1 0
    (by decide) [] (Loader.init 2) .refl).2.2.2

end CrossMachine.DataLoading
