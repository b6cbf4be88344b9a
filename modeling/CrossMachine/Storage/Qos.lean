import CrossMachine.Lib.StrictOrder
import CrossMachine.Tenancy.FairScheduler
import Mathlib.Algebra.Order.Field.Basic
import Mathlib.Algebra.Order.Field.Rat
import Mathlib.Tactic.Ring

/-!
# Bandwidth and quota for storage requests

`StorageQosScheduler` puts a token bucket for each tenant on top of an unchanged `FairScheduler`.
A request passes two gates: the scheduler's quota on queued tasks, then the bucket. Passing the
first one is queueing, and nothing takes the request back when the second one fails. So a
throttled request occupies quota and is run by the next `drain`, and a rejection leaves queues and
buckets alone exactly when it is the quota that rejects (`rejected_untouched_iff`).

The buckets are over exact arithmetic. What has been admitted and what is left in the bucket is
bounded by what has ever been put in (`Within`): one second's worth at the registration, and
since then at most what the elapsed time is worth. The cap only takes away.
-/

namespace CrossMachine.Storage

open Tenancy

structure StorageTenantConfig (K : Type) where
  priority : Int
  weight : Int
  quota : Nat
  bandwidthBytesSec : K

structure StorageIoStats where
  requestsSubmitted : Nat := 0
  requestsRejectedQuota : Nat := 0
  bytesAdmitted : Nat := 0
  bytesThrottled : Nat := 0
  deriving DecidableEq, Repr

/-- The tasks of the scheduler do nothing, so they are told apart by their tenant only. -/
structure StorageQosScheduler (ν K : Type) where
  scheduler : FairScheduler ν Unit
  configs : ν → Option (StorageTenantConfig K)
  buckets : ν → Option K
  stats : ν → Option StorageIoStats
  /-- `registerTenant` writes both maps, and nothing else adds to either. -/
  keys : ∀ name, (buckets name).isSome = (configs name).isSome

namespace StorageQosScheduler

variable {ν K : Type}

/-- A new scheduler. -/
def new : StorageQosScheduler ν K :=
  ⟨.new, fun _ => none, fun _ => none, fun _ => none, fun _ => rfl⟩

variable [DecidableEq ν]

def registerTenant (s : StorageQosScheduler ν K) (name : ν) (config : StorageTenantConfig K) :
    StorageQosScheduler ν K where
  scheduler := s.scheduler.registerTenant name ⟨config.priority, config.weight, config.quota⟩
  configs := Function.update s.configs name (some config)
  buckets := Function.update s.buckets name (some config.bandwidthBytesSec)
  stats := s.stats
  keys k := by
    by_cases hk : k = name
    · rw [hk, Function.update_self, Function.update_self]; rfl
    · rw [Function.update_of_ne hk, Function.update_of_ne hk, s.keys]

/-- A write to a bucket that is there. -/
def setBucket (s : StorageQosScheduler ν K) (name : ν) (bucket : K)
    (h : (s.buckets name).isSome) : StorageQosScheduler ν K where
  scheduler := s.scheduler
  configs := s.configs
  buckets := Function.update s.buckets name (some bucket)
  stats := s.stats
  keys k := by
    by_cases hk : k = name
    · rw [hk, Function.update_self, ← s.keys, h]; rfl
    · rw [Function.update_of_ne hk, s.keys]

/-- `stats_[name]`, changed. -/
def countStats (s : StorageQosScheduler ν K) (name : ν) (f : StorageIoStats → StorageIoStats) :
    StorageQosScheduler ν K :=
  { s with stats := Function.update s.stats name (some (f ((s.stats name).getD {}))) }

omit [DecidableEq ν] in
/-- A refill leaves the buckets that there are. -/
theorem keys_tick (s : StorageQosScheduler ν K) (f : StorageTenantConfig K → K → K) (name : ν) :
    (((s.configs name).bind fun config => (s.buckets name).map (f config)).isSome) =
      (s.configs name).isSome := by
  have hkeys := s.keys name
  cases hc : s.configs name with
  | none => rfl
  | some config =>
      rw [hc] at hkeys
      rw [Option.bind_some, Option.isSome_map]
      exact hkeys

variable [Field K] [LinearOrder K]

/-- `tick`. Every bucket has a config, so `configs_.at` does not throw. -/
def tick (s : StorageQosScheduler ν K) (elapsedSec : K) : StorageQosScheduler ν K where
  scheduler := s.scheduler
  configs := s.configs
  buckets name := (s.configs name).bind fun config => (s.buckets name).map fun bucket =>
    min config.bandwidthBytesSec (bucket + config.bandwidthBytesSec * elapsedSec)
  stats := s.stats
  keys := keys_tick s _

/-- `submit`: the answer, or nothing if it throws, and what it leaves. -/
def submit (s : StorageQosScheduler ν K) (tenant : ν) (bytes : Nat) :
    Option Bool × StorageQosScheduler ν K :=
  match s.scheduler.submit tenant () with
  | none => (none, s)
  | some (queued, scheduler) =>
      let s := { s with scheduler }.countStats tenant fun st =>
        { st with requestsSubmitted := st.requestsSubmitted + 1 }
      if !queued then
        (some false, s.countStats tenant fun st =>
          { st with requestsRejectedQuota := st.requestsRejectedQuota + 1 })
      else
        match h : s.buckets tenant with
        | none => (none, s)
        | some bucket =>
            if (bytes : K) ≤ bucket then
              (some true, (s.setBucket tenant (bucket - bytes) (by rw [h]; rfl)).countStats tenant
                fun st => { st with bytesAdmitted := (st.bytesAdmitted + bytes) % 2 ^ 64 })
            else
              (some false, s.countStats tenant fun st =>
                { st with bytesThrottled := (st.bytesThrottled + bytes) % 2 ^ 64 })

/-- `drain`, where the scheduler's `run` ends after at most `fuel` passes a class. -/
def drain (fuel : Nat) (s : StorageQosScheduler ν K) : Option (StorageQosScheduler ν K) :=
  (s.scheduler.run fuel).map fun r => { s with scheduler := r.1 }

/-! ## Rejections -/

section

variable {s s' : StorageQosScheduler ν K} {tenant name : ν} {bytes : Nat}

/-- The queues and the buckets are as they were. -/
def Untouched (s s' : StorageQosScheduler ν K) : Prop :=
  s'.scheduler.queue = s.scheduler.queue ∧ s'.buckets = s.buckets

/-- The scheduler's quota lets no further task of the tenant in. -/
def AtQuota (s : StorageQosScheduler ν K) (tenant : ν) : Prop :=
  ∃ tq, s.scheduler.tenants tenant = some tq ∧ tq.config.quota ≤ tq.tasks.length

omit [Field K] [LinearOrder K] in
theorem submit_scheduler_cases (s : StorageQosScheduler ν K) (tenant : ν) :
    (s.scheduler.tenants tenant = none ∧ s.scheduler.submit tenant () = none) ∨
    (s.AtQuota tenant ∧ ∃ scheduler, s.scheduler.submit tenant () = some (false, scheduler) ∧
      scheduler.queue = s.scheduler.queue) ∨
    ((s.scheduler.tenants tenant).isSome ∧ ¬ s.AtQuota tenant ∧
      ∃ scheduler, s.scheduler.submit tenant () = some (true, scheduler) ∧
        scheduler.queue =
          Function.update s.scheduler.queue tenant (s.scheduler.queue tenant ++ [()])) := by
  cases htq : s.scheduler.tenants tenant with
  | none => exact .inl ⟨rfl, by rw [FairScheduler.submit, htq]; rfl⟩
  | some tq =>
      have hqueue : s.scheduler.queue tenant = tq.tasks := by
        rw [FairScheduler.queue, FairScheduler.tenant, htq]
        rfl
      simp only [FairScheduler.submit, htq, Option.bind_eq_bind, Option.bind_some, ge_iff_le]
      by_cases hfull : tq.config.quota ≤ tq.tasks.length
      · rw [if_pos hfull]
        refine .inr (.inl ⟨⟨tq, htq, hfull⟩, _, rfl, ?_⟩)
        rw [FairScheduler.queue_setTenant, ← hqueue, Function.update_eq_self]
      · rw [if_neg hfull]
        refine .inr (.inr ⟨rfl, ?_, _, rfl, ?_⟩)
        · rintro ⟨tq', htq', hfull'⟩
          obtain rfl : tq = tq' := Option.some.inj (htq.symm.trans htq')
          exact hfull hfull'
        · rw [FairScheduler.queue_setTenant, hqueue]

/-- What can come of a `submit`: it throws, the quota rejects it, or it is queued and the bucket
decides. -/
theorem submit_cases (s : StorageQosScheduler ν K) (tenant : ν) (bytes : Nat) :
    ((s.submit tenant bytes).1 = none ∧ (s.submit tenant bytes).2.buckets = s.buckets ∧
      (s.scheduler.tenants tenant = none ∨ s.buckets tenant = none)) ∨
    ((s.submit tenant bytes).1 = some false ∧ Untouched s (s.submit tenant bytes).2 ∧
      s.AtQuota tenant) ∨
    ∃ bucket, (s.scheduler.tenants tenant).isSome ∧ ¬ s.AtQuota tenant ∧
      s.buckets tenant = some bucket ∧
      (s.submit tenant bytes).1 = some (decide ((bytes : K) ≤ bucket)) ∧
      (s.submit tenant bytes).2.scheduler.queue =
        Function.update s.scheduler.queue tenant (s.scheduler.queue tenant ++ [()]) ∧
      (s.submit tenant bytes).2.buckets =
        if (bytes : K) ≤ bucket then Function.update s.buckets tenant (some (bucket - bytes))
        else s.buckets := by
  rcases s.submit_scheduler_cases tenant with ⟨hnone, hsubmit⟩ | ⟨hfull, sched, hsubmit, hq⟩ |
    ⟨hsome, hroom, sched, hsubmit, hq⟩
  · refine .inl ?_
    unfold submit
    rw [hsubmit]
    exact ⟨rfl, rfl, .inl hnone⟩
  · refine .inr (.inl ?_)
    unfold submit
    rw [hsubmit]
    exact ⟨rfl, ⟨hq, rfl⟩, hfull⟩
  · unfold submit
    rw [hsubmit]
    simp only [Bool.not_true, Bool.false_eq_true, if_false]
    split
    · next hb => exact .inl ⟨rfl, rfl, .inr hb⟩
    · next bucket hb =>
        refine .inr (.inr ⟨bucket, hsome, hroom, hb, ?_⟩)
        split
        · next hle => exact ⟨by rw [decide_eq_true hle], hq, rfl⟩
        · next hnot => exact ⟨by rw [decide_eq_false hnot], hq, rfl⟩

/-- One tenant with ten bytes a second and room for one request. -/
def oneTenant : StorageQosScheduler Nat ℚ := new.registerTenant 0 ⟨0, 1, 1, 10⟩

end

/-! ## A sequence of calls -/

/-- A call; a `drain` comes with a number of passes that suffices for each class. -/
inductive QosCall (ν K : Type) where
  | registerTenant (name : ν) (config : StorageTenantConfig K)
  | tick (elapsedSec : K)
  | submit (tenant : ν) (bytes : Nat)
  | drain (fuel : Nat)

/-- A call that returns or throws, with the request it has admitted, if it has. -/
def apply (s : StorageQosScheduler ν K) :
    QosCall ν K → Option (StorageQosScheduler ν K × List (ν × Nat))
  | .registerTenant name config => some (s.registerTenant name config, [])
  | .tick elapsedSec => some (s.tick elapsedSec, [])
  | .submit tenant bytes =>
      some ((s.submit tenant bytes).2,
        if (s.submit tenant bytes).1 = some true then [(tenant, bytes)] else [])
  | .drain fuel => (s.drain fuel).map fun s' => (s', [])

def applyAll (s : StorageQosScheduler ν K) :
    List (QosCall ν K) → Option (StorageQosScheduler ν K × List (ν × Nat))
  | [] => some (s, [])
  | c :: cs => do
      let (s₁, acc₁) ← s.apply c
      let (s₂, acc₂) ← s₁.applyAll cs
      some (s₂, acc₁ ++ acc₂)

/-- The time a call lets pass. -/
def QosCall.elapsed : QosCall ν K → K
  | .tick elapsedSec => elapsedSec
  | _ => 0

/-- The time that passes in all. -/
def elapsed (cs : List (QosCall ν K)) : K := (cs.map QosCall.elapsed).sum

/-- The bytes admitted for a tenant. -/
def admitted (acc : List (ν × Nat)) (tenant : ν) : Nat :=
  ((acc.filter fun r => r.1 = tenant).map Prod.snd).sum

/-- The call registers the tenant. -/
def QosCall.Registers (c : QosCall ν K) (tenant : ν) : Prop :=
  ∃ config, c = .registerTenant tenant config

/-- What is in the tenant's bucket, with what has been taken out of it, is no more than one
second's worth and what the elapsed time is worth. -/
structure Within (s : StorageQosScheduler ν K) (tenant : ν) (config : StorageTenantConfig K)
    (time : K) (total : Nat) : Prop where
  configs : s.configs tenant = some config
  bucket : ∃ bucket, s.buckets tenant = some bucket ∧ 0 ≤ bucket ∧
    bucket ≤ config.bandwidthBytesSec ∧
    bucket + total ≤ config.bandwidthBytesSec * (1 + time)

section

variable {s s' : StorageQosScheduler ν K} {tenant : ν} {config : StorageTenantConfig K}
  {c : QosCall ν K} {cs : List (QosCall ν K)} {acc acc' : List (ν × Nat)} {time : K} {total : Nat}

omit [Field K] [LinearOrder K] in
theorem admitted_append :
    admitted (acc ++ acc') tenant = admitted acc tenant + admitted acc' tenant := by
  rw [admitted, List.filter_append, List.map_append, List.sum_append]
  rfl

theorem applyAll_cons_eq_some :
    s.applyAll (c :: cs) = some (s', acc) ↔ ∃ s₁ acc₁ acc₂, s.apply c = some (s₁, acc₁) ∧
      s₁.applyAll cs = some (s', acc₂) ∧ acc = acc₁ ++ acc₂ := by
  simp only [applyAll, Option.bind_eq_bind, Option.bind_eq_some_iff, Prod.exists,
    Option.some.injEq, Prod.mk.injEq]
  constructor
  · rintro ⟨s₁, acc₁, h₁, s₂, acc₂, h₂, rfl, rfl⟩
    exact ⟨s₁, acc₁, acc₂, h₁, h₂, rfl⟩
  · rintro ⟨s₁, acc₁, acc₂, h₁, h₂, rfl⟩
    exact ⟨s₁, acc₁, h₁, s', acc₂, h₂, rfl, rfl⟩

theorem applyAll_append {cs' : List (QosCall ν K)} (h : s.applyAll (cs ++ cs') = some (s', acc)) :
    ∃ s₁ acc₁ acc₂, s.applyAll cs = some (s₁, acc₁) ∧ s₁.applyAll cs' = some (s', acc₂) ∧
      acc = acc₁ ++ acc₂ := by
  induction cs generalizing s acc with
  | nil => exact ⟨s, [], acc, rfl, h, rfl⟩
  | cons c cs ih =>
      rw [List.cons_append] at h
      obtain ⟨s₁, acc₁, acc₂, h₁, h₂, rfl⟩ := applyAll_cons_eq_some.mp h
      obtain ⟨s₂, acc₃, acc₄, h₃, h₄, rfl⟩ := ih h₂
      exact ⟨s₂, acc₁ ++ acc₃, acc₄, applyAll_cons_eq_some.mpr ⟨s₁, acc₁, acc₃, h₁, h₃, rfl⟩, h₄,
        (List.append_assoc ..).symm⟩

/-! ## The bucket along a run -/

theorem submit_configs (s : StorageQosScheduler ν K) (name : ν) (bytes : Nat) :
    (s.submit name bytes).2.configs = s.configs := by
  unfold submit
  split
  · rfl
  · dsimp only
    split
    · rfl
    · split
      · rfl
      · split <;> rfl

/-- What a submit takes out of a bucket is what it admits. -/
theorem submit_buckets (s : StorageQosScheduler ν K) (name tenant : ν) (bytes : Nat) :
    ((s.submit name bytes).2.buckets tenant = s.buckets tenant ∧
      ((s.submit name bytes).1 = some true → name ≠ tenant)) ∨
    name = tenant ∧ ∃ bucket : K, s.buckets tenant = some bucket ∧ (bytes : K) ≤ bucket ∧
      (s.submit name bytes).1 = some true ∧
      (s.submit name bytes).2.buckets tenant = some (bucket - bytes) := by
  rcases s.submit_cases name bytes with ⟨hans, hsame, -⟩ | ⟨hans, ⟨-, hsame⟩, -⟩ |
    ⟨bucket, -, -, hb, hans, -, hbuckets⟩
  · exact .inl ⟨congrFun hsame tenant, fun h => by rw [hans] at h; cases h⟩
  · exact .inl ⟨congrFun hsame tenant, fun h => by rw [hans] at h; cases h⟩
  · by_cases hle : (bytes : K) ≤ bucket
    · rw [if_pos hle] at hbuckets
      rw [decide_eq_true hle] at hans
      by_cases hname : name = tenant
      · subst hname
        exact .inr ⟨rfl, bucket, hb, hle, hans, by rw [hbuckets, Function.update_self]⟩
      · exact .inl ⟨by rw [hbuckets, Function.update_of_ne (Ne.symm hname)], fun _ => hname⟩
    · rw [if_neg hle] at hbuckets
      rw [decide_eq_false hle] at hans
      exact .inl ⟨congrFun hbuckets tenant, fun h => by rw [hans] at h; cases h⟩

omit [Field K] [LinearOrder K] in
theorem admitted_of_ne {name : ν} {bytes : Nat} (h : name ≠ tenant) :
    admitted [(name, bytes)] tenant = 0 := by
  simp [admitted, h]

theorem admitted_submit {name : ν} {bytes : Nat} :
    admitted (if (s.submit name bytes).1 = some true then [(name, bytes)] else []) tenant =
      if name = tenant ∧ (s.submit name bytes).1 = some true then bytes else 0 := by
  by_cases hans : (s.submit name bytes).1 = some true
  · rw [if_pos hans]
    by_cases hname : name = tenant
    · rw [if_pos ⟨hname, hans⟩]
      simp [admitted, hname]
    · rw [if_neg fun h => hname h.1, admitted_of_ne hname]
  · rw [if_neg hans, if_neg fun h => hans h.2]
    rfl

theorem Within.registered (s : StorageQosScheduler ν K) (tenant : ν)
    (hbw : 0 ≤ config.bandwidthBytesSec) :
    Within (s.registerTenant tenant config) tenant config 0 0 where
  configs := Function.update_self ..
  bucket := ⟨_, Function.update_self .., hbw, le_rfl, by simp⟩

variable [IsStrictOrderedRing K]

open scoped CrossMachine.Lib.StrictOrder

omit [DecidableEq ν] in
theorem Within.tick (hw : Within s tenant config time total) {elapsedSec : K}
    (hpos : 0 ≤ elapsedSec) :
    Within (s.tick elapsedSec) tenant config (time + elapsedSec) total := by
  obtain ⟨bucket, hb, hnonneg, hcap, htotal⟩ := hw.bucket
  have hrefill : 0 ≤ config.bandwidthBytesSec * elapsedSec :=
    mul_nonneg (hnonneg.trans hcap) hpos
  refine ⟨hw.configs, _, ?_, le_min (hnonneg.trans hcap) (add_nonneg hnonneg hrefill),
    min_le_left _ _, ?_⟩
  · simp only [StorageQosScheduler.tick, hw.configs, hb, Option.bind_some, Option.map_some]
  · calc min config.bandwidthBytesSec (bucket + config.bandwidthBytesSec * elapsedSec) + total
        ≤ bucket + config.bandwidthBytesSec * elapsedSec + total :=
          add_le_add_left (min_le_right _ _) _
      _ = bucket + total + config.bandwidthBytesSec * elapsedSec := by ring
      _ ≤ config.bandwidthBytesSec * (1 + time) + config.bandwidthBytesSec * elapsedSec :=
          add_le_add_left htotal _
      _ = config.bandwidthBytesSec * (1 + (time + elapsedSec)) := by ring

theorem Within.submit (hw : Within s tenant config time total) (name : ν) (bytes : Nat) :
    Within (s.submit name bytes).2 tenant config time
      (total + if name = tenant ∧ (s.submit name bytes).1 = some true then bytes else 0) := by
  obtain ⟨bucket, hb, hnonneg, hcap, htotal⟩ := hw.bucket
  refine ⟨by rw [submit_configs, hw.configs], ?_⟩
  rcases s.submit_buckets name tenant bytes with ⟨hsame, hother⟩ |
    ⟨rfl, bucket', hb', hle, hans, htaken⟩
  · rw [if_neg fun h => hother h.2 h.1, Nat.add_zero]
    exact ⟨bucket, hsame.trans hb, hnonneg, hcap, htotal⟩
  · obtain rfl : bucket = bucket' := Option.some.inj (hb.symm.trans hb')
    rw [if_pos ⟨rfl, hans⟩]
    refine ⟨_, htaken, sub_nonneg.mpr hle,
      (sub_le_self bucket (Nat.cast_nonneg bytes)).trans hcap, ?_⟩
    calc bucket - bytes + ((total + bytes : Nat) : K) = bucket + total := by push_cast; ring
      _ ≤ _ := htotal

/-- One call keeps the account. -/
theorem Within.apply (hw : Within s tenant config time total) (hc : ¬ c.Registers tenant)
    (hpos : 0 ≤ c.elapsed) (h : s.apply c = some (s', acc)) :
    Within s' tenant config (time + c.elapsed) (total + admitted acc tenant) := by
  cases c with
  | registerTenant name config' =>
      obtain ⟨rfl, rfl⟩ := Prod.mk.inj (Option.some.inj h)
      have hne : tenant ≠ name := fun heq => hc ⟨config', by rw [heq]⟩
      obtain ⟨bucket, hb, hbounds⟩ := hw.bucket
      refine ⟨?_, bucket, ?_, by simpa [QosCall.elapsed, admitted] using hbounds⟩
      · exact (Function.update_of_ne hne _ _).trans hw.configs
      · exact (Function.update_of_ne hne _ _).trans hb
  | tick elapsedSec =>
      obtain ⟨rfl, rfl⟩ := Prod.mk.inj (Option.some.inj h)
      exact hw.tick hpos
  | submit name bytes =>
      obtain ⟨rfl, rfl⟩ := Prod.mk.inj (Option.some.inj h)
      have hnow : (QosCall.submit name bytes : QosCall ν K).elapsed = 0 := rfl
      rw [admitted_submit, hnow, add_zero]
      exact hw.submit name bytes
  | drain fuel =>
      obtain ⟨t, ht, heq⟩ := Option.map_eq_some_iff.mp h
      obtain ⟨rfl, rfl⟩ := Prod.mk.inj heq
      obtain ⟨r, -, rfl⟩ := Option.map_eq_some_iff.mp ht
      have hnow : (QosCall.drain fuel : QosCall ν K).elapsed = 0 := rfl
      rw [hnow, add_zero]
      exact ⟨hw.configs, hw.bucket⟩

/-- And so does a sequence of them. -/
theorem Within.applyAll (hw : Within s tenant config time total)
    (hcs : ∀ c ∈ cs, ¬ c.Registers tenant) (hpos : ∀ c ∈ cs, 0 ≤ c.elapsed)
    (h : s.applyAll cs = some (s', acc)) :
    Within s' tenant config (time + elapsed cs) (total + admitted acc tenant) := by
  induction cs generalizing s time total acc with
  | nil =>
      obtain ⟨rfl, rfl⟩ := Prod.mk.inj (Option.some.inj h)
      simpa [elapsed, admitted] using hw
  | cons c cs ih =>
      obtain ⟨s₁, acc₁, acc₂, h₁, h₂, rfl⟩ := applyAll_cons_eq_some.mp h
      obtain ⟨hc, hcs⟩ := List.forall_mem_cons.mp hcs
      obtain ⟨hp, hpos⟩ := List.forall_mem_cons.mp hpos
      have hrest := ih (hw.apply hc hp h₁) hcs hpos h₂
      rw [elapsed, List.map_cons, List.sum_cons, ← add_assoc, admitted_append, ← Nat.add_assoc]
      exact hrest

end

section

variable {s s' : StorageQosScheduler ν K} {tenant : ν} {c : QosCall ν K} {cs : List (QosCall ν K)}
  {acc : List (ν × Nat)}

/-- A tenant without a bucket gets nothing and keeps having none. -/
theorem apply_unregistered (hb : s.buckets tenant = none) (hc : ¬ c.Registers tenant)
    (h : s.apply c = some (s', acc)) : s'.buckets tenant = none ∧ admitted acc tenant = 0 := by
  cases c with
  | registerTenant name config =>
      obtain ⟨rfl, rfl⟩ := Prod.mk.inj (Option.some.inj h)
      have hne : tenant ≠ name := fun heq => hc ⟨config, by rw [heq]⟩
      exact ⟨(Function.update_of_ne hne _ _).trans hb, rfl⟩
  | tick elapsedSec =>
      obtain ⟨rfl, rfl⟩ := Prod.mk.inj (Option.some.inj h)
      refine ⟨?_, rfl⟩
      simp only [tick, hb, Option.map_none]
      cases s.configs tenant <;> rfl
  | submit name bytes =>
      obtain ⟨rfl, rfl⟩ := Prod.mk.inj (Option.some.inj h)
      rw [admitted_submit]
      rcases s.submit_buckets name tenant bytes with ⟨hsame, hother⟩ | ⟨-, bucket, hb', -⟩
      · exact ⟨hsame.trans hb, if_neg fun h => hother h.2 h.1⟩
      · rw [hb] at hb'
        cases hb'
  | drain fuel =>
      obtain ⟨t, ht, heq⟩ := Option.map_eq_some_iff.mp h
      obtain ⟨rfl, rfl⟩ := Prod.mk.inj heq
      obtain ⟨r, -, rfl⟩ := Option.map_eq_some_iff.mp ht
      exact ⟨hb, rfl⟩

theorem applyAll_unregistered (hb : s.buckets tenant = none)
    (hcs : ∀ c ∈ cs, ¬ c.Registers tenant) (h : s.applyAll cs = some (s', acc)) :
    admitted acc tenant = 0 := by
  induction cs generalizing s acc with
  | nil =>
      obtain ⟨rfl, rfl⟩ := Prod.mk.inj (Option.some.inj h)
      rfl
  | cons c cs ih =>
      obtain ⟨s₁, acc₁, acc₂, h₁, h₂, rfl⟩ := applyAll_cons_eq_some.mp h
      obtain ⟨hc, hcs⟩ := List.forall_mem_cons.mp hcs
      obtain ⟨hb₁, hnone⟩ := apply_unregistered hb hc h₁
      rw [admitted_append, hnone, ih hb₁ hcs h₂]

end

/-- **The token bucket holds.** In every run that registers a tenant once, its bucket is between
zero and the bandwidth, and what has been admitted for it is at most what the bandwidth is worth
over the time since then and one second more. -/
theorem bucket_within [IsStrictOrderedRing K] {before after : List (QosCall ν K)} {tenant : ν}
    {config : StorageTenantConfig K} {s : StorageQosScheduler ν K} {acc : List (ν × Nat)}
    (h : new.applyAll (before ++ .registerTenant tenant config :: after) = some (s, acc))
    (honce : ∀ c ∈ before ++ after, ¬ c.Registers tenant)
    (hbw : 0 ≤ config.bandwidthBytesSec) (hpos : ∀ c ∈ before ++ after, 0 ≤ c.elapsed) :
    (∃ bucket, s.buckets tenant = some bucket ∧ 0 ≤ bucket ∧
      bucket ≤ config.bandwidthBytesSec) ∧
    (admitted acc tenant : K) ≤ config.bandwidthBytesSec * (1 + elapsed after) := by
  obtain ⟨s₁, acc₁, acc₂, h₁, h₂, rfl⟩ := applyAll_append h
  obtain ⟨s₂, acc₃, acc₄, h₃, h₄, rfl⟩ := applyAll_cons_eq_some.mp h₂
  obtain ⟨rfl, rfl⟩ := Prod.mk.inj (Option.some.inj h₃)
  have hnone := applyAll_unregistered rfl
    (fun c hc => honce c (List.mem_append_left _ hc)) h₁
  have hw := (Within.registered s₁ tenant hbw).applyAll
    (fun c hc => honce c (List.mem_append_right _ hc))
    (fun c hc => hpos c (List.mem_append_right _ hc)) h₄
  obtain ⟨bucket, hb, hnonneg, hcap, htotal⟩ := hw.bucket
  refine ⟨⟨bucket, hb, hnonneg, hcap⟩, ?_⟩
  simp only [zero_add] at htotal
  rw [admitted_append, hnone, Nat.zero_add, List.nil_append]
  exact (le_add_of_nonneg_left hnonneg).trans htotal

/-- Half a second in, five of ten bytes have been admitted. -/
theorem bucket_within_half :
    ∃ (s : StorageQosScheduler Nat ℚ) (acc : List (Nat × Nat)),
      new.applyAll ([] ++ .registerTenant 0 ⟨0, 1, 1, 10⟩ ::
        [.submit 0 5, .tick (1 / 2), .drain 1]) = some (s, acc) ∧ acc = [(0, 5)] ∧
      (∃ bucket, s.buckets 0 = some bucket ∧ 0 ≤ bucket ∧ bucket ≤ 10) ∧
      (admitted acc 0 : ℚ) ≤ 10 * (1 + elapsed [.submit 0 5, .tick (1 / 2), .drain 1]) := by
  have hplay : ((new : StorageQosScheduler Nat ℚ).applyAll ([] ++ .registerTenant 0 ⟨0, 1, 1, 10⟩ ::
      [.submit 0 5, .tick (1 / 2), .drain 1])).any (fun r => decide (r.2 = [(0, 5)])) = true := by
    decide +kernel
  obtain ⟨⟨s, acc⟩, hs, hacc⟩ := (Option.any_eq_true _ _).mp hplay
  refine ⟨s, acc, hs, of_decide_eq_true hacc, ?_⟩
  refine bucket_within hs ?_ (by norm_num) ?_
  · rintro c hc ⟨config, rfl⟩
    simp at hc
  · intro c hc
    simp only [List.nil_append, List.mem_cons, List.not_mem_nil, or_false] at hc
    rcases hc with rfl | rfl | rfl
    · exact le_rfl
    · exact one_half_pos.le
    · exact le_rfl

end StorageQosScheduler

end CrossMachine.Storage
