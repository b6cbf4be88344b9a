import CrossMachine.Tenancy.FairScheduler

/-!
# Fairness within a class

A pass over a class gives every tenant one turn, so after `k` passes each has had `k` turns, or
has run out of tasks before. Wherever the log is cut, everybody's count lies between `k` and
`k + 1` turns for one and the same `k` (`InRound`), and where a tenant still has tasks the bounds
are not cut off by the length of its queue. So two such tenants are at most one round apart.

The tenants of a class have to be registered once each: one that is registered twice has two
turns in a pass.
-/

namespace CrossMachine.Tenancy

open Lib

variable {ν τ : Type}

namespace FairScheduler

variable [DecidableEq ν] {s s' : FairScheduler ν τ} {log pre post : List (ν × τ)}
  {group : List ν} {name : ν} {fuel : Nat}

/-- The tasks that a tenant has in one turn. -/
def quantum (s : FairScheduler ν τ) (name : ν) : Nat := (s.weight name).toNat

/-- Everybody has had `k` turns, and nobody more than one more; whoever has not has run out of
tasks. -/
def InRound (s : FairScheduler ν τ) (group : List ν) (k : Nat) (log : List (ν × τ)) : Prop :=
  ∀ name ∈ group,
    min (k * s.quantum name) (s.queue name).length ≤ (taken log name).length ∧
      (taken log name).length ≤ min ((k + 1) * s.quantum name) (s.queue name).length

theorem Serves.quantum_eq {P : ν → Prop} (h : Serves P s s' log) (name : ν) :
    s'.quantum name = s.quantum name := by rw [quantum, h.weight_eq, quantum]

/-- Nothing of a tenant that is not served is in the log. -/
theorem Serves.taken_eq_nil {P : ν → Prop} (h : Serves P s s' log) (hname : ¬ P name) :
    taken log name = [] := by
  refine List.filterMap_eq_nil_iff.mpr fun e he => if_neg ?_
  rintro rfl
  exact hname (h.within e he)

/-- A cut through two logs is a cut through the first, or through the second. -/
theorem cut_append {α : Type*} {xs ys pre post : List α} (h : xs ++ ys = pre ++ post) :
    (∃ rest, xs = pre ++ rest) ∨ ∃ pre', pre = xs ++ pre' ∧ ys = pre' ++ post := by
  rcases List.append_eq_append_iff.mp h with ⟨pre', rfl, hys⟩ | ⟨rest, hxs, -⟩
  · exact .inr ⟨pre', rfl, hys⟩
  · exact .inl ⟨rest, hxs⟩

/-! ## A pass -/

theorem queue_serve (s : FairScheduler ν τ) (name : ν) :
    (s.serve name).1.queue name = (s.queue name).drop (s.quantum name) := by
  rw [queue, serve, tenant_setTenant_self, turn_eq, Int.sub_zero]
  rfl

/-- A pass is one turn for everybody. -/
theorem queue_pass (hnodup : group.Nodup) (s : FairScheduler ν τ) (hname : name ∈ group) :
    (s.pass group).1.queue name = (s.queue name).drop (s.quantum name) := by
  induction group generalizing s with
  | nil => exact absurd hname List.not_mem_nil
  | cons k rest ih =>
      obtain ⟨hk, hrest⟩ := List.nodup_cons.mp hnodup
      have hserve := serves_serve s k
      have hlater := serves_pass (s.serve k).1 rest
      rw [pass]
      rcases List.mem_cons.mp hname with rfl | hname
      · have hkeep := hlater.drains name
        rw [hlater.taken_eq_nil hk, List.nil_append] at hkeep
        exact hkeep.trans (queue_serve s name)
      · have hne : name ≠ k := fun heq => hk (heq ▸ hname)
        have hkeep := hserve.drains name
        rw [hserve.taken_eq_nil hne, List.nil_append] at hkeep
        refine (ih hrest _ hname).trans ?_
        rw [hserve.quantum_eq, hkeep]

theorem length_taken_pass (hnodup : group.Nodup) (s : FairScheduler ν τ) (hname : name ∈ group) :
    (taken (s.pass group).2 name).length = min (s.quantum name) (s.queue name).length := by
  have hdrains := congrArg List.length ((serves_pass s group).drains name)
  rw [List.length_append, queue_pass hnodup s hname, List.length_drop] at hdrains
  omega

theorem length_taken_le (hname : (taken (pre ++ post) name).length ≤ fuel) :
    (taken pre name).length ≤ fuel := by
  rw [taken_append, List.length_append] at hname
  omega

/-! ## The passes over a class -/

theorem drainClass_inRound (hnodup : group.Nodup)
    (h : drainClass group fuel s = some (s', pre ++ post)) : ∃ k, InRound s group k pre := by
  induction fuel generalizing s s' pre post with
  | zero =>
      rw [drainClass] at h
      split at h
      · exact absurd h (by simp)
      · obtain ⟨-, hnil⟩ := Prod.mk.inj (Option.some.inj h)
        obtain ⟨rfl, -⟩ := List.append_eq_nil_iff.mp hnil.symm
        exact ⟨0, fun name _ => by simp⟩
  | succ fuel ih =>
      rw [drainClass] at h
      split at h
      · simp only [Option.bind_eq_bind, Option.bind_eq_some_iff, Option.some.injEq,
          Prod.mk.injEq] at h
        obtain ⟨⟨s₂, log₂⟩, hrest, -, hlog⟩ := h
        have hpass := serves_pass s group
        rcases cut_append hlog with ⟨rest, hcut⟩ | ⟨pre', rfl, rfl⟩
        · -- the cut is in the first pass
          refine ⟨0, fun name hname => ⟨by simp, ?_⟩⟩
          rw [Nat.zero_add, Nat.one_mul, ← length_taken_pass hnodup s hname, hcut]
          exact length_taken_le le_rfl
        · obtain ⟨k, hk⟩ := ih hrest
          refine ⟨k + 1, fun name hname => ?_⟩
          obtain ⟨hlow, hhigh⟩ := hk name hname
          have hfirst := length_taken_pass hnodup s hname
          rw [hpass.quantum_eq, queue_pass hnodup s hname, List.length_drop] at hlow hhigh
          rw [taken_append, List.length_append, hfirst]
          simp only [Nat.add_mul, Nat.one_mul] at hlow hhigh ⊢
          omega
      · obtain ⟨-, hnil⟩ := Prod.mk.inj (Option.some.inj h)
        obtain ⟨rfl, -⟩ := List.append_eq_nil_iff.mp hnil.symm
        exact ⟨0, fun name _ => by simp⟩

/-! ## All classes -/

omit [DecidableEq ν] in
theorem group_eq {prio : Int} (horder : s'.order = s.order)
    (hprio : ∀ k, s'.priority k = s.priority k) : s'.group prio = s.group prio := by
  rw [group, group, horder]
  exact List.filter_congr fun k _ => congrArg (fun p => decide (p = prio)) (hprio k)

/-- The other classes run before or after, and so in no round or when all is done. -/
theorem runClasses_inRound (hnodup : s.order.Nodup) {prio : Int} {prios : List Int}
    (hw : ∀ k ∈ s.group prio, 1 ≤ s.weight k) (hprios : prios.Nodup)
    (h : runClasses fuel prios s = some (s', pre ++ post)) :
    ∃ k, InRound s (s.group prio) k pre := by
  induction prios generalizing s s' pre post with
  | nil =>
      obtain ⟨-, hnil⟩ := Prod.mk.inj (Option.some.inj h)
      obtain ⟨rfl, -⟩ := List.append_eq_nil_iff.mp hnil.symm
      exact ⟨0, fun name _ => by simp⟩
  | cons prio' rest ih =>
      simp only [runClasses, Option.bind_eq_bind, Option.bind_eq_some_iff, Option.some.injEq,
        Prod.mk.injEq] at h
      obtain ⟨⟨s₁, log₁⟩, hclass, ⟨s₂, log₂⟩, hrest, -, hlog⟩ := h
      obtain ⟨hserves, hempty⟩ := drainClass_serves hclass
      obtain ⟨hnot, hrestNodup⟩ := List.nodup_cons.mp hprios
      have hgroup : ∀ p, s₁.group p = s.group p :=
        fun p => group_eq hserves.order hserves.priority_eq
      have hother : prio ≠ prio' → ∀ name ∈ s.group prio, taken log₁ name = [] := by
        intro hne name hname
        refine hserves.taken_eq_nil fun hin => hne ?_
        exact (mem_group.mp hname).2.symm.trans (mem_group.mp hin).2
      rcases cut_append hlog with ⟨cut, rfl⟩ | ⟨pre', rfl, rfl⟩
      · by_cases hprio : prio = prio'
        · exact hprio ▸ drainClass_inRound (hnodup.filter _) hclass
        · refine ⟨0, fun name hname => ?_⟩
          have hnil := hother hprio name hname
          rw [taken_append, List.append_eq_nil_iff] at hnil
          simp [hnil.1]
      · by_cases hprio : prio = prio'
        · -- all is done, so any number of rounds will do that is large enough
          subst hprio
          obtain ⟨hserves', -, -⟩ := runClasses_serves hrest
          refine ⟨(s.order.map fun k => (s.queue k).length).sum, fun name hname => ?_⟩
          have hall := hserves.drains.taken_eq (hempty name hname)
          have hnone : taken pre' name = [] := by
            have hnil : taken (pre' ++ post) name = [] := hserves'.taken_eq_nil fun hin => by
              rw [hserves.priority_eq, (mem_group.mp hname).2] at hin
              exact hnot hin.2
            rw [taken_append, List.append_eq_nil_iff] at hnil
            exact hnil.1
          have hle : (s.queue name).length ≤
              (s.order.map fun k => (s.queue k).length).sum :=
            List.le_sum_of_mem (List.mem_map_of_mem (mem_group.mp hname).1)
          have hquantum : 1 ≤ s.quantum name := by
            have := hw name hname
            rw [quantum]
            omega
          have hmul := Nat.mul_le_mul hle hquantum
          rw [Nat.mul_one] at hmul
          rw [taken_append, hnone, List.append_nil, hall, Nat.add_mul]
          omega
        · obtain ⟨k, hk⟩ := ih (by rwa [hserves.order])
            (fun name hname => by rw [hserves.weight_eq]; exact hw name (hgroup _ ▸ hname))
            hrestNodup hrest
          refine ⟨k, fun name hname => ?_⟩
          have hin := hk name (by rwa [hgroup])
          have hkeep := hserves.drains name
          rw [hother hprio name hname, List.nil_append] at hkeep
          rw [hserves.quantum_eq, hkeep] at hin
          rw [taken_append, hother hprio name hname, List.nil_append]
          exact hin

/-- The complete rounds that a tenant with tasks left has had. -/
theorem InRound.rounds {k : Nat} (h : InRound s group k log) (hname : name ∈ group)
    (hw : 1 ≤ s.weight name) (hleft : (taken log name).length < (s.queue name).length) :
    (taken log name).length / (s.weight name).toNat = k ∨
      (taken log name).length / (s.weight name).toNat = k + 1 := by
  obtain ⟨hlow, hhigh⟩ := h name hname
  rw [quantum] at hlow hhigh
  have hpos : 0 < (s.weight name).toNat := by omega
  have hge : k ≤ (taken log name).length / (s.weight name).toNat :=
    (Nat.le_div_iff_mul_le hpos).mpr (by omega)
  have hle : (taken log name).length / (s.weight name).toNat ≤ k + 1 := by
    rw [← Nat.lt_succ_iff, Nat.div_lt_iff_lt_mul hpos, Nat.succ_mul]
    omega
  omega

/-! ## The run -/

/-- The tenants of one class go through their rounds together. -/
theorem run_inRound (hnodup : s.order.Nodup) (hw : ∀ k ∈ s.order, 1 ≤ s.weight k)
    (h : s.run fuel = some (s', pre ++ post)) (prio : Int) :
    ∃ k, InRound s (s.group prio) k pre := by
  have hprios : s.priorities.Nodup :=
    (priorities_spec s).2.imp fun hgt => (ne_of_lt hgt).symm
  exact runClasses_inRound hnodup (fun k hk => hw k (mem_group.mp hk).1) hprios h

/-- **Weighted fairness.** `run` ends, and wherever its execution order is cut, two tenants of
one priority that both have tasks left are at most one complete round apart. -/
theorem run_fair (hnodup : s.order.Nodup) (hw : ∀ k ∈ s.order, 1 ≤ s.weight k) :
    (∃ fuel, (s.run fuel).isSome) ∧
      ∀ fuel s' pre post, s.run fuel = some (s', pre ++ post) →
        ∀ a ∈ s.order, ∀ b ∈ s.order, s.priority a = s.priority b →
          (taken pre a).length < (s.queue a).length →
          (taken pre b).length < (s.queue b).length →
          (taken pre a).length / (s.weight a).toNat ≤
              (taken pre b).length / (s.weight b).toNat + 1 ∧
            (taken pre b).length / (s.weight b).toNat ≤
              (taken pre a).length / (s.weight a).toNat + 1 := by
  refine ⟨⟨(s.order.map fun k => (s.queue k).length).sum, ?_⟩, ?_⟩
  · exact runClasses_isSome (fun k hk _ => hw k hk)
      fun k hk => List.le_sum_of_mem (List.mem_map_of_mem hk)
  · intro fuel s' pre post hrun a ha b hb hprio hlefta hleftb
    obtain ⟨k, hround⟩ := run_inRound hnodup hw hrun (s.priority b)
    have hrounda := hround.rounds (mem_group.mpr ⟨ha, hprio⟩) (hw a ha) hlefta
    have hroundb := hround.rounds (mem_group.mpr ⟨hb, rfl⟩) (hw b hb) hleftb
    omega

/-- Weights two and one, with three tasks each. -/
def uneven : FairScheduler Nat Nat where
  tenants name :=
    if name = 0 then some { config := ⟨1, 2, 3⟩, tasks := [10, 11, 12] }
    else if name = 1 then some { config := ⟨1, 1, 3⟩, tasks := [20, 21, 22] }
    else none
  order := [0, 1]

theorem run_fair_uneven :
    ∃ s', uneven.run 3 = some (s', [(0, 10), (0, 11)] ++ [(1, 20), (0, 12), (1, 21), (1, 22)]) ∧
      2 / (uneven.weight 0).toNat ≤ 0 / (uneven.weight 1).toNat + 1 := by
  have hlog : (uneven.run 3).map Prod.snd =
      some ([(0, 10), (0, 11)] ++ [(1, 20), (0, 12), (1, 21), (1, 22)]) := by
    decide +kernel
  obtain ⟨⟨s', log⟩, hrun, rfl⟩ := Option.map_eq_some_iff.mp hlog
  have hfair := run_fair (s := uneven) (by decide) (by decide)
  exact ⟨s', hrun, (hfair.2 3 s' _ _ hrun 0 (by decide) 1 (by decide) rfl (by decide)
    (by decide)).1⟩

end FairScheduler

end CrossMachine.Tenancy
