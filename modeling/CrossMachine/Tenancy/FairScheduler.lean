import CrossMachine.Lib.Drain
import Mathlib.Algebra.Order.BigOperators.Group.List
import Mathlib.Algebra.Order.Group.Nat
import Mathlib.Tactic.Tauto

/-!
# The fair scheduler

`FairScheduler`: tenants register with a priority, a weight and a quota, submit
tasks, and `run` executes what is queued, class by class from the highest
priority down, and round-robin within a class with `weight` tasks a turn.

A task is opaque: running it only puts it into the log. The loop over the passes
of a class has no bound of its own, so it takes one here and is `none` when that
does not suffice.

`run` does what it is for under two conditions that the class does not check. A
tenant with tasks in its queue must have a positive weight, or its class never
ends; and nobody may register a tenant whose queue is not empty, since that
replaces the queue.
-/

namespace CrossMachine.Tenancy

open Lib

structure TenantConfig where
  priority : Int
  weight : Int
  quota : Nat
  deriving DecidableEq, Repr

structure TenantStats where
  submitted : Nat := 0
  rejected : Nat := 0
  completed : Nat := 0
  deriving DecidableEq, Repr

structure TenantQueue (τ : Type) where
  config : TenantConfig
  tasks : List τ := []
  stats : TenantStats := {}
  deriving DecidableEq, Repr

variable {ν τ : Type}

structure FairScheduler (ν τ : Type) where
  /-- `tenants_`. -/
  tenants : ν → Option (TenantQueue τ)
  /-- `order_`: names as they were registered, again for each registration. -/
  order : List ν

variable {name : ν} {fuel : Nat}

namespace FairScheduler

/-- A new scheduler. -/
def new : FairScheduler ν τ := ⟨fun _ => none, []⟩

/-- `tenants_[name]` where no entry has to be created, else what is created. -/
def tenant (s : FairScheduler ν τ) (name : ν) : TenantQueue τ :=
  (s.tenants name).getD { config := ⟨0, 0, 0⟩ }

section Ops

variable [DecidableEq ν]

def setTenant (s : FairScheduler ν τ) (name : ν) (tq : TenantQueue τ) : FairScheduler ν τ :=
  { s with tenants := Function.update s.tenants name (some tq) }

def registerTenant (s : FairScheduler ν τ) (name : ν) (config : TenantConfig) :
    FairScheduler ν τ :=
  { s.setTenant name { config := config } with order := s.order ++ [name] }

/-- `submit`: the answer and the state. An unknown name throws. -/
def submit (s : FairScheduler ν τ) (name : ν) (task : τ) : Option (Bool × FairScheduler ν τ) := do
  let tq ← s.tenants name
  if tq.tasks.length ≥ tq.config.quota then
    some (false, s.setTenant name { tq with
      stats := { tq.stats with rejected := tq.stats.rejected + 1 } })
  else
    some (true, s.setTenant name { tq with
      tasks := tq.tasks ++ [task]
      stats := { tq.stats with submitted := tq.stats.submitted + 1 } })

/-- The loop over `i` that gives a tenant its turn: the tasks run and the tasks left. -/
def turn (weight : Int) (i : Int) : List τ → List τ × List τ
  | [] => ([], [])
  | task :: rest =>
      if i < weight then
        let (ran, left) := turn weight (i + 1) rest
        (task :: ran, left)
      else ([], task :: rest)

/-- One tenant of a pass, with the log of what ran. -/
def serve (s : FairScheduler ν τ) (name : ν) : FairScheduler ν τ × List (ν × τ) :=
  let tq := s.tenant name
  let (ran, left) := turn tq.config.weight 0 tq.tasks
  (s.setTenant name { tq with
      tasks := left
      stats := { tq.stats with completed := tq.stats.completed + ran.length } },
    ran.map fun task => (name, task))

/-- One pass over the tenants of a class. -/
def pass (s : FairScheduler ν τ) : List ν → FairScheduler ν τ × List (ν × τ)
  | [] => (s, [])
  | name :: rest =>
      let (s₁, log₁) := s.serve name
      let (s₂, log₂) := s₁.pass rest
      (s₂, log₁ ++ log₂)

/-- The passes over a class, at most `fuel` of them with something left to run. -/
def drainClass (group : List ν) : Nat → FairScheduler ν τ →
    Option (FairScheduler ν τ × List (ν × τ))
  | fuel, s =>
      if group.any fun name => !(s.tenant name).tasks.isEmpty then
        match fuel with
        | 0 => none
        | fuel + 1 => do
            let (s₁, log₁) := s.pass group
            let (s₂, log₂) ← drainClass group fuel s₁
            some (s₂, log₁ ++ log₂)
      else some (s, [])

/-- `std::set<int, std::greater<int>>::insert`. -/
def insertPriority (p : Int) : List Int → List Int
  | [] => [p]
  | q :: qs => if q < p then p :: q :: qs else if q = p then q :: qs else q :: insertPriority p qs

/-- The priorities of the tenants, highest first. -/
def priorities (s : FairScheduler ν τ) : List Int :=
  s.order.foldl (fun ps name => insertPriority (s.tenant name).config.priority ps) []

/-- The tenants of one class, in registration order. -/
def group (s : FairScheduler ν τ) (prio : Int) : List ν :=
  s.order.filter fun name => decide ((s.tenant name).config.priority = prio)

/-- The classes, in the order given. -/
def runClasses (fuel : Nat) : List Int → FairScheduler ν τ →
    Option (FairScheduler ν τ × List (ν × τ))
  | [], s => some (s, [])
  | prio :: rest, s => do
      let (s₁, log₁) ← drainClass (s.group prio) fuel s
      let (s₂, log₂) ← runClasses fuel rest s₁
      some (s₂, log₁ ++ log₂)

/-- `run`, with at most `fuel` passes a class. -/
def run (fuel : Nat) (s : FairScheduler ν τ) : Option (FairScheduler ν τ × List (ν × τ)) :=
  runClasses fuel s.priorities s

end Ops

/-! ## What a turn, a pass and a class do -/

/-- The queue of a tenant. -/
def queue (s : FairScheduler ν τ) (name : ν) : List τ := (s.tenant name).tasks

def weight (s : FairScheduler ν τ) (name : ν) : Int := (s.tenant name).config.weight

def priority (s : FairScheduler ν τ) (name : ν) : Int := (s.tenant name).config.priority

theorem turn_eq (weight i : Int) (tasks : List τ) :
    turn weight i tasks = (tasks.take (weight - i).toNat, tasks.drop (weight - i).toNat) := by
  induction tasks generalizing i with
  | nil => simp [turn]
  | cons task rest ih =>
      rw [turn]
      split
      · rename_i hlt
        have hsucc : (weight - i).toNat = (weight - (i + 1)).toNat + 1 := by omega
        rw [ih, hsucc, List.take_succ_cons, List.drop_succ_cons]
      · rename_i hge
        have hzero : (weight - i).toNat = 0 := by omega
        rw [hzero, List.take_zero, List.drop_zero]

section Runs

variable [DecidableEq ν]

theorem tenant_setTenant_self (s : FairScheduler ν τ) (name : ν) (tq : TenantQueue τ) :
    (s.setTenant name tq).tenant name = tq := by
  simp [tenant, setTenant]

variable {k : ν}

theorem tenant_setTenant_ne (s : FairScheduler ν τ) (tq : TenantQueue τ) (h : k ≠ name) :
    (s.setTenant name tq).tenant k = s.tenant k := by
  simp [tenant, setTenant, h]

@[simp] theorem setTenant_tenants (s : FairScheduler ν τ) (name : ν) (tq : TenantQueue τ) :
    (s.setTenant name tq).tenants = Function.update s.tenants name (some tq) := rfl

@[simp] theorem registerTenant_tenants (s : FairScheduler ν τ) (name : ν) (config : TenantConfig) :
    (s.registerTenant name config).tenants =
      Function.update s.tenants name (some { config := config }) := rfl

theorem queue_setTenant (s : FairScheduler ν τ) (name : ν) (tq : TenantQueue τ) :
    (s.setTenant name tq).queue = Function.update s.queue name tq.tasks := by
  funext k
  by_cases hk : k = name
  · subst hk
    rw [queue, tenant_setTenant_self, Function.update_self]
  · rw [queue, tenant_setTenant_ne s tq hk, Function.update_of_ne hk, queue]

/-- What any part of `run` does: it runs tasks of tenants in `P`, each queue from the
front, and touches nothing else. -/
structure Serves (P : ν → Prop) (s s' : FairScheduler ν τ) (log : List (ν × τ)) : Prop where
  order : s'.order = s.order
  config : ∀ k, (s'.tenant k).config = (s.tenant k).config
  drains : Drains s.queue s'.queue log
  within : ∀ e ∈ log, P e.1
  /-- A tenant without a positive weight gets no turn. -/
  stuck : ∀ k, s.weight k ≤ 0 → s'.queue k = s.queue k

variable {P Q : ν → Prop} {s s' s'' : FairScheduler ν τ} {log log' : List (ν × τ)}

theorem Serves.refl (P : ν → Prop) (s : FairScheduler ν τ) : Serves P s s [] where
  order := rfl
  config _ := rfl
  drains := .refl _
  within := by simp
  stuck _ _ := rfl

theorem Serves.weight_eq (h : Serves P s s' log) (k : ν) : s'.weight k = s.weight k := by
  rw [weight, h.config, weight]

theorem Serves.priority_eq (h : Serves P s s' log) (k : ν) : s'.priority k = s.priority k := by
  rw [priority, h.config, priority]

theorem Serves.trans (h : Serves P s s' log) (h' : Serves P s' s'' log') :
    Serves P s s'' (log ++ log') where
  order := h'.order.trans h.order
  config k := (h'.config k).trans (h.config k)
  drains := h.drains.trans h'.drains
  within e he := (List.mem_append.mp he).elim (h.within e) (h'.within e)
  stuck k hk := (h'.stuck k (by rwa [h.weight_eq])).trans (h.stuck k hk)

theorem Serves.mono (h : Serves P s s' log) (hPQ : ∀ k, P k → Q k) : Serves Q s s' log where
  order := h.order
  config := h.config
  drains := h.drains
  within e he := hPQ _ (h.within e he)
  stuck := h.stuck

theorem serves_serve (s : FairScheduler ν τ) (name : ν) :
    Serves (· = name) s (s.serve name).1 (s.serve name).2 := by
  have hsplit : (turn (s.tenant name).config.weight 0 (s.tenant name).tasks).1 ++
      (turn (s.tenant name).config.weight 0 (s.tenant name).tasks).2 = s.queue name := by
    rw [turn_eq]; exact List.take_append_drop _ _
  have hqueue : (s.serve name).1.queue = Function.update s.queue name
      (turn (s.tenant name).config.weight 0 (s.tenant name).tasks).2 := by
    rw [serve]; exact queue_setTenant _ _ _
  refine
    { order := rfl, config := ?config, drains := ?drains, within := ?within, stuck := ?stuck }
  case config =>
    intro k
    by_cases hk : k = name
    · subst hk; rw [serve, tenant_setTenant_self]
    · rw [serve, tenant_setTenant_ne _ _ hk]
  case drains =>
    rw [hqueue]
    exact drains_update s.queue hsplit
  case within =>
    intro e he
    obtain ⟨_, _, rfl⟩ := List.mem_map.mp he
    rfl
  case stuck =>
    intro k hk
    rw [hqueue]
    by_cases hkn : k = name
    · subst hkn
      rw [Function.update_self, turn_eq, weight] at *
      rw [show ((s.tenant k).config.weight - 0).toNat = 0 by omega, List.drop_zero, queue]
    · rw [Function.update_of_ne hkn]

/-- With a positive weight a turn runs a task if there is one. -/
theorem length_serve (s : FairScheduler ν τ) (hw : 0 < s.weight name) :
    ((s.serve name).1.queue name).length ≤ (s.queue name).length - 1 := by
  have hqueue : (s.serve name).1.queue name = (s.queue name).drop (s.weight name - 0).toNat := by
    rw [queue, serve, tenant_setTenant_self, turn_eq]
    rfl
  rw [hqueue, List.length_drop]
  omega

theorem serves_pass (s : FairScheduler ν τ) (group : List ν) :
    Serves (· ∈ group) s (s.pass group).1 (s.pass group).2 := by
  induction group generalizing s with
  | nil => exact Serves.refl _ s
  | cons name rest ih =>
      rw [pass]
      refine ((serves_serve s name).mono ?_).trans ((ih _).mono ?_)
      · rintro k rfl; exact List.mem_cons_self
      · exact fun k hk => List.mem_cons_of_mem _ hk

/-- A pass takes something from every queue of the class that is not empty. -/
theorem length_pass (group : List ν) (hk : k ∈ group) (s : FairScheduler ν τ)
    (hw : 0 < s.weight k) : ((s.pass group).1.queue k).length ≤ (s.queue k).length - 1 := by
  induction group generalizing s with
  | nil => exact absurd hk List.not_mem_nil
  | cons name rest ih =>
      have hserve := serves_serve s name
      have hrest := serves_pass (s.serve name).1 rest
      have hle := hserve.drains.length_le k
      have hle' := hrest.drains.length_le k
      rw [pass]
      rcases List.mem_cons.mp hk with rfl | hk
      · exact Nat.le_trans hle' (length_serve s hw)
      · have := ih hk (s.serve name).1 (by rwa [hserve.weight_eq])
        dsimp only at this ⊢
        omega

omit [DecidableEq ν] in
theorem any_queue {group : List ν} :
    (group.any fun name => !(s.tenant name).tasks.isEmpty) = true ↔
      ∃ k ∈ group, s.queue k ≠ [] := by
  simp [List.any_eq_true, queue]

/-- When the passes over a class end, its queues are empty. -/
theorem drainClass_serves {group : List ν} (h : drainClass group fuel s = some (s', log)) :
    Serves (· ∈ group) s s' log ∧ ∀ k ∈ group, s'.queue k = [] := by
  induction fuel generalizing s s' log with
  | zero =>
      rw [drainClass] at h
      split at h
      · exact absurd h (by simp)
      · rename_i hany
        cases h
        rw [any_queue] at hany
        exact ⟨.refl _ _, fun k hk => by_contra fun hne => hany ⟨k, hk, hne⟩⟩
  | succ fuel ih =>
      rw [drainClass] at h
      split at h
      · simp only [Option.bind_eq_bind, Option.bind_eq_some_iff, Option.some.injEq,
          Prod.mk.injEq] at h
        obtain ⟨⟨s₂, log₂⟩, hrest, rfl, rfl⟩ := h
        obtain ⟨hserves, hempty⟩ := ih hrest
        exact ⟨(serves_pass s group).trans hserves, hempty⟩
      · rename_i hany
        cases h
        rw [any_queue] at hany
        exact ⟨.refl _ _, fun k hk => by_contra fun hne => hany ⟨k, hk, hne⟩⟩

/-- As many passes as the longest queue is long suffice. -/
theorem drainClass_isSome {group : List ν} (hw : ∀ k ∈ group, s.queue k ≠ [] → 0 < s.weight k)
    (hlen : ∀ k ∈ group, (s.queue k).length ≤ fuel) : (drainClass group fuel s).isSome := by
  induction fuel generalizing s with
  | zero =>
      rw [drainClass, if_neg]
      · rfl
      · rw [any_queue]
        rintro ⟨k, hk, hne⟩
        exact hne (List.length_eq_zero_iff.mp (Nat.le_zero.mp (hlen k hk)))
  | succ fuel ih =>
      rw [drainClass]
      split
      · have hpass := serves_pass s group
        have hrest : (drainClass group fuel (s.pass group).1).isSome := by
          refine ih (fun k hk hne => ?_) (fun k hk => ?_)
          · rw [hpass.weight_eq]
            refine hw k hk fun hnil => hne ?_
            have := hpass.drains.length_le k
            rw [hnil] at this
            exact List.length_eq_zero_iff.mp (Nat.le_zero.mp this)
          · have hle := hpass.drains.length_le k
            have hbound := hlen k hk
            by_cases hne : s.queue k = []
            · rw [hne, List.length_nil] at hle
              omega
            · have := length_pass group hk s (hw k hk hne)
              omega
        obtain ⟨⟨s₂, log₂⟩, hs₂⟩ := Option.isSome_iff_exists.mp hrest
        simp [hs₂]
      · rfl

/-! ## The classes -/

omit [DecidableEq ν] in
theorem mem_group {prio : Int} : k ∈ s.group prio ↔ k ∈ s.order ∧ s.priority k = prio := by
  simp [group, priority]

/-- Classes run one after the other, and each empties its queues. -/
theorem runClasses_serves {prios : List Int} (h : runClasses fuel prios s = some (s', log)) :
    Serves (fun k => k ∈ s.order ∧ s.priority k ∈ prios) s s' log ∧
      (∀ k ∈ s.order, s.priority k ∈ prios → s'.queue k = []) ∧
      (prios.Pairwise (· > ·) →
        log.Pairwise fun a b => s.priority b.1 ≤ s.priority a.1) := by
  induction prios generalizing s s' log with
  | nil =>
      simp only [runClasses, Option.some.injEq, Prod.mk.injEq] at h
      obtain ⟨rfl, rfl⟩ := h
      exact ⟨.refl _ _, by simp, fun _ => .nil⟩
  | cons prio rest ih =>
      simp only [runClasses, Option.bind_eq_bind, Option.bind_eq_some_iff, Option.some.injEq,
        Prod.mk.injEq] at h
      obtain ⟨⟨s₁, log₁⟩, hclass, ⟨s₂, log₂⟩, hrest, rfl, rfl⟩ := h
      obtain ⟨hserves, hempty⟩ := drainClass_serves hclass
      obtain ⟨hserves', hempty', hsorted⟩ := ih hrest
      have hlater : ∀ k, k ∈ s₁.order ∧ s₁.priority k ∈ rest →
          k ∈ s.order ∧ s.priority k ∈ rest := fun k hk => by
        rwa [hserves.order, hserves.priority_eq] at hk
      refine ⟨?_, ?_, ?_⟩
      · refine (hserves.mono ?_).trans (hserves'.mono ?_)
        · intro k hk
          obtain ⟨hk, hprio⟩ := mem_group.mp hk
          exact ⟨hk, by rw [hprio]; exact List.mem_cons_self⟩
        · intro k hk
          exact ⟨(hlater k hk).1, List.mem_cons_of_mem _ (hlater k hk).2⟩
      · intro k hk hprio
        by_cases hnow : s.priority k = prio
        · -- emptied by its class, and nothing comes back
          have hle := hserves'.drains.length_le k
          rw [hempty k (mem_group.mpr ⟨hk, hnow⟩)] at hle
          exact List.length_eq_zero_iff.mp (Nat.le_zero.mp hle)
        · refine hempty' k (by rwa [hserves.order]) ?_
          rw [hserves.priority_eq]
          exact (List.mem_cons.mp hprio).resolve_left hnow
      · intro hdesc
        rw [List.pairwise_cons] at hdesc
        have hhere : ∀ e ∈ log₁, s.priority e.1 = prio := fun e he =>
          (mem_group.mp (hserves.within e he)).2
        refine List.pairwise_append.mpr ⟨?_, ?_, ?_⟩
        · refine List.Pairwise.imp_of_mem ?_ (List.pairwise_of_forall fun _ _ => trivial)
          intro a b ha hb _
          exact Int.le_of_eq ((hhere b hb).trans (hhere a ha).symm)
        · exact (hsorted hdesc.2).imp fun {a b} hab => by
            rwa [hserves.priority_eq, hserves.priority_eq] at hab
        · intro a ha b hb
          rw [hhere a ha]
          exact Int.le_of_lt (hdesc.1 _ (hlater _ (hserves'.within b hb)).2)

theorem runClasses_isSome {prios : List Int} (hw : ∀ k ∈ s.order, s.queue k ≠ [] → 0 < s.weight k)
    (hlen : ∀ k ∈ s.order, (s.queue k).length ≤ fuel) : (runClasses fuel prios s).isSome := by
  induction prios generalizing s with
  | nil => rfl
  | cons prio rest ih =>
      have hclass : (drainClass (s.group prio) fuel s).isSome :=
        drainClass_isSome (fun k hk => hw k (mem_group.mp hk).1)
          fun k hk => hlen k (mem_group.mp hk).1
      obtain ⟨⟨s₁, log₁⟩, hs₁⟩ := Option.isSome_iff_exists.mp hclass
      have hserves := (drainClass_serves hs₁).1
      have hrest : (runClasses fuel rest s₁).isSome := by
        refine ih (fun k hk hne => ?_) fun k hk => ?_
        · rw [hserves.order] at hk
          rw [hserves.weight_eq]
          refine hw k hk fun hnil => hne ?_
          have := hserves.drains.length_le k
          rw [hnil] at this
          exact List.length_eq_zero_iff.mp (Nat.le_zero.mp this)
        · rw [hserves.order] at hk
          exact Nat.le_trans (hserves.drains.length_le k) (hlen k hk)
      obtain ⟨⟨s₂, log₂⟩, hs₂⟩ := Option.isSome_iff_exists.mp hrest
      simp [runClasses, hs₁, hs₂]

theorem mem_insertPriority {p q : Int} {ps : List Int} :
    q ∈ insertPriority p ps ↔ q = p ∨ q ∈ ps := by
  induction ps with
  | nil => simp [insertPriority]
  | cons r rs ih =>
      rw [insertPriority]
      split
      · simp
      · split
        · rename_i heq
          subst heq
          simp
        · rw [List.mem_cons, ih, List.mem_cons]
          tauto

theorem pairwise_insertPriority {p : Int} {ps : List Int} (h : ps.Pairwise (· > ·)) :
    (insertPriority p ps).Pairwise (· > ·) := by
  induction ps with
  | nil => exact List.pairwise_singleton _ _
  | cons r rs ih =>
      rw [List.pairwise_cons] at h
      rw [insertPriority]
      split
      · rename_i hlt
        refine List.pairwise_cons.mpr ⟨fun q hq => ?_, List.pairwise_cons.mpr h⟩
        rcases List.mem_cons.mp hq with rfl | hq
        · exact hlt
        · exact Int.lt_trans (h.1 q hq) hlt
      · split
        · exact List.pairwise_cons.mpr h
        · refine List.pairwise_cons.mpr ⟨fun q hq => ?_, ih h.2⟩
          rcases mem_insertPriority.mp hq with rfl | hq
          · omega
          · exact h.1 q hq

omit [DecidableEq ν] in
/-- `run` visits the class of every tenant, from the highest down. -/
theorem priorities_spec (s : FairScheduler ν τ) :
    (∀ k ∈ s.order, s.priority k ∈ s.priorities) ∧ s.priorities.Pairwise (· > ·) := by
  have hfold : ∀ (names : List ν) (ps : List Int), ps.Pairwise (· > ·) →
      (∀ p ∈ ps, p ∈ names.foldl (fun ps name => insertPriority (s.priority name) ps) ps) ∧
      (∀ k ∈ names,
        s.priority k ∈ names.foldl (fun ps name => insertPriority (s.priority name) ps) ps) ∧
      (names.foldl (fun ps name => insertPriority (s.priority name) ps) ps).Pairwise (· > ·) := by
    intro names
    induction names with
    | nil => exact fun ps hps => ⟨fun p hp => hp, by simp, hps⟩
    | cons name rest ih =>
        intro ps hps
        obtain ⟨hkeep, hnew, hdesc⟩ := ih _ (pairwise_insertPriority hps)
        refine ⟨fun p hp => hkeep p (mem_insertPriority.mpr (.inr hp)), fun k hk => ?_, hdesc⟩
        rcases List.mem_cons.mp hk with rfl | hk
        · exact hkeep _ (mem_insertPriority.mpr (.inl rfl))
        · exact hnew k hk
  obtain ⟨-, hmem, hdesc⟩ := hfold s.order [] .nil
  exact ⟨hmem, hdesc⟩

end Runs

end FairScheduler

/-! ## A sequence of calls, and then `run` -/

/-- A call of `registerTenant` or `submit`. -/
inductive Call (ν τ : Type) where
  | registerTenant (name : ν) (config : TenantConfig)
  | submit (name : ν) (task : τ)
  deriving DecidableEq, Repr

namespace FairScheduler

section Calls

variable [DecidableEq ν]

/-- A call, with the task it has accepted, if it has. -/
def apply (s : FairScheduler ν τ) : Call ν τ → Option (FairScheduler ν τ × List (ν × τ))
  | .registerTenant name config => some (s.registerTenant name config, [])
  | .submit name task => do
      let (accepted, s') ← s.submit name task
      some (s', if accepted then [(name, task)] else [])

/-- A sequence of calls, none of which throws, with the tasks accepted. -/
def applyAll (s : FairScheduler ν τ) : List (Call ν τ) →
    Option (FairScheduler ν τ × List (ν × τ))
  | [] => some (s, [])
  | c :: cs => do
      let (s₁, acc₁) ← s.apply c
      let (s₂, acc₂) ← s₁.applyAll cs
      some (s₂, acc₁ ++ acc₂)

/-- `run` ends, has executed exactly the accepted tasks of each tenant in the order in which
they were submitted, and no task after one of a lower class. -/
def Completes (s : FairScheduler ν τ) (accepted : List (ν × τ)) : Prop :=
  ∃ fuel s' log, s.run fuel = some (s', log) ∧
    (∀ name, taken log name = taken accepted name) ∧
    log.Pairwise fun a b => s.priority b.1 ≤ s.priority a.1

/-- No call registers a tenant that has tasks in its queue. -/
def KeepsQueues (s : FairScheduler ν τ) : List (Call ν τ) → Prop
  | [] => True
  | c :: cs =>
      (∀ name config, c = .registerTenant name config → s.queue name = []) ∧
        ∀ s₁ acc, s.apply c = some (s₁, acc) → s₁.KeepsQueues cs

/-- Every tenant that has tasks gets a turn. -/
def Weighted (s : FairScheduler ν τ) : Prop := ∀ name, s.queue name ≠ [] → 1 ≤ s.weight name

/-- Every tenant is in the order. -/
def Listed (s : FairScheduler ν τ) : Prop := ∀ name, (s.tenants name).isSome → name ∈ s.order

variable {s s' : FairScheduler ν τ} {acc : List (ν × τ)}

omit [DecidableEq ν] in
theorem Listed.mem_of_queue (h : s.Listed) (hq : s.queue name ≠ []) : name ∈ s.order := by
  refine h name ?_
  by_contra hnone
  rw [Option.not_isSome_iff_eq_none] at hnone
  exact hq (by rw [queue, tenant, hnone]; rfl)

theorem queue_registerTenant (s : FairScheduler ν τ) (name : ν) (config : TenantConfig) :
    (s.registerTenant name config).queue = Function.update s.queue name [] :=
  queue_setTenant s name { config := config }

/-- `submit` appends what it accepts to the tenant's queue. -/
theorem queue_submit {task : τ} {accepted : Bool} (h : s.submit name task = some (accepted, s')) :
    (s.tenants name).isSome ∧ s'.order = s.order ∧
      (∀ k, (s'.tenants k).isSome → k = name ∨ (s.tenants k).isSome) ∧
      ∀ k, s'.queue k = s.queue k ++ taken (if accepted then [(name, task)] else []) k := by
  simp only [submit, Option.bind_eq_bind, Option.bind_eq_some_iff] at h
  obtain ⟨tq, htq, h⟩ := h
  have htenant : s.queue name = tq.tasks := by rw [queue, tenant, htq]; rfl
  have hset : ∀ tq', ∀ k, ((s.setTenant name tq').tenants k).isSome →
      k = name ∨ (s.tenants k).isSome := by
    intro tq' k hk
    by_cases hkn : k = name
    · exact .inl hkn
    · rw [setTenant_tenants, Function.update_of_ne hkn] at hk
      exact .inr hk
  split at h
  · cases h
    refine ⟨by rw [htq]; rfl, rfl, hset _, fun k => ?_⟩
    rw [queue_setTenant, ← htenant, Function.update_eq_self]
    simp
  · cases h
    refine ⟨by rw [htq]; rfl, rfl, hset _, fun k => ?_⟩
    rw [queue_setTenant]
    by_cases hk : k = name
    · subst hk
      simp [htenant, taken]
    · simp [hk, taken, Ne.symm hk]

/-- A call adds what it accepts to the queues, unless it throws one away. -/
theorem queue_apply {c : Call ν τ} (h : s.apply c = some (s', acc)) :
    (∀ k, (s'.queue k).length ≤ (s.queue k).length + (taken acc k).length) ∧
      ((∀ name config, c = .registerTenant name config → s.queue name = []) ↔
        ∀ k, s'.queue k = s.queue k ++ taken acc k) ∧
      (s.Listed → s'.Listed) := by
  cases c with
  | registerTenant name config =>
      simp only [apply, Option.some.injEq, Prod.mk.injEq] at h
      obtain ⟨rfl, rfl⟩ := h
      have hqueue := queue_registerTenant s name config
      refine ⟨fun k => ?_, ⟨fun hempty k => ?_, fun hsame name' config' heq => ?_⟩, ?_⟩
      · rw [hqueue]
        by_cases hk : k = name
        · rw [hk, Function.update_self]; exact Nat.zero_le _
        · rw [Function.update_of_ne hk]; exact Nat.le_add_right _ _
      · rw [hqueue, taken_nil, List.append_nil]
        by_cases hk : k = name
        · rw [hk, Function.update_self, hempty name config rfl]
        · rw [Function.update_of_ne hk]
      · obtain ⟨rfl, rfl⟩ := Call.registerTenant.inj heq
        have := hsame name
        rw [hqueue, Function.update_self, taken_nil, List.append_nil] at this
        exact this.symm
      · intro hl k hk
        by_cases hkn : k = name
        · exact List.mem_append_right _ (by rw [hkn]; exact List.mem_singleton_self _)
        · refine List.mem_append_left _ (hl k ?_)
          rwa [registerTenant_tenants, Function.update_of_ne hkn] at hk
  | submit name task =>
      simp only [apply, Option.bind_eq_bind, Option.bind_eq_some_iff, Option.some.injEq,
        Prod.mk.injEq] at h
      obtain ⟨⟨accepted, s₁⟩, hsubmit, rfl, rfl⟩ := h
      obtain ⟨hname, horder, hset, hqueue⟩ := queue_submit hsubmit
      refine ⟨fun k => ?_, ⟨fun _ => hqueue, fun _ _ _ heq => by simp at heq⟩, ?_⟩
      · rw [hqueue, List.length_append]
      · intro hl k hk
        rw [horder]
        rcases hset k hk with rfl | hk
        · exact hl k hname
        · exact hl k hk

variable {cs : List (Call ν τ)}

theorem length_applyAll (h : s.applyAll cs = some (s', acc)) (k : ν) :
    (s'.queue k).length ≤ (s.queue k).length + (taken acc k).length := by
  induction cs generalizing s s' acc with
  | nil =>
      simp only [applyAll, Option.some.injEq, Prod.mk.injEq] at h
      obtain ⟨rfl, rfl⟩ := h
      exact Nat.le_add_right _ _
  | cons c cs ih =>
      simp only [applyAll, Option.bind_eq_bind, Option.bind_eq_some_iff, Option.some.injEq,
        Prod.mk.injEq] at h
      obtain ⟨⟨s₁, acc₁⟩, hcall, ⟨s₂, acc₂⟩, hrest, rfl, rfl⟩ := h
      have hfirst := (queue_apply hcall).1 k
      have hlater := ih hrest
      rw [taken_append, List.length_append]
      dsimp only at hfirst hlater ⊢
      omega

theorem listed_applyAll (hl : s.Listed) (h : s.applyAll cs = some (s', acc)) : s'.Listed := by
  induction cs generalizing s s' acc with
  | nil =>
      simp only [applyAll, Option.some.injEq, Prod.mk.injEq] at h
      obtain ⟨rfl, rfl⟩ := h
      exact hl
  | cons c cs ih =>
      simp only [applyAll, Option.bind_eq_bind, Option.bind_eq_some_iff, Option.some.injEq,
        Prod.mk.injEq] at h
      obtain ⟨⟨s₁, acc₁⟩, hcall, ⟨s₂, acc₂⟩, hrest, rfl, rfl⟩ := h
      exact ih ((queue_apply hcall).2.2 hl) hrest

/-- The queues hold all that was accepted exactly when none was thrown away: what is lost
once never comes back. -/
theorem keepsQueues_iff (h : s.applyAll cs = some (s', acc)) :
    s.KeepsQueues cs ↔ ∀ k, s'.queue k = s.queue k ++ taken acc k := by
  induction cs generalizing s s' acc with
  | nil =>
      simp only [applyAll, Option.some.injEq, Prod.mk.injEq] at h
      obtain ⟨rfl, rfl⟩ := h
      simp [KeepsQueues]
  | cons c cs ih =>
      simp only [applyAll, Option.bind_eq_bind, Option.bind_eq_some_iff, Option.some.injEq,
        Prod.mk.injEq] at h
      obtain ⟨⟨s₁, acc₁⟩, hcall, ⟨s₂, acc₂⟩, hrest, rfl, rfl⟩ := h
      obtain ⟨hle, hkeep, -⟩ := queue_apply hcall
      rw [KeepsQueues, hkeep]
      constructor
      · rintro ⟨hfirst, hlater⟩ k
        rw [(ih hrest).mp (hlater s₁ acc₁ hcall) k, hfirst k, taken_append, List.append_assoc]
      · intro hall
        have hfirst : ∀ k, s₁.queue k = s.queue k ++ taken acc₁ k := by
          refine hkeep.mp fun name config heq => ?_
          subst heq
          -- a queue thrown away leaves the total short for good
          obtain ⟨rfl, rfl⟩ : s.registerTenant name config = s₁ ∧ [] = acc₁ := by
            simpa [apply] using hcall
          have hshort := length_applyAll hrest name
          rw [queue_registerTenant, Function.update_self, hall name, taken_append, taken_nil,
            List.nil_append, List.length_append, List.length_nil] at hshort
          dsimp only at hshort
          exact List.length_eq_zero_iff.mp (by omega)
        refine ⟨hfirst, fun s₁' acc' hcall' => ?_⟩
        obtain ⟨rfl, rfl⟩ : s₁ = s₁' ∧ acc₁ = acc' := by
          rw [hcall] at hcall'
          simpa using hcall'
        refine (ih hrest).mpr fun k => ?_
        rw [hall k, hfirst k, taken_append, List.append_assoc]

/-- `run` ends, with every queue empty, if every tenant with tasks gets turns. -/
theorem run_isSome (hw : s.Weighted) : ∃ fuel, (s.run fuel).isSome := by
  refine ⟨(s.order.map fun k => (s.queue k).length).sum, runClasses_isSome ?_ fun k hk => ?_⟩
  · intro k _ hne
    exact hw k hne
  · exact List.le_sum_of_mem (List.mem_map_of_mem hk)

/-- When `run` ends, all queues were drained. -/
theorem run_serves (hl : s.Listed) {log : List (ν × τ)} (h : s.run fuel = some (s', log)) :
    Serves (fun _ => True) s s' log ∧ (∀ k, s'.queue k = []) ∧
      log.Pairwise fun a b => s.priority b.1 ≤ s.priority a.1 := by
  obtain ⟨hserves, hempty, hsorted⟩ := runClasses_serves h
  obtain ⟨hall, hdesc⟩ := priorities_spec s
  refine ⟨hserves.mono fun _ _ => trivial, fun k => ?_, hsorted hdesc⟩
  by_cases hq : s.queue k = []
  · have hle := hserves.drains.length_le k
    rw [hq] at hle
    exact List.length_eq_zero_iff.mp (Nat.le_zero.mp hle)
  · have hk := hl.mem_of_queue hq
    exact hempty k hk (hall k hk)

/-- `run` completes what was accepted when the queues hold it and every tenant gets turns. -/
theorem completes_iff (hl : s.Listed) (acc : List (ν × τ)) :
    s.Completes acc ↔ (∀ k, s.queue k = taken acc k) ∧ s.Weighted := by
  constructor
  · rintro ⟨fuel, s', log, hrun, hall, -⟩
    obtain ⟨hserves, hempty, -⟩ := run_serves hl hrun
    refine ⟨fun k => ?_, fun k hne => ?_⟩
    · rw [← hall k, hserves.drains.taken_eq (hempty k)]
    · by_contra hw
      exact hne ((hserves.stuck k (by omega)).symm.trans (hempty k))
  · rintro ⟨hqueue, hw⟩
    obtain ⟨fuel, hfuel⟩ := run_isSome hw
    obtain ⟨⟨s', log⟩, hrun⟩ := Option.isSome_iff_exists.mp hfuel
    obtain ⟨hserves, hempty, hsorted⟩ := run_serves hl hrun
    exact ⟨fuel, s', log, hrun,
      fun k => (hserves.drains.taken_eq (hempty k)).trans (hqueue k), hsorted⟩

omit [DecidableEq ν] in
theorem listed_new : (new : FairScheduler ν τ).Listed := by
  intro name h
  simp [new] at h

/-- **`run` completes every accepted task** exactly when nobody registers a tenant with tasks
in its queue, and every tenant with tasks has a positive weight when `run` is called. -/
theorem run_completes_iff {cs : List (Call ν τ)} {s : FairScheduler ν τ} {acc : List (ν × τ)}
    (h : new.applyAll cs = some (s, acc)) :
    s.Completes acc ↔ new.KeepsQueues cs ∧ s.Weighted := by
  have hkeep : new.KeepsQueues cs ↔ ∀ k, s.queue k = taken acc k := keepsQueues_iff h
  rw [completes_iff (listed_applyAll listed_new h), hkeep]

/-- Two classes; the tenant of the higher one registers last. -/
def twoClasses : List (Call Nat Nat) :=
  [.registerTenant 0 ⟨1, 1, 4⟩, .submit 0 10, .submit 0 11, .registerTenant 1 ⟨2, 3, 4⟩,
    .submit 1 20]

theorem run_completes_twoClasses : ∃ (s : FairScheduler Nat Nat) (acc : List (Nat × Nat)),
    new.applyAll twoClasses = some (s, acc) ∧ acc = [(0, 10), (0, 11), (1, 20)] ∧
      s.Completes acc ∧ new.KeepsQueues twoClasses ∧ s.Weighted := by
  have hplay : (new.applyAll twoClasses).any (fun r => decide
      (r.2 = [(0, 10), (0, 11), (1, 20)] ∧
        (r.1.run 2).map Prod.snd = some [(1, 20), (0, 10), (0, 11)] ∧
        r.1.priority 0 ≤ r.1.priority 1)) = true := by
    decide +kernel
  obtain ⟨⟨s, acc⟩, hs, hok⟩ := Option.any_eq_true _ _ |>.mp hplay
  obtain ⟨rfl, hrun, hprio⟩ := of_decide_eq_true hok
  obtain ⟨⟨s', log⟩, hs', rfl⟩ := Option.map_eq_some_iff.mp hrun
  have hcomplete : s.Completes [(0, 10), (0, 11), (1, 20)] := by
    refine ⟨2, s', _, hs', fun name => ?_, by simp [hprio]⟩
    by_cases h₀ : name = 0
    · subst h₀; rfl
    · by_cases h₁ : name = 1
      · subst h₁; rfl
      · simp [taken, Ne.symm h₀, Ne.symm h₁]
  exact ⟨s, _, hs, rfl, hcomplete, (run_completes_iff hs).mp hcomplete⟩

/-- A weight of zero, and a tenant registered again: the first never ends, the second has
lost a task. -/
theorem run_incomplete :
    (∃ (s : FairScheduler Nat Nat) (acc : List (Nat × Nat)),
      new.applyAll [.registerTenant 0 ⟨0, 0, 1⟩, .submit 0 10] = some (s, acc) ∧
        ¬ s.Completes acc) ∧
    ∃ (s : FairScheduler Nat Nat) (acc : List (Nat × Nat)),
      new.applyAll [.registerTenant 0 ⟨0, 1, 1⟩, .submit 0 10, .registerTenant 0 ⟨0, 1, 1⟩] =
        some (s, acc) ∧ ¬ s.Completes acc := by
  constructor
  · have hplay : (new.applyAll [.registerTenant 0 ⟨0, 0, 1⟩, .submit 0 10]).any
        (fun r => decide (r.1.queue 0 ≠ [] ∧ ¬ 1 ≤ r.1.weight 0)) = true := by
      decide +kernel
    obtain ⟨⟨s, acc⟩, hs, hok⟩ := Option.any_eq_true _ _ |>.mp hplay
    obtain ⟨hne, hzero⟩ := of_decide_eq_true hok
    have hc := completes_iff (listed_applyAll listed_new hs) acc
    exact ⟨s, acc, hs, fun h => hzero ((hc.mp h).2 0 hne)⟩
  · have hplay : (new.applyAll
        [.registerTenant 0 ⟨0, 1, 1⟩, .submit 0 10, .registerTenant 0 ⟨0, 1, 1⟩]).any
          (fun r => decide (r.1.queue 0 ≠ taken r.2 0)) = true := by
      decide +kernel
    obtain ⟨⟨s, acc⟩, hs, hok⟩ := Option.any_eq_true _ _ |>.mp hplay
    have hc := completes_iff (listed_applyAll listed_new hs) acc
    exact ⟨s, acc, hs, fun h => of_decide_eq_true hok ((hc.mp h).1 0)⟩

end Calls

end FairScheduler

end CrossMachine.Tenancy
