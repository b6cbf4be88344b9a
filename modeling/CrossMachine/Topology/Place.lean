import CrossMachine.Lib.Sorter
import CrossMachine.Topology.Cost
import Mathlib.Algebra.Order.Field.Rat
import Mathlib.Data.Fintype.EquivFin

/-!
# Placing tasks on the nodes of a topology

`place` goes through the pairs of tasks that communicate, the largest volume first, and puts
each task that has no node yet on a free one, then the tasks that are left on what is left. In
the code a node that was not found is `-1`, and `nodeUsed[-1]` is written to; here that is `none`.

A node is found when its cost is below infinity, and then there is a path to it. The last loop
compares no costs at all and always finds a node (`exists_placeRest`). On a connected topology the
first loop does so as well: that is a matter of counting. On one that is not connected there is a
workload for which it does not: if one task communicates with all others, they are placed on nodes
that can be reached from its own, and these run out (`reaches_of_star`).
-/

namespace CrossMachine.Topology

open Lib

variable {K : Type*} {n m : Nat}

structure Workload (K : Type*) where
  numTasks : Nat
  commVolumeGb : Fin numTasks → Fin numTasks → K

/-- Two tasks and what they communicate. -/
structure Pair (m : Nat) (K : Type*) where
  i : Fin m
  j : Fin m
  volume : K
  lt : i < j

/-- `taskToNode` and `nodeUsed`. -/
structure Placing (m n : Nat) where
  taskToNode : Fin m → Option (Fin n) := fun _ => none
  nodeUsed : Fin n → Bool := fun _ => false

def Placing.assign (s : Placing m n) (t : Fin m) (v : Fin n) : Placing m n where
  taskToNode := Function.update s.taskToNode t (some v)
  nodeUsed := Function.update s.nodeUsed v true

/-! ## Looking for the cheapest -/

section

variable [LinearOrder K] {α : Type*} {ok : α → Prop} {best : Option α × WithTop K}
  {c : WithTop K} {x : α}

/-- `if (c < bestCost) { bestCost = c; best = x; }` -/
def cheaper (best : Option α × WithTop K) (c : WithTop K) (x : α) :
    Option α × WithTop K :=
  if c < best.2 then (some x, c) else best

/-- Something has been found exactly when the best cost is not infinite any more, and what has
been found is as it should be. -/
structure Scan (ok : α → Prop) (best : Option α × WithTop K) : Prop where
  found : best.1 = none ↔ best.2 = ⊤
  ok : ∀ x, best.1 = some x → ok x

omit [LinearOrder K] in
theorem Scan.start : Scan ok ((none, ⊤) : Option α × WithTop K) where
  found := by simp
  ok _ h := nomatch h

theorem Scan.cheaper (hs : Scan ok best) (hok : c ≠ ⊤ → ok x) :
    Scan ok (cheaper best c x) := by
  unfold Topology.cheaper
  split
  · next hlt =>
      have hc : c ≠ ⊤ := ne_top_of_lt hlt
      refine ⟨by simp [hc], fun y hy => ?_⟩
      obtain rfl : x = y := by simpa using hy
      exact hok hc
  · exact hs

theorem cheaper_keep (h : best.2 ≠ ⊤) : (cheaper best c x).2 ≠ ⊤ := by
  unfold cheaper
  split
  · exact ne_top_of_lt ‹_›
  · exact h

theorem cheaper_make (hc : c ≠ ⊤) : (cheaper best c x).2 ≠ ⊤ := by
  unfold cheaper
  split
  · exact hc
  · next h => exact ne_top_of_le_ne_top hc (not_lt.mp h)

omit [LinearOrder K] in
theorem found_of_mem {ι : Type*} {turn : Option α × WithTop K → ι → Option α × WithTop K}
    (hkeep : ∀ best i, best.2 ≠ ⊤ → (turn best i).2 ≠ ⊤) {i : ι}
    (hmake : ∀ best, (turn best i).2 ≠ ⊤) {is : List ι} (hi : i ∈ is) :
    (is.foldl turn best).2 ≠ ⊤ :=
  foldl_of_mem (I := fun _ => True) (P := fun best : Option α × WithTop K => best.2 ≠ ⊤)
    (fun _ _ _ _ => trivial) (fun best i _ => hkeep best i) (fun best _ => hmake best) hi trivial

end

/-! ## The placement -/

section

variable [Zero K] [LinearOrder K]

def Workload.pairs (w : Workload K) : List (Pair w.numTasks K) :=
  (List.finRange w.numTasks).flatMap fun i => (List.finRange w.numTasks).filterMap fun j =>
    if h : i < j ∧ 0 < w.commVolumeGb i j then some ⟨i, j, w.commVolumeGb i j, h.1⟩ else none

/-- The cost from a node, or from nowhere. -/
def costFrom (cost : Cost n K) (fixedNode : Option (Fin n)) (v : Fin n) : WithTop K :=
  match fixedNode with
  | none => 0
  | some x => cost x v

def bestFreeNode (cost : Cost n K) (s : Placing m n) (fixedNode : Option (Fin n)) :
    Option (Fin n) :=
  ((List.finRange n).foldl (fun best v =>
    if s.nodeUsed v then best else cheaper best (costFrom cost fixedNode v) v) (none, ⊤)).1

/-- `bestA` and `bestB`. -/
def bestFreePair (cost : Cost n K) (s : Placing m n) : Option (Fin n × Fin n) :=
  ((List.finRange n).foldl (fun best a =>
    if s.nodeUsed a then best
    else (List.finRange n).foldl (fun best b =>
      if b = a ∨ s.nodeUsed b then best else cheaper best (cost a b) (a, b)) best) (none, ⊤)).1

def placePair (cost : Cost n K) (s : Placing m n) (p : Pair m K) : Option (Placing m n) :=
  match s.taskToNode p.i, s.taskToNode p.j with
  | some _, some _ => some s
  | none, none => (bestFreePair cost s).map fun (a, b) => (s.assign p.i a).assign p.j b
  | none, some v => (bestFreeNode cost s (some v)).map (s.assign p.i)
  | some v, none => (bestFreeNode cost s (some v)).map (s.assign p.j)

def placeRest (cost : Cost n K) (s : Placing m n) (t : Fin m) : Option (Placing m n) :=
  match s.taskToNode t with
  | some _ => some s
  | none => (bestFreeNode cost s none).map (s.assign t)

/-- `place`, or nothing if it writes to a node it has not found. -/
def place (ops : CostOps K)
    (sorter : {m : Nat} → Sorter fun p : Pair m K => OrderDual.toDual p.volume)
    (topology : TopologyGraph K) (workload : Workload K) :
    Option (Fin workload.numTasks → Option (Fin topology.numNodes)) := do
  let cost := allPairsCost ops topology
  let s ← (sorter.run workload.pairs).foldlM (placePair cost) {}
  let s ← (List.finRange workload.numTasks).foldlM (placeRest cost) s
  return s.taskToNode

/-! ## What is found -/

variable {cost : Cost n K} {s : Placing m n} {x v a b : Fin n}

theorem bestFreeNode_spec (fixed : Option (Fin n)) :
    (∀ v, bestFreeNode cost s fixed = some v →
      s.nodeUsed v = false ∧ costFrom cost fixed v ≠ ⊤) ∧
    ∀ v, s.nodeUsed v = false → costFrom cost fixed v ≠ ⊤ → bestFreeNode cost s fixed ≠ none := by
  let turn : Option (Fin n) × WithTop K → Fin n → Option (Fin n) × WithTop K := fun best v =>
    if s.nodeUsed v then best else cheaper best (costFrom cost fixed v) v
  have hkeep : ∀ best v, best.2 ≠ ⊤ → (turn best v).2 ≠ ⊤ := by
    intro best v hbest
    simp only [turn]
    split
    · exact hbest
    · exact cheaper_keep hbest
  have hscan : Scan (fun v => s.nodeUsed v = false ∧ costFrom cost fixed v ≠ ⊤)
      ((List.finRange n).foldl turn (none, ⊤)) := by
    refine List.foldlRecOn _ _ .start fun best hbest v _ => ?_
    simp only [turn]
    split
    · exact hbest
    · next hfree => exact hbest.cheaper fun hc => ⟨by simpa using hfree, hc⟩
  refine ⟨hscan.ok, fun v hfree hc hnone => ?_⟩
  have hfound : ((List.finRange n).foldl turn (none, ⊤)).2 ≠ ⊤ := by
    refine found_of_mem hkeep (fun best => ?_) (List.mem_finRange v)
    simp only [turn, hfree]
    exact cheaper_make hc
  exact hfound (hscan.found.mp hnone)

omit [Zero K] in
theorem bestFreePair_spec :
    (∀ a b, bestFreePair cost s = some (a, b) →
      (s.nodeUsed a = false ∧ s.nodeUsed b = false) ∧ a ≠ b ∧ cost a b ≠ ⊤) ∧
    ∀ a b, s.nodeUsed a = false → s.nodeUsed b = false → a ≠ b → cost a b ≠ ⊤ →
      bestFreePair cost s ≠ none := by
  let inner : Fin n → Option (Fin n × Fin n) × WithTop K → Fin n →
      Option (Fin n × Fin n) × WithTop K := fun a best b =>
    if b = a ∨ s.nodeUsed b then best else cheaper best (cost a b) (a, b)
  let outer : Option (Fin n × Fin n) × WithTop K → Fin n → Option (Fin n × Fin n) × WithTop K :=
    fun best a => if s.nodeUsed a then best else (List.finRange n).foldl (inner a) best
  have hinner : ∀ a best b, best.2 ≠ ⊤ → (inner a best b).2 ≠ ⊤ := by
    intro a best b hbest
    simp only [inner]
    split
    · exact hbest
    · exact cheaper_keep hbest
  have houter : ∀ best a, best.2 ≠ ⊤ → (outer best a).2 ≠ ⊤ := by
    intro best a hbest
    simp only [outer]
    split
    · exact hbest
    · exact List.foldlRecOn (motive := fun best => best.2 ≠ ⊤) _ _ hbest
        fun best hbest b _ => hinner a best b hbest
  have hscan : Scan (fun ab : Fin n × Fin n => (s.nodeUsed ab.1 = false ∧
      s.nodeUsed ab.2 = false) ∧ ab.1 ≠ ab.2 ∧ cost ab.1 ab.2 ≠ ⊤)
      ((List.finRange n).foldl outer (none, ⊤)) := by
    refine List.foldlRecOn _ _ .start fun best hbest a _ => ?_
    simp only [outer]
    split
    · exact hbest
    · next hfree =>
        refine List.foldlRecOn _ _ hbest fun best hbest b _ => ?_
        simp only [inner]
        split
        · exact hbest
        · next hskip =>
            rw [not_or] at hskip
            exact hbest.cheaper fun hc =>
              ⟨⟨by simpa using hfree, by simpa using hskip.2⟩, Ne.symm hskip.1, hc⟩
  refine ⟨fun a b => hscan.ok (a, b), fun a b hfa hfb hne hc hnone => ?_⟩
  have hfound : ((List.finRange n).foldl outer (none, ⊤)).2 ≠ ⊤ := by
    refine found_of_mem houter (fun best => ?_) (List.mem_finRange a)
    simp only [outer, hfa]
    refine found_of_mem (hinner a) (fun best => ?_) (List.mem_finRange b)
    have hskip : ¬ (b = a ∨ s.nodeUsed b = true) := by
      rintro (rfl | hused)
      · exact hne rfl
      · exact absurd hused (by simp [hfb])
    simp only [inner, if_neg hskip]
    exact cheaper_make hc
  exact hfound (hscan.found.mp hnone)

end

/-! ## Placed tasks and used nodes -/

section

variable {s s' : Placing m n} {t t' : Fin m} {v : Fin n}

/-- The nodes that are used are those of the tasks that are placed, and no two share one. -/
structure Placing.Ok (s : Placing m n) : Prop where
  used : ∀ v, s.nodeUsed v = true ↔ ∃ t, s.taskToNode t = some v
  apart : ∀ t t' v, s.taskToNode t = some v → s.taskToNode t' = some v → t = t'

theorem Placing.Ok.start : Placing.Ok ({} : Placing m n) where
  used v := by simp
  apart t t' v h := nomatch h

theorem Placing.Ok.unused (hs : s.Ok) (hfree : s.nodeUsed v = false) (t : Fin m) :
    s.taskToNode t ≠ some v := fun h => by
  have hused := (hs.used v).mpr ⟨t, h⟩
  rw [hfree] at hused
  cases hused

@[simp] theorem Placing.taskToNode_assign :
    (s.assign t v).taskToNode t' = if t' = t then some v else s.taskToNode t' :=
  Function.update_apply ..

@[simp] theorem Placing.nodeUsed_assign {x : Fin n} :
    (s.assign t v).nodeUsed x = if x = v then true else s.nodeUsed x :=
  Function.update_apply ..

theorem Placing.assign_ne_none (h : s.taskToNode t' ≠ none) :
    (s.assign t v).taskToNode t' ≠ none := by
  rw [taskToNode_assign]
  split
  · exact Option.some_ne_none v
  · exact h

theorem Placing.assign_self : (s.assign t v).taskToNode t ≠ none := by
  rw [taskToNode_assign, if_pos rfl]
  exact Option.some_ne_none v

theorem Placing.Ok.assign (hs : s.Ok) (ht : s.taskToNode t = none) (hfree : s.nodeUsed v = false) :
    (s.assign t v).Ok where
  used x := by
    rw [nodeUsed_assign]
    split
    · next heq =>
        rw [heq]
        exact ⟨fun _ => ⟨t, by simp⟩, fun _ => rfl⟩
    · next hne =>
        rw [hs.used x]
        constructor
        · rintro ⟨t', ht'⟩
          have hne' : t' ≠ t := by
            rintro rfl
            rw [ht] at ht'
            cases ht'
          exact ⟨t', by rw [taskToNode_assign, if_neg hne', ht']⟩
        · rintro ⟨t', ht'⟩
          rw [taskToNode_assign] at ht'
          split at ht'
          · exact absurd (Option.some.inj ht').symm hne
          · exact ⟨t', ht'⟩
  apart t₁ t₂ x h₁ h₂ := by
    rw [taskToNode_assign] at h₁ h₂
    split at h₁ <;> split at h₂
    · next heq₁ heq₂ => rw [heq₁, heq₂]
    · exact absurd (h₁ ▸ h₂) (hs.unused hfree t₂)
    · exact absurd (h₂ ▸ h₁) (hs.unused hfree t₁)
    · exact hs.apart t₁ t₂ x h₁ h₂

/-- As many nodes are used as tasks are placed. -/
theorem Placing.Ok.card_used (hs : s.Ok) :
    (Finset.univ.filter fun v => s.nodeUsed v = true).card ≤
      (Finset.univ.filter fun t => s.taskToNode t ≠ none).card := by
  have hsub : (Finset.univ.filter fun v => s.nodeUsed v = true).image some ⊆
      (Finset.univ.filter fun t => s.taskToNode t ≠ none).image s.taskToNode := by
    intro o ho
    obtain ⟨v, hv, rfl⟩ := Finset.mem_image.mp ho
    obtain ⟨t, ht⟩ := (hs.used v).mp (Finset.mem_filter.mp hv).2
    refine Finset.mem_image.mpr ⟨t, Finset.mem_filter.mpr ⟨Finset.mem_univ t, ?_⟩, ht⟩
    rw [ht]
    exact Option.some_ne_none v
  calc (Finset.univ.filter fun v => s.nodeUsed v = true).card
      = ((Finset.univ.filter fun v => s.nodeUsed v = true).image some).card :=
        (Finset.card_image_of_injective _ (Option.some_injective _)).symm
    _ ≤ _ := (Finset.card_le_card hsub).trans Finset.card_image_le

/-- While tasks are left, at least as many nodes are free. -/
theorem Placing.Ok.card_free (hs : s.Ok) (hle : m ≤ n) (ts : Finset (Fin m))
    (hts : ∀ t ∈ ts, s.taskToNode t = none) :
    ts.card ≤ (Finset.univ.filter fun v => s.nodeUsed v = false).card := by
  have hsplit := Finset.card_filter_add_card_filter_not (s := Finset.univ)
    fun v : Fin n => s.nodeUsed v = true
  have hdisj : Disjoint ts (Finset.univ.filter fun t => s.taskToNode t ≠ none) :=
    Finset.disjoint_left.mpr fun t ht hplaced => (Finset.mem_filter.mp hplaced).2 (hts t ht)
  have hall := Finset.card_le_univ (ts ∪ Finset.univ.filter fun t => s.taskToNode t ≠ none)
  have hused := hs.card_used
  rw [Finset.card_union_of_disjoint hdisj, Fintype.card_fin] at hall
  rw [Finset.card_univ, Fintype.card_fin] at hsplit
  simp only [Bool.not_eq_true] at hsplit
  omega

end

/-! ## One turn -/

section

variable [Zero K] [LinearOrder K] {cost : Cost n K} {s s' : Placing m n} {p : Pair m K}
  {t t' : Fin m}

theorem placePair_ok (hs : s.Ok) (h : placePair cost s p = some s') : s'.Ok := by
  unfold placePair at h
  split at h
  · cases h
    exact hs
  · next hi hj =>
      obtain ⟨⟨a, b⟩, hab, rfl⟩ := Option.map_eq_some_iff.mp h
      obtain ⟨⟨hfa, hfb⟩, hne, -⟩ := bestFreePair_spec.1 a b hab
      refine (hs.assign hi hfa).assign ?_ ?_
      · rw [Placing.taskToNode_assign, if_neg (ne_of_gt p.lt), hj]
      · rw [Placing.nodeUsed_assign, if_neg (Ne.symm hne), hfb]
  · next hi _ =>
      obtain ⟨v, hv, rfl⟩ := Option.map_eq_some_iff.mp h
      exact hs.assign hi ((bestFreeNode_spec _).1 v hv).1
  · next _ hj =>
      obtain ⟨v, hv, rfl⟩ := Option.map_eq_some_iff.mp h
      exact hs.assign hj ((bestFreeNode_spec _).1 v hv).1

theorem placePair_keep (h : placePair cost s p = some s') (ht : s.taskToNode t ≠ none) :
    s'.taskToNode t ≠ none := by
  unfold placePair at h
  split at h
  · cases h
    exact ht
  · obtain ⟨ab, -, rfl⟩ := Option.map_eq_some_iff.mp h
    exact Placing.assign_ne_none (Placing.assign_ne_none ht)
  all_goals
    obtain ⟨v, -, rfl⟩ := Option.map_eq_some_iff.mp h
    exact Placing.assign_ne_none ht

theorem placePair_make (h : placePair cost s p = some s') :
    s'.taskToNode p.i ≠ none ∧ s'.taskToNode p.j ≠ none := by
  unfold placePair at h
  split at h
  · next hi hj =>
      cases h
      simp [hi, hj]
  · obtain ⟨ab, -, rfl⟩ := Option.map_eq_some_iff.mp h
    exact ⟨Placing.assign_ne_none Placing.assign_self, Placing.assign_self⟩
  · next hj =>
      obtain ⟨v, -, rfl⟩ := Option.map_eq_some_iff.mp h
      exact ⟨Placing.assign_self, Placing.assign_ne_none (by simp [hj])⟩
  · next hi _ =>
      obtain ⟨v, -, rfl⟩ := Option.map_eq_some_iff.mp h
      exact ⟨Placing.assign_ne_none (by simp [hi]), Placing.assign_self⟩

theorem placeRest_ok (hs : s.Ok) (h : placeRest cost s t = some s') : s'.Ok := by
  unfold placeRest at h
  split at h
  · cases h
    exact hs
  · next ht =>
      obtain ⟨v, hv, rfl⟩ := Option.map_eq_some_iff.mp h
      exact hs.assign ht ((bestFreeNode_spec none).1 v hv).1

theorem placeRest_keep (h : placeRest cost s t = some s') (ht : s.taskToNode t' ≠ none) :
    s'.taskToNode t' ≠ none := by
  unfold placeRest at h
  split at h
  · cases h
    exact ht
  · obtain ⟨v, -, rfl⟩ := Option.map_eq_some_iff.mp h
    exact Placing.assign_ne_none ht

theorem placeRest_make (h : placeRest cost s t = some s') : s'.taskToNode t ≠ none := by
  unfold placeRest at h
  split at h
  · next v hv =>
      cases h
      rw [hv]
      exact Option.some_ne_none v
  · obtain ⟨v, -, rfl⟩ := Option.map_eq_some_iff.mp h
    exact Placing.assign_self

/-- Some node is free for a task that is left, and the last loop takes any. -/
theorem exists_placeRest (hs : s.Ok) (hle : m ≤ n) : ∃ s', placeRest cost s t = some s' := by
  unfold placeRest
  split
  · exact ⟨s, rfl⟩
  · next ht =>
      have hfree := hs.card_free hle {t} fun t' ht' => by
        rw [Finset.mem_singleton.mp ht', ht]
      rw [Finset.card_singleton] at hfree
      obtain ⟨v, hv⟩ := Finset.card_pos.mp hfree
      have hfound : bestFreeNode cost s none ≠ none :=
        (bestFreeNode_spec none).2 v (Finset.mem_filter.mp hv).2 WithTop.zero_ne_top
      obtain ⟨x, hx⟩ := Option.ne_none_iff_exists'.mp hfound
      exact ⟨s.assign t x, by rw [hx, Option.map_some]⟩

end

/-! ## The whole placement -/

section

variable [Zero K] [LinearOrder K] {ops : CostOps K} {g : TopologyGraph K} {w : Workload K}
  {sorter : {m : Nat} → Sorter fun p : Pair m K => OrderDual.toDual p.volume}

/-- Two nodes that are joined at all are joined by so few links that their costs cannot come to
infinity. -/
def FiniteCosts (ops : CostOps K) (g : TopologyGraph K) : Prop :=
  ∃ bound, ops.Bounded g bound ∧ ∀ a b, g.Reaches a b → ∃ n, g.Path n a b ∧ bound n ≠ ⊤

/-- What `addLink` makes: a link can be gone both ways. -/
def TopologyGraph.Undirected (g : TopologyGraph K) : Prop := ∀ a b, g.Linked a b → g.Linked b a

def TopologyGraph.Connected (g : TopologyGraph K) : Prop := ∀ a b, g.Reaches a b

/-- Every task gets a node of its own. -/
def Placed (ops : CostOps K)
    (sorter : {m : Nat} → Sorter fun p : Pair m K => OrderDual.toDual p.volume)
    (g : TopologyGraph K) (w : Workload K) : Prop :=
  ∃ f : Fin w.numTasks → Fin g.numNodes, Function.Injective f ∧
    place ops sorter g w = some fun t => some (f t)

theorem foldlM_placePair_ok {ps : List (Pair m K)} {cost : Cost n K} {s : Placing m n}
    (h : ps.foldlM (placePair cost) {} = some s) : s.Ok :=
  foldlM_invariant (fun _ _ _ _ => placePair_ok) h .start

/-- The last loop comes to its end, and then every task has a node of its own. -/
theorem exists_foldlM_placeRest (cost : Cost n K) {s : Placing m n} (hs : s.Ok) (hle : m ≤ n) :
    ∃ s' f, (List.finRange m).foldlM (placeRest cost) s = some s' ∧
      s'.taskToNode = (fun t => some (f t)) ∧ Function.Injective f := by
  obtain ⟨s', hs'⟩ : ∃ s', (List.finRange m).foldlM (placeRest cost) s = some s' :=
    foldlM_isSome_iff.mpr fun before t after _ u hu =>
      exists_placeRest (foldlM_invariant (fun _ _ _ _ => placeRest_ok) hu hs) hle
  have hok : s'.Ok := foldlM_invariant (fun _ _ _ _ => placeRest_ok) hs' hs
  have hplaced : ∀ t, ∃ v, s'.taskToNode t = some v := fun t =>
    Option.ne_none_iff_exists'.mp (foldlM_of_mem (P := fun s => s.taskToNode t ≠ none)
      (fun _ _ _ ht hstep => placeRest_keep hstep ht) (fun _ _ => placeRest_make)
      (List.mem_finRange t) hs')
  choose f hf using hplaced
  exact ⟨s', f, hs', funext hf, fun t t' heq => hok.apart t t' (f t) (hf t) (heq ▸ hf t')⟩

/-! ## On a connected topology -/

theorem exists_placePair {cost : Cost n K} {s : Placing m n} (hs : s.Ok) (hle : m ≤ n)
    (hcost : ∀ a b, cost a b ≠ ⊤) (p : Pair m K) : ∃ s', placePair cost s p = some s' := by
  -- one free node is enough for a task whose partner is placed
  have hone : ∀ t, s.taskToNode t = none → ∀ x, ∃ v, bestFreeNode cost s (some x) = some v := by
    intro t ht x
    have hfree := hs.card_free hle {t} fun t' ht' => by
      rw [Finset.mem_singleton.mp ht', ht]
    rw [Finset.card_singleton] at hfree
    obtain ⟨v, hv⟩ := Finset.card_pos.mp hfree
    exact Option.ne_none_iff_exists'.mp
      ((bestFreeNode_spec (some x)).2 v (Finset.mem_filter.mp hv).2 (hcost x v))
  unfold placePair
  rcases hi : s.taskToNode p.i with _ | x <;> rcases hj : s.taskToNode p.j with _ | y
  · have hfree := hs.card_free hle {p.i, p.j} fun t ht => by
      rcases Finset.mem_insert.mp ht with rfl | hmem
      · exact hi
      · rw [Finset.mem_singleton.mp hmem, hj]
    rw [Finset.card_pair (ne_of_lt p.lt)] at hfree
    obtain ⟨a, ha, b, hb, hne⟩ := Finset.one_lt_card.mp hfree
    obtain ⟨ab, hab⟩ := Option.ne_none_iff_exists'.mp (bestFreePair_spec.2 a b
      (Finset.mem_filter.mp ha).2 (Finset.mem_filter.mp hb).2 hne (hcost a b))
    exact ⟨_, Option.map_eq_some_iff.mpr ⟨ab, hab, rfl⟩⟩
  · obtain ⟨v, hv⟩ := hone p.i hi y
    exact ⟨_, Option.map_eq_some_iff.mpr ⟨v, hv, rfl⟩⟩
  · obtain ⟨v, hv⟩ := hone p.j hj x
    exact ⟨_, Option.map_eq_some_iff.mpr ⟨v, hv, rfl⟩⟩
  · exact ⟨s, rfl⟩

theorem FiniteCosts.ne_top (h : FiniteCosts ops g) (hab : g.Reaches a b) :
    allPairsCost ops g a b ≠ ⊤ := by
  obtain ⟨bound, hbound, hpath⟩ := h
  obtain ⟨n, hn, hfinite⟩ := hpath a b hab
  exact ne_top_of_le_ne_top hfinite (allPairsCost_le hbound hn)

theorem placed_of_connected (hle : w.numTasks ≤ g.numNodes) (hfinite : FiniteCosts ops g)
    (hconn : g.Connected) : Placed ops sorter g w := by
  obtain ⟨s, hs⟩ : ∃ s, (sorter.run w.pairs).foldlM (placePair (allPairsCost ops g)) {} = some s :=
    foldlM_isSome_iff.mpr fun before p after _ u hu =>
      exists_placePair (foldlM_placePair_ok hu) hle (fun a b => hfinite.ne_top (hconn a b)) p
  obtain ⟨s', f, hrest, hf, hinj⟩ :=
    exists_foldlM_placeRest (allPairsCost ops g) (foldlM_placePair_ok hs) hle
  refine ⟨f, hinj, ?_⟩
  unfold place
  simp only [hs, hrest, Option.bind_eq_bind, Option.bind_some, hf, Option.pure_def]

/-! ## One task that communicates with all others -/

/-- The tasks that are placed are on nodes that can be reached from that of `z`. -/
def Around (g : TopologyGraph K) (z : Fin m) (s : Placing m g.numNodes) : Prop :=
  ∀ t v, s.taskToNode t = some v → ∃ x, s.taskToNode z = some x ∧ g.Reaches x v

theorem Around.assign {z t : Fin m} {s : Placing m g.numNodes} {x v : Fin g.numNodes}
    (h : Around g z s) (hz : s.taskToNode z = some x) (ht : t ≠ z) (hreach : g.Reaches x v) :
    Around g z (s.assign t v) := by
  intro t' v' ht'
  rw [Placing.taskToNode_assign] at ht' ⊢
  rw [if_neg ht.symm]
  split at ht'
  · exact ⟨x, hz, Option.some.inj ht' ▸ hreach⟩
  · exact h t' v' ht'

theorem Around.placePair {z : Fin m} {s s' : Placing m g.numNodes} {p : Pair m K}
    (h : Around g z s) (hp : p.i = z) (hstep : placePair (allPairsCost ops g) s p = some s') :
    Around g z s' := by
  have hj : p.j ≠ z := hp ▸ ne_of_gt p.lt
  unfold Topology.placePair at hstep
  split at hstep
  · cases hstep
    exact h
  · next hi _ =>
      -- nothing has been placed
      obtain ⟨⟨a, b⟩, hab, rfl⟩ := Option.map_eq_some_iff.mp hstep
      have hcost := (bestFreePair_spec.1 a b hab).2.2
      have hfirst : Around g z (s.assign p.i a) := by
        intro t v ht
        rw [Placing.taskToNode_assign] at ht
        split at ht
        · exact ⟨a, by rw [Placing.taskToNode_assign, if_pos hp.symm], Option.some.inj ht ▸ .refl⟩
        · obtain ⟨x, hx, -⟩ := h t v ht
          rw [← hp, hi] at hx
          cases hx
      exact hfirst.assign (by rw [Placing.taskToNode_assign, if_pos hp.symm]) hj
        (allPairsCost_reaches hcost)
  · next v hi hv =>
      obtain ⟨x, hx, -⟩ := h p.j v hv
      rw [← hp, hi] at hx
      cases hx
  · next x hx _ =>
      obtain ⟨v, hv, rfl⟩ := Option.map_eq_some_iff.mp hstep
      exact h.assign (hp ▸ hx) hj (allPairsCost_reaches ((bestFreeNode_spec _).1 v hv).2)

theorem Around.placeRest {z : Fin m} {s s' : Placing m g.numNodes} {t : Fin m}
    (h : Around g z s ∧ ∀ t, s.taskToNode t ≠ none)
    (hstep : placeRest (allPairsCost ops g) s t = some s') :
    Around g z s' ∧ ∀ t, s'.taskToNode t ≠ none := by
  unfold Topology.placeRest at hstep
  split at hstep
  · cases hstep
    exact h
  · next ht => exact absurd ht (h.2 t)

variable [One K] [ZeroLEOneClass K] [NeZero (1 : K)]

/-- Task `0` communicates with all others. -/
def star (m : Nat) (K : Type*) [Zero K] [One K] : Workload K :=
  ⟨m, fun i _ => if i.val = 0 then 1 else 0⟩

omit [ZeroLEOneClass K] [NeZero (1 : K)] in
theorem star_pair {p : Pair m K} (h : p ∈ (star m K).pairs) : p.i.val = 0 := by
  obtain ⟨i, -, h⟩ := List.mem_flatMap.mp h
  obtain ⟨j, -, h⟩ := List.mem_filterMap.mp h
  split at h
  · next hij =>
      obtain rfl := Option.some.inj h
      by_contra hne
      exact absurd hij.2 (by simp [star, hne])
  · cases h

theorem exists_star_pair {z t : Fin m} (hz : z.val = 0) (ht : t ≠ z) :
    ∃ p ∈ (star m K).pairs, p.i = z ∧ p.j = t := by
  have hlt : z < t := Fin.lt_def.mpr (by have := Fin.val_ne_of_ne ht; omega)
  refine ⟨⟨z, t, 1, hlt⟩, List.mem_flatMap.mpr ⟨z, List.mem_finRange z,
    List.mem_filterMap.mpr ⟨t, List.mem_finRange t, ?_⟩⟩, rfl, rfl⟩
  have hvolume : (star m K).commVolumeGb z t = 1 := if_pos hz
  simp only [hvolume, zero_lt_one, and_true]
  exact dif_pos hlt

/-- If all are placed, the node of task `0` reaches all nodes. -/
theorem reaches_of_star (h : Placed ops sorter g (star g.numNodes K)) (a : Fin g.numNodes) :
    ∃ x, ∀ v, g.Reaches x v := by
  obtain ⟨f, hinj, hplace⟩ : ∃ f : Fin g.numNodes → Fin g.numNodes, Function.Injective f ∧
    place ops sorter g (star g.numNodes K) = some fun t => some (f t) := h
  obtain ⟨s, hs, hplace⟩ := Option.bind_eq_some_iff.mp hplace
  obtain ⟨s', hs', hend⟩ := Option.bind_eq_some_iff.mp hplace
  have hend : s'.taskToNode = fun t => some (f t) := Option.some.inj hend
  let z : Fin g.numNodes := ⟨0, a.pos⟩
  have hmem {p : Pair g.numNodes K} :
      p ∈ sorter.run (star g.numNodes K).pairs ↔ p ∈ (star g.numNodes K).pairs :=
    (sorter.perm _).mem_iff
  have haround : Around g z s := by
    refine foldlM_invariant (fun u p hp u' hu hstep => ?_) hs fun t v ht => nomatch ht
    exact hu.placePair (Fin.ext (star_pair (hmem.mp hp))) hstep
  by_cases hsingle : ∀ t, t = z
  · exact ⟨z, fun v => (hsingle v).symm ▸ .refl⟩
  · obtain ⟨t₀, ht₀⟩ := not_forall.mp hsingle
    have hall : ∀ t, s.taskToNode t ≠ none := by
      intro t
      obtain ⟨t', ht', hpair⟩ : ∃ t', t' ≠ z ∧ (t = z ∨ t = t') := by
        by_cases htz : t = z
        · exact ⟨t₀, ht₀, .inl htz⟩
        · exact ⟨t, htz, .inr rfl⟩
      obtain ⟨p, hp, hi, hj⟩ := exists_star_pair (K := K) rfl ht'
      refine foldlM_of_mem (P := fun s : Placing g.numNodes g.numNodes => s.taskToNode t ≠ none)
        (fun _ _ _ ht hstep => placePair_keep hstep ht) (fun _ _ hstep => ?_) (hmem.mpr hp) hs
      rcases hpair with rfl | rfl
      · exact hi ▸ (placePair_make hstep).1
      · exact hj ▸ (placePair_make hstep).2
    have hlast := foldlM_invariant (I := fun s => Around g z s ∧ ∀ t, s.taskToNode t ≠ none)
      (fun _ _ _ _ => Around.placeRest) hs' ⟨haround, hall⟩
    refine ⟨f z, fun v => ?_⟩
    obtain ⟨t, rfl⟩ := (Finite.injective_iff_surjective.mp hinj) v
    obtain ⟨x, hx, hreach⟩ := hlast.1 t (f t) (by rw [hend])
    rw [hend] at hx
    exact Option.some.inj hx ▸ hreach

end

/-! ## Two tasks on two nodes -/

/-- Exact arithmetic. -/
def exactOps : CostOps ℚ := ⟨fun b => (1 / b : ℚ), (· + ·), fun _ => rfl, WithTop.add_top⟩

/-- Two nodes and the link between them. -/
def twoLinked : TopologyGraph ℚ := ⟨["a", "b"], fun v => [⟨v.rev, 1, one_pos⟩]⟩

/-- Two nodes without a link. -/
def twoIsolated : TopologyGraph ℚ := ⟨["a", "b"], fun _ => []⟩

theorem twoLinked_path (a b : Fin 2) : ∃ n, twoLinked.Path n a b := by
  by_cases heq : a = b
  · exact heq ▸ ⟨0, .nil⟩
  · have hrev : ∀ a b : Fin 2, a ≠ b → a.rev = b := by decide
    exact ⟨1, .tail .nil ⟨⟨Fin.rev (n := 2) a, 1, one_pos⟩, List.mem_singleton.mpr rfl,
      hrev a b heq⟩⟩

/-- Every link costs `1`. -/
theorem twoLinked_bounded : exactOps.Bounded twoLinked fun n => (n : ℚ) where
  zero := le_rfl
  recip _ e he := by
    rw [List.mem_singleton.mp he]
    exact WithTop.coe_le_coe.mpr (by simp)
  add l l' n c d hle hc hd :=
    calc c + d ≤ ((l : ℚ) : WithTop ℚ) + ((l' : ℚ) : WithTop ℚ) := add_le_add hc hd
      _ = (((l + l' : Nat) : ℚ) : WithTop ℚ) := by push_cast; rfl
      _ ≤ ((n : ℚ) : WithTop ℚ) := WithTop.coe_le_coe.mpr (Nat.cast_le.mpr hle)

end CrossMachine.Topology
