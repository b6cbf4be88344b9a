import CrossMachine.Serving.SlaScheduler
import Mathlib.Data.List.Perm.Subperm

/-!
# Who is preempted for whom

A tick keeps the requests with the earliest deadlines, as many as fit. So a request is preempted
when the batch is full without it, of requests that are due no later (`preempted_for_room`).
Unless the batch has become smaller, one of them is new. It may be due at the same time: which of
two requests with equal deadlines goes first is left to the hash table and to the sort.

None of this needs ids to be used with care, so it is about every state that calls lead to.
Whatever order the entries of the hash table are found in, the sort of a tick is some sort by
deadline, and each tick may use another.
-/

namespace CrossMachine.Serving.Sla

open Lib

variable {K : Type*} [LinearOrder K] [Add K]

/-- The states that calls lead to. -/
inductive Reached : SlaScheduler K → Prop where
  | new : Reached .new
  | add {s : SlaScheduler K} (r : SlaRequest K) : Reached s → Reached (addRequest s r)
  | tick {s : SlaScheduler K} (sort : DeadlineSort K) (maxBatchSize : Nat) (nowS : K) :
      Reached s → Reached (scheduleTick sort s maxBatchSize nowS).1
  | finish {s : SlaScheduler K} (seqId : Int) : Reached s → Reached (finishSequence s seqId)

/-- One entry for an id, and only pending requests are active. -/
structure Kept (s : SlaScheduler K) : Prop where
  keys : (Table.keys s.pending).Nodup
  active : s.active.Nodup
  active_pending : ∀ id ∈ s.active, id ∈ Table.keys s.pending

section Steps

variable {s : SlaScheduler K}

omit [LinearOrder K] [Add K] in
theorem Kept.add (h : Kept s) (r : SlaRequest K) : Kept (addRequest s r) := by
  cases hlookup : s.pending.lookup r.id with
  | none =>
      have hpending : (addRequest s r).pending = s.pending ++ [(r.id, r)] := by
        simp [addRequest, hlookup]
      have hkeys : Table.keys (addRequest s r).pending = Table.keys s.pending ++ [r.id] := by
        rw [hpending, Table.keys, List.map_append]
        rfl
      refine ⟨?_, h.active, fun id hid => ?_⟩
      · rw [hkeys]
        exact (List.perm_append_singleton _ _).nodup_iff.mpr
          (List.nodup_cons.mpr ⟨Table.lookup_eq_none hlookup, h.keys⟩)
      · rw [hkeys]
        exact List.mem_append_left _ (h.active_pending id hid)
  | some r' =>
      -- the entry is overwritten in its place
      have hkeys : Table.keys (addRequest s r).pending = Table.keys s.pending := by
        simp only [addRequest, hlookup, Option.isSome_some, if_true]
        exact Table.keys_set _ _ _
      exact ⟨hkeys ▸ h.keys, h.active, fun id hid => hkeys ▸ h.active_pending id hid⟩

omit [LinearOrder K] [Add K] in
theorem Kept.finish (h : Kept s) (seqId : Int) : Kept (finishSequence s seqId) where
  keys := h.keys.sublist (List.filter_sublist.map _)
  active := h.active.filter _
  active_pending id hid := by
    obtain ⟨hid, hne⟩ := List.mem_filter.mp hid
    obtain ⟨e, he, rfl⟩ := List.mem_map.mp (h.active_pending id hid)
    refine List.mem_map_of_mem (List.mem_filter.mpr ⟨he, ?_⟩)
    simpa using hne

theorem Kept.tick (h : Kept s) (sort : DeadlineSort K) (b : Nat) (nowS : K) :
    Kept (scheduleTick sort s b nowS).1 := by
  obtain ⟨violated, heq, -⟩ := scheduleTick_eq sort b nowS h.keys
  rw [heq]
  exact ⟨h.keys, (byDeadline_nodup h.keys).sublist (List.take_sublist _ _),
    fun id hid => mem_byDeadline.mp (List.mem_of_mem_take hid)⟩

theorem Reached.kept (h : Reached s) : Kept s := by
  induction h with
  | new => exact ⟨List.nodup_nil, List.nodup_nil, by simp [SlaScheduler.new]⟩
  | add r _ ih => exact ih.add r
  | tick sort b nowS _ ih => exact ih.tick sort b nowS
  | finish seqId _ ih => exact ih.finish seqId

end Steps

section Ticks

variable {s : SlaScheduler K} {sort : DeadlineSort K} {b : Nat} {nowS : K}

/-- Of what is not shorter and lacks something of the other, not all is there. -/
theorem exists_new {xs ys : List Int} {y : Int} (hxs : xs.Nodup) (hlen : ys.length ≤ xs.length)
    (hy : y ∈ ys) (hyx : y ∉ xs) : ∃ x ∈ xs, x ∉ ys := by
  by_contra hall
  simp only [not_exists, not_and, not_not] at hall
  have hsub : xs.Subperm (ys.erase y) := by
    refine hxs.subperm fun x hx => ?_
    have hne : x ≠ y := fun heq => hyx (heq ▸ hx)
    exact (List.mem_erase_of_ne hne).mpr (hall x hx)
  have hle := hsub.length_le
  have hpos := List.length_pos_of_mem hy
  rw [List.length_erase_of_mem hy] at hle
  omega

/-- Whoever is left out is due no earlier than those who are not, and these fill the batch. -/
theorem left_out {id : Int} (hid : id ∈ Table.keys s.pending)
    (hout : id ∉ (byDeadline sort s).take b) :
    ((byDeadline sort s).take b).length = b ∧ ∃ r, (id, r) ∈ s.pending ∧
      ∀ id' ∈ (byDeadline sort s).take b, ∃ r', (id', r') ∈ s.pending ∧
        r'.deadlineS ≤ r.deadlineS := by
  have hmem : id ∈ byDeadline sort s := mem_byDeadline.mpr hid
  have hlen : b ≤ (byDeadline sort s).length := by
    by_contra hlt
    rw [List.take_of_length_le (Nat.le_of_not_le hlt)] at hout
    exact hout hmem
  refine ⟨by rw [List.length_take, Nat.min_eq_left hlen], ?_⟩
  have hsorted := sort.sorted s.pending
  rw [← List.take_append_drop b (sort.run s.pending), List.pairwise_append] at hsorted
  rw [byDeadline, ← List.take_append_drop b (sort.run s.pending), List.map_append,
    List.mem_append] at hmem
  rw [byDeadline, ← List.map_take] at hout ⊢
  obtain ⟨⟨_, r⟩, hr, rfl⟩ := List.mem_map.mp (hmem.resolve_left hout)
  refine ⟨r, sort.mem_run.mp (List.mem_of_mem_drop hr), fun id' hid' => ?_⟩
  obtain ⟨⟨_, r'⟩, hr', rfl⟩ := List.mem_map.mp hid'
  exact ⟨r', sort.mem_run.mp (List.mem_of_mem_take hr'), hsorted.2.2 _ hr' _ hr⟩

end Ticks

/-- **Preemption makes room for the urgent.** Whoever a tick preempts finds the batch full, of
requests that are due no later; unless the batch is smaller than what was active, one of them is
newly active. -/
theorem preempted_for_room {s : SlaScheduler K} (hs : Reached s) (sort : DeadlineSort K)
    (maxBatchSize : Nat) (nowS : K) :
    let result := (scheduleTick sort s maxBatchSize nowS).2
    ∀ id ∈ result.preemptedSeqIds,
      result.activeSeqIds.length = maxBatchSize ∧
      (∃ r, (id, r) ∈ s.pending ∧ ∀ id' ∈ result.activeSeqIds,
        ∃ r', (id', r') ∈ s.pending ∧ r'.deadlineS ≤ r.deadlineS) ∧
      (s.active.length ≤ maxBatchSize → ∃ id' ∈ result.activeSeqIds, id' ∉ s.active) := by
  have h := hs.kept
  obtain ⟨violated, heq, -⟩ := scheduleTick_eq sort maxBatchSize nowS h.keys
  simp only [heq]
  intro id hid
  obtain ⟨hactive, hout⟩ := List.mem_filter.mp hid
  rw [decide_eq_true_eq] at hout
  obtain ⟨hlen, hdue⟩ := left_out (h.active_pending id hactive) hout
  have hnodup : ((byDeadline sort s).take maxBatchSize).Nodup :=
    (byDeadline_nodup h.keys).sublist (List.take_sublist _ _)
  exact ⟨hlen, hdue, fun hroom => exists_new hnodup (hlen.symm ▸ hroom) hactive hout⟩

/-- The requests `1` and `2`, of which `2` is due later, with room for both. -/
def bothActive : SlaScheduler Nat :=
  (scheduleTick (Sorter.stable _) (addRequest (addRequest .new ⟨1, 0, 5⟩) ⟨2, 0, 7⟩) 2 0).1

/-- Request `2` comes when request `1`, which is due at the same time, is active. -/
def tied : SlaScheduler Nat :=
  addRequest (scheduleTick (Sorter.stable _) (addRequest .new ⟨1, 0, 5⟩) 1 0).1 ⟨2, 0, 5⟩

theorem tied_reached : Reached tied := ((Reached.new.add ⟨1, 0, 5⟩).tick _ 1 0).add ⟨2, 0, 5⟩

/-- A hash table whose newest entry is found first, and a sort that keeps the order. -/
def newestFirst : DeadlineSort Nat where
  run es := (Sorter.stable _).run es.reverse
  perm es := ((Sorter.stable _).perm _).trans es.reverse_perm
  sorted _ := (Sorter.stable _).sorted _

theorem preempted_for_room_tied :
    (scheduleTick newestFirst tied 1 0).2.activeSeqIds.length = 1 ∧
      ∃ id' ∈ (scheduleTick newestFirst tied 1 0).2.activeSeqIds, id' ∉ tied.active :=
  have h := preempted_for_room tied_reached newestFirst 1 0 1 (by decide)
  ⟨h.1, h.2.2 (by decide)⟩

/-- Every preempted request makes room for a newly active one that is due before it. -/
def PreemptsForUrgency : Prop :=
  ∀ s : SlaScheduler Nat, Reached s → ∀ sort maxBatchSize nowS,
    let result := (scheduleTick sort s maxBatchSize nowS).2
    ∀ id ∈ result.preemptedSeqIds, ∀ r, (id, r) ∈ s.pending →
      ∃ id' ∈ result.activeSeqIds, id' ∉ s.active ∧
        ∃ r', (id', r') ∈ s.pending ∧ r'.deadlineS < r.deadlineS

/-- A smaller batch preempts a request for nobody, and a tie preempts one for another that is no
more urgent. -/
theorem preempted_on_tie :
    (bothActive.active = [1, 2] ∧
      (scheduleTick (Sorter.stable _) bothActive 1 0).2 = ⟨[1], [2]⟩) ∧
    (tied.active = [1] ∧ tied.pending = [(1, ⟨1, 0, 5⟩), (2, ⟨2, 0, 5⟩)] ∧
      (scheduleTick newestFirst tied 1 0).2 = ⟨[2], [1]⟩) ∧
    ¬ PreemptsForUrgency := by
  refine ⟨by decide, by decide, fun hall => ?_⟩
  obtain ⟨id', hid', -, r', hr', hlt⟩ :=
    hall tied tied_reached newestFirst 1 0 1 (by decide) ⟨1, 0, 5⟩ (by decide)
  obtain rfl : id' = 2 := by
    have hresult : (scheduleTick newestFirst tied 1 0).2 = ⟨[2], [1]⟩ := by decide
    rw [hresult] at hid'
    exact List.mem_singleton.mp hid'
  have hpending : tied.pending = [(1, ⟨1, 0, 5⟩), (2, ⟨2, 0, 5⟩)] := by decide
  rw [hpending] at hr'
  obtain rfl : r' = ⟨2, 0, 5⟩ := by simpa using hr'
  exact absurd hlt (by decide)

end CrossMachine.Serving.Sla
