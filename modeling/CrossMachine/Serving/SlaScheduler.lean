import CrossMachine.Lib.Sorter
import CrossMachine.Lib.Table
import Mathlib.Data.Set.Card
import Mathlib.Tactic.IntervalCases

/-!
# The SLA scheduler

`SlaScheduler` runs the requests with the earliest deadlines. A tick picks them anew from all
requests that are not finished, active or not; who was active and is not picked is preempted.
A request whose deadline has passed is counted as a violation, once.

What the counter is to say is stated about the history of calls alone: request number `n`, the
one that call `n` added, was late at a tick if it had not been finished by then and its deadline
had passed (`Late`). That the code agrees rests on one thing, that an id is not used again
while a request with it is pending; it may be used again later, and is a new request then.

The order in which the standard library goes through a hash table is that of a list here, which
matters for the order of the ids in a result and for nothing else; every tick may sort equal
deadlines in another way. Deadlines are computed with any addition. The two counters, each an
`int`, are taken not to overflow: they are natural numbers.
-/

namespace CrossMachine.Serving.Sla

open Lib

variable {K : Type*}

structure SlaRequest (K : Type*) where
  id : Int
  arrivalTimeS : K
  latencyBudgetS : K
  deriving DecidableEq, Repr

def SlaRequest.deadlineS [Add K] (r : SlaRequest K) : K := r.arrivalTimeS + r.latencyBudgetS

structure SlaScheduler (K : Type*) where
  /-- `pending_`: the requests that are not finished, by id. -/
  pending : List (Int × SlaRequest K)
  /-- `active_`. -/
  active : List Int
  /-- `violated_`. -/
  violated : List Int
  /-- `num_violations_`. -/
  numViolations : Nat
  /-- `num_preemptions_`. -/
  numPreemptions : Nat
  deriving DecidableEq, Repr

structure TickResult where
  activeSeqIds : List Int
  preemptedSeqIds : List Int
  deriving DecidableEq, Repr

def SlaScheduler.new : SlaScheduler K := ⟨[], [], [], 0, 0⟩

def addRequest (s : SlaScheduler K) (r : SlaRequest K) : SlaScheduler K :=
  { s with
    pending := if (s.pending.lookup r.id).isSome then Table.set s.pending r.id r
      else s.pending ++ [(r.id, r)] }

def finishSequence (s : SlaScheduler K) (seqId : Int) : SlaScheduler K :=
  { s with
    active := s.active.filter (· ≠ seqId)
    pending := Table.remove s.pending seqId
    violated := s.violated.filter (· ≠ seqId) }

variable [LinearOrder K] [Add K]

/-- One turn of the loop over `pending_`. -/
def countViolation (nowS : K) (s : SlaScheduler K) (e : Int × SlaRequest K) : SlaScheduler K :=
  if e.2.deadlineS < nowS ∧ e.1 ∉ s.violated then
    { s with violated := e.1 :: s.violated, numViolations := s.numViolations + 1 }
  else s

/-- A sort by deadline. -/
abbrev DeadlineSort (K : Type*) [LinearOrder K] [Add K] :=
  Sorter fun e : Int × SlaRequest K => e.2.deadlineS

variable (sort : DeadlineSort K)

def scheduleTick (s : SlaScheduler K) (maxBatchSize : Nat) (nowS : K) :
    SlaScheduler K × TickResult :=
  let s := s.pending.foldl (countViolation nowS) s
  let byDeadline := (sort.run s.pending).map Prod.fst
  let newActive := byDeadline.take (min maxBatchSize byDeadline.length)
  let preempted := s.active.filter (· ∉ newActive)
  ({ s with active := newActive, numPreemptions := s.numPreemptions + preempted.length },
    ⟨newActive, preempted⟩)

inductive Call (K : Type*)
  | add (r : SlaRequest K)
  | tick (maxBatchSize : Nat) (nowS : K)
  | finish (seqId : Int)
  deriving DecidableEq, Repr

def perform (s : SlaScheduler K) : Call K → SlaScheduler K
  | .add r => addRequest s r
  | .tick maxBatchSize nowS => (scheduleTick sort s maxBatchSize nowS).1
  | .finish seqId => finishSequence s seqId

/-- The scheduler after a history of calls. A tick that is call `n` uses `sorts n`. -/
def run (sorts : Nat → DeadlineSort K) (h : List (Call K)) : SlaScheduler K :=
  h.zipIdx.foldl (fun s (c, n) => perform (sorts n) s c) .new

theorem run_snoc (sorts : Nat → DeadlineSort K) (h : List (Call K)) (c : Call K) :
    run sorts (h ++ [c]) = perform (sorts h.length) (run sorts h) c := by
  simp [run, List.zipIdx_append]

/-! ## Histories -/

omit [LinearOrder K] [Add K] in
/-- Call `n` has added the request, and no later one has finished it. -/
def Waiting (h : List (Call K)) (n : Nat) (r : SlaRequest K) : Prop :=
  h[n]? = some (.add r) ∧ ∀ j, n < j → h[j]? ≠ some (.finish r.id)

/-- The request that call `n` has added was pending at a tick after its deadline. -/
def Late (h : List (Call K)) (n : Nat) : Prop :=
  ∃ t maxBatchSize nowS r, h[t]? = some (.tick maxBatchSize nowS) ∧ Waiting (h.take t) n r ∧
    r.deadlineS < nowS

omit [LinearOrder K] [Add K] in
/-- No request is added under the id of a pending one. -/
def Proper (h : List (Call K)) : Prop :=
  ∀ t r, h[t]? = some (.add r) → ∀ n r', Waiting (h.take t) n r' → r'.id ≠ r.id

section Histories

variable {h : List (Call K)} {c : Call K} {n : Nat} {r : SlaRequest K}

omit [LinearOrder K] [Add K] in
theorem Waiting.lt (hw : Waiting h n r) : n < h.length := (List.getElem?_eq_some_iff.mp hw.1).1

omit [LinearOrder K] [Add K] in
theorem waiting_snoc : Waiting (h ++ [c]) n r ↔
    Waiting h n r ∧ c ≠ .finish r.id ∨ n = h.length ∧ c = .add r := by
  constructor
  · rintro ⟨hn, hlater⟩
    have hlt := (List.getElem?_eq_some_iff.mp hn).1
    rw [List.length_append, List.length_singleton] at hlt
    rcases Nat.lt_or_eq_of_le (Nat.le_of_lt_succ hlt) with hlt | rfl
    · left
      rw [List.getElem?_append_left hlt] at hn
      refine ⟨⟨hn, fun j hj hfin => ?_⟩, ?_⟩
      · refine hlater j hj ?_
        rw [List.getElem?_append_left (List.getElem?_eq_some_iff.mp hfin).1]
        exact hfin
      · rintro rfl
        exact hlater h.length hlt (by simp)
    · right
      exact ⟨rfl, by simpa using hn⟩
  · rintro (⟨hw, hc⟩ | ⟨rfl, rfl⟩)
    · refine ⟨?_, fun j hj => ?_⟩
      · rw [List.getElem?_append_left hw.lt]
        exact hw.1
      · rw [List.getElem?_append]
        split
        · exact hw.2 j hj
        · intro hfin
          have hmem := List.mem_of_getElem? hfin
          exact hc (List.mem_singleton.mp hmem).symm
    · refine ⟨by simp, fun j hj => ?_⟩
      rw [List.getElem?_eq_none (by simp; omega)]
      simp

theorem late_snoc : Late (h ++ [c]) n ↔
    Late h n ∨ ∃ maxBatchSize nowS r, c = .tick maxBatchSize nowS ∧ Waiting h n r ∧
      r.deadlineS < nowS := by
  constructor
  · rintro ⟨t, b, nowS, r, ht, hw, hlate⟩
    have hlt := (List.getElem?_eq_some_iff.mp ht).1
    rw [List.length_append, List.length_singleton] at hlt
    rw [List.take_append_of_le_length (Nat.le_of_lt_succ hlt)] at hw
    rcases Nat.lt_or_eq_of_le (Nat.le_of_lt_succ hlt) with hlt | rfl
    · rw [List.getElem?_append_left hlt] at ht
      exact .inl ⟨t, b, nowS, r, ht, hw, hlate⟩
    · rw [List.take_length] at hw
      exact .inr ⟨b, nowS, r, by simpa using ht, hw, hlate⟩
  · rintro (⟨t, b, nowS, r, ht, hw, hlate⟩ | ⟨b, nowS, r, rfl, hw, hlate⟩)
    · have hlt := (List.getElem?_eq_some_iff.mp ht).1
      refine ⟨t, b, nowS, r, ?_, ?_, hlate⟩
      · rw [List.getElem?_append_left hlt, ht]
      · rw [List.take_append_of_le_length hlt.le]
        exact hw
    · exact ⟨h.length, b, nowS, r, by simp, by simpa using hw, hlate⟩

theorem Late.lt (hl : Late h n) : n < h.length := by
  obtain ⟨t, b, nowS, r, ht, hw, hlate⟩ := hl
  exact hw.lt.trans_le (by simp)

omit [LinearOrder K] [Add K] in
theorem Proper.snoc (hp : Proper (h ++ [c])) :
    Proper h ∧ ∀ r, c = .add r → ∀ n r', Waiting h n r' → r'.id ≠ r.id := by
  refine ⟨fun t r ht n r' hw => ?_, ?_⟩
  · have hlt := (List.getElem?_eq_some_iff.mp ht).1
    refine hp t r (by rw [List.getElem?_append_left hlt, ht]) n r' ?_
    rw [List.take_append_of_le_length hlt.le]
    exact hw
  · rintro r rfl n r' hw
    exact hp h.length r (by simp) n r' (by simpa using hw)

omit [LinearOrder K] [Add K] in
theorem Proper.of_append {h' : List (Call K)} (hp : Proper (h ++ h')) : Proper h := by
  induction h' using List.reverseRecOn with
  | nil => rwa [List.append_nil] at hp
  | append_singleton h' c ih =>
      rw [← List.append_assoc] at hp
      exact ih hp.snoc.1

end Histories

/-! ## The loop over the pending requests -/

section Loop

variable {es : List (Int × SlaRequest K)} {s : SlaScheduler K} {nowS : K}

variable (s nowS) in
/-- The loop counts whoever is late and has not been counted, and touches nothing else. -/
theorem foldl_countViolation (hnodup : (Table.keys es).Nodup) :
    ∃ violated, es.foldl (countViolation nowS) s =
        { s with
          violated := violated
          numViolations := s.numViolations +
            (es.filter fun e => e.2.deadlineS < nowS ∧ e.1 ∉ s.violated).length } ∧
      ∀ id, id ∈ violated ↔ id ∈ s.violated ∨ ∃ e ∈ es, e.1 = id ∧ e.2.deadlineS < nowS := by
  induction es generalizing s with
  | nil => exact ⟨s.violated, rfl, by simp⟩
  | cons e es ih =>
      obtain ⟨hnot, hnodup⟩ := List.nodup_cons.mp hnodup
      obtain ⟨violated, heq, hmem⟩ := ih (s := countViolation nowS s e) hnodup
      refine ⟨violated, ?_, fun id => ?_⟩
      · rw [List.foldl_cons, heq, countViolation]
        split
        · rename_i hlate
          -- the entries to come have other ids
          have hrest : (es.filter fun e' => e'.2.deadlineS < nowS ∧ e'.1 ∉ e.1 :: s.violated) =
              es.filter fun e' => e'.2.deadlineS < nowS ∧ e'.1 ∉ s.violated := by
            refine List.filter_congr fun e' he' => ?_
            have hne : e'.1 ≠ e.1 := fun heq' => hnot (heq' ▸ List.mem_map_of_mem he')
            simp [hne]
          rw [List.filter_cons_of_pos (by simpa using hlate)]
          simp only [hrest, List.length_cons]
          congr 1
          omega
        · rename_i hlate
          rw [List.filter_cons_of_neg (by simpa using hlate)]
      · rw [hmem, List.exists_mem_cons_iff, countViolation]
        split
        · rename_i hlate
          simp only [List.mem_cons]
          constructor
          · rintro ((rfl | hin) | hin)
            · exact .inr (.inl ⟨rfl, hlate.1⟩)
            · exact .inl hin
            · exact .inr (.inr hin)
          · rintro (hin | ⟨rfl, -⟩ | hin)
            · exact .inl (.inr hin)
            · exact .inl (.inl rfl)
            · exact .inr hin
        · rename_i hlate
          constructor
          · rintro (hin | hin)
            · exact .inl hin
            · exact .inr (.inr hin)
          · rintro (hin | ⟨rfl, hnow⟩ | hin)
            · exact .inl hin
            · exact .inl (not_not.mp fun hin => hlate ⟨hnow, hin⟩)
            · exact .inr hin

end Loop

/-! ## What the scheduler knows of the history -/

/-- The id of the request that call `n` adds. -/
def idAt (h : List (Call K)) (n : Nat) : Int :=
  match h[n]? with
  | some (.add r) => r.id
  | _ => 0

structure Inv (h : List (Call K)) (s : SlaScheduler K) : Prop where
  keys : (Table.keys s.pending).Nodup
  pending : ∀ id r, (id, r) ∈ s.pending ↔ id = r.id ∧ ∃ n, Waiting h n r
  /-- An id stands for one pending request. -/
  unique : ∀ {n n' r r'}, Waiting h n r → Waiting h n' r' → r.id = r'.id → n = n'
  violated : ∀ id, id ∈ s.violated ↔ ∃ n r, Waiting h n r ∧ r.id = id ∧ Late h n
  count : s.numViolations = {n | Late h n}.ncard
  active : s.active.Nodup
  active_pending : ∀ id ∈ s.active, id ∈ Table.keys s.pending

section Steps

variable {h : List (Call K)} {s : SlaScheduler K} {n : Nat} {r : SlaRequest K}

omit [LinearOrder K] [Add K] in
theorem idAt_of_waiting (hw : Waiting h n r) : idAt h n = r.id := by
  rw [idAt, hw.1]

theorem inv_new : Inv ([] : List (Call K)) .new where
  keys := List.nodup_nil
  pending id r := by simp [SlaScheduler.new, Waiting]
  unique hw := by simp [Waiting] at hw
  violated id := by simp [SlaScheduler.new, Waiting]
  count := by simp [SlaScheduler.new, Late]
  active := List.nodup_nil
  active_pending id hid := by simp [SlaScheduler.new] at hid

/-- Only a tick makes somebody late. -/
theorem late_snoc_of_quiet {c : Call K} (hc : ∀ b nowS, c ≠ Call.tick b nowS) :
    {n | Late (h ++ [c]) n} = {n | Late h n} := by
  ext n
  simp only [Set.mem_ofPred_eq, late_snoc]
  refine or_iff_left ?_
  rintro ⟨b, nowS, r, heq, -⟩
  exact hc b nowS heq

theorem inv_add (hI : Inv h s) (hfresh : ∀ n r', Waiting h n r' → r'.id ≠ r.id) :
    Inv (h ++ [Call.add r]) (addRequest s r) := by
  have hkey : r.id ∉ Table.keys s.pending := by
    intro hin
    obtain ⟨⟨i, r'⟩, hmem, heq⟩ := List.mem_map.mp hin
    obtain ⟨hid, n, hw⟩ := (hI.pending i r').mp hmem
    exact hfresh n r' hw (hid.symm.trans heq)
  have hlookup : s.pending.lookup r.id = none := by
    by_contra hsome
    obtain ⟨r', hr'⟩ := Option.ne_none_iff_exists'.mp hsome
    exact hkey (List.mem_map_of_mem (Table.mem_of_lookup hr'))
  have hpending : (addRequest s r).pending = s.pending ++ [(r.id, r)] := by
    simp [addRequest, hlookup]
  have hw : ∀ {n r'}, Waiting (h ++ [Call.add r]) n r' ↔
      Waiting h n r' ∨ n = h.length ∧ r' = r := by
    intro n r'
    rw [waiting_snoc]
    simp [eq_comm]
  have hlate := late_snoc_of_quiet (h := h) (c := .add r) (by simp)
  have hl : ∀ n, Late (h ++ [Call.add r]) n ↔ Late h n := fun n => Set.ext_iff.mp hlate n
  exact
    { keys := by
        rw [hpending, Table.keys, List.map_append]
        exact (List.perm_append_singleton _ _).nodup_iff.mpr (List.nodup_cons.mpr ⟨hkey, hI.keys⟩)
      pending := fun id r' => by
        rw [hpending, List.mem_append, hI.pending, List.mem_singleton, Prod.mk.injEq]
        constructor
        · rintro (⟨heq, n, hn⟩ | ⟨rfl, rfl⟩)
          · exact ⟨heq, n, hw.mpr (.inl hn)⟩
          · exact ⟨rfl, h.length, hw.mpr (.inr ⟨rfl, rfl⟩)⟩
        · rintro ⟨heq, n, hn⟩
          rcases hw.mp hn with hn | ⟨-, rfl⟩
          · exact .inl ⟨heq, n, hn⟩
          · exact .inr ⟨heq, rfl⟩
      unique := fun hn hn' hid => by
        rcases hw.mp hn with hn | ⟨hn, hr⟩ <;> rcases hw.mp hn' with hn' | ⟨hn', hr'⟩
        · exact hI.unique hn hn' hid
        · exact absurd (hid.trans (congrArg SlaRequest.id hr')) (hfresh _ _ hn)
        · exact absurd (hid.symm.trans (congrArg SlaRequest.id hr)) (hfresh _ _ hn')
        · exact hn.trans hn'.symm
      violated := fun id => by
        refine (hI.violated id).trans ⟨?_, ?_⟩
        · rintro ⟨n, r', hn, heq, hlate⟩
          exact ⟨n, r', hw.mpr (.inl hn), heq, (hl n).mpr hlate⟩
        · rintro ⟨n, r', hn, heq, hlate⟩
          rcases hw.mp hn with hn | ⟨rfl, -⟩
          · exact ⟨n, r', hn, heq, (hl n).mp hlate⟩
          · exact absurd ((hl _).mp hlate).lt (lt_irrefl _)
      count := hlate ▸ hI.count
      active := hI.active
      active_pending := fun id hid => by
        rw [hpending, Table.keys, List.map_append]
        exact List.mem_append_left _ (hI.active_pending id hid) }

theorem inv_finish (hI : Inv h s) (seqId : Int) :
    Inv (h ++ [Call.finish seqId]) (finishSequence s seqId) := by
  have hw : ∀ {n r'}, Waiting (h ++ [Call.finish seqId]) n r' ↔ Waiting h n r' ∧ r'.id ≠ seqId := by
    intro n r'
    rw [waiting_snoc]
    simp [eq_comm]
  have hlate := late_snoc_of_quiet (h := h) (c := .finish seqId) (by simp)
  have hl : ∀ n, Late (h ++ [Call.finish seqId]) n ↔ Late h n := fun n => Set.ext_iff.mp hlate n
  have hmem : ∀ e, e ∈ Table.remove s.pending seqId ↔ e ∈ s.pending ∧ e.1 ≠ seqId := by
    intro e
    simp [Table.remove]
  exact
    { keys := hI.keys.sublist (List.filter_sublist.map _)
      pending := fun id r' => by
        refine (hmem _).trans ?_
        rw [hI.pending]
        constructor
        · rintro ⟨⟨rfl, n, hn⟩, hne⟩
          exact ⟨rfl, n, hw.mpr ⟨hn, hne⟩⟩
        · rintro ⟨rfl, n, hn⟩
          exact ⟨⟨rfl, n, (hw.mp hn).1⟩, (hw.mp hn).2⟩
      unique := fun hn hn' => hI.unique (hw.mp hn).1 (hw.mp hn').1
      violated := fun id => by
        rw [finishSequence, List.mem_filter, hI.violated, decide_eq_true_eq]
        constructor
        · rintro ⟨⟨n, r', hn, rfl, hlate⟩, hne⟩
          exact ⟨n, r', hw.mpr ⟨hn, hne⟩, rfl, (hl n).mpr hlate⟩
        · rintro ⟨n, r', hn, rfl, hlate⟩
          exact ⟨⟨n, r', (hw.mp hn).1, rfl, (hl n).mp hlate⟩, (hw.mp hn).2⟩
      count := hlate ▸ hI.count
      active := hI.active.filter _
      active_pending := fun id hid => by
        obtain ⟨hid, hne⟩ := List.mem_filter.mp hid
        obtain ⟨e, he, rfl⟩ := List.mem_map.mp (hI.active_pending id hid)
        exact List.mem_map_of_mem ((hmem e).mpr ⟨he, by simpa using hne⟩) }

/-! ### A tick -/

variable {sort : DeadlineSort K} {b : Nat} {nowS : K}

omit [LinearOrder K] [Add K] in
theorem Waiting.eq {r' : SlaRequest K} (hw : Waiting h n r) (hw' : Waiting h n r') : r = r' := by
  simpa using hw.1.symm.trans hw'.1

/-- The ids that a tick picks, in the order of their deadlines. -/
def byDeadline (sort : DeadlineSort K) (s : SlaScheduler K) : List Int :=
  (sort.run s.pending).map Prod.fst

variable (sort b nowS) in
theorem scheduleTick_eq (hkeys : (Table.keys s.pending).Nodup) : ∃ violated,
    scheduleTick sort s b nowS =
      ({ s with
          violated := violated
          numViolations := s.numViolations +
            (s.pending.filter fun e => e.2.deadlineS < nowS ∧ e.1 ∉ s.violated).length
          active := (byDeadline sort s).take b
          numPreemptions := s.numPreemptions +
            (s.active.filter (· ∉ (byDeadline sort s).take b)).length },
        ⟨(byDeadline sort s).take b, s.active.filter (· ∉ (byDeadline sort s).take b)⟩) ∧
    ∀ id, id ∈ violated ↔
      id ∈ s.violated ∨ ∃ e ∈ s.pending, e.1 = id ∧ e.2.deadlineS < nowS := by
  obtain ⟨violated, heq, hmem⟩ := foldl_countViolation s nowS hkeys
  refine ⟨violated, ?_, hmem⟩
  simp only [scheduleTick, heq, byDeadline]
  rw [← List.take_eq_take_min]
  rfl

theorem mem_byDeadline {id : Int} : id ∈ byDeadline sort s ↔ id ∈ Table.keys s.pending :=
  ((sort.perm s.pending).map _).mem_iff

theorem byDeadline_nodup (hkeys : (Table.keys s.pending).Nodup) : (byDeadline sort s).Nodup :=
  ((sort.perm s.pending).map _).nodup_iff.mpr hkeys

/-- Calls whose requests are pending are as many as the entries of these requests. -/
theorem ncard_calls (hI : Inv h s) {calls : Set Nat} {es : List (Int × SlaRequest K)}
    (hsub : es.Sublist s.pending) (hwait : ∀ n ∈ calls, ∃ r, Waiting h n r)
    (hmem : ∀ n r, Waiting h n r → (n ∈ calls ↔ (r.id, r) ∈ es)) :
    calls.ncard = es.length := by
  -- a call is counted by the id of its request
  have hinj : Set.InjOn (idAt h) calls := by
    intro n hn n' hn' hid
    obtain ⟨r, hw⟩ := hwait n hn
    obtain ⟨r', hw'⟩ := hwait n' hn'
    rw [idAt_of_waiting hw, idAt_of_waiting hw'] at hid
    exact hI.unique hw hw' hid
  have himage : idAt h '' calls = ((Table.keys es).toFinset : Set Int) := by
    ext id
    rw [List.coe_toFinset, Set.mem_image, Set.mem_ofPred_eq, Table.keys, List.mem_map]
    constructor
    · rintro ⟨n, hn, rfl⟩
      obtain ⟨r, hw⟩ := hwait n hn
      exact ⟨(r.id, r), (hmem n r hw).mp hn, (idAt_of_waiting hw).symm⟩
    · rintro ⟨⟨i, r⟩, he, rfl⟩
      obtain ⟨rfl, n, hw⟩ := (hI.pending i r).mp (hsub.subset he)
      exact ⟨n, (hmem n r hw).mpr he, idAt_of_waiting hw⟩
  have hnodup : (Table.keys es).Nodup := hI.keys.sublist (hsub.map _)
  rw [← hinj.ncard_image, himage, Set.ncard_coe_finset, List.toFinset_card_of_nodup hnodup,
    Table.keys, List.length_map]

theorem ncard_waiting (hI : Inv h s) : {n | ∃ r, Waiting h n r}.ncard = s.pending.length :=
  ncard_calls hI (List.Sublist.refl _) (fun _ hn => hn) fun n r hw =>
    ⟨fun _ => (hI.pending r.id r).mpr ⟨rfl, n, hw⟩, fun _ => ⟨r, hw⟩⟩

/-- The requests that a tick finds late for the first time are as many as it counts. -/
theorem ncard_newlyLate (hI : Inv h s) :
    {n | ¬ Late h n ∧ ∃ r, Waiting h n r ∧ r.deadlineS < nowS}.ncard =
      (s.pending.filter fun e => e.2.deadlineS < nowS ∧ e.1 ∉ s.violated).length := by
  refine ncard_calls hI List.filter_sublist (fun n ⟨_, r, hw, _⟩ => ⟨r, hw⟩) fun n r hw => ?_
  have hpending : (r.id, r) ∈ s.pending := (hI.pending r.id r).mpr ⟨rfl, n, hw⟩
  have hviolated : r.id ∈ s.violated ↔ Late h n := by
    rw [hI.violated]
    constructor
    · rintro ⟨n', r', hw', hid, hlate⟩
      exact hI.unique hw' hw hid ▸ hlate
    · exact fun hlate => ⟨n, r, hw, rfl, hlate⟩
  rw [List.mem_filter, decide_eq_true_eq, hviolated, Set.mem_ofPred_eq]
  constructor
  · rintro ⟨hnot, r', hw', hdue⟩
    rw [hw'.eq hw] at hdue
    exact ⟨hpending, hdue, hnot⟩
  · rintro ⟨-, hdue, hnot⟩
    exact ⟨hnot, r, hw, hdue⟩

theorem inv_tick (hI : Inv h s) : Inv (h ++ [Call.tick b nowS]) (scheduleTick sort s b nowS).1 := by
  obtain ⟨violated, heq, hmem⟩ := scheduleTick_eq sort b nowS hI.keys
  have hw : ∀ {n r'}, Waiting (h ++ [Call.tick b nowS]) n r' ↔ Waiting h n r' := by
    intro n r'
    rw [waiting_snoc]
    simp
  have hl : ∀ n, Late (h ++ [Call.tick b nowS]) n ↔
      Late h n ∨ ∃ r, Waiting h n r ∧ r.deadlineS < nowS := by
    intro n
    rw [late_snoc]
    refine or_congr_right ⟨?_, fun ⟨r, hr⟩ => ⟨b, nowS, r, rfl, hr⟩⟩
    rintro ⟨b', nowS', r, hc, hr⟩
    obtain ⟨rfl, rfl⟩ := Call.tick.inj hc
    exact ⟨r, hr⟩
  rw [heq]
  exact
    { keys := hI.keys
      pending := fun id r' => by
        simp only [hw]
        exact hI.pending id r'
      unique := fun hn hn' => hI.unique (hw.mp hn) (hw.mp hn')
      violated := fun id => by
        rw [hmem, hI.violated]
        simp only [hw, hl]
        constructor
        · rintro (⟨n, r', hn, hid, hlate⟩ | ⟨⟨i, r'⟩, he, rfl, hdue⟩)
          · exact ⟨n, r', hn, hid, .inl hlate⟩
          · obtain ⟨rfl, n, hn⟩ := (hI.pending i r').mp he
            exact ⟨n, r', hn, rfl, .inr ⟨r', hn, hdue⟩⟩
        · rintro ⟨n, r', hn, rfl, hlate | ⟨r'', hn', hdue⟩⟩
          · exact .inl ⟨n, r', hn, rfl, hlate⟩
          · obtain rfl := hn.eq hn'
            exact .inr ⟨(r'.id, r'), (hI.pending _ _).mpr ⟨rfl, n, hn⟩, rfl, hdue⟩
      count := by
        -- those counted before, and the ones that are late for the first time
        have hsplit : {n | Late (h ++ [Call.tick b nowS]) n} =
            {n | Late h n} ∪ {n | ¬ Late h n ∧ ∃ r, Waiting h n r ∧ r.deadlineS < nowS} := by
          ext n
          simp only [Set.mem_union, Set.mem_ofPred_eq, hl]
          tauto
        have hfin : {n | Late h n}.Finite :=
          (Set.finite_lt_nat h.length).subset fun n hn => Late.lt hn
        have hfin' : {n | ¬ Late h n ∧ ∃ r, Waiting h n r ∧ r.deadlineS < nowS}.Finite :=
          (Set.finite_lt_nat h.length).subset fun n ⟨_, r, hn, _⟩ => hn.lt
        have hdisj : Disjoint {n | Late h n}
            {n | ¬ Late h n ∧ ∃ r, Waiting h n r ∧ r.deadlineS < nowS} :=
          Set.disjoint_left.mpr fun n hn hn' => hn'.1 hn
        rw [hsplit, Set.ncard_union_eq hdisj hfin hfin', ncard_newlyLate hI, hI.count]
      active := (byDeadline_nodup hI.keys).sublist (List.take_sublist _ _)
      active_pending := fun id hid => mem_byDeadline.mp (List.mem_of_mem_take hid) }

theorem inv_run {sorts : Nat → DeadlineSort K} {h : List (Call K)} (hp : Proper h) :
    Inv h (run sorts h) := by
  induction h using List.reverseRecOn with
  | nil => exact inv_new
  | append_singleton h c ih =>
      obtain ⟨hp, hfresh⟩ := hp.snoc
      have hI := ih hp
      rw [run_snoc]
      cases c with
      | add r => exact inv_add hI (hfresh r rfl)
      | tick b nowS => exact inv_tick hI
      | finish seqId => exact inv_finish hI seqId

/-! ### What every tick does -/

omit [LinearOrder K] [Add K] in
theorem exists_waiting_iff {h : List (Call K)} {s : SlaScheduler K} {id : Int}
    (hpending : ∀ id r, (id, r) ∈ s.pending ↔ id = r.id ∧ ∃ n, Waiting h n r) :
    id ∈ Table.keys s.pending ↔ ∃ n r, Waiting h n r ∧ r.id = id := by
  constructor
  · intro hid
    obtain ⟨⟨i, r⟩, hmem, rfl⟩ := List.mem_map.mp hid
    obtain ⟨rfl, n, hw⟩ := (hpending i r).mp hmem
    exact ⟨n, r, hw, rfl⟩
  · rintro ⟨n, r, hw, rfl⟩
    exact List.mem_map_of_mem ((hpending r.id r).mpr ⟨rfl, n, hw⟩)

/-- As many of the pending requests as fit, none of which is due after one that is left out. -/
structure EarliestDeadlines (h : List (Call K)) (maxBatchSize : Nat) (active : List Int) :
    Prop where
  nodup : active.Nodup
  pending : ∀ id ∈ active, ∃ n r, Waiting h n r ∧ r.id = id
  length : active.length = min maxBatchSize {n | ∃ r, Waiting h n r}.ncard
  earliest : ∀ n r n' r', Waiting h n r → Waiting h n' r' → r.id ∈ active → r'.id ∉ active →
    ¬ r'.deadlineS < r.deadlineS

theorem take_byDeadline (hI : Inv h s) : EarliestDeadlines h b ((byDeadline sort s).take b) := by
  have hentry : ∀ n r, Waiting h n r → ∀ e ∈ sort.run s.pending, e.1 = r.id → e.2 = r := by
    rintro n r hw ⟨i, r'⟩ he hid
    obtain ⟨rfl, n', hw'⟩ := (hI.pending i r').mp (sort.mem_run.mp he)
    obtain rfl := hI.unique hw' hw hid
    exact hw'.eq hw
  have hsorted := sort.sorted s.pending
  rw [← List.take_append_drop b (sort.run s.pending), List.pairwise_append] at hsorted
  exact
    { nodup := (byDeadline_nodup hI.keys).sublist (List.take_sublist _ _)
      pending := fun id hid =>
        (exists_waiting_iff hI.pending).mp (mem_byDeadline.mp (List.mem_of_mem_take hid))
      length := by
        rw [List.length_take, byDeadline, List.length_map, (sort.perm s.pending).length_eq,
          ncard_waiting hI]
      earliest := fun n r n' r' hw hw' hin hout => by
        rw [byDeadline, ← List.map_take, List.mem_map] at hin hout
        obtain ⟨e, he, hid⟩ := hin
        have hentry' : (r'.id, r') ∈ sort.run s.pending :=
          sort.mem_run.mpr ((hI.pending _ _).mpr ⟨rfl, n', hw'⟩)
        rw [← List.take_append_drop b (sort.run s.pending), List.mem_append] at hentry'
        rcases hentry' with hin' | hdrop
        · exact absurd ⟨_, hin', rfl⟩ hout
        · have hle := hsorted.2.2 e he _ hdrop
          rw [hentry n r hw e (List.mem_of_mem_take he) hid] at hle
          exact not_lt.mpr hle }

end Steps

/-- The counter is the number of requests that were late at some tick, and every tick leaves
the earliest deadlines active and reports who was active and is no longer. -/
theorem run_ticks (sorts : Nat → DeadlineSort K) {h : List (Call K)} (hp : Proper h) :
    (run sorts h).numViolations = {n | Late h n}.ncard ∧
      ∀ before maxBatchSize nowS after,
        h = before ++ [.tick maxBatchSize nowS] ++ after →
        let s := run sorts before
        let s' := run sorts (before ++ [.tick maxBatchSize nowS])
        let result := (scheduleTick (sorts before.length) s maxBatchSize nowS).2
        EarliestDeadlines (before ++ [.tick maxBatchSize nowS]) maxBatchSize s'.active ∧
          result.activeSeqIds = s'.active ∧ result.preemptedSeqIds.Nodup ∧
          ∀ id, id ∈ result.preemptedSeqIds ↔ id ∈ s.active ∧ id ∉ s'.active := by
  refine ⟨(inv_run hp).count, ?_⟩
  rintro before b nowS after rfl
  have hp' := hp.of_append
  have hI : Inv before (run sorts before) := inv_run hp'.snoc.1
  have hI' : Inv _ (run sorts (before ++ [.tick b nowS])) := inv_run hp'
  obtain ⟨violated, heq, -⟩ := scheduleTick_eq (sorts before.length) b nowS hI.keys
  have hrun : run sorts (before ++ [.tick b nowS]) =
      (scheduleTick (sorts before.length) (run sorts before) b nowS).1 := run_snoc ..
  have hsame : byDeadline (sorts before.length) (run sorts before) =
      byDeadline (sorts before.length) (run sorts (before ++ [.tick b nowS])) := by
    rw [hrun, heq]
    rfl
  have hactive : (run sorts (before ++ [.tick b nowS])).active =
      (byDeadline (sorts before.length) (run sorts before)).take b := by
    rw [hrun, heq]
  simp only [heq, hactive]
  refine ⟨hsame ▸ take_byDeadline hI', trivial, hI.active.filter _, fun id => ?_⟩
  rw [List.mem_filter, decide_eq_true_eq]

/-- Id 1 is used twice, and all three requests are served late. -/
def rush : List (Call Nat) :=
  [.add ⟨1, 0, 3⟩, .tick 1 4, .finish 1, .add ⟨1, 4, 3⟩, .tick 1 5, .add ⟨2, 4, 1⟩, .tick 1 8]

theorem rush_proper : Proper rush := by
  intro t r ht n r' hw
  have hlt := (List.getElem?_eq_some_iff.mp ht).1
  have hn := hw.lt
  rw [rush] at hlt hn ht hw
  simp only [List.length_cons, List.length_nil, List.length_take] at hlt hn
  have h2 := hw.2 2
  interval_cases t <;> simp at ht hn
  · subst ht
    obtain ⟨hadd, -⟩ := hw
    interval_cases n <;> simp at hadd
    subst hadd
    simp at h2
  · subst ht
    obtain ⟨hadd, -⟩ := hw
    interval_cases n <;> simp at hadd <;> subst hadd <;> simp

theorem run_ticks_rush :
    {n | Late rush n}.ncard = 3 ∧
      EarliestDeadlines rush 1 (run (fun _ => Sorter.stable _) rush).active ∧
      (run (fun _ => Sorter.stable _) rush).active = [2] := by
  have hcount : (run (fun _ => Sorter.stable _) rush).numViolations = {n | Late rush n}.ncard :=
    (run_ticks (fun _ => Sorter.stable _) rush_proper).1
  refine ⟨hcount.symm.trans (by decide), ?_, by decide⟩
  exact ((run_ticks (fun _ => Sorter.stable _) rush_proper).2 (rush.take 6) 1 8 [] rfl).1

end CrossMachine.Serving.Sla
