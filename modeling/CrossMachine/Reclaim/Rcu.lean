import CrossMachine.Lib.Grace
import CrossMachine.Lib.Instances
import CrossMachine.Lib.Run
import CrossMachine.Reclaim.Registry
import Mathlib.Data.Fintype.Basic
import Mathlib.Logic.Function.Basic

/-!
# Read-copy-update

`rcu_domain.h` and `rcu_ptr.h`. A reader makes the counter of its record odd while it
holds a guard. `synchronize` looks at every record once, notes those whose counter is
odd, and waits until each of them has changed. `reclaim_all` waits for such a grace
period and then takes the list of retired objects and frees them.

The two halves of `reclaim_all` are separate steps, and between them other threads go on
retiring. An object that arrives after the scan has passed a reader's record is taken
with the rest, although nobody waited for that reader. The invariant `RcuInv.cover` says
what would have to hold instead: whoever is on its way to take the list still waits for
every guard that is older than an object on it. Every step keeps it but one, the push.
-/

namespace CrossMachine.Reclaim.Rcu

open Lib Lib.GraceEvent

variable {τ π ℓ : Type*}

/-- `kRcuReclaimThreshold`. -/
def kRcuReclaimThreshold : Nat := 64

/-- `RetiredPtrR`, numbered by the clock of the run. -/
structure RetiredPtr (π : Type*) where
  ptr : π
  id : Nat
  deriving DecidableEq, Repr

/-- Where a thread is. `grace` tells `reclaim_all`'s call of `synchronize` from a
client's. -/
inductive Pc (π : Type*) where
  | idle
  /-- `tl()` in `read_lock`. -/
  | claim (c : Claim)
  /-- Before the `fetch_add` of `read_lock`. -/
  | lock
  /-- In `do_retire`, before the push. -/
  | retire (p : π)
  /-- In `synchronize`, before the load of `head_`. -/
  | head (grace : Bool)
  /-- The first `k` records are still to be looked at, the last of them next. -/
  | scan (k : Nat) (waitlist : List (Nat × Nat)) (grace : Bool)
  /-- That record is active; before the load of its counter. -/
  | snap (k : Nat) (waitlist : List (Nat × Nat)) (grace : Bool)
  | wait (waitlist : List (Nat × Nat)) (grace : Bool)
  /-- In `reclaim_all`, before `pending_` is taken. -/
  | take
  | free (toFree : List (RetiredPtr π))
  deriving DecidableEq, Repr

structure Thread (π : Type*) where
  /-- `tl().record`. -/
  record : Option Nat
  /-- The number of the guard the thread holds. Guards must not be nested. -/
  guard : Option Nat
  pc : Pc π
  deriving DecidableEq, Repr

/-- What the threads share. -/
structure Shared (π ℓ : Type*) where
  /-- The records, each with its `ctr`. -/
  reg : Registry Nat
  pending : List (RetiredPtr π)
  /-- The `RcuPtr`s. -/
  ptr : ℓ → Option π
  clock : Nat

/-- What a client can ask for. -/
inductive Call (π ℓ : Type*) where
  | lock
  | unlock
  | retire (p : π)
  | store (l : ℓ) (v : Option π)
  | synchronize
  | reclaimAll
  | exit
  deriving DecidableEq, Repr

def bumpCtr (R : Registry Nat) (r : Nat) : Registry Nat :=
  R.modify r fun rec => { rec with val := rec.val + 1 }

/-- The first step of a call. -/
def call [DecidableEq ℓ] (sh : Shared π ℓ) (th : Thread π) :
    Call π ℓ → Option (Shared π ℓ × Thread π × List GraceEvent)
  | .lock =>
      if th.guard = none then
        match th.record with
        | some _ => some (sh, { th with pc := .lock }, [])
        | none => some (sh, { th with pc := .claim .start }, [])
      else none
  | .unlock =>
      match th.guard, th.record with
      | some g, some r =>
          some ({ sh with reg := bumpCtr sh.reg r }, { th with guard := none }, [left g])
      | _, _ => none
  | .retire p => some (sh, { th with pc := .retire p }, [])
  | .store l v =>
      -- the exchange; a null pointer is not retired
      some ({ sh with ptr := Function.update sh.ptr l v },
        { th with pc := match sh.ptr l with | some p => .retire p | none => .idle }, [])
  | .synchronize => some (sh, { th with pc := .head false }, [])
  | .reclaimAll => some (sh, { th with pc := .head true }, [])
  | .exit =>
      -- `~ThreadState`; guards are on the stack and gone by then
      if th.guard = none then
        match th.record with
        | some r =>
            some ({ sh with reg := sh.reg.modify r fun rec => { rec with active := false } },
              { th with record := none }, [])
        | none => some (sh, th, [])
      else none

/-- One step of a thread inside a call. -/
def run (sh : Shared π ℓ) (th : Thread π) (weak : Bool) :
    Option (Shared π ℓ × Thread π × List GraceEvent) :=
  match th.pc with
  | .idle => none
  | .claim c =>
      let sh' := { sh with reg := (sh.reg.claim 0 weak c).1 }
      match (sh.reg.claim 0 weak c).2 with
      | .inl c' => some (sh', { th with pc := .claim c' }, [])
      | .inr r => some (sh', { th with record := some r, pc := .lock }, [])
  | .lock =>
      match th.record with
      | some r =>
          some ({ sh with reg := bumpCtr sh.reg r, clock := sh.clock + 1 },
            { th with guard := some sh.clock, pc := .idle }, [entered sh.clock])
      | none => none
  | .retire p =>
      let pending := sh.pending ++ [⟨p, sh.clock⟩]
      some ({ sh with pending := pending, clock := sh.clock + 1 },
        { th with pc := if kRcuReclaimThreshold ≤ pending.length then .head true else .idle },
        [retired sh.clock])
  | .head grace => some (sh, { th with pc := .scan sh.reg.recs.length [] grace }, [])
  | .scan 0 w grace => some (sh, { th with pc := .wait w grace }, [])
  | .scan (k + 1) w grace =>
      match sh.reg.recs[k]? with
      | some rec =>
          some (sh, { th with pc := if rec.active then .snap k w grace else .scan k w grace }, [])
      | none => none
  | .snap k w grace =>
      match sh.reg.recs[k]? with
      | some rec =>
          let w' := if rec.val % 2 = 1 then w ++ [(k, rec.val)] else w
          some (sh, { th with pc := .scan k w' grace }, [])
      | none => none
  | .wait [] grace => some (sh, { th with pc := if grace then .take else .idle }, [])
  | .wait ((r, c) :: w) grace =>
      match sh.reg.recs[r]? with
      | some rec =>
          let w' := if rec.val = c then (r, c) :: w else w
          some (sh, { th with pc := .wait w' grace }, [])
      | none => none
  | .take => some ({ sh with pending := [] }, { th with pc := .free sh.pending }, [])
  | .free [] => some (sh, { th with pc := .idle }, [])
  | .free (e :: l) => some (sh, { th with pc := .free l }, [reclaimed e.id])

structure State (τ π ℓ : Type*) where
  shared : Shared π ℓ
  thread : τ → Thread π

/-- A thread begins a call, or goes on with one. -/
inductive Action (τ π ℓ : Type*) where
  | call (t : τ) (c : Call π ℓ)
  | run (t : τ) (weak : Bool)
  deriving DecidableEq, Repr

/-- Who moves. -/
def Action.actor : Action τ π ℓ → τ
  | .call t _ => t
  | .run t _ => t

/-- Any interleaving of the threads. -/
def step [DecidableEq τ] [DecidableEq ℓ] (s : State τ π ℓ) :
    Action τ π ℓ → Option (State τ π ℓ × List GraceEvent)
  | .call t c =>
      match (s.thread t).pc with
      | .idle => (call s.shared (s.thread t) c).map fun (sh, th, ev) =>
          (⟨sh, Function.update s.thread t th⟩, ev)
      | _ => none
  | .run t weak => (run s.shared (s.thread t) weak).map fun (sh, th, ev) =>
      (⟨sh, Function.update s.thread t th⟩, ev)

/-- No thread has used the domain yet. -/
def init (ptr : ℓ → Option π) : State τ π ℓ :=
  { shared := { reg := ⟨[], 0⟩, pending := [], ptr := ptr, clock := 0 }
    thread := fun _ => { record := none, guard := none, pc := .idle } }

/-! ## Who still waits for whom -/

/-- A thread at this point, if it is on its way to take `pending_`, still waits for record
`r` to leave the count `c`. -/
def Pc.covers (r c : Nat) : Pc π → Bool
  | .scan k w true => r < k || (r, c) ∈ w
  | .snap k w true => r ≤ k || (r, c) ∈ w
  | .wait w true => (r, c) ∈ w
  | .take => false
  | _ => true

/-- The record and the count of a thread that holds a guard. -/
def Thread.held (R : Registry Nat) (th : Thread π) : Option (Nat × Nat) :=
  match th.guard, th.record with
  | some _, some r => (R.recs[r]?).map fun rec => (r, rec.val)
  | _, _ => none

/-- Whoever is on its way to take `pending_` still waits for every guard now held. -/
def Covered (s : State τ π ℓ) : Prop :=
  ∀ t u, ∀ rc ∈ (s.thread t).held s.shared.reg, (s.thread u).pc.covers rc.1 rc.2 = true

/-- The thread is about to push onto `pending_`. -/
def Pc.retiring : Pc π → Bool
  | .retire _ => true
  | _ => false

/-- An object is pushed onto `pending_` only when whoever is on its way to take the list
still waits for every guard now held. -/
def PushCovered (s : State τ π ℓ) (a : Action τ π ℓ) : Prop :=
  (s.thread a.actor).pc.retiring = true → Covered s

/-- The record a thread has, also while it is still claiming it. -/
def Thread.owns (th : Thread π) : Option Nat :=
  match th.pc with
  | .claim c => c.owned
  | _ => th.record

/-! ## What a step can do -/

/-- A step of one thread. -/
inductive Moves (sh : Shared π ℓ) (th : Thread π) :
    Shared π ℓ → Thread π → List GraceEvent → Prop where
  /-- Nothing that another thread could notice. -/
  | inside {sh' : Shared π ℓ} {pc : Pc π} (hreg : sh'.reg = sh.reg)
      (hpending : sh'.pending = sh.pending) (hclock : sh'.clock = sh.clock)
      (howns : Thread.owns { th with pc := pc } = th.owns)
      (hclaim : ∀ c, pc = .claim c → th.guard = none)
      (hlock : pc = .lock → th.guard = none)
      (hcovers : ∀ (r : Nat) (rec : Record Nat), sh.reg.recs[r]? = some rec →
        rec.active = true → rec.val % 2 = 1 → th.pc.covers r rec.val = true →
        pc.covers r rec.val = true)
      (hfree : ∀ l, pc ≠ .free l) : Moves sh th sh' { th with pc := pc } []
  | reclaim {e : RetiredPtr π} {l : List (RetiredPtr π)} (hpc : th.pc = .free (e :: l)) :
      Moves sh th sh { th with pc := .free l } [reclaimed e.id]
  | unlock {g r : Nat} (hpc : th.pc = .idle) (hguard : th.guard = some g)
      (hrecord : th.record = some r) :
      Moves sh th { sh with reg := bumpCtr sh.reg r } { th with guard := none } [left g]
  | exit {r : Nat} (hpc : th.pc = .idle) (hguard : th.guard = none) (hrecord : th.record = some r) :
      Moves sh th { sh with reg := sh.reg.modify r fun rec => { rec with active := false } }
        { th with record := none } []
  | claim {c c' : Claim} {R : Registry Nat} (hpc : th.pc = .claim c)
      (hclaims : Claims 0 sh.reg c R (.inl c')) :
      Moves sh th { sh with reg := R } { th with pc := .claim c' } []
  | claimed {c : Claim} {r : Nat} {R : Registry Nat} (hpc : th.pc = .claim c)
      (hclaims : Claims 0 sh.reg c R (.inr r)) :
      Moves sh th { sh with reg := R } { th with record := some r, pc := .lock } []
  | enter {r : Nat} (hpc : th.pc = .lock) (hrecord : th.record = some r) :
      Moves sh th { sh with reg := bumpCtr sh.reg r, clock := sh.clock + 1 }
        { th with guard := some sh.clock, pc := .idle } [entered sh.clock]
  | push {p : π} {pc : Pc π} (hpc : th.pc = .retire p) (hpc' : pc = .idle ∨ pc = .head true) :
      Moves sh th { sh with pending := sh.pending ++ [⟨p, sh.clock⟩], clock := sh.clock + 1 }
        { th with pc := pc } [retired sh.clock]
  | take (hpc : th.pc = .take) :
      Moves sh th { sh with pending := [] } { th with pc := .free sh.pending } []

variable {sh sh' : Shared π ℓ} {th th' : Thread π} {pc : Pc π} {ev : List GraceEvent}
  {s' : State τ π ℓ} {a : Action τ π ℓ} {r : Nat}

/-- A step inside `synchronize` and the like. -/
theorem Moves.at (howns : th.owns = th.record) (hclaim : ∀ c, pc ≠ .claim c) (hlock : pc ≠ .lock)
    (hfree : ∀ l, pc ≠ .free l)
    (hcovers : ∀ (r : Nat) (rec : Record Nat), sh.reg.recs[r]? = some rec → rec.active = true →
      rec.val % 2 = 1 → th.pc.covers r rec.val = true → pc.covers r rec.val = true) :
    Moves sh th sh { th with pc := pc } [] := by
  refine .inside rfl rfl rfl ?_ (fun c h => absurd h (hclaim c)) (fun h => absurd h hlock) hcovers
    hfree
  rw [howns]
  unfold Thread.owns
  cases pc with
  | claim c => exact absurd rfl (hclaim c)
  | _ => rfl

theorem call_moves [DecidableEq ℓ] {c : Call π ℓ} (hpc : th.pc = .idle)
    (h : call sh th c = some (sh', th', ev)) : Moves sh th sh' th' ev := by
  have howns : th.owns = th.record := by unfold Thread.owns; rw [hpc]
  cases c with
  | lock =>
      simp only [call] at h
      split at h
      · rename_i hguard
        split at h
        · cases h
          exact .inside rfl rfl rfl (by rw [howns]; rfl) (by simp) (fun _ => hguard)
            (by simp [Pc.covers]) (by simp)
        · rename_i hrecord
          cases h
          exact .inside rfl rfl rfl (by rw [howns, hrecord]; rfl) (fun _ _ => hguard) (by simp)
            (by simp [Pc.covers]) (by simp)
      · cases h
  | unlock =>
      simp only [call] at h
      split at h
      · rename_i g r hguard hrecord
        cases h
        exact .unlock hpc hguard hrecord
      · cases h
  | retire p =>
      simp only [call, Option.some.injEq, Prod.mk.injEq] at h
      obtain ⟨rfl, rfl, rfl⟩ := h
      exact .at howns (by simp) (by simp) (by simp) (by simp [Pc.covers])
  | store l v =>
      simp only [call, Option.some.injEq, Prod.mk.injEq] at h
      obtain ⟨rfl, rfl, rfl⟩ := h
      refine .inside rfl rfl rfl ?_ ?_ ?_ ?_ ?_
      · rw [howns]
        unfold Thread.owns
        cases sh.ptr l <;> rfl
      all_goals cases sh.ptr l <;> simp [Pc.covers]
  | synchronize =>
      simp only [call, Option.some.injEq, Prod.mk.injEq] at h
      obtain ⟨rfl, rfl, rfl⟩ := h
      exact .at howns (by simp) (by simp) (by simp) (by simp [Pc.covers])
  | reclaimAll =>
      simp only [call, Option.some.injEq, Prod.mk.injEq] at h
      obtain ⟨rfl, rfl, rfl⟩ := h
      exact .at howns (by simp) (by simp) (by simp) (by simp [Pc.covers])
  | exit =>
      simp only [call] at h
      split at h
      · rename_i hguard
        split at h
        · rename_i r hrecord
          cases h
          exact .exit hpc hguard hrecord
        · cases h
          have hstay : Moves sh th sh { th with pc := .idle } [] :=
            .at howns (by simp) (by simp) (by simp) (by simp [Pc.covers])
          rwa [← hpc] at hstay
      · cases h

theorem run_moves {weak : Bool} (h : run sh th weak = some (sh', th', ev)) :
    Moves sh th sh' th' ev := by
  unfold run at h
  split at h
  · cases h
  · rename_i c hpc
    have hc := claim_claims 0 sh.reg weak c
    split at h
    · rename_i c' ho
      cases h
      rw [ho] at hc
      exact .claim hpc hc
    · rename_i r ho
      cases h
      rw [ho] at hc
      exact .claimed hpc hc
  · rename_i hpc
    split at h
    · rename_i r hrecord
      cases h
      exact .enter hpc hrecord
    · cases h
  · rename_i p hpc
    cases h
    refine .push hpc ?_
    split
    · exact .inr rfl
    · exact .inl rfl
  · -- the scan begins with every record that there is
    rename_i grace hpc
    cases h
    refine .at (by unfold Thread.owns; rw [hpc]) (by simp) (by simp) (by simp) ?_
    intro r rec hrec _ _ _
    have hlt := (List.getElem?_eq_some_iff.mp hrec).1
    cases grace <;> simp [Pc.covers, hlt]
  · rename_i w grace hpc
    cases h
    refine .at (by unfold Thread.owns; rw [hpc]) (by simp) (by simp) (by simp) ?_
    intro r rec _ _ _ hcov
    rw [hpc] at hcov
    cases grace <;> simp_all [Pc.covers]
  · rename_i k w grace hpc
    split at h
    · rename_i rec hrec
      cases h
      have howns : th.owns = th.record := by unfold Thread.owns; rw [hpc]
      cases hactive : rec.active with
      | true =>
          simp only [if_true]
          refine .at howns (by simp) (by simp) (by simp) ?_
          intro r rec' _ _ _ hcov
          rw [hpc] at hcov
          cases grace with
          | false => rfl
          | true =>
              simp only [Pc.covers, Bool.or_eq_true, decide_eq_true_eq] at hcov ⊢
              exact hcov.imp_left Nat.le_of_lt_succ
      | false =>
          -- a record with a reader is not passed over
          simp only [Bool.false_eq_true, if_false]
          refine .at howns (by simp) (by simp) (by simp) ?_
          intro r rec' hrec' hact _ hcov
          rw [hpc] at hcov
          have hne : r ≠ k := by
            intro heq
            rw [heq, hrec] at hrec'
            injection hrec' with heq'
            rw [← heq', hactive] at hact
            cases hact
          cases grace with
          | false => rfl
          | true =>
              simp only [Pc.covers, Bool.or_eq_true, decide_eq_true_eq] at hcov ⊢
              exact hcov.imp_left fun hlt => by omega
    · cases h
  · rename_i k w grace hpc
    split at h
    · rename_i rec hrec
      cases h
      refine .at (by unfold Thread.owns; rw [hpc]) (by simp) (by simp) (by simp) ?_
      intro r rec' hrec' _ hodd hcov
      rw [hpc] at hcov
      cases grace with
      | false => rfl
      | true =>
          simp only [Pc.covers, Bool.or_eq_true, decide_eq_true_eq] at hcov ⊢
          by_cases hr : r = k
          · -- the reader's count is noted
            subst hr
            rw [hrec] at hrec'
            injection hrec' with heq
            subst heq
            rw [if_pos hodd]
            exact .inr (by simp)
          · rcases hcov with hle | hmem
            · exact .inl (by omega)
            · refine .inr ?_
              split
              · exact List.mem_append_left _ hmem
              · exact hmem
    · cases h
  · rename_i grace hpc
    cases h
    have howns : th.owns = th.record := by unfold Thread.owns; rw [hpc]
    cases grace with
    | false => exact .at howns (by simp) (by simp) (by simp) (by simp [Pc.covers])
    | true => exact .at howns (by simp) (by simp) (by simp) (by simp [Pc.covers, hpc])
  · rename_i r₀ c w grace hpc
    split at h
    · rename_i rec hrec
      cases h
      refine .at (by unfold Thread.owns; rw [hpc]) (by simp) (by simp) (by simp) ?_
      intro r rec' hrec' _ _ hcov
      rw [hpc] at hcov
      cases grace with
      | false => rfl
      | true =>
          simp only [Pc.covers, decide_eq_true_eq] at hcov ⊢
          split
          · exact hcov
          · -- the wait for a record ends only when its count has changed
            rename_i hchanged
            rcases List.mem_cons.mp hcov with heq | hmem
            · injection heq with hr hc
              subst hr
              rw [hrec] at hrec'
              injection hrec' with heq'
              subst heq'
              exact absurd hc hchanged
            · exact hmem
    · cases h
  · rename_i hpc
    cases h
    exact .take hpc
  · rename_i hpc
    cases h
    exact .at (by unfold Thread.owns; rw [hpc]) (by simp) (by simp) (by simp) (by simp [Pc.covers])
  · rename_i e l hpc
    cases h
    exact .reclaim hpc

theorem step_moves [DecidableEq τ] [DecidableEq ℓ] {s : State τ π ℓ}
    (h : step s a = some (s', ev)) :
    ∃ sh th, Moves s.shared (s.thread a.actor) sh th ev ∧
      s' = ⟨sh, Function.update s.thread a.actor th⟩ := by
  cases a with
  | call t c =>
      simp only [step] at h
      split at h
      · rename_i hpc
        simp only [Option.map_eq_some_iff, Prod.exists, Prod.mk.injEq] at h
        obtain ⟨sh, th, ev', hcall, rfl, rfl⟩ := h
        exact ⟨sh, th, call_moves hpc hcall, rfl⟩
      · cases h
  | run t weak =>
      simp only [step, Option.map_eq_some_iff, Prod.exists, Prod.mk.injEq] at h
      obtain ⟨sh, th, ev', hrun, rfl, rfl⟩ := h
      exact ⟨sh, th, run_moves hrun, rfl⟩

/-! ## The invariant -/

/-- What holds of one thread and its record. -/
structure ThreadOk (sh : Shared π ℓ) (th : Thread π) : Prop where
  guarded : ∀ g, th.guard = some g → g < sh.clock ∧ ∃ r, th.record = some r
  claiming : ∀ c, th.pc = .claim c → th.guard = none
  locking : th.pc = .lock → th.guard = none
  /-- The counter is odd exactly while a guard is held. -/
  parity : ∀ (r : Nat) (rec : Record Nat), th.owns = some r → sh.reg.recs[r]? = some rec →
    (rec.val % 2 = 1 ↔ th.guard ≠ none)

structure RcuInv (s : State τ π ℓ) : Prop where
  owned : Owned s.shared.reg (fun t => (s.thread t).owns) fun _ => True
  ok : ∀ t, ThreadOk s.shared (s.thread t)
  /-- A record that nobody owns is left with an even counter. -/
  even : ∀ (r : Nat) (rec : Record Nat), s.shared.reg.recs[r]? = some rec → rec.active = false →
    rec.val % 2 = 0
  recent : ∀ e ∈ s.shared.pending, e.id < s.shared.clock
  /-- Whoever is on its way to take `pending_` still waits for every guard that is older
  than an object on the list. -/
  cover : ∀ e ∈ s.shared.pending, ∀ t g r (rec : Record Nat), (s.thread t).guard = some g →
    g < e.id → (s.thread t).record = some r → s.shared.reg.recs[r]? = some rec →
    ∀ u, (s.thread u).pc.covers r rec.val = true
  /-- No guard is older than an object that is about to be freed. -/
  freed : ∀ u l, (s.thread u).pc = .free l → ∀ e ∈ l, e.id < s.shared.clock ∧
    ∀ t g, (s.thread t).guard = some g → ¬ g < e.id

theorem ThreadOk.owns_eq (h : ThreadOk sh th) {g : Nat} (hg : th.guard = some g) :
    th.owns = th.record := by
  unfold Thread.owns
  cases hpc : th.pc with
  | claim c =>
      have := h.claiming c hpc
      rw [hg] at this
      cases this
  | _ => rfl

/-- Another thread moves: what matters is that the clock does not go back and that the
counter of the own record is not touched. -/
theorem ThreadOk.congr (h : ThreadOk sh th) (hclock : sh.clock ≤ sh'.clock)
    (hval : ∀ (r : Nat) (rec' : Record Nat), th.owns = some r → sh'.reg.recs[r]? = some rec' →
      ∃ rec : Record Nat, sh.reg.recs[r]? = some rec ∧ rec.val = rec'.val) : ThreadOk sh' th := by
  constructor
  case guarded =>
      intro g hg
      obtain ⟨hlt, hr⟩ := h.guarded g hg
      exact ⟨by omega, hr⟩
  case claiming => exact h.claiming
  case locking => exact h.locking
  case parity =>
      intro r rec' hown hrec'
      obtain ⟨rec, hrec, heq⟩ := hval r rec' hown hrec'
      rw [← heq]
      exact h.parity r rec hown hrec

theorem inv_init (ptr : ℓ → Option π) : RcuInv (init ptr : State τ π ℓ) := by
  constructor
  case owned =>
      constructor
      · intro t r h
        cases h
      · intro t u r h
        cases h
  case ok =>
      intro t
      constructor
      · intro g h
        cases h
      · intro c _
        rfl
      · intro _
        rfl
      · intro r rec h
        cases h
  case even =>
      intro r rec h
      simp [init] at h
  case recent =>
      intro e he
      simp [init] at he
  case cover =>
      intro e he
      simp [init] at he
  case freed =>
      intro u l h
      cases h

/-- What a step of thread `t` has to respect for the invariant to go on. -/
theorem inv_of [DecidableEq τ] {s : State τ π ℓ} (hI : RcuInv s) {t : τ}
    (howned : Owned sh'.reg (fun u => (Function.update s.thread t th' u).owns) fun _ => True)
    (hclock : s.shared.clock ≤ sh'.clock)
    (hval : ∀ u, u ≠ t → ∀ (r : Nat) (rec' : Record Nat), (s.thread u).owns = some r →
      sh'.reg.recs[r]? = some rec' →
      ∃ rec : Record Nat, s.shared.reg.recs[r]? = some rec ∧ rec.val = rec'.val)
    (heven : ∀ (r : Nat) (rec : Record Nat), sh'.reg.recs[r]? = some rec → rec.active = false →
      rec.val % 2 = 0) (hth : ThreadOk sh' th')
    (hpending : ∀ e ∈ sh'.pending, e.id < sh'.clock ∧ (e ∈ s.shared.pending ∨ Covered s))
    (hguard : ∀ g, th'.guard = some g → g = s.shared.clock ∧ sh'.pending = s.shared.pending ∨
      (s.thread t).guard = some g ∧ th'.record = (s.thread t).record ∧ sh'.reg = s.shared.reg)
    (hcovers : ∀ e ∈ sh'.pending, ∀ (r : Nat) (rec : Record Nat), s.shared.reg.recs[r]? = some rec →
      rec.active = true → rec.val % 2 = 1 → (s.thread t).pc.covers r rec.val = true →
      th'.pc.covers r rec.val = true)
    (hfree : ∀ l, th'.pc = .free l → ∀ e ∈ l, e.id < s.shared.clock ∧
      ∀ u g, (s.thread u).guard = some g → ¬ g < e.id) :
    RcuInv ⟨sh', Function.update s.thread t th'⟩ := by
  -- everybody covers a guard that was held before, also after the step
  have hold : ∀ e ∈ sh'.pending, ∀ v g r (rec : Record Nat), (s.thread v).guard = some g →
      g < e.id → (s.thread v).record = some r → s.shared.reg.recs[r]? = some rec →
      ∀ u, (Function.update s.thread t th' u).pc.covers r rec.val = true := by
    intro e he v g r rec hg hlt hr hrec u
    have hbefore : ∀ u, (s.thread u).pc.covers r rec.val = true := by
      rcases (hpending e he).2 with hin | hcov
      · exact hI.cover e hin v g r rec hg hlt hr hrec
      · intro u
        refine hcov v u (r, rec.val) ?_
        simp [Thread.held, hg, hr, hrec]
    by_cases hu : u = t
    · subst hu
      rw [Function.update_self]
      have hown : (s.thread v).owns = some r := by rw [(hI.ok v).owns_eq hg, hr]
      obtain ⟨rec', hrec', hact⟩ := hI.owned.active v r hown
      rw [hrec] at hrec'
      injection hrec' with heq
      subst heq
      refine hcovers e he r rec hrec (hact trivial) ?_ (hbefore u)
      exact ((hI.ok v).parity r rec hown hrec).mpr (by rw [hg]; simp)
    · rw [Function.update_of_ne hu]
      exact hbefore u
  constructor
  case owned => exact howned
  case ok =>
      intro u
      by_cases hu : u = t
      · subst hu
        simpa only [Function.update_self] using hth
      · simp only [Function.update_of_ne hu]
        exact (hI.ok u).congr hclock (hval u hu)
  case even => exact heven
  case recent => exact fun e he => (hpending e he).1
  case cover =>
      intro e he v g r rec hg hlt hr hrec u
      simp only at hg hr hrec ⊢
      by_cases hv : v = t
      · subst hv
        rw [Function.update_self] at hg hr
        rcases hguard g hg with ⟨hnew, hsame⟩ | ⟨hg', hr', hreg⟩
        · have := hI.recent e (hsame ▸ he)
          omega
        · exact hold e he v g r rec hg' hlt (hr' ▸ hr) (hreg ▸ hrec) u
      · rw [Function.update_of_ne hv] at hg hr
        have hown : (s.thread v).owns = some r := by rw [(hI.ok v).owns_eq hg, hr]
        obtain ⟨rec₀, hrec₀, heq⟩ := hval v hv r rec hown hrec
        rw [← heq]
        exact hold e he v g r rec₀ hg hlt hr hrec₀ u
  case freed =>
      intro u l hpc e he
      have hbefore : e.id < s.shared.clock ∧ ∀ v g, (s.thread v).guard = some g → ¬ g < e.id := by
        by_cases hu : u = t
        · subst hu
          simp only [Function.update_self] at hpc
          exact hfree l hpc e he
        · simp only [Function.update_of_ne hu] at hpc
          exact hI.freed u l hpc e he
      refine ⟨by simp only; omega, fun v g hg => ?_⟩
      by_cases hv : v = t
      · subst hv
        simp only [Function.update_self] at hg
        rcases hguard g hg with ⟨hnew, _⟩ | ⟨hg', _⟩
        · omega
        · exact hbefore.2 v g hg'
      · simp only [Function.update_of_ne hv] at hg
        exact hbefore.2 v g hg

theorem bumpCtr_owned {R : Registry Nat} {own : τ → Option Nat} {busy : τ → Prop}
    (h : Owned R own busy) (r : Nat) : Owned (bumpCtr R r) own busy := h.modify r fun _ => rfl

/-- The counter of a record is bumped by its owner: nobody else's changes. -/
theorem bumpCtr_other {s : State τ π ℓ} {t : τ} (hI : RcuInv s) (hr : (s.thread t).owns = some r)
    {u : τ} (hu : u ≠ t) {q : Nat} {rec' : Record Nat} (hq : (s.thread u).owns = some q)
    (hrec' : (bumpCtr s.shared.reg r).recs[q]? = some rec') :
    ∃ rec : Record Nat, s.shared.reg.recs[q]? = some rec ∧ rec.val = rec'.val := by
  rcases getElem?_of_modify hrec' with ⟨hrq, _⟩ | ⟨_, hrec⟩
  · subst hrq
    exact absurd (hI.owned.unique u t r hq hr) hu
  · exact ⟨rec', hrec, rfl⟩

theorem bumpCtr_even {s : State τ π ℓ} {t : τ} (hI : RcuInv s) (hr : (s.thread t).owns = some r)
    {q : Nat} {rec : Record Nat} (hrec : (bumpCtr s.shared.reg r).recs[q]? = some rec)
    (hact : rec.active = false) : rec.val % 2 = 0 := by
  rcases getElem?_of_modify hrec with ⟨hrq, rec₀, hrec₀, heq⟩ | ⟨_, hrec₀⟩
  · -- the owner's record is active
    subst hrq
    obtain ⟨rec₁, hrec₁, hact₁⟩ := hI.owned.active t r hr
    rw [hrec₀] at hrec₁
    injection hrec₁ with heq₁
    rw [heq, heq₁, hact₁ trivial] at hact
    cases hact
  · exact hI.even q rec hrec₀ hact

section Steps

variable [DecidableEq τ] {s : State τ π ℓ} {t : τ}

theorem owns_update (th' : Thread π) (u : τ) :
    (Function.update s.thread t th' u).owns = if u = t then th'.owns else (s.thread u).owns := by
  by_cases hu : u = t
  · subst hu
    rw [Function.update_self, if_pos rfl]
  · rw [Function.update_of_ne hu, if_neg hu]

theorem owns_update_same (h : th'.owns = (s.thread t).owns) (u : τ) :
    (Function.update s.thread t th' u).owns = (s.thread u).owns := by
  rw [owns_update]
  split
  · rename_i hu
    rw [hu, h]
  · rfl

theorem inv_unlock (hI : RcuInv s) {g : Nat} (hguard : (s.thread t).guard = some g)
    (hrecord : (s.thread t).record = some r) :
    RcuInv ⟨{ s.shared with reg := bumpCtr s.shared.reg r },
      Function.update s.thread t { s.thread t with guard := none }⟩ := by
  have hown : (s.thread t).owns = some r := by rw [(hI.ok t).owns_eq hguard, hrecord]
  refine inv_of hI ?_ (Nat.le_refl _) (fun u hu q rec' => bumpCtr_other hI hown hu) ?_ ?_ ?_ ?_
    ?_ ?_
  · exact (bumpCtr_owned hI.owned r).congr (owns_update_same rfl) (fun _ h => h)
      fun q rec h => ⟨rec, h, rfl⟩
  · exact fun q rec => bumpCtr_even hI hown
  · constructor
    case guarded =>
        intro g h
        cases h
    case claiming => exact fun _ _ => rfl
    case locking => exact fun _ => rfl
    case parity =>
        intro q rec' hq hrec'
        have hq' : (s.thread t).owns = some q := hq
        rw [hown] at hq'
        injection hq' with hrq
        subst hrq
        obtain ⟨_, rec, hrec, heq⟩ | ⟨hne, _⟩ := getElem?_of_modify hrec'
        · have hodd := ((hI.ok t).parity r rec hown hrec).mpr (by rw [hguard]; simp)
          rw [heq]
          simp only [ne_eq, not_true_eq_false, iff_false]
          omega
        · exact absurd rfl hne
  · exact fun e he => ⟨hI.recent e he, .inl he⟩
  · intro g h
    cases h
  · exact fun e _ q rec _ _ _ h => h
  · exact fun l h => hI.freed t l h

theorem inv_enter (hI : RcuInv s) (hpc : (s.thread t).pc = .lock)
    (hrecord : (s.thread t).record = some r) :
    RcuInv ⟨{ s.shared with reg := bumpCtr s.shared.reg r, clock := s.shared.clock + 1 },
      Function.update s.thread t
        { s.thread t with guard := some s.shared.clock, pc := .idle }⟩ := by
  have hown : (s.thread t).owns = some r := by
    unfold Thread.owns
    rw [hpc]
    exact hrecord
  have hnone := (hI.ok t).locking hpc
  refine inv_of hI ?_ (Nat.le_succ _) (fun u hu q rec' => bumpCtr_other hI hown hu) ?_ ?_ ?_ ?_
    ?_ ?_
  · refine (bumpCtr_owned hI.owned r).congr (owns_update_same ?_) (fun _ h => h)
      fun q rec h => ⟨rec, h, rfl⟩
    rw [hown]
    exact hrecord
  · exact fun q rec => bumpCtr_even hI hown
  · constructor
    case guarded =>
        intro g h
        injection h with h
        exact ⟨by simp only; omega, r, hrecord⟩
    case claiming => exact fun _ h => by cases h
    case locking => exact fun h => by cases h
    case parity =>
        intro q rec' hq hrec'
        have hq' : (s.thread t).record = some q := hq
        rw [hrecord] at hq'
        injection hq' with hrq
        subst hrq
        obtain ⟨_, rec, hrec, heq⟩ | ⟨hne, _⟩ := getElem?_of_modify hrec'
        · have heven : ¬ rec.val % 2 = 1 := by
            rw [(hI.ok t).parity r rec hown hrec, hnone]
            simp
          rw [heq]
          simp only [ne_eq, reduceCtorEq, not_false_eq_true, iff_true]
          omega
        · exact absurd rfl hne
  · exact fun e he => ⟨Nat.lt_succ_of_lt (hI.recent e he), .inl he⟩
  · intro g h
    injection h with h
    exact .inl ⟨h.symm, rfl⟩
  · exact fun e _ q rec _ _ _ _ => rfl
  · exact fun l h => by cases h

theorem inv_exit (hI : RcuInv s) (hpc : (s.thread t).pc = .idle)
    (hguard : (s.thread t).guard = none) (hrecord : (s.thread t).record = some r) :
    RcuInv ⟨{ s.shared with reg := s.shared.reg.modify r fun rec => { rec with active := false } },
      Function.update s.thread t { s.thread t with record := none }⟩ := by
  have hown : (s.thread t).owns = some r := by
    unfold Thread.owns
    rw [hpc]
    exact hrecord
  have hnone : Thread.owns { s.thread t with record := none } = none := by
    unfold Thread.owns
    rw [hpc]
  refine inv_of hI ?_ (Nat.le_refl _) ?_ ?_ ?_ ?_ ?_ ?_ ?_
  · refine hI.owned.touch hown (fun u hu => ?_) (fun _ _ h => h) (.inl ?_)
    · rw [owns_update, if_neg hu]
    · rw [owns_update, if_pos rfl, hnone]
  · intro u _ q rec' _ hrec'
    rcases getElem?_of_modify hrec' with ⟨_, rec, hrec, heq⟩ | ⟨_, hrec⟩
    · exact ⟨rec, hrec, by rw [heq]⟩
    · exact ⟨rec', hrec, rfl⟩
  · intro q rec hrec hact
    rcases getElem?_of_modify hrec with ⟨hrq, rec₀, hrec₀, heq⟩ | ⟨_, hrec₀⟩
    · subst hrq
      have heven : ¬ rec₀.val % 2 = 1 := by
        rw [(hI.ok t).parity r rec₀ hown hrec₀, hguard]
        simp
      rw [heq]
      simp only
      omega
    · exact hI.even q rec hrec₀ hact
  · constructor
    case guarded =>
        intro g h
        simp only [hguard] at h
        cases h
    case claiming => exact fun _ _ => hguard
    case locking => exact fun _ => hguard
    case parity =>
        intro q rec hq
        rw [hnone] at hq
        cases hq
  · exact fun e he => ⟨hI.recent e he, .inl he⟩
  · intro g h
    simp only [hguard] at h
    cases h
  · exact fun e _ q rec _ _ _ h => h
  · exact fun l h => hI.freed t l h

/-- A step of `get_or_create_record`, whatever comes of it. -/
theorem inv_claims (hI : RcuInv s) {c : Claim} {R : Registry Nat} {o : Claim ⊕ Nat}
    (hpc : (s.thread t).pc = .claim c) (hclaims : Claims 0 s.shared.reg c R o)
    (hguard : th'.guard = (s.thread t).guard) (howns : th'.owns = o.elim Claim.owned some)
    (hcovers : ∀ r c, th'.pc.covers r c = true) (hfree : ∀ l, th'.pc ≠ .free l) :
    RcuInv ⟨{ s.shared with reg := R }, Function.update s.thread t th'⟩ := by
  have hnone := (hI.ok t).claiming c hpc
  have hown : (s.thread t).owns = c.owned := by
    unfold Thread.owns
    rw [hpc]
  refine inv_of hI ?_ (Nat.le_refl _) ?_ ?_ ?_ ?_ ?_ ?_ ?_
  · refine hI.owned.claims hclaims hown (fun u => ?_) (fun _ h => h) fun _ _ _ _ => trivial
    rw [owns_update, howns]
  · intro u _ q rec' hq hrec'
    rcases claims_val hclaims hrec' with ⟨rec, hrec, hval, _⟩ | ⟨hlen, _⟩
    · exact ⟨rec, hrec, hval⟩
    · obtain ⟨rec, hrec, _⟩ := hI.owned.active u q hq
      rw [List.getElem?_eq_none (by omega)] at hrec
      cases hrec
  · intro q rec' hrec' hact
    rcases claims_val hclaims hrec' with ⟨rec, hrec, hval, hact' | hact'⟩ | ⟨_, heq⟩
    · rw [← hval]
      exact hI.even q rec hrec (hact'.trans hact)
    · rw [hact] at hact'
      cases hact'
    · rw [heq] at hact
      cases hact
  · constructor
    case guarded =>
        intro g h
        rw [hguard, hnone] at h
        cases h
    case claiming => exact fun _ _ => hguard.trans hnone
    case locking => exact fun _ => hguard.trans hnone
    case parity =>
        intro q rec' hq hrec'
        rw [hguard, hnone]
        simp only [ne_eq, not_true_eq_false, iff_false]
        rw [howns] at hq
        have heven : rec'.val % 2 = 0 := by
          cases hclaims with
          | look _ hnone' =>
              rw [Sum.elim_inl, hnone'] at hq
              cases hq
          | reuse hrec hact =>
              injection hq with hq
              subst hq
              simp only [getElem?_modify_self hrec, Option.some.injEq] at hrec'
              have heven := hI.even _ _ hrec hact
              rw [← hrec']
              exact heven
          | add =>
              injection hq with hq
              subst hq
              simp only [List.getElem?_concat_length, Option.some.injEq] at hrec'
              rw [← hrec']
              rfl
          | count =>
              injection hq with hq
              subst hq
              have hnot := (hI.ok t).parity _ rec' hown hrec'
              rw [hnone] at hnot
              simp only [ne_eq, not_true_eq_false, iff_false] at hnot
              omega
        omega
  · exact fun e he => ⟨hI.recent e he, .inl he⟩
  · intro g h
    rw [hguard, hnone] at h
    cases h
  · exact fun e _ q rec _ _ _ _ => hcovers q rec.val
  · exact fun l h => absurd h (hfree l)

theorem inv_inside (hI : RcuInv s) (hreg : sh'.reg = s.shared.reg)
    (hpending : sh'.pending = s.shared.pending) (hclock : sh'.clock = s.shared.clock)
    (howns : Thread.owns { s.thread t with pc := pc } = (s.thread t).owns)
    (hclaim : ∀ c, pc = .claim c → (s.thread t).guard = none)
    (hlock : pc = .lock → (s.thread t).guard = none)
    (hcovers : ∀ (r : Nat) (rec : Record Nat), s.shared.reg.recs[r]? = some rec →
      rec.active = true → rec.val % 2 = 1 → (s.thread t).pc.covers r rec.val = true →
      pc.covers r rec.val = true) (hfree : ∀ l, pc = .free l → ∀ e ∈ l, e.id < s.shared.clock ∧
      ∀ u g, (s.thread u).guard = some g → ¬ g < e.id) :
    RcuInv ⟨sh', Function.update s.thread t { s.thread t with pc := pc }⟩ := by
  refine inv_of hI ?_ (Nat.le_of_eq hclock.symm) ?_ ?_ ?_ ?_ ?_ ?_ hfree
  · rw [hreg]
    exact hI.owned.congr (owns_update_same howns) (fun _ h => h) fun r rec h => ⟨rec, h, rfl⟩
  · intro u _ r rec _ hrec
    exact ⟨rec, hreg ▸ hrec, rfl⟩
  · rw [hreg]
    exact hI.even
  · constructor
    case guarded =>
        intro g hg
        rw [hclock]
        exact (hI.ok t).guarded g hg
    case claiming => exact hclaim
    case locking => exact hlock
    case parity =>
        intro r rec hr hrec
        rw [howns] at hr
        exact (hI.ok t).parity r rec hr (hreg ▸ hrec)
  · intro e he
    rw [hpending] at he
    rw [hclock]
    exact ⟨hI.recent e he, .inl he⟩
  · exact fun g hg => .inr ⟨hg, rfl, hreg⟩
  · exact fun e _ => hcovers

theorem inv_push (hI : RcuInv s) (hcov : Covered s) {p : π} (hpc : (s.thread t).pc = .retire p)
    (hpc' : pc = .idle ∨ pc = .head true) :
    RcuInv ⟨{ s.shared with
        pending := s.shared.pending ++ [⟨p, s.shared.clock⟩], clock := s.shared.clock + 1 },
      Function.update s.thread t { s.thread t with pc := pc }⟩ := by
  have howns : Thread.owns { s.thread t with pc := pc } = (s.thread t).owns := by
    unfold Thread.owns
    rw [hpc]
    rcases hpc' with rfl | rfl <;> rfl
  refine inv_of hI ?_ (Nat.le_succ _) (fun u _ r rec _ hrec => ⟨rec, hrec, rfl⟩) hI.even ?_ ?_
    ?_ ?_ ?_
  · exact hI.owned.congr (owns_update_same howns) (fun _ h => h) fun r rec h => ⟨rec, h, rfl⟩
  · constructor
    case guarded =>
        intro g hg
        obtain ⟨hlt, hr⟩ := (hI.ok t).guarded g hg
        exact ⟨Nat.lt_succ_of_lt hlt, hr⟩
    case claiming =>
        intro c h
        rcases hpc' with rfl | rfl <;> cases h
    case locking =>
        intro h
        rcases hpc' with rfl | rfl <;> cases h
    case parity =>
        intro r rec hr hrec
        rw [howns] at hr
        exact (hI.ok t).parity r rec hr hrec
  · intro e he
    refine ⟨?_, .inr hcov⟩
    rcases List.mem_append.mp he with he | he
    · exact Nat.lt_succ_of_lt (hI.recent e he)
    · rw [List.mem_singleton.mp he]
      exact Nat.lt_succ_self _
  · exact fun g hg => .inr ⟨hg, rfl, rfl⟩
  · intro e _ r rec _ _ _ _
    rcases hpc' with rfl | rfl <;> rfl
  · intro l h
    rcases hpc' with rfl | rfl <;> cases h

/-- When the list is taken, nobody holds a guard that is older than an object on it. -/
theorem inv_take (hI : RcuInv s) (hpc : (s.thread t).pc = .take) :
    RcuInv ⟨{ s.shared with pending := [] },
      Function.update s.thread t { s.thread t with pc := .free s.shared.pending }⟩ := by
  have howns :
      Thread.owns { s.thread t with pc := .free s.shared.pending } = (s.thread t).owns := by
    unfold Thread.owns
    rw [hpc]
  refine inv_of hI ?_ (Nat.le_refl _) (fun u _ r rec _ hrec => ⟨rec, hrec, rfl⟩) hI.even ?_ ?_
    ?_ ?_ ?_
  · exact hI.owned.congr (owns_update_same howns) (fun _ h => h) fun r rec h => ⟨rec, h, rfl⟩
  · constructor
    case guarded => exact (hI.ok t).guarded
    case claiming => exact fun c h => by cases h
    case locking => exact fun h => by cases h
    case parity =>
        intro r rec hr hrec
        rw [howns] at hr
        exact (hI.ok t).parity r rec hr hrec
  · exact fun e he => by cases he
  · exact fun g hg => .inr ⟨hg, rfl, rfl⟩
  · exact fun e he => by cases he
  · intro l h e he
    injection h with h
    subst h
    refine ⟨hI.recent e he, fun u g hg hlt => ?_⟩
    obtain ⟨_, r, hr⟩ := (hI.ok u).guarded g hg
    obtain ⟨rec, hrec, _⟩ := hI.owned.active u r (by rw [(hI.ok u).owns_eq hg, hr])
    have hcov := hI.cover e he u g r rec hg hlt hr hrec t
    rw [hpc] at hcov
    cases hcov

/-- **The invariant goes on** as long as no object is pushed late. -/
theorem inv_step [DecidableEq ℓ] (hI : RcuInv s) (hok : PushCovered s a)
    (h : step s a = some (s', ev)) : RcuInv s' := by
  obtain ⟨sh, th, hmove, rfl⟩ := step_moves h
  cases hmove with
  | inside hreg hpending hclock howns hclaim hlock hcovers hfree =>
      exact inv_inside hI hreg hpending hclock howns hclaim hlock hcovers
        fun l h => absurd h (hfree l)
  | reclaim hpc =>
      refine inv_inside hI rfl rfl rfl ?_ (by simp) (by simp) (by simp [Pc.covers]) ?_
      · unfold Thread.owns
        rw [hpc]
      · intro l h e he
        injection h with h
        exact hI.freed _ _ hpc e (List.mem_cons_of_mem _ (h ▸ he))
  | unlock hpc hguard hrecord => exact inv_unlock hI hguard hrecord
  | exit hpc hguard hrecord => exact inv_exit hI hpc hguard hrecord
  | claim hpc hclaims =>
      exact inv_claims hI hpc hclaims rfl rfl (fun _ _ => rfl) (by simp)
  | claimed hpc hclaims =>
      exact inv_claims hI hpc hclaims rfl rfl (fun _ _ => rfl) (by simp)
  | enter hpc hrecord => exact inv_enter hI hpc hrecord
  | push hpc hpc' => exact inv_push hI (hok (by rw [hpc]; rfl)) hpc hpc'
  | take hpc => exact inv_take hI hpc

/-! ## Safety -/

/-- A guard is held by some thread. -/
def Open (s : State τ π ℓ) (g : Nat) : Prop := ∃ u, (s.thread u).guard = some g

theorem tracked_step [DecidableEq ℓ] {es : List GraceEvent} (hI : RcuInv s)
    (hT : Tracked es s.shared.clock (Open s)) (h : step s a = some (s', ev)) :
    Tracked (es ++ ev) s'.shared.clock (Open s') := by
  obtain ⟨sh, th, hmove, rfl⟩ := step_moves h
  generalize a.actor = t at hmove
  -- a thread that keeps its guard keeps it open
  have hkeep : ∀ th' : Thread π, th'.guard = (s.thread t).guard →
      ∀ g, Open s g → ∃ u, (Function.update s.thread t th' u).guard = some g := by
    intro th' hsame g hg
    obtain ⟨u, hu⟩ := hg
    by_cases hut : u = t
    · subst hut
      exact ⟨u, by rw [Function.update_self, hsame, hu]⟩
    · exact ⟨u, by rw [Function.update_of_ne hut, hu]⟩
  cases hmove with
  | inside _ _ hclock =>
      simp only [hclock]
      exact hT.silent (hkeep _ rfl)
  | @reclaim e l hpc =>
      refine hT.reclaim (hkeep { s.thread t with pc := .free l } rfl) fun g hg => ?_
      obtain ⟨u, hu⟩ := hg
      exact (hI.freed t _ hpc e (List.mem_cons_self ..)).2 u g hu
  | @unlock g₀ r hpc hguard hrecord =>
      refine hT.leave fun g hg hne => ?_
      obtain ⟨u, hu⟩ := hg
      have hut : u ≠ t := by
        intro heq
        rw [heq, hguard] at hu
        injection hu with hu
        exact hne hu.symm
      exact ⟨u, by simp only [Function.update_of_ne hut, hu]⟩
  | exit hpc hguard hrecord => exact hT.silent (hkeep _ rfl)
  | claim => exact hT.silent (hkeep _ rfl)
  | claimed => exact hT.silent (hkeep _ rfl)
  | enter hpc hrecord =>
      refine hT.enter (fun g hg => ?_) ⟨t, by simp only [Function.update_self]⟩
      obtain ⟨u, hu⟩ := hg
      have hut : u ≠ t := by
        intro heq
        rw [heq, (hI.ok t).locking hpc] at hu
        cases hu
      exact ⟨u, by simp only [Function.update_of_ne hut, hu]⟩
  | push => exact hT.retire (hkeep _ rfl)
  | take => exact hT.silent (hkeep _ rfl)

end Steps

/-- **Reclamation is safe in every run in which no object is pushed late**: for any number
of threads, whatever they call and however their steps interleave, an object is reclaimed
only after every guard that was held when it was retired has been given up. -/
theorem reclaimed_after_grace [DecidableEq τ] [DecidableEq ℓ] (ptr : ℓ → Option π)
    {es : List GraceEvent} {s : State τ π ℓ} (h : Run step PushCovered (init ptr) es s) :
    Grace es := by
  have hinv : RcuInv s ∧ Tracked es s.shared.clock (Open s) := by
    refine Run.invariant (I := fun es s => RcuInv s ∧ Tracked es s.shared.clock (Open s)) ?_ ?_ h
    · exact ⟨inv_init ptr, Tracked.nil _ _⟩
    · intro es ev s s' a hI hok hstep
      exact ⟨inv_step hI.1 hok hstep, tracked_step hI.1 hI.2 hstep⟩
  exact hinv.2.grace

instance [Fintype τ] (s : State τ π ℓ) : Decidable (Covered s) :=
  inferInstanceAs (Decidable (∀ t u, ∀ rc ∈ (s.thread t).held s.shared.reg,
    (s.thread u).pc.covers rc.1 rc.2 = true))

instance [Fintype τ] (s : State τ π ℓ) (a : Action τ π ℓ) : Decidable (PushCovered s a) :=
  inferInstanceAs (Decidable (_ = true → Covered s))

/-- A reader enters; an updater retires what it published before; a third thread waits for
the reader before it frees. -/
def graceSchedule : List (Action (Fin 3) Nat Unit) :=
  [Action.call 0 .lock] ++ List.replicate 5 (Action.run 0 false) ++
  [Action.call 1 (.store () none), .run 1 false, .call 2 .reclaimAll] ++
  List.replicate 6 (Action.run 2 false) ++ [Action.call 0 .unlock] ++
  List.replicate 4 (Action.run 2 false)

theorem reclaimed_after_grace_three :
    ∃ (es : List GraceEvent) (s : State (Fin 3) Nat Unit),
      Run step PushCovered (init fun _ => some 7) es s ∧
      es = [entered 0, retired 1, left 0, reclaimed 1] ∧ Grace es := by
  have h : Leads step PushCovered (init fun _ => some 7) graceSchedule
      fun _ es => es = [entered 0, retired 1, left 0, reclaimed 1] := by decide +kernel
  obtain ⟨s, es, hrun, hes⟩ := h.run
  exact ⟨es, s, hrun, hes, reclaimed_after_grace _ hrun⟩

/-- One thread has waited for its grace period and is about to take the list. A reader
enters, an updater retires, and the object is taken with the list. -/
def lateSchedule : List (Action (Fin 3) Nat Unit) :=
  [Action.call 2 .reclaimAll] ++ List.replicate 3 (Action.run 2 false) ++
  [Action.call 0 .lock] ++ List.replicate 5 (Action.run 0 false) ++
  [Action.call 1 (.store () none), .run 1 false] ++ List.replicate 2 (Action.run 2 false)

/-- The object is reclaimed while the guard that was held at its retirement still is. -/
theorem reclaimed_under_guard :
    ∃ (es : List GraceEvent) (s : State (Fin 3) Nat Unit),
      Run step Any (init fun _ => some 7) es s ∧ ¬ Grace es := by
  have h : Leads step Any (init fun _ => some 7) lateSchedule
      fun _ es => es = [entered 0, retired 1, reclaimed 1] := by decide +kernel
  obtain ⟨s, es, hrun, hes⟩ := h.run
  refine ⟨es, s, hrun, fun hgrace => ?_⟩
  have hleft := hgrace [entered 0] [] [] 1 hes 0 (by simp) (by simp)
  cases hleft

end CrossMachine.Reclaim.Rcu
