import CrossMachine.Lib.Bits
import CrossMachine.Lib.Custody
import CrossMachine.Lib.Instances
import CrossMachine.Lib.Prefix
import CrossMachine.Lib.Run
import Mathlib.Data.Set.Card
import Mathlib.Order.Interval.Finset.Nat

/-!
# The bounded queue

`MpmcQueue` of `mpmc_queue.h`, one atomic operation at a time. `tail_` and `head_` count the
positions that have been given to producers and to consumers. Position `p` lives in slot
`p & (N - 1)`, and the slot's `sequence` says how far it is: `p` when it waits for the
producer of `p`, `p + 1` when the value of `p` is in it, `p + N` when that has been taken
and the slot waits for the next lap.

A thread that has won its position may rest for as long as it likes before it stores the
sequence; whatever the others do in the meantime, they do not get past it. That is what
`Phases` says: of every slot, which position it is at, and that a position which is not
finished holds back everybody who is a lap ahead.

Counters are natural numbers: they do not wrap. What the observer is told (`Event`) goes
beyond what `push` and `pop` return. It names the positions.
-/

namespace CrossMachine.Queue.Mpmc

open Lib

variable {τ α : Type*}

/-- `Slot`. A slot that nothing was stored in has no value. -/
structure Slot (α : Type*) where
  sequence : Nat
  data : Option α
  deriving DecidableEq, Repr

/-- What a thread does next. The names of the arguments are those of the local variables. -/
inductive Pc (α : Type*) where
  | idle
  /-- Before the load of `tail_`. -/
  | pushLoad (val : α)
  /-- Before the load of the sequence. -/
  | pushSeq (val : α) (pos : Nat)
  /-- The slot is free; before the exchange of `tail_`. -/
  | pushCas (val : α) (pos : Nat)
  /-- The position is won; before the value is stored. -/
  | pushWrite (val : α) (pos : Nat)
  /-- Before the sequence is stored. -/
  | pushPublish (val : α) (pos : Nat)
  /-- Before the load of `head_`. -/
  | popLoad
  /-- Before the load of the sequence. -/
  | popSeq (pos : Nat)
  /-- The value is there; before the exchange of `head_`. -/
  | popCas (pos : Nat)
  /-- The position is won; before the value is read. -/
  | popRead (pos : Nat)
  /-- Before the sequence is stored. -/
  | popRelease (pos : Nat) (val : Option α)
  deriving DecidableEq, Repr

structure State (τ α : Type*) where
  /-- `tail_`. -/
  tail : Nat
  /-- `head_`. -/
  head : Nat
  slots : Nat → Slot α
  pc : τ → Pc α

inductive Event (α : Type*) where
  /-- A `push` has won position `p`. -/
  | claimed (p : Nat) (v : α)
  | wrote (p : Nat) (v : α)
  /-- `push` returns true. -/
  | pushed (p : Nat) (v : α)
  /-- `push` returns false. -/
  | full
  /-- A `pop` has won position `p`. -/
  | taken (p : Nat)
  | read (p : Nat) (v : Option α)
  /-- `pop` returns true. -/
  | popped (p : Nat) (v : Option α)
  /-- `pop` returns false. -/
  | empty
  deriving DecidableEq, Repr

open Event

/-- `slots_[pos & kMask]`. -/
def slot (N pos : Nat) : Nat := pos &&& (N - 1)

def State.seq (s : State τ α) (N pos : Nat) : Nat := (s.slots (slot N pos)).sequence

def State.data (s : State τ α) (N pos : Nat) : Option α := (s.slots (slot N pos)).data

/-- The assertions about `N`. -/
def Admits (N : Nat) : Prop := 2 ≤ N ∧ N &&& (N - 1) = 0

section Step

variable [DecidableEq τ]

def State.goto (s : State τ α) (t : τ) (pc : Pc α) : State τ α :=
  { s with pc := Function.update s.pc t pc }

def State.setData (s : State τ α) (N pos : Nat) (v : α) : State τ α :=
  { s with
    slots := Function.update s.slots (slot N pos)
      { s.slots (slot N pos) with data := some v } }

def State.setSeq (s : State τ α) (N pos seq : Nat) : State τ α :=
  { s with
    slots := Function.update s.slots (slot N pos)
      { s.slots (slot N pos) with sequence := seq } }

/-- One atomic operation of a thread. A weak exchange may fail for no reason. -/
def go (N : Nat) (s : State τ α) (t : τ) (weak : Bool) : Option (State τ α × List (Event α)) :=
  match s.pc t with
  | .idle => none
  | .pushLoad val => some (s.goto t (.pushSeq val s.tail), [])
  | .pushSeq val pos =>
      let dif : Int := (s.seq N pos : Int) - pos
      if dif = 0 then some (s.goto t (.pushCas val pos), [])
      else if dif < 0 then some (s.goto t .idle, [.full])
      else some (s.goto t (.pushLoad val), [])
  | .pushCas val pos =>
      if s.tail = pos ∧ weak = false then
        some ({ s.goto t (.pushWrite val pos) with tail := pos + 1 }, [.claimed pos val])
      else some (s.goto t (.pushSeq val s.tail), [])
  | .pushWrite val pos =>
      some ((s.setData N pos val).goto t (.pushPublish val pos), [.wrote pos val])
  | .pushPublish val pos => some ((s.setSeq N pos (pos + 1)).goto t .idle, [.pushed pos val])
  | .popLoad => some (s.goto t (.popSeq s.head), [])
  | .popSeq pos =>
      let dif : Int := (s.seq N pos : Int) - (pos + 1)
      if dif = 0 then some (s.goto t (.popCas pos), [])
      else if dif < 0 then some (s.goto t .idle, [.empty])
      else some (s.goto t .popLoad, [])
  | .popCas pos =>
      if s.head = pos ∧ weak = false then
        some ({ s.goto t (.popRead pos) with head := pos + 1 }, [.taken pos])
      else some (s.goto t (.popSeq s.head), [])
  | .popRead pos =>
      some (s.goto t (.popRelease pos (s.data N pos)), [.read pos (s.data N pos)])
  | .popRelease pos val => some ((s.setSeq N pos (pos + N)).goto t .idle, [.popped pos val])

/-- A thread calls `push` or `pop`, or goes on. -/
inductive Action (τ α : Type*) where
  | push (t : τ) (val : α)
  | pop (t : τ)
  | run (t : τ) (weak : Bool)
  deriving DecidableEq, Repr

/-- Any interleaving of the threads. -/
def step (N : Nat) (s : State τ α) : Action τ α → Option (State τ α × List (Event α))
  | .push t val =>
      match s.pc t with
      | .idle => some (s.goto t (.pushLoad val), [])
      | _ => none
  | .pop t =>
      match s.pc t with
      | .idle => some (s.goto t .popLoad, [])
      | _ => none
  | .run t weak => go N s t weak

end Step

/-- The constructor. -/
def init : State τ α :=
  { tail := 0, head := 0, slots := fun i => ⟨i, none⟩, pc := fun _ => .idle }

section Fields

variable [DecidableEq τ] (s : State τ α) (t : τ) (pc : Pc α) (N p : Nat)

@[simp] theorem goto_tail : (s.goto t pc).tail = s.tail := rfl

@[simp] theorem goto_head : (s.goto t pc).head = s.head := rfl

@[simp] theorem goto_seq : (s.goto t pc).seq N p = s.seq N p := rfl

@[simp] theorem goto_data : (s.goto t pc).data N p = s.data N p := rfl

@[simp] theorem goto_self : (s.goto t pc).pc t = pc := by
  simp only [State.goto, Function.update_self]

theorem goto_other {u : τ} (h : u ≠ t) : (s.goto t pc).pc u = s.pc u := by
  simp only [State.goto, Function.update_of_ne h]

end Fields

/-! ## What a step can do -/

/-- The position a producer has won and not finished. -/
@[simp] def Pc.pushing : Pc α → Option Nat
  | .pushWrite _ pos => some pos
  | .pushPublish _ pos => some pos
  | _ => none

/-- The position a consumer has won and not finished. -/
@[simp] def Pc.popping : Pc α → Option Nat
  | .popRead pos => some pos
  | .popRelease pos _ => some pos
  | _ => none

/-- What a step of thread `t` can be. -/
inductive Steps [DecidableEq τ] (N : Nat) (s : State τ α) (t : τ) :
    State τ α → List (Event α) → Prop where
  /-- Nobody else sees it. -/
  | turn {pc : Pc α} {ev : List (Event α)} (hpush : (s.pc t).pushing = none)
      (hpop : (s.pc t).popping = none) (hpush' : pc.pushing = none) (hpop' : pc.popping = none)
      (hfree : ∀ v p, pc = .pushCas v p → s.seq N p = p)
      (hready : ∀ p, pc = .popCas p → s.seq N p = p + 1)
      (hev : ev = [] ∨ ev = [full] ∨ ev = [empty]) : Steps N s t (s.goto t pc) ev
  | claim {v : α} {p : Nat} (hpc : s.pc t = .pushCas v p) (hp : s.tail = p) :
      Steps N s t { s.goto t (.pushWrite v p) with tail := p + 1 } [claimed p v]
  | write {v : α} {p : Nat} (hpc : s.pc t = .pushWrite v p) :
      Steps N s t ((s.setData N p v).goto t (.pushPublish v p)) [wrote p v]
  | publish {v : α} {p : Nat} (hpc : s.pc t = .pushPublish v p) :
      Steps N s t ((s.setSeq N p (p + 1)).goto t .idle) [pushed p v]
  | take {p : Nat} (hpc : s.pc t = .popCas p) (hp : s.head = p) :
      Steps N s t { s.goto t (.popRead p) with head := p + 1 } [taken p]
  | read {p : Nat} (hpc : s.pc t = .popRead p) :
      Steps N s t (s.goto t (.popRelease p (s.data N p))) [.read p (s.data N p)]
  | release {p : Nat} {v : Option α} (hpc : s.pc t = .popRelease p v) :
      Steps N s t ((s.setSeq N p (p + N)).goto t .idle) [popped p v]

theorem step_steps [DecidableEq τ] {N : Nat} {s s' : State τ α} {a : Action τ α}
    {ev : List (Event α)} (h : step N s a = some (s', ev)) : ∃ t, Steps N s t s' ev := by
  cases a with
  | push t val =>
      refine ⟨t, ?_⟩
      cases hpc : s.pc t <;> simp only [step, hpc, Option.some.injEq, Prod.mk.injEq] at h
      case idle =>
        obtain ⟨rfl, rfl⟩ := h
        exact .turn (by simp [hpc]) (by simp [hpc]) (by simp) (by simp) (by simp) (by simp)
          (.inl rfl)
      all_goals cases h
  | pop t =>
      refine ⟨t, ?_⟩
      cases hpc : s.pc t <;> simp only [step, hpc, Option.some.injEq, Prod.mk.injEq] at h
      case idle =>
        obtain ⟨rfl, rfl⟩ := h
        exact .turn (by simp [hpc]) (by simp [hpc]) (by simp) (by simp) (by simp) (by simp)
          (.inl rfl)
      all_goals cases h
  | run t weak =>
      refine ⟨t, ?_⟩
      simp only [step] at h
      cases hpc : s.pc t with
      | idle => simp [go, hpc] at h
      | pushLoad val =>
          simp only [go, hpc, Option.some.injEq, Prod.mk.injEq] at h
          obtain ⟨rfl, rfl⟩ := h
          exact .turn (by simp [hpc]) (by simp [hpc]) (by simp) (by simp) (by simp) (by simp)
            (.inl rfl)
      | pushSeq val pos =>
          simp only [go, hpc] at h
          split at h
          · rename_i hdif
            cases h
            refine .turn (by simp [hpc]) (by simp [hpc]) (by simp) (by simp) ?_ (by simp) (.inl rfl)
            intro v p heq
            injection heq with _ hp
            subst hp
            omega
          · split at h
            all_goals
              cases h
              exact .turn (by simp [hpc]) (by simp [hpc]) (by simp) (by simp) (by simp) (by simp)
                (by simp)
      | pushCas val pos =>
          simp only [go, hpc] at h
          split at h
          · rename_i hcas
            cases h
            exact .claim hpc hcas.1
          · cases h
            exact .turn (by simp [hpc]) (by simp [hpc]) (by simp) (by simp) (by simp) (by simp)
              (.inl rfl)
      | pushWrite val pos =>
          simp only [go, hpc, Option.some.injEq, Prod.mk.injEq] at h
          obtain ⟨rfl, rfl⟩ := h
          exact .write hpc
      | pushPublish val pos =>
          simp only [go, hpc, Option.some.injEq, Prod.mk.injEq] at h
          obtain ⟨rfl, rfl⟩ := h
          exact .publish hpc
      | popLoad =>
          simp only [go, hpc, Option.some.injEq, Prod.mk.injEq] at h
          obtain ⟨rfl, rfl⟩ := h
          exact .turn (by simp [hpc]) (by simp [hpc]) (by simp) (by simp) (by simp) (by simp)
            (.inl rfl)
      | popSeq pos =>
          simp only [go, hpc] at h
          split at h
          · rename_i hdif
            cases h
            refine .turn (by simp [hpc]) (by simp [hpc]) (by simp) (by simp) (by simp) ?_ (.inl rfl)
            intro p heq
            injection heq with hp
            subst hp
            omega
          · split at h
            all_goals
              cases h
              exact .turn (by simp [hpc]) (by simp [hpc]) (by simp) (by simp) (by simp) (by simp)
                (by simp)
      | popCas pos =>
          simp only [go, hpc] at h
          split at h
          · rename_i hcas
            cases h
            exact .take hpc hcas.1
          · cases h
            exact .turn (by simp [hpc]) (by simp [hpc]) (by simp) (by simp) (by simp) (by simp)
              (.inl rfl)
      | popRead pos =>
          simp only [go, hpc, Option.some.injEq, Prod.mk.injEq] at h
          obtain ⟨rfl, rfl⟩ := h
          exact .read hpc
      | popRelease pos val =>
          simp only [go, hpc, Option.some.injEq, Prod.mk.injEq] at h
          obtain ⟨rfl, rfl⟩ := h
          exact .release hpc

/-! ## Slots -/

section Slots

variable {N p q x : Nat} {s : State τ α} {v : α}

theorem slot_eq_iff (hN : Admits N) : slot N p = slot N q ↔ p % N = q % N := by
  have hne : N ≠ 0 := by
    have := hN.1
    omega
  unfold slot
  rw [land_pred_eq_mod hne hN.2, land_pred_eq_mod hne hN.2]

@[simp] theorem setSeq_tail : (s.setSeq N p x).tail = s.tail := rfl

@[simp] theorem setSeq_head : (s.setSeq N p x).head = s.head := rfl

@[simp] theorem setSeq_pc : (s.setSeq N p x).pc = s.pc := rfl

@[simp] theorem setData_tail : (s.setData N p v).tail = s.tail := rfl

@[simp] theorem setData_head : (s.setData N p v).head = s.head := rfl

@[simp] theorem setData_pc : (s.setData N p v).pc = s.pc := rfl

/-- Two positions of one slot are a lap apart. -/
theorem lap_le (hN : Admits N) (h : slot N p = slot N q) (hlt : q < p) : q + N ≤ p := by
  have hmod : p % N = q % N := (slot_eq_iff hN).mp h
  have hdvd : N ∣ p - q := (Nat.modEq_iff_dvd' (Nat.le_of_lt hlt)).mp hmod.symm
  have := Nat.le_of_dvd (by omega) hdvd
  omega

/-- Neighbours are in different slots. -/
theorem ne_succ (hN : Admits N) (h : slot N p = slot N q) : p ≠ q + 1 := by
  rintro rfl
  have := lap_le hN h (Nat.lt_succ_self q)
  have := hN.1
  omega

/-- One lap on it is the same slot. -/
theorem slot_add (hN : Admits N) : slot N (p + N) = slot N p := by
  rw [slot_eq_iff hN, Nat.add_mod_right]

@[simp] theorem seq_setSeq :
    (s.setSeq N p x).seq N q = if slot N q = slot N p then x else s.seq N q := by
  unfold State.setSeq State.seq
  simp only [Function.update_apply]
  split <;> rfl

@[simp] theorem data_setSeq : (s.setSeq N p x).data N q = s.data N q := by
  unfold State.setSeq State.data
  simp only [Function.update_apply]
  split
  · rename_i h
    rw [h]
  · rfl

@[simp] theorem seq_setData : (s.setData N p v).seq N q = s.seq N q := by
  unfold State.setData State.seq
  simp only [Function.update_apply]
  split
  · rename_i h
    rw [h]
  · rfl

@[simp] theorem data_setData :
    (s.setData N p v).data N q = if slot N q = slot N p then some v else s.data N q := by
  unfold State.setData State.data
  simp only [Function.update_apply]
  split <;> rfl

end Slots

/-! ## Phases -/

/-- Slot by slot, how far the queue is; and of every thread, what it can rely on. -/
structure Phases (N : Nat) (s : State τ α) : Prop where
  le : s.head ≤ s.tail
  /-- A slot is at a position that nobody is more than a lap past. -/
  phase : ∀ q, ∃ p, slot N p = slot N q ∧ s.tail ≤ p + N ∧
    ((s.seq N q = p ∧ p < s.head + N) ∨ (s.seq N q = p + 1 ∧ p < s.tail))
  free : ∀ t v p, s.pc t = .pushCas v p → s.seq N p = p ∨ p < s.tail
  pushing : ∀ t p, (s.pc t).pushing = some p → s.seq N p = p ∧ p < s.tail
  onePush : Sole fun t => (s.pc t).pushing
  ready : ∀ t p, s.pc t = .popCas p → s.seq N p = p + 1 ∨ p < s.head
  popping : ∀ t p, (s.pc t).popping = some p → s.seq N p = p + 1 ∧ p < s.head
  onePop : Sole fun t => (s.pc t).popping

theorem phases_init {N : Nat} (hN : Admits N) : Phases N (init : State τ α) := by
  have hpos : 0 < N := by
    have := hN.1
    omega
  constructor
  case phase =>
      intro q
      refine ⟨slot N q, ?_, by simp [init], .inl ⟨rfl, ?_⟩⟩
      · rw [slot_eq_iff hN]
        unfold slot
        rw [land_pred_eq_mod (by omega) hN.2, Nat.mod_mod]
      · unfold slot
        rw [land_pred_eq_mod (by omega) hN.2]
        simpa [init] using Nat.mod_lt q hpos
  all_goals simp [init, Sole]

section Steps

variable [DecidableEq τ] {N : Nat} {s s' : State τ α} {t : τ} {es ev : List (Event α)}

/-- What a step of `t` has to show for its own sake and for the others'. -/
theorem phases_of (hP : Phases N s) {pc : Pc α} (hself : s'.pc t = pc)
    (hother : ∀ u, u ≠ t → s'.pc u = s.pc u) (hle : s'.head ≤ s'.tail)
    (hhead : s.head ≤ s'.head) (htail : s.tail ≤ s'.tail)
    (hphase : ∀ q, ∃ p, slot N p = slot N q ∧ s'.tail ≤ p + N ∧
      ((s'.seq N q = p ∧ p < s'.head + N) ∨ (s'.seq N q = p + 1 ∧ p < s'.tail)))
    (hfree : ∀ v p, pc = .pushCas v p → s'.seq N p = p ∨ p < s'.tail)
    (hready : ∀ p, pc = .popCas p → s'.seq N p = p + 1 ∨ p < s'.head)
    (hpushing : ∀ p, pc.pushing = some p → s'.seq N p = p ∧ p < s'.tail ∧
      ∀ u, u ≠ t → (s.pc u).pushing ≠ some p)
    (hpopping : ∀ p, pc.popping = some p → s'.seq N p = p + 1 ∧ p < s'.head ∧
      ∀ u, u ≠ t → (s.pc u).popping ≠ some p)
    (hkeepPush : ∀ p, s.seq N p = p → s'.seq N p = p ∨
      (p < s'.tail ∧ ∀ u, u ≠ t → (s.pc u).pushing ≠ some p))
    (hkeepPop : ∀ p, s.seq N p = p + 1 → s'.seq N p = p + 1 ∨
      (p < s'.head ∧ ∀ u, u ≠ t → (s.pc u).popping ≠ some p)) : Phases N s' := by
  constructor
  case le => exact hle
  case phase => exact hphase
  case free =>
      intro u v p hu
      by_cases hut : u = t
      · rw [hut, hself] at hu
        exact hfree v p hu
      · rw [hother u hut] at hu
        rcases hP.free u v p hu with h | h
        · rcases hkeepPush p h with h | h
          · exact .inl h
          · exact .inr h.1
        · exact .inr (by omega)
  case pushing =>
      intro u p hu
      by_cases hut : u = t
      · rw [hut, hself] at hu
        exact ⟨(hpushing p hu).1, (hpushing p hu).2.1⟩
      · rw [hother u hut] at hu
        obtain ⟨hseq, hlt⟩ := hP.pushing u p hu
        rcases hkeepPush p hseq with h | h
        · exact ⟨h, by omega⟩
        · exact absurd hu (h.2 u hut)
  case onePush =>
      refine hP.onePush.step (t := t) (fun u hu => by rw [hother u hu]) fun p hp => .inr ?_
      rw [hself] at hp
      exact (hpushing p hp).2.2
  case ready =>
      intro u p hu
      by_cases hut : u = t
      · rw [hut, hself] at hu
        exact hready p hu
      · rw [hother u hut] at hu
        rcases hP.ready u p hu with h | h
        · rcases hkeepPop p h with h | h
          · exact .inl h
          · exact .inr h.1
        · exact .inr (by omega)
  case popping =>
      intro u p hu
      by_cases hut : u = t
      · rw [hut, hself] at hu
        exact ⟨(hpopping p hu).1, (hpopping p hu).2.1⟩
      · rw [hother u hut] at hu
        obtain ⟨hseq, hlt⟩ := hP.popping u p hu
        rcases hkeepPop p hseq with h | h
        · exact ⟨h, by omega⟩
        · exact absurd hu (h.2 u hut)
  case onePop =>
      refine hP.onePop.step (t := t) (fun u hu => by rw [hother u hu]) fun p hp => .inr ?_
      rw [hself] at hp
      exact (hpopping p hp).2.2

omit [DecidableEq τ] in
/-- The producer of a position that nobody has won yet. -/
theorem Phases.unclaimed (hP : Phases N s) {p : Nat} (hp : s.tail ≤ p) (u : τ) :
    (s.pc u).pushing ≠ some p := by
  intro h
  have := (hP.pushing u p h).2
  omega

omit [DecidableEq τ] in
theorem Phases.untaken (hP : Phases N s) {p : Nat} (hp : s.head ≤ p) (u : τ) :
    (s.pc u).popping ≠ some p := by
  intro h
  have := (hP.popping u p h).2
  omega

omit [DecidableEq τ] in
/-- The slot of a value that is there is at its position. -/
theorem Phases.present (hN : Admits N) (hP : Phases N s) {p : Nat} (h : s.seq N p = p + 1) :
    p < s.tail ∧ s.tail ≤ p + N := by
  obtain ⟨q, hslot, hle, hq⟩ := hP.phase p
  rcases hq with ⟨hseq, _⟩ | ⟨hseq, hlt⟩
  · exact absurd (hseq.symm.trans h) (ne_succ hN hslot)
  · have : q = p := by omega
    subst this
    exact ⟨hlt, hle⟩

omit [DecidableEq τ] in
/-- A slot that waits for a producer is at its position. -/
theorem Phases.waiting (hN : Admits N) (hP : Phases N s) {p : Nat} (h : s.seq N p = p) :
    s.tail ≤ p + N ∧ p < s.head + N := by
  obtain ⟨q, hslot, hle, hq⟩ := hP.phase p
  rcases hq with ⟨hseq, hlt⟩ | ⟨hseq, _⟩
  · have : q = p := hseq.symm.trans h
    subst this
    exact ⟨hle, hlt⟩
  · exact absurd (h.symm.trans hseq) (ne_succ hN hslot.symm)

/-- **Every step** leaves every slot in order. -/
theorem phases_step (hN : Admits N) (hP : Phases N s) (h : Steps N s t s' ev) : Phases N s' := by
  cases h with
  | turn _ _ hpush' hpop' hfree hready _ =>
      refine phases_of hP (goto_self s t _) (fun u hu => goto_other s t _ hu) hP.le (Nat.le_refl _)
        (Nat.le_refl _) hP.phase (fun v p hpc => .inl (hfree v p hpc))
        (fun p hpc => .inl (hready p hpc)) ?_ ?_ (fun _ h => .inl h) fun _ h => .inl h
      · intro p hp
        rw [hpush'] at hp
        cases hp
      · intro p hp
        rw [hpop'] at hp
        cases hp
  | @claim v p hpc hp =>
      have hseq : s.seq N p = p := by
        rcases hP.free t v p hpc with h | h
        · exact h
        · omega
      refine phases_of hP (goto_self s t _) (fun u hu => goto_other s t _ hu) ?_ (Nat.le_refl _) ?_
        (fun q => ?_) nofun nofun ?_ nofun (fun _ h => .inl h) fun _ h => .inl h
      · have hle : s.head ≤ p + 1 := by
          have := hP.le
          omega
        exact hle
      · have hle : s.tail ≤ p + 1 := by omega
        exact hle
      · -- the slot that is a lap behind is the one that was just won
        obtain ⟨r, hslot, hle, hr⟩ := hP.phase q
        by_cases hrp : r + N = p
        · have hsame : slot N q = slot N p := by rw [← hslot, ← slot_add hN, hrp]
          have hq : s.seq N q = p := by
            unfold State.seq at hseq ⊢
            rw [hsame, hseq]
          refine ⟨p, hsame.symm, ?_, .inl ⟨hq, (hP.waiting hN hseq).2⟩⟩
          exact Nat.add_le_add_left (Nat.le_of_lt hN.1) p
        · refine ⟨r, hslot, by simp only; omega, ?_⟩
          rcases hr with hr | ⟨hr, hlt⟩
          · exact .inl hr
          · exact .inr ⟨hr, by simp only; omega⟩
      · intro q hq
        simp only [Pc.pushing, Option.some.injEq] at hq
        subst hq
        exact ⟨hseq, Nat.lt_succ_self _, fun u _ => hP.unclaimed (by omega) u⟩
  | @write v p hpc =>
      have hmine := hP.pushing t p (by simp [hpc])
      refine phases_of hP (goto_self _ t _) (fun u hu => goto_other _ t _ hu) hP.le (Nat.le_refl _)
        (Nat.le_refl _) ?_ nofun nofun ?_ nofun ?_ ?_
      · intro q
        rw [goto_seq, seq_setData]
        exact hP.phase q
      · intro q hq
        simp only [Pc.pushing, Option.some.injEq] at hq
        subst hq
        rw [goto_seq, seq_setData]
        refine ⟨hmine.1, hmine.2, fun u hu hu' => hu ?_⟩
        exact hP.onePush u t p hu' (by simp [hpc])
      · simp only [goto_seq, seq_setData]
        exact fun _ h => .inl h
      · simp only [goto_seq, seq_setData]
        exact fun _ h => .inl h
  | @publish v p hpc =>
      obtain ⟨hseq, hlt⟩ := hP.pushing t p (by simp [hpc])
      refine phases_of hP (goto_self _ t _) (fun u hu => goto_other _ t _ hu) hP.le (Nat.le_refl _)
        (Nat.le_refl _) (fun q => ?_) nofun nofun nofun nofun (fun q hq => ?_) fun q hq => ?_
      · rw [goto_seq, seq_setSeq]
        split
        · rename_i hslot
          exact ⟨p, hslot.symm, (hP.waiting hN hseq).1, .inr ⟨rfl, hlt⟩⟩
        · exact hP.phase q
      · rw [goto_seq, seq_setSeq]
        split
        · rename_i hslot
          have : q = p := by
            unfold State.seq at hseq hq
            rw [← hq, hslot, hseq]
          subst this
          exact .inr ⟨hlt, fun u hu hu' => hu (hP.onePush u t q hu' (by simp [hpc]))⟩
        · exact .inl hq
      · rw [goto_seq, seq_setSeq]
        split
        · rename_i hslot
          have : p = q + 1 := by
            unfold State.seq at hseq hq
            rw [← hq, hslot, hseq]
          exact absurd this (ne_succ hN hslot.symm)
        · exact .inl hq
  | @take p hpc hp =>
      have hseq : s.seq N p = p + 1 := by
        rcases hP.ready t p hpc with h | h
        · exact h
        · omega
      have hlt := (hP.present hN hseq).1
      refine phases_of hP (goto_self s t _) (fun u hu => goto_other s t _ hu) ?_ ?_ (Nat.le_refl _)
        (fun q => ?_) nofun nofun nofun ?_ (fun _ h => .inl h) fun _ h => .inl h
      · exact hlt
      · simp only
        omega
      · obtain ⟨r, hslot, hle, hr⟩ := hP.phase q
        refine ⟨r, hslot, hle, ?_⟩
        rcases hr with ⟨hr, hlt⟩ | hr
        · exact .inl ⟨hr, by simp only; omega⟩
        · exact .inr hr
      · intro q hq
        simp only [Pc.popping, Option.some.injEq] at hq
        subst hq
        exact ⟨hseq, Nat.lt_succ_self _, fun u _ => hP.untaken (by omega) u⟩
  | @read p hpc =>
      obtain ⟨hseq, hlt⟩ := hP.popping t p (by simp [hpc])
      refine phases_of hP (goto_self s t _) (fun u hu => goto_other s t _ hu) hP.le (Nat.le_refl _)
        (Nat.le_refl _) hP.phase nofun nofun nofun ?_ (fun _ h => .inl h) fun _ h => .inl h
      intro q hq
      simp only [Pc.popping, Option.some.injEq] at hq
      subst hq
      exact ⟨hseq, hlt, fun u hu hu' => hu (hP.onePop u t p hu' (by simp [hpc]))⟩
  | @release p v hpc =>
      obtain ⟨hseq, hlt⟩ := hP.popping t p (by simp [hpc])
      have hle := (hP.present hN hseq).2
      refine phases_of hP (goto_self _ t _) (fun u hu => goto_other _ t _ hu) hP.le (Nat.le_refl _)
        (Nat.le_refl _) (fun q => ?_) nofun nofun nofun nofun (fun q hq => ?_) fun q hq => ?_
      · rw [goto_seq, seq_setSeq]
        split
        · rename_i hslot
          refine ⟨p + N, (slot_add hN).trans hslot.symm, ?_, .inl ⟨rfl, ?_⟩⟩
          · exact Nat.le_trans hle (Nat.le_add_right _ _)
          · exact Nat.add_lt_add_right hlt N
        · exact hP.phase q
      · rw [goto_seq, seq_setSeq]
        split
        · rename_i hslot
          have : q = p + 1 := by
            unfold State.seq at hseq hq
            rw [← hq, hslot, hseq]
          exact absurd this (ne_succ hN hslot)
        · exact .inl hq
      · rw [goto_seq, seq_setSeq]
        split
        · rename_i hslot
          have : q = p := by
            have heq : q + 1 = p + 1 := by
              unfold State.seq at hseq hq
              rw [← hq, hslot, hseq]
            omega
          subst this
          exact .inr ⟨hlt, fun u hu hu' => hu (hP.onePop u t q hu' (by simp [hpc]))⟩
        · exact .inl hq

end Steps

/-! ## Records -/

@[simp] def Event.claim : Event α → Option (Nat × α)
  | .claimed p v => some (p, v)
  | _ => none

@[simp] def Event.take : Event α → Option Nat
  | .taken p => some p
  | _ => none

@[simp] def Event.pop : Event α → Option Nat
  | .popped p _ => some p
  | _ => none

/-- Positions are won in order. -/
structure Ordered (es : List (Event α)) (s : State τ α) : Prop where
  claims : (es.filterMap Event.claim).map Prod.fst = List.range s.tail
  takes : es.filterMap Event.take = List.range s.head

/-- The value a producer stores. -/
@[simp] def Pc.storing : Pc α → Option (α × Nat)
  | .pushWrite v pos => some (v, pos)
  | .pushPublish v pos => some (v, pos)
  | _ => none

theorem pushing_of_storing {pc : Pc α} {v : α} {p : Nat} (h : pc.storing = some (v, p)) :
    pc.pushing = some p := by
  cases pc <;> simp_all

/-- What was stored is what is there, and what is there is what is taken. -/
structure Values (N : Nat) (es : List (Event α)) (s : State τ α) : Prop where
  storing : ∀ t v p, (s.pc t).storing = some (v, p) → claimed p v ∈ es
  stored : ∀ t v p, s.pc t = .pushPublish v p → s.data N p = some v
  there : ∀ p, s.seq N p = p + 1 → ∃ v, s.data N p = some v ∧ pushed p v ∈ es
  pushed : ∀ p v, pushed p v ∈ es → claimed p v ∈ es
  holding : ∀ t p v, s.pc t = .popRelease p v → Event.read p v ∈ es
  read : ∀ p v, Event.read p v ∈ es → ∃ w, v = some w ∧ Event.pushed p w ∈ es

/-- Nobody gets a lap ahead of a value that has not been read. -/
structure Laps (N : Nat) (es : List (Event α)) (s : State τ α) : Prop where
  waiting : ∀ p, s.seq N p = p → N ≤ p → ∃ w, Event.read (p - N) w ∈ es
  claimed : ∀ p, p + N < s.tail → ∃ w, Event.read p w ∈ es
  wrote : ∀ p v, wrote p v ∈ es → p < s.tail ∧ ∀ t w, s.pc t ≠ .pushWrite w p
  /-- A slot is written again only when what was in it has been read. -/
  rewrote : ∀ es₁ es₂ p v, es = es₁ ++ Event.wrote p v :: es₂ →
    ∀ q w, Event.wrote q w ∈ es₁ → slot N q = slot N p → ∃ x, Event.read q x ∈ es₁

/-- A position is finished once. -/
structure Ends (es : List (Event α)) (s : State τ α) : Prop where
  read : ∀ p v, popped p v ∈ es → Event.read p v ∈ es
  ended : ∀ p v, popped p v ∈ es → p < s.head ∧ ∀ t, (s.pc t).popping ≠ some p
  once : (es.filterMap Event.pop).Nodup

section Steps

variable [DecidableEq τ] {N : Nat} {s s' : State τ α} {t : τ} {es ev : List (Event α)}

theorem ordered_step (hO : Ordered es s) (h : Steps N s t s' ev) : Ordered (es ++ ev) s' := by
  have hclaims := hO.claims
  have htakes := hO.takes
  cases h with
  | turn _ _ _ _ _ _ hev =>
      rcases hev with rfl | rfl | rfl
      all_goals
        constructor
        · simpa [List.filterMap_cons] using hclaims
        · simpa [List.filterMap_cons] using htakes
  | claim hpc hp =>
      constructor
      · simp [hclaims, hp, List.range_succ]
      · simpa [List.filterMap_cons] using htakes
  | take hpc hp =>
      constructor
      · simpa [List.filterMap_cons] using hclaims
      · simp [htakes, hp, List.range_succ]
  | write | publish | read | release =>
      constructor
      · simpa [List.filterMap_cons] using hclaims
      · simpa [List.filterMap_cons] using htakes

omit [DecidableEq τ] in
theorem values_of (hV : Values N es s) {pc : Pc α} (hself : s'.pc t = pc)
    (hother : ∀ u, u ≠ t → s'.pc u = s.pc u)
    (hstoring : ∀ v p, pc.storing = some (v, p) → claimed p v ∈ es ++ ev)
    (hstored : ∀ v p, pc = .pushPublish v p → s'.data N p = some v)
    (hkeep : ∀ u v p, u ≠ t → s.pc u = .pushPublish v p → s'.data N p = s.data N p)
    (hthere : ∀ p, s'.seq N p = p + 1 → ∃ v, s'.data N p = some v ∧ pushed p v ∈ es ++ ev)
    (hpushed : ∀ p v, pushed p v ∈ ev → claimed p v ∈ es ++ ev)
    (hholding : ∀ p v, pc = .popRelease p v → Event.read p v ∈ es ++ ev)
    (hread : ∀ p v, Event.read p v ∈ ev → ∃ w, v = some w ∧ pushed p w ∈ es ++ ev) :
    Values N (es ++ ev) s' := by
  constructor
  case storing =>
      intro u v p hu
      by_cases hut : u = t
      · rw [hut, hself] at hu
        exact hstoring v p hu
      · rw [hother u hut] at hu
        exact List.mem_append_left _ (hV.storing u v p hu)
  case stored =>
      intro u v p hu
      by_cases hut : u = t
      · rw [hut, hself] at hu
        exact hstored v p hu
      · rw [hother u hut] at hu
        rw [hkeep u v p hut hu]
        exact hV.stored u v p hu
  case there => exact hthere
  case pushed =>
      intro p v hp
      rcases List.mem_append.mp hp with hp | hp
      · exact List.mem_append_left _ (hV.pushed p v hp)
      · exact hpushed p v hp
  case holding =>
      intro u p v hu
      by_cases hut : u = t
      · rw [hut, hself] at hu
        exact hholding p v hu
      · rw [hother u hut] at hu
        exact List.mem_append_left _ (hV.holding u p v hu)
  case read =>
      intro p v hp
      rcases List.mem_append.mp hp with hp | hp
      · obtain ⟨w, hw, hp⟩ := hV.read p v hp
        exact ⟨w, hw, List.mem_append_left _ hp⟩
      · exact hread p v hp

theorem values_step (hN : Admits N) (hP : Phases N s) (hV : Values N es s)
    (h : Steps N s t s' ev) : Values N (es ++ ev) s' := by
  -- what is there stays there as long as no sequence is stored
  have hthere : ∀ p, s.seq N p = p + 1 → ∃ v, s.data N p = some v ∧ pushed p v ∈ es ++ ev := by
    intro p hp
    obtain ⟨v, hv, hpushed⟩ := hV.there p hp
    exact ⟨v, hv, List.mem_append_left _ hpushed⟩
  cases h with
  | turn hpush hpop hpush' hpop' _ _ hev =>
      refine values_of hV (goto_self s t _) (fun u hu => goto_other s t _ hu) ?_ ?_
        (fun _ _ _ _ _ => rfl) hthere ?_ ?_ ?_
      · intro v p hp
        rw [pushing_of_storing hp] at hpush'
        cases hpush'
      · rintro v p rfl
        simp at hpush'
      · rcases hev with rfl | rfl | rfl <;> simp
      · rintro p v rfl
        simp at hpop'
      · rcases hev with rfl | rfl | rfl <;> simp
  | @claim v p hpc hp =>
      refine values_of hV (goto_self s t _) (fun u hu => goto_other s t _ hu) ?_ nofun
        (fun _ _ _ _ _ => rfl) hthere (by simp) nofun (by simp)
      intro v' p' hp'
      simp only [Pc.storing, Option.some.injEq, Prod.mk.injEq] at hp'
      obtain ⟨rfl, rfl⟩ := hp'
      simp
  | @write v p hpc =>
      obtain ⟨hseq, _⟩ := hP.pushing t p (by simp [hpc])
      have hclaimed := hV.storing t v p (by simp [hpc])
      refine values_of hV (goto_self _ t _) (fun u hu => goto_other _ t _ hu) ?_ ?_ ?_ ?_ (by simp)
        nofun (by simp)
      · intro v' p' hp'
        simp only [Pc.storing, Option.some.injEq, Prod.mk.injEq] at hp'
        obtain ⟨rfl, rfl⟩ := hp'
        exact List.mem_append_left _ hclaimed
      · intro v' p' hp'
        injection hp' with hv hp'
        subst hv hp'
        simp
      · intro u v' p' hu hu'
        rw [goto_data, data_setData, if_neg]
        intro hslot
        obtain ⟨hseq', _⟩ := hP.pushing u p' (by simp [hu'])
        have : p' = p := by
          unfold State.seq at hseq hseq'
          rw [← hseq', hslot, hseq]
        subst this
        exact hu (hP.onePush u t p' (by simp [hu']) (by simp [hpc]))
      · intro q hq
        rw [goto_seq, seq_setData] at hq
        rw [goto_data, data_setData, if_neg]
        · exact hthere q hq
        · intro hslot
          have : p = q + 1 := by
            unfold State.seq at hseq hq
            rw [← hq, hslot, hseq]
          exact ne_succ hN hslot.symm this
  | @publish v p hpc =>
      obtain ⟨hseq, _⟩ := hP.pushing t p (by simp [hpc])
      refine values_of hV (goto_self _ t _) (fun u hu => goto_other _ t _ hu) nofun nofun
        (fun u v' p' _ _ => by simp) ?_ ?_ nofun (by simp)
      · intro q hq
        rw [goto_seq, seq_setSeq] at hq
        rw [goto_data, data_setSeq]
        split at hq
        · have : q = p := by omega
          subst this
          exact ⟨v, hV.stored t v q hpc, by simp⟩
        · exact hthere q hq
      · intro q v' hq
        simp only [List.mem_singleton, Event.pushed.injEq] at hq
        obtain ⟨rfl, rfl⟩ := hq
        exact List.mem_append_left _ (hV.storing t v' q (by simp [hpc]))
  | @take p hpc hp =>
      exact values_of hV (goto_self s t _) (fun u hu => goto_other s t _ hu) nofun nofun
        (fun _ _ _ _ _ => rfl) hthere (by simp) nofun (by simp)
  | @read p hpc =>
      obtain ⟨hseq, _⟩ := hP.popping t p (by simp [hpc])
      refine values_of hV (goto_self s t _) (fun u hu => goto_other s t _ hu) nofun nofun
        (fun _ _ _ _ _ => rfl) hthere (by simp) ?_ ?_
      · intro p' v hp'
        injection hp' with hp' hv
        rw [← hp', ← hv]
        exact List.mem_append_right _ (List.mem_singleton_self _)
      · intro p' v hp'
        simp only [List.mem_singleton, Event.read.injEq] at hp'
        obtain ⟨rfl, rfl⟩ := hp'
        exact hthere p' hseq
  | @release p v hpc =>
      refine values_of hV (goto_self _ t _) (fun u hu => goto_other _ t _ hu) nofun nofun
        (fun u v' p' _ _ => by simp) ?_ (by simp) nofun (by simp)
      intro q hq
      rw [goto_seq, seq_setSeq] at hq
      rw [goto_data, data_setSeq]
      split at hq
      · rename_i hslot
        exact absurd hq (ne_succ hN ((slot_add hN).trans hslot.symm))
      · exact hthere q hq

theorem waiting_step (hN : Admits N) (hV : Values N es s) (hL : Laps N es s)
    (h : Steps N s t s' ev) {q : Nat} (hq : s'.seq N q = q) (hle : N ≤ q) :
    ∃ w, Event.read (q - N) w ∈ es := by
  cases h with
  | turn | claim | take | read => exact hL.waiting q hq hle
  | write => exact hL.waiting q (by simpa using hq) hle
  | publish hpc =>
      rw [goto_seq, seq_setSeq] at hq
      split at hq
      · rename_i hslot
        exact absurd hq.symm (ne_succ hN hslot)
      · exact hL.waiting q hq hle
  | @release p v hpc =>
      rw [goto_seq, seq_setSeq] at hq
      split at hq
      · -- the slot is free because its value has just been read
        rw [← hq, Nat.add_sub_cancel]
        exact ⟨v, hV.holding t p v hpc⟩
      · exact hL.waiting q hq hle

omit [DecidableEq τ] in
/-- Nobody is a lap past a position that is not finished. -/
theorem Phases.tail_le (hP : Phases N s) (hN : Admits N) {p : Nat} (hseq : s.seq N p = p) :
    s.tail ≤ p + N := by
  obtain ⟨p', hslot, hle, ⟨hp, _⟩ | ⟨hp, _⟩⟩ := hP.phase p
  · rw [hseq] at hp
    omega
  · rw [hseq] at hp
    exact absurd hp (ne_succ hN hslot.symm)

theorem wrote_step (hP : Phases N s) (hL : Laps N es s) (h : Steps N s t s' ev) {q : Nat} {w : α}
    (hq : Event.wrote q w ∈ es ++ ev) : q < s'.tail ∧ ∀ u x, s'.pc u ≠ .pushWrite x q := by
  -- the thread that moves is the only one that can have gone to a write
  have hothers : ∀ pc : Pc α, (∀ x, pc ≠ .pushWrite x q) →
      (∀ u x, u ≠ t → s.pc u ≠ .pushWrite x q) → ∀ s₁ : State τ α, s₁.pc = s.pc →
        ∀ u x, (s₁.goto t pc).pc u ≠ .pushWrite x q := by
    intro pc hpc hrest s₁ hs₁ u x
    by_cases hu : u = t
    · rw [hu, goto_self]
      exact hpc x
    · rw [goto_other s₁ t pc hu, hs₁]
      exact hrest u x hu
  have hold : Event.wrote q w ∈ es → q < s.tail ∧ ∀ u x, u ≠ t → s.pc u ≠ .pushWrite x q :=
    fun hq => ⟨(hL.wrote q w hq).1, fun u x _ => (hL.wrote q w hq).2 u x⟩
  cases h with
  | turn _ _ hpush' _ _ _ hev =>
      obtain ⟨hlt, hrest⟩ := hold (by rcases hev with rfl | rfl | rfl <;> simpa using hq)
      refine ⟨hlt, hothers _ ?_ hrest s rfl⟩
      rintro x rfl
      simp at hpush'
  | @claim v p hpc hp =>
      obtain ⟨hlt, hrest⟩ := hold (by simpa using hq)
      refine ⟨Nat.lt_succ_of_lt (hp ▸ hlt), hothers _ ?_ hrest s rfl⟩
      intro x hx
      injection hx with _ hx
      omega
  | @write v p hpc =>
      obtain ⟨_, hlt⟩ := hP.pushing t p (by simp [hpc])
      rcases List.mem_append.mp hq with hq | hq
      · obtain ⟨hlt, hrest⟩ := hold hq
        exact ⟨hlt, hothers _ (by simp) hrest _ rfl⟩
      · simp only [List.mem_singleton, Event.wrote.injEq] at hq
        rw [hq.1]
        refine ⟨hlt, hq.1 ▸ hothers _ (by simp) ?_ _ rfl⟩
        intro u x hu hx
        exact hu (hP.onePush u t p (by simp [hx, hq.1]) (by simp [hpc]))
  | publish | take | read | release =>
      obtain ⟨hlt, hrest⟩ := hold (by simpa using hq)
      exact ⟨hlt, hothers _ (by simp) hrest _ rfl⟩

theorem laps_step (hN : Admits N) (hP : Phases N s) (hV : Values N es s) (hL : Laps N es s)
    (h : Steps N s t s' ev) : Laps N (es ++ ev) s' := by
  have hread : ∀ {p : Nat}, (∃ w, Event.read p w ∈ es) → ∃ w, Event.read p w ∈ es ++ ev := by
    rintro p ⟨w, hw⟩
    exact ⟨w, List.mem_append_left _ hw⟩
  constructor
  case waiting => exact fun q hq hle => hread (waiting_step hN hV hL h hq hle)
  case claimed =>
      intro q hq
      cases h with
      | @claim v p hpc hp =>
          have hq : q + N < p + 1 := hq
          rcases Nat.lt_succ_iff_lt_or_eq.mp hq with hlt | heq
          · exact hread (hL.claimed q (by omega))
          · have hseq : s.seq N p = p := by
              rcases hP.free t v p hpc with h | h
              · exact h
              · omega
            have hold := hL.waiting p hseq (by omega)
            rw [← heq, Nat.add_sub_cancel] at hold
            exact hread hold
      | turn | write | publish | take | read | release => exact hread (hL.claimed q hq)
  case wrote => exact fun q w hq => wrote_step hP hL h hq
  case rewrote =>
      intro es₁ es₂ p v heq q w hq hslot
      rcases append_eq_append_cons heq with ⟨us, hes, _⟩ | ⟨us, rfl, hev⟩
      · exact hL.rewrote es₁ us p v hes q w hq hslot
      · have hmem : Event.wrote p v ∈ ev := by
          rw [hev]
          exact List.mem_append_right _ (List.mem_cons_self ..)
        -- the step is the write itself, so nothing of it comes before it
        have hus : us = [] ∧ s.pc t = .pushWrite v p := by
          cases h with
          | turn _ _ _ _ _ _ hev' => rcases hev' with rfl | rfl | rfl <;> simp at hmem
          | write hpc =>
              simp only [List.mem_singleton, Event.wrote.injEq] at hmem
              obtain ⟨rfl, rfl⟩ := hmem
              cases us with
              | nil => exact ⟨rfl, hpc⟩
              | cons u us => simp at hev
          | claim | publish | take | read | release => simp at hmem
        obtain ⟨rfl, hpc⟩ := hus
        rw [List.append_nil] at hq ⊢
        obtain ⟨hlt, hnot⟩ := hL.wrote q w hq
        obtain ⟨hseq, hlt'⟩ := hP.pushing t p (by simp [hpc])
        have hne : q ≠ p := by
          rintro rfl
          exact hnot t v hpc
        -- the one that was written before is the earlier one
        have hle := hP.tail_le hN hseq
        rcases Nat.lt_or_gt_of_ne hne with h | h
        · have := lap_le hN hslot.symm h
          exact hL.claimed q (by omega)
        · have := lap_le hN hslot h
          omega

theorem ends_step (hP : Phases N s) (hV : Values N es s) (hE : Ends es s)
    (h : Steps N s t s' ev) : Ends (es ++ ev) s' := by
  -- a position that is over is not won again
  have hover : ∀ p v, popped p v ∈ es → p < s'.head ∧ ∀ u, (s'.pc u).popping ≠ some p := by
    intro p v hp
    obtain ⟨hlt, hnone⟩ := hE.ended p v hp
    have hothers : ∀ pc : Pc α, pc.popping ≠ some p → ∀ s₁ : State τ α, s₁.pc = s.pc →
        ∀ u, ((s₁.goto t pc).pc u).popping ≠ some p := by
      intro pc hpc s₁ hs₁ u
      by_cases hu : u = t
      · rw [hu, goto_self]
        exact hpc
      · rw [goto_other s₁ t pc hu, hs₁]
        exact hnone u
    cases h with
    | turn _ _ _ hpop' _ _ _ => exact ⟨hlt, hothers _ (by rw [hpop']; nofun) s rfl⟩
    | claim => exact ⟨hlt, hothers _ (by simp) s rfl⟩
    | write => exact ⟨hlt, hothers _ (by simp) _ rfl⟩
    | publish => exact ⟨hlt, hothers _ (by simp) _ rfl⟩
    | take hpc hq => exact ⟨Nat.lt_succ_of_lt (hq ▸ hlt), hothers _ (by simp; omega) s rfl⟩
    | @read q hpc => exact ⟨hlt, hothers _ (by simpa [hpc] using hnone t) s rfl⟩
    | release => exact ⟨hlt, hothers _ (by simp) _ rfl⟩
  cases h with
  | @release p v hpc =>
      have hmine := hV.holding t p v hpc
      have hfresh : ∀ w, popped p w ∉ es := by
        intro w hw
        exact (hE.ended p w hw).2 t (by simp [hpc])
      constructor
      case read =>
          intro q w hq
          rcases List.mem_append.mp hq with hq | hq
          · exact List.mem_append_left _ (hE.read q w hq)
          · simp only [List.mem_singleton, Event.popped.injEq] at hq
            rw [hq.1, hq.2]
            exact List.mem_append_left _ hmine
      case ended =>
          intro q w hq
          rcases List.mem_append.mp hq with hq | hq
          · exact hover q w hq
          · simp only [List.mem_singleton, Event.popped.injEq] at hq
            rw [hq.1]
            refine ⟨(hP.popping t p (by simp [hpc])).2, fun u => ?_⟩
            by_cases hu : u = t
            · rw [hu, goto_self]
              simp
            · rw [goto_other _ t _ hu]
              exact fun hu' => hu (hP.onePop u t p hu' (by simp [hpc]))
      case once =>
          rw [List.filterMap_append, List.nodup_append]
          refine ⟨hE.once, by simp, ?_⟩
          intro q hq q' hq' heq
          simp only [List.filterMap_cons, Event.pop, List.filterMap_nil, List.mem_singleton] at hq'
          obtain ⟨e, he, hpop⟩ := List.mem_filterMap.mp hq
          cases e <;> simp only [Event.pop, Option.some.injEq, reduceCtorEq] at hpop
          rw [hpop, heq, hq'] at he
          exact hfresh _ he
  | turn _ _ _ _ _ _ hev =>
      rcases hev with rfl | rfl | rfl
      all_goals
        refine ⟨fun q w hq => ?_, fun q w hq => hover q w (by simpa using hq), ?_⟩
        · exact List.mem_append_left _ (hE.read q w (by simpa using hq))
        · simpa [List.filterMap_cons] using hE.once
  | claim | write | publish | take | read =>
      refine ⟨fun q w hq => ?_, fun q w hq => hover q w (by simpa using hq), ?_⟩
      · exact List.mem_append_left _ (hE.read q w (by simpa using hq))
      · simpa [List.filterMap_cons] using hE.once

end Steps

/-! ## Whole runs -/

structure Inv (N : Nat) (es : List (Event α)) (s : State τ α) : Prop where
  phases : Phases N s
  ordered : Ordered es s
  values : Values N es s
  laps : Laps N es s
  ends : Ends es s

theorem inv_init {N : Nat} (hN : Admits N) : Inv N [] (init : State τ α) := by
  constructor
  case phases => exact phases_init hN
  case ordered => exact ⟨rfl, rfl⟩
  case values =>
      constructor
      case there =>
          intro p hp
          have hslot : slot N p = p + 1 := hp
          have hself : slot N (slot N p) = slot N p := by
            rw [slot_eq_iff hN]
            unfold slot
            rw [land_pred_eq_mod (by have := hN.1; omega) hN.2, Nat.mod_mod]
          rw [hslot] at hself
          exact absurd rfl (ne_succ hN (hself.trans hslot.symm))
      all_goals simp [init]
  case laps =>
      constructor
      case waiting =>
          intro p hp hle
          have hslot : slot N p = p := hp
          unfold slot at hslot
          have := hN.1
          rw [land_pred_eq_mod (by omega) hN.2] at hslot
          have := Nat.mod_lt p (show 0 < N by omega)
          omega
      all_goals simp [init]
  case ends => exact ⟨by simp, by simp, by simp⟩

section Runs

variable [DecidableEq τ] {N : Nat} {s : State τ α} {es : List (Event α)}

theorem run_inv (hN : Admits N) (h : Run (step N) Any init es s) : Inv N es s := by
  refine Run.invariant (I := Inv N) (inv_init hN) ?_ h
  intro es ev s s' a hI _ hstep
  obtain ⟨t, ht⟩ := step_steps hstep
  obtain ⟨hP, hO, hV, hL, hE⟩ := hI
  exact ⟨phases_step hN hP ht, ordered_step hO ht, values_step hN hP hV ht,
    laps_step hN hP hV hL ht, ends_step hP hV hE ht⟩

/-- The positions that were won and whose values nobody has read. -/
def unconsumed (es : List (Event α)) : Set Nat :=
  {p | (∃ v, claimed p v ∈ es) ∧ ∀ w, Event.read p w ∉ es}

omit [DecidableEq τ] in
theorem Inv.unconsumed_le (hI : Inv N es s) : (unconsumed es).ncard ≤ N := by
  have hsub : unconsumed es ⊆ (Finset.Ico (s.tail - N) s.tail : Set Nat) := by
    rintro p ⟨⟨v, hv⟩, hnot⟩
    have hmem : p ∈ List.range s.tail := by
      rw [← hI.ordered.claims]
      exact List.mem_map.mpr ⟨(p, v), List.mem_filterMap.mpr ⟨_, hv, rfl⟩, rfl⟩
    have hlt := List.mem_range.mp hmem
    have hge : s.tail ≤ p + N := by
      by_contra hlt
      obtain ⟨w, hw⟩ := hI.laps.claimed p (by omega)
      exact hnot w hw
    simp only [Finset.coe_Ico, Set.mem_Ico]
    omega
  calc (unconsumed es).ncard
      ≤ (Finset.Ico (s.tail - N) s.tail : Set Nat).ncard :=
        Set.ncard_le_ncard hsub (Finset.finite_toSet _)
    _ = s.tail - (s.tail - N) := by rw [Set.ncard_coe_finset, Nat.card_Ico]
    _ ≤ N := by omega

omit [DecidableEq τ] in
theorem Inv.taken (hI : Inv N es s) {p : Nat} (hp : p < s.head) : taken p ∈ es := by
  have hmem : p ∈ es.filterMap Event.take := by
    rw [hI.ordered.takes]
    exact List.mem_range.mpr hp
  obtain ⟨e, he, htake⟩ := List.mem_filterMap.mp hmem
  cases e <;> simp only [Event.take, Option.some.injEq, reduceCtorEq] at htake
  rw [← htake]
  exact he

/-- **Exactly once, and in order.** Producers win the positions one after the other, and so
do consumers; a `pop` that succeeds returns what the `push` of its position stored; no
position is popped twice; a slot is not written again before its value has been read; and no
more than `N` values are in the queue. -/
theorem mpmcQueue_exactly_once (hN : Admits N) (h : Run (step N) Any init es s) :
    (es.filterMap Event.claim).map Prod.fst = List.range s.tail ∧
      es.filterMap Event.take = List.range s.head ∧
      (∀ p v, popped p v ∈ es → taken p ∈ es ∧
        ∃ w, v = some w ∧ pushed p w ∈ es ∧ claimed p w ∈ es) ∧
      (es.filterMap Event.pop).Nodup ∧
      (∀ es₁ es₂ p v, es = es₁ ++ wrote p v :: es₂ →
        ∀ q w, wrote q w ∈ es₁ → slot N q = slot N p → ∃ x, Event.read q x ∈ es₁) ∧
      (unconsumed es).ncard ≤ N := by
  have hI := run_inv hN h
  refine ⟨hI.ordered.claims, hI.ordered.takes, ?_, hI.ends.once, hI.laps.rewrote,
    hI.unconsumed_le⟩
  intro p v hp
  obtain ⟨w, hv, hpushed⟩ := hI.values.read p v (hI.ends.read p v hp)
  exact ⟨hI.taken (hI.ends.ended p v hp).1, w, hv, hpushed, hI.values.pushed p w hpushed⟩

end Runs

/-- Two threads and two slots. The first one fills the queue, and its third `push` finds no
place. The other takes a value and rests before it gives the slot back; only when it has done
so is the slot used again. -/
def lapSchedule : List (Action (Fin 2) Nat) :=
  [Action.push 0 7] ++ List.replicate 5 (Action.run 0 false) ++
  [Action.push 0 8] ++ List.replicate 5 (Action.run 0 false) ++
  [Action.pop 1] ++ List.replicate 4 (Action.run 1 false) ++
  [Action.push 0 9] ++ List.replicate 2 (Action.run 0 false) ++
  [Action.run 1 false, .push 0 9] ++ List.replicate 5 (Action.run 0 false)

theorem mpmcQueue_exactly_once_two :
    ∃ (es : List (Event Nat)) (s : State (Fin 2) Nat), Run (step 2) Any init es s ∧
      es = [claimed 0 7, wrote 0 7, pushed 0 7, claimed 1 8, wrote 1 8, pushed 1 8,
        taken 0, .read 0 (some 7), full, popped 0 (some 7),
        claimed 2 9, wrote 2 9, pushed 2 9] ∧
      (es.filterMap Event.pop).Nodup ∧ (unconsumed es).ncard ≤ 2 := by
  have h : Leads (step 2) Any (init : State (Fin 2) Nat) lapSchedule fun _ es => es =
      [claimed 0 7, wrote 0 7, pushed 0 7, claimed 1 8, wrote 1 8, pushed 1 8,
        taken 0, .read 0 (some 7), full, popped 0 (some 7),
        claimed 2 9, wrote 2 9, pushed 2 9] := by
    decide +kernel
  obtain ⟨s, es, hrun, hes⟩ := h.run
  obtain ⟨_, _, _, honce, _, hcard⟩ := mpmcQueue_exactly_once ⟨by decide, by decide⟩ hrun
  exact ⟨es, s, hrun, hes, honce, hcard⟩

end CrossMachine.Queue.Mpmc
