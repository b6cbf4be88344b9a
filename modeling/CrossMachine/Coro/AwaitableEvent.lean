import CrossMachine.Lib.Prefix
import CrossMachine.Lib.Run
import Mathlib.Logic.Function.Basic

/-!
# The event for coroutines

`AwaitableEvent` of `coro.h`, one atomic operation at a time. One word says everything: the
event is not set, or it is set, or it is not set and one coroutine waits, whose handle the word
is. A coroutine waits by exchanging its handle for "not set". If that fails it goes on, for then
the event has been set in between; so it is meant. But it fails as well when the word is the
handle of another coroutine, and then the second one goes on before anybody has set the event.

That is all that can go wrong: a run meets what the event promises if and only if no coroutine
tries to wait while another one does (`Alone`). The one whose handle was stored is resumed once.
-/

namespace CrossMachine.Coro.AwaitableEvent

open Lib

variable {τ : Type*}

/-- `state_`. Handles are addresses, and neither of the other two values is one. -/
inductive Word (τ : Type*) where
  | kNotSet
  | kSet
  | handle (t : τ)
  deriving DecidableEq, Repr

/-- What a coroutine, or whoever sets the event, does next. -/
inductive Pc (τ : Type*) where
  | idle
  /-- In `await_ready`, before the load. -/
  | ready
  /-- In `await_suspend`, before the exchange. -/
  | suspend
  | suspended
  /-- In `set`, before the exchange. -/
  | exchange (pool : Bool)
  /-- Before the coroutine that was waiting is resumed or scheduled. -/
  | wake (pool : Bool) (h : τ)
  deriving DecidableEq, Repr

structure State (τ : Type*) where
  word : Word τ
  pc : τ → Pc τ
  /-- Whom the pool is about to resume. -/
  queue : List τ

inductive Event (τ : Type*) where
  /-- It goes on without having been suspended. -/
  | passed (t : τ)
  | suspended (t : τ)
  | resumed (t : τ)
  | set (t : τ)
  /-- Something is resumed that is not suspended. -/
  | wild
  deriving DecidableEq, Repr

section Step

variable [DecidableEq τ]

def State.goto (s : State τ) (t : τ) (pc : Pc τ) : State τ :=
  { s with pc := Function.update s.pc t pc }

/-- `resume`. -/
def State.resume (s : State τ) (h : τ) : State τ × List (Event τ) :=
  match s.pc h with
  | .suspended => (s.goto h .idle, [.resumed h])
  | _ => (s, [.wild])

/-- One atomic operation. -/
def go (s : State τ) (t : τ) : Option (State τ × List (Event τ)) :=
  match s.pc t with
  | .idle => none
  | .ready =>
      if s.word = .kSet then some (s.goto t .idle, [.passed t])
      else some (s.goto t .suspend, [])
  | .suspend =>
      if s.word = .kNotSet then
        some ({ s.goto t .suspended with word := .handle t }, [.suspended t])
      else some (s.goto t .idle, [.passed t])
  | .suspended => none
  | .exchange pool =>
      match s.word with
      | .handle h => some ({ s.goto t (.wake pool h) with word := .kSet }, [.set t])
      | .kNotSet => some ({ s.goto t .idle with word := .kSet }, [.set t])
      | .kSet => some ({ s.goto t .idle with word := .kSet }, [.set t])
  | .wake pool h =>
      if pool then some ({ s.goto t .idle with queue := s.queue ++ [h] }, [])
      else some ((s.goto t .idle).resume h)

inductive Action (τ : Type*) where
  /-- `co_await`. -/
  | await (t : τ)
  | set (t : τ) (pool : Bool)
  | run (t : τ)
  /-- The pool resumes one of those it has. -/
  | dispatch (k : Nat)
  deriving DecidableEq, Repr

/-- Any interleaving of the coroutines and of whoever sets the event. -/
def step (s : State τ) : Action τ → Option (State τ × List (Event τ))
  | .await t => if s.pc t = .idle then some (s.goto t .ready, []) else none
  | .set t pool => if s.pc t = .idle then some (s.goto t (.exchange pool), []) else none
  | .run t => go s t
  | .dispatch k =>
      match s.queue[k]? with
      | none => none
      | some h => some ({ s with queue := s.queue.eraseIdx k }.resume h)

end Step

def init : State τ := { word := .kNotSet, pc := fun _ => .idle, queue := [] }

/-! ## What the event promises -/

/-- A coroutine goes on behind its `co_await`. -/
def Event.proceeds : Event τ → Prop
  | .passed _ => True
  | .resumed _ => True
  | _ => False

/-- Nobody goes on before the event is set. -/
def AfterSet (es : List (Event τ)) : Prop :=
  ∀ es₁ e es₂, es = es₁ ++ e :: es₂ → e.proceeds → ∃ u, Event.set u ∈ es₁

theorem afterSet_append {es ev : List (Event τ)} (hes : AfterSet es)
    (hev : ∀ e ∈ ev, e.proceeds → ∃ u, Event.set u ∈ es) : AfterSet (es ++ ev) := by
  intro es₁ e es₂ heq he
  rcases append_eq_append_cons heq with ⟨us, hes', -⟩ | ⟨us, rfl, hev'⟩
  · exact hes es₁ e us hes' he
  · obtain ⟨u, hu⟩ := hev e (by simp [hev']) he
    exact ⟨u, List.mem_append_left us hu⟩

theorem AfterSet.of_append {es ev : List (Event τ)} (h : AfterSet (es ++ ev)) : AfterSet es := by
  intro es₁ e es₂ heq he
  exact h es₁ e (es₂ ++ ev) (by rw [heq, List.append_assoc, List.cons_append]) he

/-- Somebody is to be resumed, by whoever has set the event or by the pool. -/
def State.onTheWay (s : State τ) : Prop := s.queue ≠ [] ∨ ∃ u pool h, s.pc u = .wake pool h

/-- Whoever was suspended is resumed once, and when the event is set nobody stays behind. -/
structure ResumedOnce [DecidableEq τ] (es : List (Event τ)) (s : State τ) : Prop where
  once : ∀ t, es.count (.suspended t) =
    es.count (.resumed t) + if s.pc t = .suspended then 1 else 0
  all : ∀ u, Event.set u ∈ es → ¬ s.onTheWay → ∀ t, s.pc t ≠ .suspended
  tame : Event.wild ∉ es

/-- Nobody tries to wait while somebody waits. -/
def Alone (s : State τ) : Action τ → Prop
  | .run t => s.pc t = .suspend → ∀ u, s.word ≠ .handle u
  | _ => True

/-! ## Where a handle is -/

/-- Neither suspended nor about to resume somebody. -/
def Pc.calm : Pc τ → Prop
  | .suspended => False
  | .wake _ _ => False
  | _ => True

/-- There is one handle at most: in the word, with whoever has set the event, or in the pool. -/
inductive Place (s : State τ) : Prop where
  | nowhere (hw : ∀ t, s.word ≠ .handle t) (hq : s.queue = []) (hcalm : ∀ u, (s.pc u).calm)
  | word (t : τ) (hw : s.word = .handle t) (hq : s.queue = []) (ht : s.pc t = .suspended)
      (hcalm : ∀ u, u ≠ t → (s.pc u).calm)
  | setter (x t : τ) (pool : Bool) (hw : s.word = .kSet) (hq : s.queue = [])
      (hx : s.pc x = .wake pool t) (ht : s.pc t = .suspended)
      (hcalm : ∀ u, u ≠ t → u ≠ x → (s.pc u).calm)
  | pool (t : τ) (hw : s.word = .kSet) (hq : s.queue = [t]) (ht : s.pc t = .suspended)
      (hcalm : ∀ u, u ≠ t → (s.pc u).calm)

theorem place_init : Place (init : State τ) := by
  refine .nowhere ?_ rfl ?_
  · simp [init]
  · simp [init, Pc.calm]

theorem Pc.calm.ne_suspended {pc : Pc τ} (h : pc.calm) : pc ≠ .suspended := by
  rintro rfl
  exact h

/-- Whoever is in the pool is the only one there. -/
theorem place_queued {s : State τ} (hP : Place s) {h : τ} {k : Nat} (hk : s.queue[k]? = some h) :
    s.word = .kSet ∧ s.queue.eraseIdx k = [] ∧ s.pc h = .suspended ∧
      ∀ u, u ≠ h → (s.pc u).calm := by
  cases hP with
  | nowhere hw hq hcalm => simp [hq] at hk
  | word v hw hq hv hcalm => simp [hq] at hk
  | setter x v pool hw hq hx hv hcalm => simp [hq] at hk
  | pool v hw hq hv hcalm =>
      have hk0 : k = 0 := by
        have hlt := lt_length_of_getElem? hk
        rw [hq, List.length_singleton] at hlt
        omega
      subst hk0
      rw [hq] at hk
      obtain rfl : v = h := by simpa using hk
      exact ⟨hw, by rw [hq]; rfl, hv, hcalm⟩

section Steps

variable [DecidableEq τ] {s s' : State τ} {t : τ} {pc : Pc τ} {ev es : List (Event τ)}

@[simp] theorem goto_self : (s.goto t pc).pc t = pc := Function.update_self ..

theorem goto_other {u : τ} (h : u ≠ t) : (s.goto t pc).pc u = s.pc u :=
  Function.update_of_ne h ..

theorem calm_goto {u : τ} (hpc : pc.calm) (hu : u ≠ t → (s.pc u).calm) :
    ((s.goto t pc).pc u).calm := by
  by_cases hut : u = t
  · rw [hut, goto_self]
    exact hpc
  · rw [goto_other hut]
    exact hu hut

/-- Somebody who has nothing to do with a handle goes on. -/
theorem place_goto (hP : Place s) (ht : (s.pc t).calm) (hpc : pc.calm) :
    Place (s.goto t pc) := by
  have hne : ∀ {u}, ¬ (s.pc u).calm → u ≠ t := by
    rintro u hu rfl
    exact hu ht
  cases hP with
  | nowhere hw hq hcalm => exact .nowhere hw hq fun u => calm_goto hpc fun _ => hcalm u
  | word v hw hq hv hcalm =>
      have hvt : v ≠ t := hne (by simp [hv, Pc.calm])
      exact .word v hw hq (by rw [goto_other hvt, hv]) fun u hu => calm_goto hpc fun _ => hcalm u hu
  | setter x v pool hw hq hx hv hcalm =>
      have hvt : v ≠ t := hne (by simp [hv, Pc.calm])
      have hxt : x ≠ t := hne (by simp [hx, Pc.calm])
      exact .setter x v pool hw hq (by rw [goto_other hxt, hx]) (by rw [goto_other hvt, hv])
        fun u hu hux => calm_goto hpc fun _ => hcalm u hu hux
  | pool v hw hq hv hcalm =>
      have hvt : v ≠ t := hne (by simp [hv, Pc.calm])
      exact .pool v hw hq (by rw [goto_other hvt, hv]) fun u hu => calm_goto hpc fun _ => hcalm u hu

/-- What a step can be. -/
inductive Steps (s : State τ) (a : Action τ) : State τ → List (Event τ) → Prop where
  /-- Nobody goes on behind its `co_await`. -/
  | turn {t : τ} {pc : Pc τ} (ht : (s.pc t).calm) (hpc : pc.calm) : Steps s a (s.goto t pc) []
  | pass {t : τ} (ht : (s.pc t).calm) (hw : s.word ≠ .kNotSet)
      (ha : s.word = .kSet ∨ a = .run t ∧ s.pc t = .suspend) :
      Steps s a (s.goto t .idle) [.passed t]
  | suspend {t : τ} (ht : s.pc t = .suspend) (hw : s.word = .kNotSet) :
      Steps s a { s.goto t .suspended with word := .handle t } [.suspended t]
  | set {t : τ} (ht : (s.pc t).calm) (hw : ∀ h, s.word ≠ .handle h) :
      Steps s a { s.goto t .idle with word := .kSet } [.set t]
  | claim {t h : τ} {pool : Bool} (ht : (s.pc t).calm) (hw : s.word = .handle h) :
      Steps s a { s.goto t (.wake pool h) with word := .kSet } [.set t]
  | schedule {t h : τ} {pool : Bool} (ht : s.pc t = .wake pool h) :
      Steps s a { s.goto t .idle with queue := s.queue ++ [h] } []
  | resume {t h : τ} {pool : Bool} (ht : s.pc t = .wake pool h) :
      Steps s a ((s.goto t .idle).resume h).1 ((s.goto t .idle).resume h).2
  | dispatch {h : τ} {k : Nat} (hk : s.queue[k]? = some h) :
      Steps s a ({ s with queue := s.queue.eraseIdx k }.resume h).1
        ({ s with queue := s.queue.eraseIdx k }.resume h).2

theorem step_steps {a : Action τ} (h : step s a = some (s', ev)) : Steps s a s' ev := by
  cases a with
  | await t =>
      simp only [step] at h
      split at h
      · rename_i ht
        obtain ⟨rfl, rfl⟩ := Prod.mk.inj (Option.some.inj h)
        exact .turn (by simp [ht, Pc.calm]) trivial
      · cases h
  | set t pool =>
      simp only [step] at h
      split at h
      · rename_i ht
        obtain ⟨rfl, rfl⟩ := Prod.mk.inj (Option.some.inj h)
        exact .turn (by simp [ht, Pc.calm]) trivial
      · cases h
  | dispatch k =>
      simp only [step] at h
      split at h
      · cases h
      · rename_i hk
        obtain ⟨rfl, rfl⟩ := Prod.mk.inj (Option.some.inj h)
        exact .dispatch hk
  | run t =>
      simp only [step] at h
      cases hpc : s.pc t <;> simp only [go, hpc] at h
      case idle | suspended => cases h
      case ready =>
        split at h
        · rename_i hw
          obtain ⟨rfl, rfl⟩ := Prod.mk.inj (Option.some.inj h)
          exact .pass (by simp [hpc, Pc.calm]) (by simp [hw]) (.inl hw)
        · obtain ⟨rfl, rfl⟩ := Prod.mk.inj (Option.some.inj h)
          exact .turn (by simp [hpc, Pc.calm]) trivial
      case suspend =>
        split at h
        · rename_i hw
          obtain ⟨rfl, rfl⟩ := Prod.mk.inj (Option.some.inj h)
          exact .suspend hpc hw
        · rename_i hw
          obtain ⟨rfl, rfl⟩ := Prod.mk.inj (Option.some.inj h)
          exact .pass (by simp [hpc, Pc.calm]) hw (.inr ⟨rfl, hpc⟩)
      case exchange pool =>
        split at h
        · rename_i hw
          obtain ⟨rfl, rfl⟩ := Prod.mk.inj (Option.some.inj h)
          exact .claim (by simp [hpc, Pc.calm]) hw
        · rename_i hw
          obtain ⟨rfl, rfl⟩ := Prod.mk.inj (Option.some.inj h)
          exact .set (by simp [hpc, Pc.calm]) (by simp [hw])
        · rename_i hw
          obtain ⟨rfl, rfl⟩ := Prod.mk.inj (Option.some.inj h)
          exact .set (by simp [hpc, Pc.calm]) (by simp [hw])
      case wake pool h' =>
        split at h
        · obtain ⟨rfl, rfl⟩ := Prod.mk.inj (Option.some.inj h)
          exact .schedule hpc
        · obtain ⟨rfl, rfl⟩ := Prod.mk.inj (Option.some.inj h)
          exact .resume hpc

theorem suspended_goto (ht : s.pc t ≠ .suspended) (hpc : pc ≠ .suspended) (u : τ) :
    (s.goto t pc).pc u = .suspended ↔ s.pc u = .suspended := by
  by_cases hut : u = t
  · rw [hut, goto_self]
    simp only [ht, hpc]
  · rw [goto_other hut]

theorem resume_of_suspended {h : τ} (hh : s.pc h = .suspended) :
    s.resume h = (s.goto h .idle, [.resumed h]) := by
  rw [State.resume, hh]

/-- Whoever is about to resume somebody is the only one. -/
theorem place_wake (hP : Place s) {pool : Bool} {h : τ} (ht : s.pc t = .wake pool h) :
    s.word = .kSet ∧ s.queue = [] ∧ s.pc h = .suspended ∧ h ≠ t ∧
      ∀ u, u ≠ h → u ≠ t → (s.pc u).calm := by
  cases hP with
  | nowhere hw hq hcalm => exact absurd (hcalm t) (by simp [ht, Pc.calm])
  | word v hw hq hv hcalm =>
      have hvt : t ≠ v := by
        rintro rfl
        simp [hv] at ht
      exact absurd (hcalm t hvt) (by simp [ht, Pc.calm])
  | pool v hw hq hv hcalm =>
      have hvt : t ≠ v := by
        rintro rfl
        simp [hv] at ht
      exact absurd (hcalm t hvt) (by simp [ht, Pc.calm])
  | setter x v pool' hw hq hx hv hcalm =>
      have hvt : t ≠ v := by
        rintro rfl
        simp [hv] at ht
      have htx : t = x := by
        by_contra hne
        exact absurd (hcalm t hvt hne) (by simp [ht, Pc.calm])
      subst htx
      obtain ⟨-, rfl⟩ := Pc.wake.inj (hx.symm.trans ht)
      exact ⟨hw, hq, hv, fun heq => hvt heq.symm, hcalm⟩

/-- `resume` on the only handle there is. -/
theorem place_resume {h : τ} (hw : s.word = .kSet) (hq : s.queue = [])
    (hcalm : ∀ u, u ≠ h → (s.pc u).calm) : Place (s.goto h .idle) :=
  .nowhere (fun v => by simp [State.goto, hw]) hq fun u => calm_goto trivial (hcalm u)

theorem place_step {a : Action τ} (hP : Place s) (h : Steps s a s' ev) : Place s' := by
  cases h with
  | turn ht hpc => exact place_goto hP ht hpc
  | pass ht hw ha => exact place_goto hP ht trivial
  | suspend ht hw =>
      rename_i t
      cases hP with
      | nowhere hw' hq hcalm =>
          refine .word t rfl hq goto_self fun u hu => ?_
          rw [show ({ s.goto t .suspended with word := .handle t } : State τ).pc u =
            (s.goto t .suspended).pc u from rfl, goto_other hu]
          exact hcalm u
      | word v hw' => simp [hw'] at hw
      | setter x v pool hw' => simp [hw'] at hw
      | pool v hw' => simp [hw'] at hw
  | set ht hw =>
      -- nobody's handle is in the word, so it is where it was
      have hP' : Place (s.goto _ .idle) := place_goto hP ht trivial
      cases hP' with
      | nowhere hw' hq hcalm => exact .nowhere (by simp) hq hcalm
      | word v hw' => exact absurd hw' (hw v)
      | setter x v pool hw' hq hx hv hcalm => exact .setter x v pool rfl hq hx hv hcalm
      | pool v hw' hq hv hcalm => exact .pool v rfl hq hv hcalm
  | claim ht hw =>
      rename_i t h pool
      cases hP with
      | nowhere hw' => exact absurd hw (hw' h)
      | setter x v pool' hw' => simp [hw'] at hw
      | pool v hw' => simp [hw'] at hw
      | word v hw' hq hv hcalm =>
          obtain rfl : v = h := Word.handle.inj (hw'.symm.trans hw)
          have hvt : v ≠ t := by
            rintro rfl
            simp [hv, Pc.calm] at ht
          refine .setter t v pool rfl hq goto_self ((goto_other hvt).trans hv) fun u hu hut => ?_
          exact (congrArg Pc.calm (goto_other hut)).mpr (hcalm u hu)
  | schedule ht =>
      rename_i t h pool
      obtain ⟨hw, hq, hh, hht, hcalm⟩ := place_wake hP ht
      refine .pool h hw ?_ ((goto_other hht).trans hh) fun u hu => ?_
      · rw [hq, List.nil_append]
      · exact calm_goto trivial fun hut => hcalm u hu hut
  | resume ht =>
      rename_i t h pool
      obtain ⟨hw, hq, hh, hht, hcalm⟩ := place_wake hP ht
      rw [resume_of_suspended ((goto_other hht).trans hh)]
      exact place_resume hw hq fun u hu => calm_goto trivial fun hut => hcalm u hu hut
  | dispatch hk =>
      rename_i h k
      obtain ⟨hw, hq, hh, hcalm⟩ := place_queued hP hk
      rw [resume_of_suspended (s := { s with queue := s.queue.eraseIdx k }) hh]
      exact place_resume hw hq hcalm

/-! ## What has been seen -/

/-- The events tell where everybody is. -/
structure Inv (es : List (Event τ)) (s : State τ) : Prop where
  place : Place s
  known : s.word = .kSet ↔ ∃ u, Event.set u ∈ es
  once : ∀ t, es.count (.suspended t) =
    es.count (.resumed t) + if s.pc t = .suspended then 1 else 0
  tame : Event.wild ∉ es

theorem inv_init : Inv [] (init : State τ) where
  place := place_init
  known := by simp [init]
  once := by simp [init]
  tame := by simp

/-- Nobody has suspended, or been resumed. -/
theorem once_of_same (honce : ∀ t, es.count (Event.suspended t) =
      es.count (.resumed t) + if s.pc t = .suspended then 1 else 0)
    (hsame : ∀ u, s'.pc u = .suspended ↔ s.pc u = .suspended)
    (hs : ∀ u, Event.suspended u ∉ ev) (hr : ∀ u, Event.resumed u ∉ ev) (u : τ) :
    (es ++ ev).count (Event.suspended u) =
      (es ++ ev).count (.resumed u) + if s'.pc u = .suspended then 1 else 0 := by
  rw [List.count_append, List.count_append, List.count_eq_zero_of_not_mem (hs u),
    List.count_eq_zero_of_not_mem (hr u)]
  simp only [hsame, Nat.add_zero]
  exact honce u

/-- The one that was suspended is resumed. -/
theorem once_resume {h : τ} (honce : ∀ t, es.count (Event.suspended t) =
      es.count (.resumed t) + if s.pc t = .suspended then 1 else 0)
    (hh : s.pc h = .suspended) (u : τ) :
    (es ++ [Event.resumed h]).count (.suspended u) =
      (es ++ [Event.resumed h]).count (.resumed u) +
        if (s.goto h .idle).pc u = .suspended then 1 else 0 := by
  have hu := honce u
  by_cases huh : u = h
  · subst huh
    rw [if_pos hh] at hu
    simp [hu]
  · rw [goto_other huh]
    simp [hu, Ne.symm huh]

theorem inv_step {a : Action τ} (hI : Inv es s) (h : Steps s a s' ev) : Inv (es ++ ev) s' := by
  have hP := place_step hI.place h
  cases h with
  | turn ht hpc =>
      refine ⟨hP, by simpa [State.goto] using hI.known, ?_, by simpa using hI.tame⟩
      exact once_of_same hI.once (suspended_goto ht.ne_suspended hpc.ne_suspended)
        (by simp) (by simp)
  | pass ht hw ha =>
      refine ⟨hP, by simpa [State.goto] using hI.known, ?_, by simpa using hI.tame⟩
      exact once_of_same hI.once (suspended_goto ht.ne_suspended (by simp)) (by simp) (by simp)
  | suspend ht hw =>
      rename_i t
      refine ⟨hP, ?_, fun u => ?_, by simpa using hI.tame⟩
      · have hnot : ¬ ∃ u, Event.set u ∈ es := fun hset => by
          simpa [hw] using hI.known.mpr hset
        simpa using hnot
      · have hu := hI.once u
        by_cases hut : u = t
        · subst hut
          simp [ht] at hu
          simp [hu, State.goto]
        · rw [show ({ s.goto t .suspended with word := .handle t } : State τ).pc u =
            (s.goto t .suspended).pc u from rfl, goto_other hut]
          simp [hu, Ne.symm hut]
  | set ht hw =>
      refine ⟨hP, by simp, ?_, by simpa using hI.tame⟩
      exact once_of_same hI.once (suspended_goto ht.ne_suspended (by simp)) (by simp) (by simp)
  | claim ht hw =>
      refine ⟨hP, by simp, ?_, by simpa using hI.tame⟩
      exact once_of_same hI.once (suspended_goto ht.ne_suspended (by simp)) (by simp) (by simp)
  | schedule ht =>
      refine ⟨hP, by simpa [State.goto] using hI.known, ?_, by simpa using hI.tame⟩
      exact once_of_same hI.once (suspended_goto (by simp [ht]) (by simp)) (by simp) (by simp)
  | resume ht =>
      rename_i t h pool
      obtain ⟨hw, hq, hh, hht, hcalm⟩ := place_wake hI.place ht
      have hh' : (s.goto t .idle).pc h = .suspended := (goto_other hht).trans hh
      rw [resume_of_suspended hh'] at hP ⊢
      refine ⟨hP, by simpa [State.goto] using hI.known, ?_, by simpa using hI.tame⟩
      refine once_resume (fun u => ?_) hh'
      have hstay : (s.goto t .idle).pc u = .suspended ↔ s.pc u = .suspended :=
        suspended_goto (by simp [ht]) (by simp) u
      rw [hI.once u]
      simp only [hstay]
  | dispatch hk =>
      rename_i h k
      obtain ⟨hw, hq, hh, hcalm⟩ := place_queued hI.place hk
      rw [resume_of_suspended (s := { s with queue := s.queue.eraseIdx k }) hh] at hP ⊢
      exact ⟨hP, by simpa [State.goto] using hI.known, once_resume hI.once hh,
        by simpa using hI.tame⟩

/-! ## Runs -/

theorem inv_run {ok : State τ → Action τ → Prop} (h : Run step ok init es s) : Inv es s :=
  h.invariant inv_init fun hI _ hs => inv_step hI (step_steps hs)

/-- What happens between the coroutines and the event, whatever they do, is that everybody who
was suspended is resumed once. -/
theorem Inv.resumedOnce (hI : Inv es s) : ResumedOnce es s where
  once := hI.once
  tame := hI.tame
  all := by
    intro u hset hway t ht
    have hw : s.word = .kSet := hI.known.mpr ⟨u, hset⟩
    have hcalm : ¬ (s.pc t).calm := by simp [ht, Pc.calm]
    cases hI.place with
    | nowhere _ _ hall => exact hcalm (hall t)
    | word v hw' => simp [hw'] at hw
    | setter x v pool _ _ hx => exact hway (.inr ⟨x, pool, v, hx⟩)
    | pool v _ hq => exact hway (.inl (by simp [hq]))

/-- Whoever goes on in a step in which nobody tries to wait for a second time goes on because the
event is set. -/
theorem set_of_proceeds {a : Action τ} (hI : Inv es s) (ha : Alone s a) (h : Steps s a s' ev)
    {e : Event τ} (he : e ∈ ev) (hp : e.proceeds) : ∃ u, Event.set u ∈ es := by
  refine hI.known.mp ?_
  cases h with
  | turn ht hpc => simp at he
  | pass ht hw hor =>
      rcases hor with hset | ⟨rfl, hpc⟩
      · exact hset
      · have hno := ha hpc
        cases hword : s.word with
        | kNotSet => exact absurd hword hw
        | kSet => rfl
        | handle u => exact absurd hword (hno u)
  | suspend ht hw =>
      rw [List.mem_singleton.mp he] at hp
      exact hp.elim
  | set ht hw =>
      rw [List.mem_singleton.mp he] at hp
      exact hp.elim
  | claim ht hw =>
      rw [List.mem_singleton.mp he] at hp
      exact hp.elim
  | schedule ht => simp at he
  | resume ht => exact (place_wake hI.place ht).1
  | dispatch hk => exact (place_queued hI.place hk).1

theorem afterSet_run (h : Run step Alone init es s) : AfterSet es := by
  induction h with
  | refl => exact fun es₁ e es₂ heq => by simp at heq
  | tail h' ha hs ih =>
      exact afterSet_append ih fun e he hp =>
        set_of_proceeds (inv_run h') ha (step_steps hs) he hp

/-- Whoever tries to wait while somebody else does goes on at once. -/
theorem alone_of_afterSet {a : Action τ} (hI : Inv es s) (hs : step s a = some (s', ev))
    (h : AfterSet (es ++ ev)) : Alone s a := by
  cases a with
  | await t => trivial
  | set t pool => trivial
  | dispatch k => trivial
  | run t =>
      intro hpc u hw
      simp only [step, go, hpc, hw, reduceCtorEq, if_false, Option.some.injEq,
        Prod.mk.injEq] at hs
      obtain ⟨v, hv⟩ := h es (.passed t) [] (by rw [hs.2]) trivial
      have hset : s.word = .kSet := hI.known.mpr ⟨v, hv⟩
      rw [hw] at hset
      cases hset

/-- A run of any number of coroutines with whoever sets the event: nobody goes on behind a
`co_await` before the event is set and everybody who was suspended is resumed once, if and only
if in no step somebody tried to wait while somebody else was waiting. -/
theorem awaited_iff_alone :
    Run step Any init es s ∧ AfterSet es ∧ ResumedOnce es s ↔ Run step Alone init es s := by
  constructor
  · rintro ⟨h, hset, -⟩
    induction h with
    | refl => exact .refl
    | tail h' _ hs ih =>
        exact .tail (ih hset.of_append) (alone_of_afterSet (inv_run h') hs hset) hs
  · intro h
    exact ⟨h.any, afterSet_run h, (inv_run h).resumedOnce⟩

end Steps

/-- Two coroutines wait; the second one goes on, and nobody has set the event. -/
theorem second_passes :
    ∃ (es : List (Event (Fin 2))) (s : State (Fin 2)),
      Run step Any init es s ∧ ¬ AfterSet es := by
  have hleads : Leads step Any (init : State (Fin 2))
      [.await 0, .run 0, .run 0, .await 1, .run 1, .run 1]
      fun _ es => es = [.suspended 0, .passed 1] := by decide
  obtain ⟨s, es, hrun, rfl⟩ := hleads.run
  refine ⟨_, s, hrun, fun h => ?_⟩
  obtain ⟨u, hu⟩ := h [.suspended 0] (.passed 1) [] rfl trivial
  simp at hu

end CrossMachine.Coro.AwaitableEvent
