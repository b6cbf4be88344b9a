import CrossMachine.Lib.Linearizable
import Mathlib.Data.List.Nodup
import Mathlib.Data.List.Perm.Subperm

/-!
# Keeping the books of a concurrent object

How a linearization is built when threads take turns. To somebody who keeps the books a
thread is in an operation, and has got so far with it (`Status`): nothing is decided, or it
has looked, or it has taken effect. A step of a thread is a `Turn` if it changes the object
and what the thread has got to in one of five ways. The `Ledger` is what can be kept true
from turn to turn, and it holds a linearization at every moment (`Ledger.turn`).

An implementation that shows each of its steps to be a turn is therefore linearizable, and
nothing about histories has to be said there.

The last section counts: what was answered is among what is in the order, and that is among
what was asked for.
-/

namespace CrossMachine.Lib

open HistoryEvent

variable {τ σ ο ρ : Type*}

/-- How far a thread is with its operation. -/
inductive Phase (ρ : Type*) where
  | quiet
  /-- Nothing is decided. -/
  | pending
  /-- At some point since the operation began `r` was the right answer. -/
  | looked (r : ρ)
  /-- The operation has taken effect. -/
  | done (r : ρ)
  deriving DecidableEq, Repr

structure Status (ο ρ : Type*) where
  id : Nat
  op : ο
  phase : Phase ρ

/-- A step of a thread, to somebody who keeps the books. -/
inductive Turn (spec : σ → ο → σ × ρ) (clock clock' : Nat) (s s' : σ) (c c' : Status ο ρ) :
    List (HistoryEvent ο ρ) → Prop where
  /-- Nothing happens, but that a look may turn out to have been in vain. -/
  | silent (hs : s' = s) (hclock : clock ≤ clock') (hid : c'.id = c.id) (hop : c'.op = c.op)
      (hphase : c'.phase = c.phase ∨ ∃ r, c.phase = .looked r ∧ c'.phase = .pending) :
      Turn spec clock clock' s s' c c' []
  | looks {r : ρ} (hs : s' = s) (hclock : clock ≤ clock') (hid : c'.id = c.id)
      (hop : c'.op = c.op) (hphase : c.phase = .pending) (hphase' : c'.phase = .looked r)
      (hspec : spec s c.op = (s, r)) : Turn spec clock clock' s s' c c' []
  | commits {r : ρ} (hclock : clock ≤ clock') (hid : c'.id = c.id) (hop : c'.op = c.op)
      (hphase : c.phase = .pending) (hphase' : c'.phase = .done r)
      (hspec : spec s c.op = (s', r)) : Turn spec clock clock' s s' c c' []
  | invokes (hs : s' = s) (hclock : clock' = clock + 1) (hid : c'.id = clock)
      (hphase : c.phase = .quiet) (hphase' : c'.phase = .pending) :
      Turn spec clock clock' s s' c c' [inv clock c'.op]
  | returns {r : ρ} (hs : s' = s) (hclock : clock ≤ clock')
      (hphase : c.phase = .done r ∨ c.phase = .looked r) (hphase' : c'.phase = .quiet) :
      Turn spec clock clock' s s' c c' [ret c.id r]

/-! ## Histories -/

/-- Whether an event is an invocation or a response, and of what. -/
def HistoryEvent.label : HistoryEvent ο ρ → Bool × Nat
  | .inv i _ => (false, i)
  | .ret i _ => (true, i)

/-- No operation is invoked twice or returns twice, and none returns that was not invoked. -/
structure WellFormed (h : List (HistoryEvent ο ρ)) : Prop where
  nodup : (h.map HistoryEvent.label).Nodup
  invoked : ∀ h₁ h₂ i r, h = h₁ ++ ret i r :: h₂ → ∃ o, inv i o ∈ h₁

theorem WellFormed.snoc {h : List (HistoryEvent ο ρ)} (hw : WellFormed h) {e : HistoryEvent ο ρ}
    (hnew : ∀ e' ∈ h, e'.label ≠ e.label) (hret : ∀ i r, e = ret i r → ∃ o, inv i o ∈ h) :
    WellFormed (h ++ [e]) := by
  constructor
  case nodup =>
      rw [List.map_append, List.nodup_append]
      refine ⟨hw.nodup, by simp, ?_⟩
      intro l hl l' hl'
      obtain ⟨e', he', rfl⟩ := List.mem_map.mp hl
      simp only [List.map_cons, List.map_nil, List.mem_singleton] at hl'
      rw [hl']
      exact hnew e' he'
  case invoked =>
      intro h₁ h₂ i r heq
      rcases List.eq_nil_or_concat h₂ with rfl | ⟨h₂', e', rfl⟩
      · obtain ⟨hh, he⟩ := List.append_inj' heq rfl
        injection he with he
        rw [← hh]
        exact hret i r he
      · rw [List.concat_eq_append, ← List.cons_append, ← List.append_assoc] at heq
        obtain ⟨hh, _⟩ := List.append_inj' heq rfl
        exact hw.invoked h₁ h₂' i r hh

/-! ## What is kept -/

/-- What the books say of a thread that is in an operation. -/
structure Booked (spec : σ → ο → σ × ρ) (s₀ : σ) (h : List (HistoryEvent ο ρ))
    (ds : List (Done ο ρ)) (c : Status ο ρ) : Prop where
  invoked : inv c.id c.op ∈ h
  unanswered : ∀ r, ret c.id r ∉ h
  undecided : (∀ r, c.phase ≠ .done r) → ∀ d ∈ ds, d.id ≠ c.id
  decided : ∀ r, c.phase = .done r → (⟨c.id, c.op, r⟩ : Done ο ρ) ∈ ds
  looked : ∀ r, c.phase = .looked r → Glimpse spec s₀ h ds c.id c.op r

structure Ledger (spec : σ → ο → σ × ρ) (s₀ : σ) (h : List (HistoryEvent ο ρ))
    (ds : List (Done ο ρ)) (s : σ) (clock : Nat) (st : τ → Status ο ρ) : Prop where
  order : Linearization spec s₀ h ds s
  wellFormed : WellFormed h
  numbered : ∀ i o, inv i o ∈ h → i < clock
  booked : ∀ t, (st t).phase ≠ .quiet → Booked spec s₀ h ds (st t)
  apart : ∀ t u, (st t).phase ≠ .quiet → (st u).phase ≠ .quiet → (st t).id = (st u).id → t = u

section Turns

variable {spec : σ → ο → σ × ρ} {s₀ s s' : σ} {h : List (HistoryEvent ο ρ)}
  {ds : List (Done ο ρ)} {c c' : Status ο ρ} {clock clock' : Nat} {st st' : τ → Status ο ρ} {t : τ}

theorem Ledger.nil (spec : σ → ο → σ × ρ) (s₀ : σ) (clock : Nat) (st : τ → Status ο ρ)
    (hst : ∀ t, (st t).phase = .quiet) : Ledger spec s₀ [] [] s₀ clock st := by
  constructor
  case order => exact .nil spec s₀
  case wellFormed => exact ⟨List.nodup_nil, fun h₁ h₂ i r heq => absurd heq (by simp)⟩
  case numbered => exact fun i o ho => absurd ho List.not_mem_nil
  case booked => exact fun t ht => absurd (hst t) ht
  case apart => exact fun t u ht => absurd (hst t) ht

/-! ### Threads that wait -/

/-- Something happens that is not about this thread's operation. -/
theorem Booked.event (hb : Booked spec s₀ h ds c) {e : HistoryEvent ο ρ}
    (hinv : ∀ o, e ≠ inv c.id o) (hret : ∀ r, e ≠ ret c.id r) :
    Booked spec s₀ (h ++ [e]) ds c := by
  constructor
  case invoked => exact List.mem_append_left _ hb.invoked
  case unanswered =>
      intro r hr
      rcases List.mem_append.mp hr with hr | hr
      · exact hb.unanswered r hr
      · exact hret r (List.mem_singleton.mp hr).symm
  case undecided => exact hb.undecided
  case decided => exact hb.decided
  case looked => exact fun r hr => (hb.looked r hr).event hinv

/-- Another operation is put in its place. -/
theorem Booked.grow (hb : Booked spec s₀ h ds c) {ds' : List (Done ο ρ)} {d : Done ο ρ}
    (hmem : ∀ d', d' ∈ ds' ↔ d' = d ∨ d' ∈ ds) (hid : d.id ≠ c.id)
    (hglimpse : ∀ i o r, Glimpse spec s₀ h ds i o r → Glimpse spec s₀ h ds' i o r) :
    Booked spec s₀ h ds' c := by
  constructor
  case invoked => exact hb.invoked
  case unanswered => exact hb.unanswered
  case undecided =>
      intro hphase d' hd'
      rcases (hmem d').mp hd' with rfl | hd'
      · exact hid
      · exact hb.undecided hphase d' hd'
  case decided => exact fun r hr => (hmem _).mpr (.inr (hb.decided r hr))
  case looked => exact fun r hr => hglimpse _ _ _ (hb.looked r hr)

/-- What has to be shown of a turn of thread `t` in which it stays in its operation. -/
theorem Ledger.stay (hL : Ledger spec s₀ h ds s clock st)
    (hother : ∀ u, u ≠ t → st' u = st u) (hclock : clock ≤ clock') (hid : (st' t).id = (st t).id)
    (hquiet : (st' t).phase ≠ .quiet → (st t).phase ≠ .quiet) {ds' : List (Done ο ρ)}
    (horder : Linearization spec s₀ h ds' s')
    (hmine : (st' t).phase ≠ .quiet → Booked spec s₀ h ds' (st' t))
    (hrest : ∀ u, u ≠ t → (st u).phase ≠ .quiet → Booked spec s₀ h ds' (st u)) :
    Ledger spec s₀ h ds' s' clock' st' := by
  have hold : ∀ u, (st' u).phase ≠ .quiet → (st u).phase ≠ .quiet ∧ (st' u).id = (st u).id := by
    intro u hu
    by_cases hut : u = t
    · subst hut
      exact ⟨hquiet hu, hid⟩
    · rw [hother u hut] at hu ⊢
      exact ⟨hu, rfl⟩
  constructor
  case order => exact horder
  case wellFormed => exact hL.wellFormed
  case numbered => exact fun i o ho => Nat.lt_of_lt_of_le (hL.numbered i o ho) hclock
  case booked =>
      intro u hu
      by_cases hut : u = t
      · subst hut
        exact hmine hu
      · rw [hother u hut] at hu ⊢
        exact hrest u hut hu
  case apart =>
      intro u w hu hw heq
      obtain ⟨hu', hidu⟩ := hold u hu
      obtain ⟨hw', hidw⟩ := hold w hw
      exact hL.apart u w hu' hw' (by rw [← hidu, ← hidw, heq])

/-! ### The turns -/

theorem Ledger.silent (hL : Ledger spec s₀ h ds s clock st)
    (hother : ∀ u, u ≠ t → st' u = st u) (hclock : clock ≤ clock') (hid : (st' t).id = (st t).id)
    (hop : (st' t).op = (st t).op)
    (hphase : (st' t).phase = (st t).phase ∨
      ∃ r, (st t).phase = .looked r ∧ (st' t).phase = .pending) :
    Ledger spec s₀ h ds s clock' st' := by
  rcases hphase with hphase | ⟨r, hphase, hphase'⟩
  · have hsame : st' t = st t := by
      cases hst : st t
      cases hst' : st' t
      simp only [hst, hst'] at hid hop hphase
      rw [hid, hop, hphase]
    refine hL.stay hother hclock hid (by rw [hphase]; exact id) hL.order ?_
      fun u _ hu => hL.booked u hu
    intro ht
    rw [hsame] at ht ⊢
    exact hL.booked t ht
  · have ht : (st t).phase ≠ .quiet := by simp [hphase]
    have hb := hL.booked t ht
    refine hL.stay hother hclock hid (fun _ => ht) hL.order (fun _ => ?_)
      fun u _ hu => hL.booked u hu
    constructor
    case invoked =>
        rw [hid, hop]
        exact hb.invoked
    case unanswered =>
        rw [hid]
        exact hb.unanswered
    case undecided =>
        intro _
        rw [hid]
        exact hb.undecided (by simp [hphase])
    case decided => simp [hphase']
    case looked => simp [hphase']

theorem Ledger.looks (hL : Ledger spec s₀ h ds s clock st)
    (hother : ∀ u, u ≠ t → st' u = st u) (hclock : clock ≤ clock') (hid : (st' t).id = (st t).id)
    (hop : (st' t).op = (st t).op) {r : ρ} (hphase : (st t).phase = .pending)
    (hphase' : (st' t).phase = .looked r) (hspec : spec s (st t).op = (s, r)) :
    Ledger spec s₀ h ds s clock' st' := by
  have ht : (st t).phase ≠ .quiet := by simp [hphase]
  have hb := hL.booked t ht
  refine hL.stay hother hclock hid (fun _ => ht) hL.order (fun _ => ?_) fun u _ hu => hL.booked u hu
  constructor
  case invoked =>
      rw [hid, hop]
      exact hb.invoked
  case unanswered =>
      rw [hid]
      exact hb.unanswered
  case undecided =>
      intro _
      rw [hid]
      exact hb.undecided (by simp [hphase])
  case decided => simp [hphase']
  case looked =>
      intro r' hr
      have hrr : r = r' := by
        rw [hphase'] at hr
        injection hr
      subst hrr
      rw [hid, hop]
      exact hL.order.glimpse hspec

theorem Ledger.commits (hL : Ledger spec s₀ h ds s clock st)
    (hother : ∀ u, u ≠ t → st' u = st u) (hclock : clock ≤ clock') (hid : (st' t).id = (st t).id)
    (hop : (st' t).op = (st t).op) {r : ρ} (hphase : (st t).phase = .pending)
    (hphase' : (st' t).phase = .done r) (hspec : spec s (st t).op = (s', r)) :
    Ledger spec s₀ h (ds ++ [⟨(st t).id, (st t).op, r⟩]) s' clock' st' := by
  have ht : (st t).phase ≠ .quiet := by simp [hphase]
  have hb := hL.booked t ht
  have hnew := hb.undecided (by simp [hphase])
  refine hL.stay hother hclock hid (fun _ => ht) (hL.order.commit hb.invoked hnew hspec)
    (fun _ => ?_) fun u hut hu => ?_
  · constructor
    case invoked =>
        rw [hid, hop]
        exact hb.invoked
    case unanswered =>
        rw [hid]
        exact hb.unanswered
    case undecided => exact fun hnot => absurd hphase' (hnot r)
    case decided =>
        intro r' hr
        rw [hphase'] at hr
        injection hr with hr
        rw [hid, hop, hr]
        exact List.mem_append_right _ (List.mem_singleton_self _)
    case looked => simp [hphase']
  · refine (hL.booked u hu).grow (d := ⟨(st t).id, (st t).op, r⟩) (fun d' => ?_)
      (fun heq => hut (hL.apart t u ht hu heq).symm) fun i o r' hG => hG.commit _
    rw [List.mem_append, List.mem_singleton]
    exact or_comm

theorem Ledger.invokes (hL : Ledger spec s₀ h ds s clock st)
    (hother : ∀ u, u ≠ t → st' u = st u) (hid : (st' t).id = clock)
    (hphase' : (st' t).phase = .pending) :
    Ledger spec s₀ (h ++ [inv clock (st' t).op]) ds s (clock + 1) st' := by
  have hfresh : ∀ o, inv clock o ∉ h := fun o ho => Nat.lt_irrefl _ (hL.numbered _ o ho)
  have hunused : ∀ d ∈ ds, d.id ≠ clock := by
    intro d hd heq
    have hinv := hL.order.invoked d hd
    rw [heq] at hinv
    exact hfresh _ hinv
  have hunanswered : ∀ r, ret clock r ∉ h := by
    intro r hr
    obtain ⟨h₁, h₂, heq⟩ := List.append_of_mem hr
    obtain ⟨o, ho⟩ := hL.wellFormed.invoked h₁ h₂ clock r heq
    exact hfresh o (heq ▸ List.mem_append_left _ ho)
  -- a thread that is in an operation has an older number
  have holder : ∀ u, u ≠ t → (st' u).phase ≠ .quiet → (st' u).id ≠ clock := by
    intro u hut hu heq
    rw [hother u hut] at hu heq
    have hinv := (hL.booked u hu).invoked
    rw [heq] at hinv
    exact hfresh _ hinv
  constructor
  case order => exact hL.order.invoke hunused
  case wellFormed =>
      refine hL.wellFormed.snoc (fun e he => ?_) fun i r heq => nomatch heq
      cases e with
      | inv i o =>
          intro heq
          simp only [HistoryEvent.label, Prod.mk.injEq, true_and] at heq
          rw [heq] at he
          exact hfresh o he
      | ret i r => simp [HistoryEvent.label]
  case numbered =>
      intro i o ho
      rcases List.mem_append.mp ho with ho | ho
      · exact Nat.lt_succ_of_lt (hL.numbered i o ho)
      · have heq := List.mem_singleton.mp ho
        injection heq with heq
        rw [heq]
        exact Nat.lt_succ_self _
  case booked =>
      intro u hu
      by_cases hut : u = t
      · subst hut
        constructor
        case invoked =>
            rw [hid]
            exact List.mem_append_right _ (List.mem_singleton_self _)
        case unanswered =>
            intro r hr
            rw [hid] at hr
            rcases List.mem_append.mp hr with hr | hr
            · exact hunanswered r hr
            · exact nomatch List.mem_singleton.mp hr
        case undecided =>
            intro _
            rw [hid]
            exact hunused
        case decided => simp [hphase']
        case looked => simp [hphase']
      · have hold := holder u hut hu
        rw [hother u hut] at hu hold ⊢
        refine (hL.booked u hu).event (fun o heq => ?_) fun r => nofun
        injection heq with heq
        exact hold heq.symm
  case apart =>
      intro u w hu hw heq
      by_cases hut : u = t
      · by_cases hwt : w = t
        · rw [hut, hwt]
        · rw [hut, hid] at heq
          exact absurd heq.symm (holder w hwt hw)
      · by_cases hwt : w = t
        · rw [hwt, hid] at heq
          exact absurd heq (holder u hut hu)
        · rw [hother u hut] at hu heq
          rw [hother w hwt] at hw heq
          exact hL.apart u w hu hw heq

/-- The answer of a thread whose operation has taken effect. -/
theorem Ledger.respond (hL : Ledger spec s₀ h ds s clock st)
    (hother : ∀ u, u ≠ t → st' u = st u) (hclock : clock ≤ clock') {r : ρ}
    (hphase : (st t).phase = .done r) (hphase' : (st' t).phase = .quiet) :
    Ledger spec s₀ (h ++ [ret (st t).id r]) ds s clock' st' := by
  have ht : (st t).phase ≠ .quiet := by simp [hphase]
  have hb := hL.booked t ht
  have hnot : ∀ u, (st' u).phase ≠ .quiet → u ≠ t := by
    intro u hu hut
    rw [hut] at hu
    exact hu hphase'
  constructor
  case order => exact hL.order.respond (hb.decided r hphase)
  case wellFormed =>
      refine hL.wellFormed.snoc (fun e he => ?_) fun i r' heq => ?_
      · cases e with
        | inv i o => simp [HistoryEvent.label]
        | ret i r' =>
            intro heq
            simp only [HistoryEvent.label, Prod.mk.injEq, true_and] at heq
            rw [heq] at he
            exact hb.unanswered r' he
      · injection heq with hi
        rw [← hi]
        exact ⟨_, hb.invoked⟩
  case numbered =>
      intro i o ho
      rcases List.mem_append.mp ho with ho | ho
      · exact Nat.lt_of_lt_of_le (hL.numbered i o ho) hclock
      · exact nomatch List.mem_singleton.mp ho
  case booked =>
      intro u hu
      have hut := hnot u hu
      rw [hother u hut] at hu ⊢
      refine (hL.booked u hu).event (fun o => nofun) fun r' heq => ?_
      injection heq with heq
      exact hut (hL.apart t u ht hu heq).symm
  case apart =>
      intro u w hu hw heq
      have hut := hnot u hu
      have hwt := hnot w hw
      rw [hother u hut] at hu heq
      rw [hother w hwt] at hw heq
      exact hL.apart u w hu hw heq

/-- An operation that has looked takes effect where it has looked. -/
theorem Ledger.place [DecidableEq τ] (hL : Ledger spec s₀ h ds s clock st) {r : ρ}
    (hphase : (st t).phase = .looked r) :
    ∃ ds', Ledger spec s₀ h ds' s clock (Function.update st t { st t with phase := .done r }) := by
  have ht : (st t).phase ≠ .quiet := by simp [hphase]
  have hb := hL.booked t ht
  have hnew := hb.undecided (by simp [hphase])
  obtain ⟨ds', horder, hmem, hglimpse⟩ := hL.order.look hb.invoked hnew (hb.looked r hphase)
  refine ⟨ds', hL.stay (fun u hu => Function.update_of_ne hu _ _) (Nat.le_refl _)
    (by rw [Function.update_self]) (fun _ => ht) horder (fun _ => ?_) fun u hut hu => ?_⟩
  · rw [Function.update_self]
    constructor
    case invoked => exact hb.invoked
    case unanswered => exact hb.unanswered
    case undecided => exact fun hnot => absurd rfl (hnot r)
    case decided =>
        intro r' hr
        injection hr with hr
        rw [← hr]
        exact (hmem _).mpr (.inl rfl)
    case looked => exact fun r' hr => nomatch hr
  · exact (hL.booked u hu).grow hmem (fun heq => hut (hL.apart t u ht hu heq).symm) hglimpse

theorem Ledger.returns [DecidableEq τ] (hL : Ledger spec s₀ h ds s clock st)
    (hother : ∀ u, u ≠ t → st' u = st u) (hclock : clock ≤ clock') {r : ρ}
    (hphase : (st t).phase = .done r ∨ (st t).phase = .looked r)
    (hphase' : (st' t).phase = .quiet) :
    ∃ ds', Ledger spec s₀ (h ++ [ret (st t).id r]) ds' s clock' st' := by
  rcases hphase with hphase | hphase
  · exact ⟨ds, hL.respond hother hclock hphase hphase'⟩
  · obtain ⟨ds', hL'⟩ := hL.place hphase
    have hend := hL'.respond (t := t) (r := r) (fun u hu => ?_) hclock
      (by rw [Function.update_self]) hphase'
    · rw [Function.update_self] at hend
      exact ⟨ds', hend⟩
    · rw [hother u hu, Function.update_of_ne hu]

/-- **The books can be kept** whatever turn it is. -/
theorem Ledger.turn [DecidableEq τ] (hL : Ledger spec s₀ h ds s clock st)
    {ev : List (HistoryEvent ο ρ)} (hturn : Turn spec clock clock' s s' (st t) (st' t) ev)
    (hother : ∀ u, u ≠ t → st' u = st u) :
    ∃ ds', Ledger spec s₀ (h ++ ev) ds' s' clock' st' := by
  cases hturn with
  | silent hs hclock hid hop hphase =>
      rw [hs, List.append_nil]
      exact ⟨ds, hL.silent hother hclock hid hop hphase⟩
  | looks hs hclock hid hop hphase hphase' hspec =>
      rw [hs, List.append_nil]
      exact ⟨ds, hL.looks hother hclock hid hop hphase hphase' hspec⟩
  | commits hclock hid hop hphase hphase' hspec =>
      rw [List.append_nil]
      exact ⟨_, hL.commits hother hclock hid hop hphase hphase' hspec⟩
  | invokes hs hclock hid _ hphase' =>
      rw [hs, hclock]
      exact ⟨ds, hL.invokes hother hid hphase'⟩
  | returns hs hclock hphase hphase' =>
      rw [hs]
      exact hL.returns hother hclock hphase hphase'

end Turns

/-! ## Counting -/

/-- What was asked for. -/
def calls (h : List (HistoryEvent ο ρ)) : List (Nat × ο) :=
  h.filterMap fun
    | .inv i o => some (i, o)
    | .ret _ _ => none

/-- What was answered. -/
def answers (h : List (HistoryEvent ο ρ)) : List (Nat × ρ) :=
  h.filterMap fun
    | .inv _ _ => none
    | .ret i r => some (i, r)

/-- Every operation has returned. -/
def Complete (h : List (HistoryEvent ο ρ)) : Prop := ∀ i o, inv i o ∈ h → ∃ r, ret i r ∈ h

section Counting

variable {spec : σ → ο → σ × ρ} {s₀ s : σ} {h : List (HistoryEvent ο ρ)} {ds : List (Done ο ρ)}

@[simp] theorem mem_calls {i : Nat} {o : ο} : (i, o) ∈ calls h ↔ inv i o ∈ h := by
  unfold calls
  rw [List.mem_filterMap]
  constructor
  · intro hmem
    obtain ⟨e, he, heq⟩ := hmem
    cases e with
    | inv i' o' =>
        simp only [Option.some.injEq, Prod.mk.injEq] at heq
        rw [← heq.1, ← heq.2]
        exact he
    | ret i' r' => cases heq
  · exact fun hmem => ⟨_, hmem, rfl⟩

@[simp] theorem mem_answers {i : Nat} {r : ρ} : (i, r) ∈ answers h ↔ ret i r ∈ h := by
  unfold answers
  rw [List.mem_filterMap]
  constructor
  · intro hmem
    obtain ⟨e, he, heq⟩ := hmem
    cases e with
    | inv i' o' => cases heq
    | ret i' r' =>
        simp only [Option.some.injEq, Prod.mk.injEq] at heq
        rw [← heq.1, ← heq.2]
        exact he
  · exact fun hmem => ⟨_, hmem, rfl⟩

theorem WellFormed.calls_nodup (hw : WellFormed h) : (calls h).Nodup := by
  refine (List.Nodup.of_map _ hw.nodup).filterMap ?_
  intro e e' c he he'
  cases e <;> cases e' <;> grind

theorem WellFormed.answers_nodup (hw : WellFormed h) : (answers h).Nodup := by
  refine (List.Nodup.of_map _ hw.nodup).filterMap ?_
  intro e e' c he he'
  cases e <;> cases e' <;> grind

/-- A number stands for one operation. -/
theorem WellFormed.inv_unique (hw : WellFormed h) {i : Nat} {o o' : ο} (ho : inv i o ∈ h)
    (ho' : inv i o' ∈ h) : o = o' := by
  have heq := List.inj_on_of_nodup_map hw.nodup ho ho' rfl
  injection heq

theorem Linearization.ops_nodup (hL : Linearization spec s₀ h ds s) :
    (ds.map fun d => (d.id, d.op)).Nodup := by
  refine List.Nodup.of_map Prod.fst ?_
  rw [List.map_map]
  exact hL.nodup

theorem Linearization.results_nodup (hL : Linearization spec s₀ h ds s) :
    (ds.map fun d => (d.id, d.res)).Nodup := by
  refine List.Nodup.of_map Prod.fst ?_
  rw [List.map_map]
  exact hL.nodup

/-- No answer is given that is not in the order. -/
theorem Linearization.answers_subperm (hL : Linearization spec s₀ h ds s) (hw : WellFormed h) :
    (answers h).Subperm (ds.map fun d => (d.id, d.res)) := by
  refine List.subperm_of_subset hw.answers_nodup ?_
  rintro ⟨i, r⟩ hr
  obtain ⟨o, hd⟩ := hL.returned i r (mem_answers.mp hr)
  exact List.mem_map.mpr ⟨_, hd, rfl⟩

/-- Nothing is in the order that was not asked for. -/
theorem Linearization.ops_subperm (hL : Linearization spec s₀ h ds s) :
    (ds.map fun d => (d.id, d.op)).Subperm (calls h) := by
  refine List.subperm_of_subset hL.ops_nodup ?_
  intro c hc
  obtain ⟨d, hd, rfl⟩ := List.mem_map.mp hc
  exact mem_calls.mpr (hL.invoked d hd)

/-- When every operation has returned, the order is of what was asked for. -/
theorem Linearization.calls_perm (hL : Linearization spec s₀ h ds s) (hw : WellFormed h)
    (hc : Complete h) : (calls h).Perm (ds.map fun d => (d.id, d.op)) := by
  refine (List.subperm_of_subset hw.calls_nodup ?_).antisymm hL.ops_subperm
  rintro ⟨i, o⟩ ho
  have ho := mem_calls.mp ho
  obtain ⟨r, hr⟩ := hc i o ho
  obtain ⟨o', hd⟩ := hL.returned i r hr
  rw [hw.inv_unique ho (hL.invoked _ hd)]
  exact List.mem_map.mpr ⟨_, hd, rfl⟩

/-- When every operation has returned, the order is of what was answered. -/
theorem Linearization.answers_perm (hL : Linearization spec s₀ h ds s) (hw : WellFormed h)
    (hc : Complete h) : (answers h).Perm (ds.map fun d => (d.id, d.res)) := by
  refine (hL.answers_subperm hw).antisymm (List.subperm_of_subset hL.results_nodup ?_)
  intro c hmem
  obtain ⟨d, hd, rfl⟩ := List.mem_map.mp hmem
  obtain ⟨r, hr⟩ := hc d.id d.op (hL.invoked d hd)
  obtain ⟨o, hd'⟩ := hL.returned d.id r hr
  have heq := List.inj_on_of_nodup_map hL.nodup hd hd' rfl
  rw [heq]
  exact mem_answers.mpr hr

end Counting

end CrossMachine.Lib
