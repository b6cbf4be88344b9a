import CrossMachine.Lib.Network
import CrossMachine.Lib.Run
import CrossMachine.Lib.Sum

/-!
# Machines that carry out a process

A process says which channel operations a rank performs, one after another. The program that
performs them may have several threads and take any number of steps of its own in between. It
implements the process when there is at every moment a process that it has still to carry out:
a silent step leaves that as it is, and a step with an operation is an operation of it.

If moreover the program has only so many silent steps to take, and offers what the process
offers when there are none, then nobody on the other side of the channels can tell the two apart
(`Implements.returns_iff`), and a network of such programs ends as the network of the processes
does (`Implements.settles`).
-/

namespace CrossMachine.Lib

open Relation (ReflTransGen)

variable {ι α β σ κ : Type*}

/-- A channel operation with the elements that it moves. -/
inductive Op (ι α : Type*) where
  | send (dst : ι) (data : List α)
  | recv (src : ι) (data : List α)
  deriving DecidableEq, Repr

namespace Proc

/-- One operation of a process. What is received is not up to the process. -/
inductive Does : Proc ι α β → Op ι α → Proc ι α β → Prop where
  | send {dst : ι} {data : List α} {next : Proc ι α β} :
      Does (.send dst data next) (.send dst data) next
  | recv {src : ι} {len : Nat} {next : List α → Proc ι α β} {data : List α}
      (hlen : data.length = len) : Does (.recv src len next) (.recv src data) (next data)

/-- `p` performs the operations and goes on as another process. -/
inductive Performs (p : Proc ι α β) : List (Op ι α) → Proc ι α β → Prop where
  | refl : Performs p [] p
  | tail {ops : List (Op ι α)} {op : Op ι α} {q q' : Proc ι α β} :
      Performs p ops q → Does q op q' → Performs p (ops ++ [op]) q'

end Proc

/-- The machine carries out `residual s` from `s` on. -/
structure Implements (step : σ → κ → Option (σ × List (Op ι α))) (returned : σ → Option β)
    (I : σ → Prop) (work : σ → Nat) (residual : σ → Proc ι α β) : Prop where
  /-- A step is silent or an operation of the process. -/
  moves : ∀ {s s' : σ} {a : κ} {ev : List (Op ι α)}, I s → step s a = some (s', ev) →
    I s' ∧ (ev = [] ∧ residual s' = residual s ∧ work s' < work s ∨
      ∃ op, ev = [op] ∧ (residual s).Does op (residual s') ∧ work s' ≤ work s)
  /-- Without silent steps it offers what the process offers, and returns when that is done. -/
  ready : ∀ {s : σ}, I s → (∃ a s', step s a = some (s', [])) ∨
    (∀ op p, (residual s).Does op p → ∃ a s', step s a = some (s', [op]) ∧ residual s' = p) ∧
      ∀ r, residual s = .done r → returned s = some r
  result : ∀ {s : σ} {r : β}, I s → returned s = some r → residual s = .done r

namespace Implements

variable {step : σ → κ → Option (σ × List (Op ι α))} {returned : σ → Option β} {I : σ → Prop}
  {work : σ → Nat} {residual : σ → Proc ι α β} {s₀ s : σ} {ops : List (Op ι α)}
  {p : Proc ι α β} {r : β}

/-! ## One machine -/

/-- What a run has performed are operations of the process, and the rest is left. -/
theorem performs (h : Implements step returned I work residual) (h₀ : I s₀)
    (hrun : Run step Any s₀ ops s) : I s ∧ (residual s₀).Performs ops (residual s) := by
  induction hrun with
  | refl => exact ⟨h₀, .refl⟩
  | tail _ _ hs ih =>
      obtain ⟨hI, hmove⟩ := h.moves ih.1 hs
      refine ⟨hI, ?_⟩
      rcases hmove with ⟨rfl, hsame, -⟩ | ⟨op, rfl, hdoes, -⟩
      · rw [List.append_nil, hsame]
        exact ih.2
      · exact ih.2.tail hdoes

/-- The silent steps come to an end. -/
theorem settle (h : Implements step returned I work residual) (hI : I s) :
    ∃ s', Run step Any s [] s' ∧ I s' ∧ residual s' = residual s ∧
      (∀ op p, (residual s').Does op p → ∃ a t, step s' a = some (t, [op]) ∧ residual t = p) ∧
      ∀ r, residual s' = .done r → returned s' = some r := by
  induction hwork : work s using Nat.strong_induction_on generalizing s with
  | _ w ih =>
      subst hwork
      rcases h.ready hI with ⟨a, s₁, hs⟩ | hready
      · obtain ⟨hI₁, ⟨-, hsame, hless⟩ | ⟨op, hop, -⟩⟩ := h.moves hI hs
        · obtain ⟨s', hrun, hI', hres, hready⟩ := ih _ hless hI₁ rfl
          have hfirst : Run step Any s [] s₁ := .tail .refl trivial hs
          exact ⟨s', hfirst.trans hrun, hI', hres.trans hsame, hready⟩
        · cases hop
      · exact ⟨s, .refl, hI, rfl, hready⟩

/-- Whatever the process can perform, the machine can. -/
theorem run_of_performs (h : Implements step returned I work residual) (h₀ : I s₀)
    (hperforms : (residual s₀).Performs ops p) :
    ∃ s, Run step Any s₀ ops s ∧ residual s = p := by
  induction hperforms with
  | refl => exact ⟨s₀, .refl, rfl⟩
  | tail _ hdoes ih =>
      obtain ⟨s, hrun, rfl⟩ := ih
      obtain ⟨s', hsilent, -, hsame, hready, -⟩ := h.settle (h.performs h₀ hrun).1
      obtain ⟨a, t, hs, rfl⟩ := hready _ _ (hsame ▸ hdoes)
      have hall := Run.tail (hrun.trans hsilent) trivial hs
      rw [List.append_nil] at hall
      exact ⟨t, hall, rfl⟩

/-- The machine returns after the same operations and with the same result as the process. -/
theorem returns_iff (h : Implements step returned I work residual) (h₀ : I s₀) :
    (∃ s, Run step Any s₀ ops s ∧ returned s = some r) ↔
      (residual s₀).Performs ops (.done r) := by
  constructor
  · rintro ⟨s, hrun, hr⟩
    obtain ⟨hI, hperforms⟩ := h.performs h₀ hrun
    rwa [h.result hI hr] at hperforms
  · intro hperforms
    obtain ⟨s, hrun, hs⟩ := h.run_of_performs h₀ hperforms
    obtain ⟨s', hsilent, -, hsame, -, hreturns⟩ := h.settle (h.performs h₀ hrun).1
    have hall := hrun.trans hsilent
    rw [List.append_nil] at hall
    exact ⟨s', hall, hreturns r (hsame.trans hs)⟩

end Implements

/-! ## A network of machines -/

/-- What every rank is at, and what is under way. -/
structure Fleet (ι σ α : Type*) where
  state : ι → σ
  chan : ι → ι → List α

variable [DecidableEq ι]

/-- A rank takes a step of its own, sends, or receives what has arrived. -/
inductive Fleet.Step (step : ι → σ → κ → Option (σ × List (Op ι α))) :
    Fleet ι σ α → Fleet ι σ α → Prop where
  | silent {f : Fleet ι σ α} {i : ι} {a : κ} {s' : σ}
      (hs : step i (f.state i) a = some (s', [])) :
      Fleet.Step step f { f with state := Function.update f.state i s' }
  | send {f : Fleet ι σ α} {i j : ι} {a : κ} {s' : σ} {data : List α}
      (hs : step i (f.state i) a = some (s', [.send j data])) :
      Fleet.Step step f
        ⟨Function.update f.state i s', cell f.chan i j (f.chan i j ++ data)⟩
  | recv {f : Fleet ι σ α} {i j : ι} {a : κ} {s' : σ} {data rest : List α}
      (hs : step j (f.state j) a = some (s', [.recv i data]))
      (hchan : f.chan i j = data ++ rest) :
      Fleet.Step step f ⟨Function.update f.state j s', cell f.chan i j rest⟩

/-- Every rank at its start, nothing under way. -/
def Fleet.start (s₀ : ι → σ) : Fleet ι σ α := ⟨s₀, fun _ _ => []⟩

section Fleet

variable {step : ι → σ → κ → Option (σ × List (Op ι α))} {returned : ι → σ → Option β}
  {I : ι → σ → Prop} {work : ι → σ → Nat} {residual : ι → σ → Proc ι α β}
  {f f' : Fleet ι σ α} {net : Net ι α β}

/-- The network of the processes that the ranks have still to carry out. -/
def Fleet.Shows (residual : ι → σ → Proc ι α β) (f : Fleet ι σ α) (net : Net ι α β) : Prop :=
  net.proc = (fun i => residual i (f.state i)) ∧ net.chan = f.chan

omit [DecidableEq ι] in
theorem Fleet.shows_start (residual : ι → σ → Proc ι α β) (s₀ : ι → σ) :
    (Fleet.start s₀ : Fleet ι σ α).Shows residual
      (CrossMachine.Lib.start fun i => residual i (s₀ i)) := ⟨rfl, rfl⟩

theorem residual_update (i : ι) (s' : σ) :
    (fun j => residual j (Function.update f.state i s' j)) =
      Function.update (fun j => residual j (f.state j)) i (residual i s') := by
  funext j
  by_cases hj : j = i
  · subst hj
    rw [Function.update_self, Function.update_self]
  · rw [Function.update_of_ne hj, Function.update_of_ne hj]

theorem forall_update (hI : ∀ i, I i (f.state i)) {i : ι} {s' : σ} (hs' : I i s') (j : ι) :
    I j (Function.update f.state i s' j) := by
  by_cases hj : j = i
  · subst hj
    rwa [Function.update_self]
  · rw [Function.update_of_ne hj]
    exact hI j

variable [Fintype ι]

/-- The silent steps that all ranks together have still to take. -/
def Fleet.silent (work : ι → σ → Nat) (f : Fleet ι σ α) : Nat := ∑ i, work i (f.state i)

theorem work_update (work : ι → σ → Nat) (f : Fleet ι σ α) (i : ι) (s' : σ)
    (chan : ι → ι → List α) :
    Fleet.silent work ⟨Function.update f.state i s', chan⟩ + work i (f.state i) =
      f.silent work + work i s' := sum_update_add work f.state i s'

variable (himp : ∀ i, Implements (step i) (returned i) (I i) (work i) (residual i))

include himp

/-- A step of the machines is silent, or one of the processes. -/
theorem Fleet.Step.shows (h : Fleet.Step step f f') (hI : ∀ i, I i (f.state i))
    (hshows : f.Shows residual net) :
    (∀ i, I i (f'.state i)) ∧ (f'.Shows residual net ∧ f'.silent work < f.silent work ∨
      ∃ net', Fifo net net' ∧ f'.Shows residual net' ∧ f'.silent work ≤ f.silent work) := by
  obtain ⟨hproc, hchan⟩ := hshows
  cases h with
  | @silent i a s' hs =>
      have hsum := work_update work f i s' f.chan
      obtain ⟨hI', ⟨-, hsame, hless⟩ | ⟨op, hop, -⟩⟩ := (himp i).moves (hI i) hs
      · refine ⟨forall_update hI hI', .inl ⟨⟨?_, hchan⟩, by omega⟩⟩
        rw [residual_update, hsame, Function.update_eq_self, hproc]
      · cases hop
  | @send i j a s' data hs =>
      have hsum := work_update work f i s' (cell f.chan i j (f.chan i j ++ data))
      obtain ⟨hI', ⟨hnil, -⟩ | ⟨op, hop, hdoes, hle⟩⟩ := (himp i).moves (hI i) hs
      · cases hnil
      · obtain rfl := List.singleton_injective hop
        refine ⟨forall_update hI hI', .inr ?_⟩
        generalize hnow : residual i (f.state i) = p at hdoes
        cases hdoes with
        | send =>
            refine ⟨_, .send (s := net) (by rw [hproc]; exact hnow), ⟨?_, ?_⟩, by omega⟩
            · rw [residual_update, hproc]
            · rw [hchan]
  | @recv i j a s' data rest hs harrived =>
      have hsum := work_update work f j s' (cell f.chan i j rest)
      obtain ⟨hI', ⟨hnil, -⟩ | ⟨op, hop, hdoes, hle⟩⟩ := (himp j).moves (hI j) hs
      · cases hnil
      · obtain rfl := List.singleton_injective hop
        refine ⟨forall_update hI hI', .inr ?_⟩
        generalize hnow : residual j (f.state j) = p at hdoes
        generalize hlater : residual j s' = p' at hdoes
        cases hdoes with
        | @recv _ len next _ hlen =>
            have hhere : net.chan i j = data ++ rest := by rw [hchan, harrived]
            refine ⟨_, .recv (s := net) (i := i) (by rw [hproc]; exact hnow)
              (by rw [hhere, List.length_append]; omega), ⟨?_, ?_⟩, by omega⟩
            · rw [residual_update, hlater, hproc, hhere, List.take_left' hlen]
            · rw [hhere, List.drop_left' hlen, hchan]

/-- A run of the machines is a run of the processes, with the silent steps in between. -/
theorem Fleet.run_shows {m : Nat} (h : Steps (Fleet.Step step) m f f')
    (hI : ∀ i, I i (f.state i)) (hshows : f.Shows residual net) :
    (∀ i, I i (f'.state i)) ∧ ∃ k net', Steps Fifo k net net' ∧ f'.Shows residual net' ∧
      m + f'.silent work ≤ k + f.silent work := by
  induction h generalizing net with
  | refl => exact ⟨hI, 0, net, .refl net, hshows, by omega⟩
  | head hstep _ ih =>
      obtain ⟨hI₁, ⟨hshows₁, hless⟩ | ⟨net₁, hfifo, hshows₁, hle⟩⟩ :=
        hstep.shows himp hI hshows
      · obtain ⟨hI', k, net', hrun, hshows', hbound⟩ := ih hI₁ hshows₁
        exact ⟨hI', k, net', hrun, hshows', by omega⟩
      · obtain ⟨hI', k, net', hrun, hshows', hbound⟩ := ih hI₁ hshows₁
        exact ⟨hI', k + 1, net', .head hfifo hrun, hshows', by omega⟩

omit [Fintype ι] in
/-- When no machine can go on, no process can. -/
theorem Fleet.stuck_shows (h : Stuck (Fleet.Step step) f) (hI : ∀ i, I i (f.state i))
    (hshows : f.Shows residual net) :
    Stuck Fifo net ∧ ∀ i r, residual i (f.state i) = .done r →
      returned i (f.state i) = some r := by
  obtain ⟨hproc, hchan⟩ := hshows
  have hready (i : ι) := ((himp i).ready (hI i)).resolve_left
    fun ⟨_, _, hs⟩ => h _ (.silent hs)
  refine ⟨fun net' hfifo => ?_, fun i => (hready i).2⟩
  cases hfifo with
  | @send i j d k hs =>
      simp only [hproc] at hs
      have hdoes : (residual i (f.state i)).Does (.send j d) k := hs ▸ .send
      obtain ⟨a, s', hstep, -⟩ := (hready i).1 _ _ hdoes
      exact h _ (.send hstep)
  | @recv i j len k hs hlen =>
      simp only [hproc] at hs
      have htake : ((net.chan i j).take len).length = len := by
        rw [List.length_take]
        omega
      have hdoes : (residual j (f.state j)).Does (.recv i ((net.chan i j).take len))
          (k ((net.chan i j).take len)) := hs ▸ .recv htake
      obtain ⟨a, s', hstep, -⟩ := (hready j).1 _ _ hdoes
      have hbuf : f.chan i j = (net.chan i j).take len ++ (net.chan i j).drop len := by
        rw [List.take_append_drop, hchan]
      exact h _ (.recv hstep hbuf)

/-- **The machines end as the processes do.** When the network of the processes comes to an end
with certain results under every schedule, so does the network of the machines. -/
theorem Implements.settles {s₀ : ι → σ} {r : ι → β} (hI : ∀ i, I i (s₀ i))
    (h : Completes (fun i => residual i (s₀ i)) r) :
    ∃ N, ∀ m f, Steps (Fleet.Step step) m (Fleet.start s₀) f →
      m ≤ N ∧ (Stuck (Fleet.Step step) f → ∀ i, returned i (f.state i) = some (r i)) := by
  obtain ⟨log, N, hsettles⟩ := h.fifo
  refine ⟨N + (Fleet.start s₀ : Fleet ι σ α).silent work, fun m f hrun => ?_⟩
  obtain ⟨hI', k, net, hfifo, hshows, hbound⟩ :=
    Fleet.run_shows himp hrun hI (Fleet.shows_start residual s₀)
  obtain ⟨hle, hend⟩ := hsettles k net hfifo
  refine ⟨by omega, fun hstuck i => ?_⟩
  obtain ⟨hnet, hreturns⟩ := Fleet.stuck_shows himp hstuck hI' hshows
  have hdone := congrFun (hshows.1.symm.trans (congrArg Net.proc (hend hnet))) i
  exact hreturns i (r i) hdone

end Fleet

end CrossMachine.Lib
