import CrossMachine.Lib.Instances
import CrossMachine.Queue.Program

/-!
# The queue is linearizable

The steps are turns (`step_sound`), so the books can be kept: at every moment of every run
there is an order of the operations in which a sequential queue gives the answers that were
given, and that queue holds what the chain of nodes holds. From this follows what a client
can count. No value comes out more often than it went in, and when all operations have
returned, what went in is what came out together with what is still there.

That a `dequeue` finds nothing only if there was nothing says more than the order does: there
was such an instant in the run itself, after the call and before the return.
-/

namespace CrossMachine.Queue

open Lib

variable {τ α π : Type*}

/-! ## What is in the queue -/

/-- From a pointer on, the nodes have the values of a list. -/
inductive Chained (heap : π → Option (Node π α)) : Option (Ptr π) → List α → Prop where
  | nil : Chained heap none []
  | cons {x : Ptr π} {n : Node π α} {val : α} {q : List α} (hx : deref heap x = some n)
      (hval : n.data = some val) (hrest : Chained heap n.next q) :
      Chained heap (some x) (val :: q)

/-- The queue holds the values of a list: they are in the nodes behind the sentinel. -/
def Holds (s : State τ π α) (q : List α) : Prop :=
  ∃ n, deref s.heap s.head = some n ∧ Chained s.heap n.next q

theorem Linked.chained {heap : π → Option (Node π α)} {head tail : Ptr π} {clock : Nat}
    {v : View π α} (hL : Linked heap head tail clock v) {m : Nat} :
    ∀ k, v.hist.length - k = m → v.h ≤ k →
      Chained heap (v.node (k + 1)) ((v.hist.drop (k + 1)).filterMap Prod.snd) := by
  induction m with
  | zero =>
      intro k hm _
      have hnone : v.node (k + 1) = none := by
        unfold View.node
        rw [List.getElem?_eq_none (by omega)]
        rfl
      rw [hnone, List.drop_eq_nil_of_le (by omega)]
      exact .nil
  | succ m ih =>
      intro k hm hk
      cases hx : v.node (k + 1) with
      | none =>
          rw [List.drop_eq_nil_of_le (View.le_of_node_none hx)]
          exact .nil
      | some x =>
          obtain ⟨d, hd⟩ := View.node_eq_some.mp hx
          obtain ⟨val, rfl⟩ := hL.values k x d hd
          obtain ⟨n, hn⟩ := hL.live (k + 1) x (Nat.le_succ_of_le hk) hx
          obtain ⟨hdata, hnext⟩ := hL.cells (k + 1) x _ n hd hn
          obtain ⟨hlt, he⟩ := List.getElem?_eq_some_iff.mp hd
          rw [List.drop_eq_getElem_cons hlt, he, List.filterMap_cons]
          refine .cons hn hdata ?_
          rw [hnext]
          exact ih (k + 1) (by omega) (Nat.le_succ_of_le hk)

theorem QueueInv.holds [DecidableEq π] {s : State τ π α} {v : View π α} (hI : QueueInv s v) :
    Holds s v.queue := by
  obtain ⟨d, hd⟩ := View.node_eq_some.mp hI.linked.head
  obtain ⟨n, hn⟩ := hI.linked.live v.h s.head (Nat.le_refl _) hI.linked.head
  refine ⟨n, hn, ?_⟩
  rw [(hI.linked.cells v.h s.head d n hd hn).2]
  exact hI.linked.chained v.h rfl (Nat.le_refl _)

/-! ## Counting values -/

/-- What goes in. -/
def Op.value : Op α → Option α
  | .enqueue v => some v
  | .dequeue => none

/-- What comes out. -/
def Res.value : Res α → Option α
  | .got v => some v
  | _ => none

/-- The values of all calls of `enqueue`. -/
def puts (h : List (HistoryEvent (Op α) (Res α))) : List α :=
  (calls h).filterMap fun c => c.2.value

/-- The values that calls of `dequeue` have returned. -/
def gots (h : List (HistoryEvent (Op α) (Res α))) : List α :=
  (answers h).filterMap fun c => c.2.value

/-- First in, first out. -/
theorem legal_fifo {ds : List (Done (Op α) (Res α))} {q q' : List α} (h : Legal fifo q ds q') :
    q ++ ds.filterMap (fun d => d.op.value) = ds.filterMap (fun d => d.res.value) ++ q' := by
  induction ds generalizing q with
  | nil => simpa [Legal] using h
  | cons d ds ih =>
      obtain ⟨i, op, res⟩ := d
      obtain ⟨hres, hrest⟩ := h
      have hrest := ih hrest
      simp only at hres
      subst hres
      cases op with
      | enqueue v => simpa [fifo, Op.value, Res.value] using hrest
      | dequeue =>
          cases q with
          | nil => simpa [fifo, Op.value, Res.value] using hrest
          | cons v q => simpa [fifo, Op.value, Res.value] using hrest

section Values

variable {h : List (HistoryEvent (Op α) (Res α))} {ds : List (Done (Op α) (Res α))} {q : List α}

/-- No value comes out more often than it went in. -/
theorem gots_subperm (hL : Linearization fifo [] h ds q) (hw : WellFormed h) :
    (gots h).Subperm (puts h) := by
  obtain ⟨ds₁, hperm₁, hsub₁⟩ := hL.answers_subperm hw
  obtain ⟨ds₂, hperm₂, hsub₂⟩ := hL.ops_subperm
  have hres : (gots h).Subperm (ds.filterMap fun d => d.res.value) := by
    refine ⟨_, hperm₁.filterMap _, ?_⟩
    simpa [List.filterMap_map] using hsub₁.filterMap fun c => c.2.value
  have hop : (ds.filterMap fun d => d.op.value).Subperm (puts h) := by
    refine ⟨_, ?_, hsub₂.filterMap fun c => c.2.value⟩
    simpa [List.filterMap_map] using hperm₂.filterMap fun c => c.2.value
  have hfifo := legal_fifo hL.legal
  rw [List.nil_append] at hfifo
  refine hres.trans (.trans ?_ hop)
  rw [hfifo]
  exact (List.sublist_append_left _ _).subperm

/-- When all have returned, what went in is what came out and what is still there. -/
theorem puts_perm (hL : Linearization fifo [] h ds q) (hw : WellFormed h) (hc : Complete h) :
    (puts h).Perm (gots h ++ q) := by
  have hop : (puts h).Perm (ds.filterMap fun d => d.op.value) := by
    simpa [puts, List.filterMap_map] using (hL.calls_perm hw hc).filterMap fun c => c.2.value
  have hres : (gots h).Perm (ds.filterMap fun d => d.res.value) := by
    simpa [gots, List.filterMap_map] using (hL.answers_perm hw hc).filterMap fun c => c.2.value
  have hfifo := legal_fifo hL.legal
  rw [List.nil_append] at hfifo
  rw [hfifo] at hop
  exact hop.trans (hres.symm.append_right q)

end Values

/-! ## Along a run -/

section Runs

variable [DecidableEq τ] [DecidableEq π]

/-- There was an instant, after operation `i` was invoked, at which the queue held nothing;
`es₂` is what has happened since. -/
def EmptySince (a : π) (es₂ es : List (Event π α)) (s : State τ π α) (i : Nat) : Prop :=
  ∃ es₁ s₁, es = es₁ ++ es₂ ∧ Run step Any (init a) es₁ s₁ ∧ Run step Any s₁ es₂ s ∧
    Event.client (.inv i .dequeue) ∈ es₁ ∧ Holds s₁ []

structure RunInv (a : π) (es : List (Event π α)) (s : State τ π α) (v : View π α)
    (ds : List (Done (Op α) (Res α))) : Prop where
  run : Run step Any (init a) es s
  queue : QueueInv s v
  ledger : Ledger fifo [] (history es) ds v.queue s.clock fun t => (s.thread t).status
  tame : ∀ x, Event.wild x ∉ es
  /-- A thread that has looked has seen the queue empty. -/
  saw : ∀ t r, (s.thread t).pc.phase = .looked r → ∃ es₂, EmptySince a es₂ es s (s.thread t).id
  told : ∀ i, Event.client (.ret i .empty) ∈ es →
    ∃ es₂, EmptySince a es₂ es s i ∧ Event.client (.ret i .empty) ∈ es₂

variable {a : π} {s s' : State τ π α} {es es₂ ev : List (Event π α)} {v : View π α}
  {ds : List (Done (Op α) (Res α))} {act : Action τ π α}

theorem EmptySince.step {i : Nat} (h : EmptySince a es₂ es s i)
    (hs : step s act = some (s', ev)) : EmptySince a (es₂ ++ ev) (es ++ ev) s' i := by
  obtain ⟨es₁, s₁, rfl, hrun₁, hrun₂, hinv, hempty⟩ := h
  exact ⟨es₁, s₁, List.append_assoc .., hrun₁, hrun₂.tail trivial hs, hinv, hempty⟩

omit [DecidableEq π] in
theorem mem_history {e : HistoryEvent (Op α) (Res α)} :
    e ∈ history es ↔ Event.client e ∈ es := by
  unfold history
  rw [List.mem_filterMap]
  constructor
  · intro h
    obtain ⟨e', he', heq⟩ := h
    cases e' with
    | client e'' =>
        injection heq with heq
        rw [← heq]
        exact he'
    | wild x => cases heq
  · exact fun h => ⟨_, h, rfl⟩

omit [DecidableEq π] in
theorem history_append (es : List (Event π α)) (evs : List (HistoryEvent (Op α) (Res α))) :
    history (es ++ evs.map Event.client) = history es ++ evs := by
  unfold history
  rw [List.filterMap_append, List.filterMap_map]
  congr 1
  exact List.filterMap_some

omit [DecidableEq π] in
/-- A `dequeue` that finds nothing is never done before it returns. -/
theorem phase_ne_empty (pc : Pc π α) : pc.phase ≠ .done .empty := by
  cases pc with
  | finish chores res => cases res <;> simp
  | deqCheck head next => cases next <;> simp
  | _ => simp

/-- The queue answers without a change only when there is nothing in it. -/
theorem fifo_same {q : List α} {op : Op α} {r : Res α} (h : fifo q op = (q, r)) :
    q = [] ∧ op = .dequeue := by
  cases op with
  | enqueue val => simp [fifo] at h
  | dequeue =>
      cases q with
      | nil => exact ⟨rfl, rfl⟩
      | cons val q => simp [fifo] at h

omit [DecidableEq τ] in
theorem inv_init (a : π) : QueueInv (init a : State τ π α) ⟨[(⟨a, 0⟩, none)], 0, 0⟩ := by
  have hnowhere : ∀ k x, x ∉ custody (init a : State τ π α) k := by
    intro k
    cases k <;> simp [custody, init, Reclaim.Hazard.Op.carried, Reclaim.Hazard.Op.held]
  constructor
  case linked =>
      constructor
      case nodup =>
          intro k k' x hx hx'
          have h₁ := View.lt_of_node hx
          have h₂ := View.lt_of_node hx'
          simp only [List.length_singleton] at h₁ h₂
          omega
      case head => rfl
      case tail => rfl
      case le => exact Nat.le_refl _
      case cells =>
          intro k x d n hk hn
          cases k with
          | succ k => simp at hk
          | zero =>
              simp only [List.getElem?_cons_zero, Option.some.injEq, Prod.mk.injEq] at hk
              obtain ⟨rfl, rfl⟩ := hk
              obtain ⟨hn, _⟩ := deref_eq_some.mp hn
              simp only [init, Function.update_self, Option.some.injEq] at hn
              subst hn
              exact ⟨rfl, rfl⟩
      case live =>
          intro k x _ hx
          cases k with
          | succ k => simp [View.node] at hx
          | zero =>
              simp only [View.node, List.getElem?_cons_zero, Option.map_some,
                Option.some.injEq] at hx
              subst hx
              exact ⟨⟨0, none, none⟩, by simp [deref, init]⟩
      case values => simp
      case recent =>
          intro k x hx
          cases k with
          | succ k => simp [View.node] at hx
          | zero =>
              simp only [View.node, List.getElem?_cons_zero, Option.map_some,
                Option.some.injEq] at hx
              subst hx
              exact Nat.zero_lt_one
      case allocated =>
          intro b n hn
          by_cases hb : b = a
          · simp only [init, hb, Function.update_self, Option.some.injEq] at hn
            rw [← hn]
            exact Nat.zero_lt_one
          · simp [init, Function.update_of_ne hb] at hn
  case pcs =>
      intro t
      constructor <;> simp [init]
  case single => simp [init]
  case covered => simp [init]
  case guarded =>
      constructor
      · constructor
        · intro t r h
          cases h
        · intro t u r h
          cases h
      · intro t i y h
        cases h
      · intro u y h
        cases h
  case once => exact fun x => .of_nowhere fun k => hnowhere k x
  case unlinked => exact fun k x hx => absurd hx (hnowhere k x)

theorem runInv_init (a : π) : RunInv a [] (init a : State τ π α) ⟨[(⟨a, 0⟩, none)], 0, 0⟩ [] := by
  constructor
  case run => exact .refl
  case queue => exact inv_init a
  case ledger => exact .nil fifo [] _ _ fun t => rfl
  case tame => simp
  case saw => simp [init]
  case told => simp

/-- **The books are kept** along every run. -/
theorem runInv_step (hR : RunInv a es s v ds) (hs : step s act = some (s', ev)) :
    ∃ v' ds', RunInv a (es ++ ev) s' v' ds' := by
  obtain ⟨t, v', evs, rfl, hother, hI', hturn⟩ := step_sound hR.queue hs
  obtain ⟨ds', hledger⟩ : ∃ ds', Ledger fifo [] (history es ++ evs) ds' v'.queue s'.clock
      fun u => (s'.thread u).status :=
    hR.ledger.turn (t := t) hturn fun u hu => by simp only [hother u hu]
  refine ⟨v', ds', ?_⟩
  have hrun' := hR.run.tail trivial hs
  constructor
  case run => exact hrun'
  case queue => exact hI'
  case ledger =>
      rw [history_append]
      exact hledger
  case tame =>
      intro x hx
      rcases List.mem_append.mp hx with hx | hx
      · exact hR.tame x hx
      · simp at hx
  case saw =>
      intro u r hu
      by_cases hut : u = t
      · subst hut
        cases hturn with
        | silent _ _ hid _ hphase =>
            simp only [Thread.status] at hid hphase
            rcases hphase with hphase | ⟨_, _, hphase⟩
            · obtain ⟨es₂, hsince⟩ := hR.saw u r (hphase ▸ hu)
              rw [hid]
              exact ⟨_, hsince.step hs⟩
            · rw [hphase] at hu
              cases hu
        | looks hq _ hid _ hphase hphase' hspec =>
            -- nothing is in the queue just now
            simp only [Thread.status] at hid hphase hspec
            obtain ⟨hempty, hop⟩ := fifo_same hspec
            have hbusy : (s.thread u).pc.phase ≠ .quiet := by
              rw [hphase]
              nofun
            have hb := (hR.ledger.booked u hbusy).invoked
            simp only [Thread.status, hop] at hb
            have hholds := hI'.holds
            rw [hq, hempty] at hholds
            rw [hid]
            refine ⟨[], _, s', (List.append_nil _).symm, hrun', .refl, ?_, hholds⟩
            exact List.mem_append_left _ (mem_history.mp hb)
        | commits _ _ _ _ hphase' _ =>
            simp only [Thread.status, hu] at hphase'
            cases hphase'
        | invokes _ _ _ _ hphase' =>
            simp only [Thread.status, hu] at hphase'
            cases hphase'
        | returns _ _ _ hphase' =>
            simp only [Thread.status, hu] at hphase'
            cases hphase'
      · rw [hother u hut] at hu ⊢
        obtain ⟨es₂, hsince⟩ := hR.saw u r hu
        exact ⟨_, hsince.step hs⟩
  case told =>
      intro i hi
      rcases List.mem_append.mp hi with hi | hi
      · obtain ⟨es₂, hsince, hret⟩ := hR.told i hi
        exact ⟨_, hsince.step hs, List.mem_append_left _ hret⟩
      · obtain ⟨e, he, heq⟩ := List.mem_map.mp hi
        injection heq with heq
        subst heq
        cases hturn with
        | silent => cases he
        | looks => cases he
        | commits => cases he
        | invokes => exact nomatch List.mem_singleton.mp he
        | returns _ _ hphase _ =>
            have heq := List.mem_singleton.mp he
            injection heq with hid hr
            subst hr
            simp only [Thread.status] at hphase hid
            rcases hphase with hphase | hphase
            · exact absurd hphase (phase_ne_empty _)
            · obtain ⟨es₂, hsince⟩ := hR.saw t _ hphase
              rw [hid]
              exact ⟨_, hsince.step hs, List.mem_append_right _ (by simp)⟩

theorem runInv (h : Run step Any (init a) es s) : ∃ v ds, RunInv a es s v ds := by
  refine h.invariant (I := fun es s => ∃ v ds, RunInv a es s v ds)
    ⟨_, _, runInv_init a⟩ fun hI _ hs => ?_
  obtain ⟨v, ds, hR⟩ := hI
  exact runInv_step hR hs

/-- **The queue is linearizable.** In every run, whatever the threads and the allocator do,
the operations can be ordered as those of a sequential queue that ends up holding what the
nodes hold. No value comes out more often than it went in, and once all operations have
returned none is lost. A `dequeue` that has returned empty-handed did so because of an instant
between its call and its return at which the queue held nothing. No node is read that is not
there. -/
theorem msQueue_linearizable (a : π) {es : List (Event π α)} {s : State τ π α}
    (h : Run step Any (init a) es s) :
    WellFormed (history es) ∧
    (∃ ds q, Linearization fifo [] (history es) ds q ∧ Holds s q ∧
      (gots (history es)).Subperm (puts (history es)) ∧
      (Complete (history es) → (puts (history es)).Perm (gots (history es) ++ q))) ∧
    (∀ i, Event.client (.ret i .empty) ∈ es → ∃ es₁ s₁ es₂, es = es₁ ++ es₂ ∧
      Run step Any (init a) es₁ s₁ ∧ Run step Any s₁ es₂ s ∧ Holds s₁ [] ∧
      Event.client (.inv i .dequeue) ∈ es₁ ∧ Event.client (.ret i .empty) ∈ es₂) ∧
    ∀ x, Event.wild x ∉ es := by
  obtain ⟨v, ds, hR⟩ := runInv h
  have hw := hR.ledger.wellFormed
  have hL := hR.ledger.order
  refine ⟨hw, ⟨ds, v.queue, hL, hR.queue.holds, gots_subperm hL hw, puts_perm hL hw⟩, ?_, hR.tame⟩
  intro i hi
  obtain ⟨es₂, ⟨es₁, s₁, heq, hrun₁, hrun₂, hinv, hempty⟩, hret⟩ := hR.told i hi
  exact ⟨es₁, s₁, es₂, heq, hrun₁, hrun₂, hempty, hinv, hret⟩

end Runs

/-- A `dequeue` looks, and finds nothing. Before it returns an `enqueue` comes and goes; it
returns empty-handed all the same. The next `dequeue` gets the value. -/
def lookSchedule : List (Action (Fin 2) Nat Nat) :=
  [Action.call 1 (.run .dequeue)] ++ List.replicate 10 (Action.run 1 false 0) ++
  [Action.call 0 (.run (.enqueue 7))] ++ List.replicate 16 (Action.run 0 false 1) ++
  List.replicate 6 (Action.run 1 false 0) ++
  [Action.call 1 (.run .dequeue)] ++ List.replicate 22 (Action.run 1 false 0)

theorem msQueue_linearizable_two :
    ∃ (es : List (Event Nat Nat)) (s : State (Fin 2) Nat Nat), Run step Any (init 0) es s ∧
      history es = [.inv 1 .dequeue, .inv 2 (.enqueue 7), .ret 2 .done, .ret 1 .empty,
        .inv 4 .dequeue, .ret 4 (.got 7)] ∧
      (∃ ds q, Linearization fifo [] (history es) ds q ∧ Holds s q) ∧
      ∃ es₁ s₁ es₂, es = es₁ ++ es₂ ∧ Run step Any (init 0) es₁ s₁ ∧ Run step Any s₁ es₂ s ∧
        Holds s₁ [] ∧ Event.client (.inv 1 .dequeue) ∈ es₁ ∧
          Event.client (.ret 1 .empty) ∈ es₂ := by
  have h : Leads step Any (init 0) lookSchedule fun _ es => history es =
      [.inv 1 .dequeue, .inv 2 (.enqueue 7), .ret 2 .done, .ret 1 .empty,
        .inv 4 .dequeue, .ret 4 (.got 7)] := by
    decide +kernel
  obtain ⟨s, es, hrun, hhist⟩ := h.run
  obtain ⟨_, ⟨ds, q, hL, hholds, _⟩, hempty, _⟩ := msQueue_linearizable 0 hrun
  refine ⟨es, s, hrun, hhist, ⟨ds, q, hL, hholds⟩, hempty 1 (mem_history.mp ?_)⟩
  rw [hhist]
  decide

end CrossMachine.Queue
