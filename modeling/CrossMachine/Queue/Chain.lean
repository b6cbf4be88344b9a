import CrossMachine.Lib.Custody
import CrossMachine.Lib.Instances
import CrossMachine.Lib.Ledger
import CrossMachine.Queue.MsQueue

/-!
# The chain of nodes

What keeps the queue together is the list of all nodes that were ever linked in, in order
(`View.hist`), with the positions of `head_` and `tail_` on it. The list only grows and the
positions only move up. Nodes before `head_` are retired or on their way, and some are freed;
from `head_` on they are all there, each pointing to the next (`Linked`).

What a thread knows is about positions that do not change (`PcOk`): that the pointer in its
first slot was on the list, what came after it, that `tail_` was past it. All of it is stable
under the steps of others. What it may read is what its slots cover (`QueueInv.covered`), and
when it compares an address with `head_` or `tail_`, both are there, so that equal addresses
are equal pointers (`ptr_eq`).

How far a thread is with its operation can be read off where it is (`Pc.phase`).
-/

namespace CrossMachine.Queue

open Lib Reclaim Reclaim.Hazard

variable {τ α π : Type*}

/-! ## Memory -/

section Memory

variable {heap : π → Option (Node π α)} {x y : Ptr π} {n m : Node π α}

theorem deref_eq_some : deref heap x = some n ↔ heap x.addr = some n ∧ n.inc = x.inc := by
  unfold deref
  rw [Option.filter_eq_some_iff]
  simp

/-- Two pointers to nodes that are there are the same if their addresses are. -/
theorem ptr_eq (hx : deref heap x = some n) (hy : deref heap y = some m)
    (h : x.addr = y.addr) : x = y := by
  obtain ⟨hx, hxi⟩ := deref_eq_some.mp hx
  obtain ⟨hy, hyi⟩ := deref_eq_some.mp hy
  rw [h, hy] at hx
  injection hx with hnm
  cases x
  cases y
  simp only at h hxi hyi
  rw [h, ← hxi, ← hyi, hnm]

theorem deref_update_ne [DecidableEq π] {a : π} {c : Option (Node π α)} (h : x.addr ≠ a) :
    deref (Function.update heap a c) x = deref heap x := by
  unfold deref
  rw [Function.update_of_ne h]

/-- A change at the address of one node that is there leaves the others alone. -/
theorem deref_update_other [DecidableEq π] {c : Option (Node π α)} (hx : deref heap x = some n)
    (hy : deref heap y = some m) (hne : y ≠ x) :
    deref (Function.update heap x.addr c) y = some m := by
  rw [deref_update_ne, hy]
  exact fun h => hne (ptr_eq hy hx h)

theorem deref_update_self [DecidableEq π] {n' : Node π α} (hx : deref heap x = some n)
    (hinc : n'.inc = n.inc) : deref (Function.update heap x.addr (some n')) x = some n' := by
  obtain ⟨_, hi⟩ := deref_eq_some.mp hx
  exact deref_eq_some.mpr ⟨Function.update_self .., hinc.trans hi⟩

/-- What is not reclaimed is not freed. -/
theorem free_eq [DecidableEq π] {ev : List (HazardEvent (Ptr π))}
    (h : ∀ x, HazardEvent.reclaimed x ∉ ev) : free heap ev = heap := by
  induction ev with
  | nil => rfl
  | cons e ev ih =>
      have hrest := ih fun x hx => h x (List.mem_cons_of_mem _ hx)
      cases e with
      | retired y => exact hrest
      | reclaimed y => exact absurd (List.mem_cons_self ..) (h y)

/-- Freeing makes nothing up. -/
theorem of_free [DecidableEq π] {ev : List (HazardEvent (Ptr π))} {a : π}
    (h : free heap ev a = some n) : heap a = some n := by
  induction ev generalizing heap with
  | nil => exact h
  | cons e ev ih =>
      cases e with
      | retired y => exact ih h
      | reclaimed y =>
          have hupdate : Function.update heap y.addr none a = some n := ih h
          by_cases ha : a = y.addr
          · rw [ha, Function.update_self] at hupdate
            cases hupdate
          · rwa [Function.update_of_ne ha] at hupdate

theorem deref_of_free [DecidableEq π] {ev : List (HazardEvent (Ptr π))}
    (h : deref (free heap ev) x = some n) : deref heap x = some n := by
  obtain ⟨hx, hi⟩ := deref_eq_some.mp h
  exact deref_eq_some.mpr ⟨of_free hx, hi⟩

end Memory

/-! ## The list of all nodes -/

/-- Every node that was ever linked in, with its value, oldest first, and where `head_` and
`tail_` are on the list. -/
structure View (π α : Type*) where
  hist : List (Ptr π × Option α)
  h : Nat
  j : Nat

def View.node (v : View π α) (k : Nat) : Option (Ptr π) := (v.hist[k]?).map Prod.fst

/-- The values behind the sentinel. -/
def View.queue (v : View π α) : List α := (v.hist.drop (v.h + 1)).filterMap Prod.snd

/-- The memory, `head_` and `tail_` are as the list says. -/
structure Linked (heap : π → Option (Node π α)) (head tail : Ptr π) (clock : Nat)
    (v : View π α) : Prop where
  nodup : ∀ k k' x, v.node k = some x → v.node k' = some x → k = k'
  head : v.node v.h = some head
  tail : v.node v.j = some tail
  le : v.h ≤ v.j
  cells : ∀ k x d n, v.hist[k]? = some (x, d) → deref heap x = some n →
    n.data = d ∧ n.next = v.node (k + 1)
  /-- From the sentinel on nothing is freed. -/
  live : ∀ k x, v.h ≤ k → v.node k = some x → ∃ n, deref heap x = some n
  values : ∀ k x d, v.hist[k + 1]? = some (x, d) → ∃ val, d = some val
  recent : ∀ k x, v.node k = some x → x.inc < clock
  allocated : ∀ a n, heap a = some n → n.inc < clock

theorem View.node_eq_some {v : View π α} {k : Nat} {x : Ptr π} :
    v.node k = some x ↔ ∃ d, v.hist[k]? = some (x, d) := by
  unfold View.node
  rw [Option.map_eq_some_iff]
  constructor
  · intro h
    obtain ⟨e, he, hx⟩ := h
    exact ⟨e.2, by rw [he, ← hx]⟩
  · intro h
    obtain ⟨d, hd⟩ := h
    exact ⟨_, hd, rfl⟩

/-! ## What a thread knows -/

/-- The node that is still the thread's own. -/
@[simp] def Pc.node : Pc π α → Option (Ptr π)
  | .enqLoad n => some n
  | .enqValidate n _ => some n
  | .enqNext n _ => some n
  | .enqCheck n _ _ => some n
  | .enqLink n _ => some n
  | .enqHelp n _ _ => some n
  | _ => none

/-- What the slots hold that are not validated. -/
@[simp] def Pc.promised : Pc π α → List (Slot × Option π)
  | .enqValidate _ tail => [(0, some tail.addr)]
  | .deqValidate head => [(0, some head.addr)]
  | .deqRevalidate _ next => [(1, next.map Ptr.addr)]
  | .deqCheck _ next => [(1, next.map Ptr.addr)]
  | _ => []

/-- What the first slot protects. -/
@[simp] def Pc.anchor : Pc π α → Option (Ptr π)
  | .enqNext _ tail => some tail
  | .enqCheck _ tail _ => some tail
  | .enqLink _ tail => some tail
  | .enqSwing _ tail => some tail
  | .enqHelp _ tail _ => some tail
  | .deqNext head => some head
  | .deqRevalidate head _ => some head
  | .deqCheck head _ => some head
  | .deqTail head _ => some head
  | .deqHelp head _ _ => some head
  | .deqRead head _ => some head
  | .deqCas head _ _ => some head
  | _ => none

/-- Two nodes of which the thread knows that one follows the other. -/
@[simp] def Pc.link : Pc π α → Option (Ptr π × Ptr π)
  | .enqCheck _ tail (some next) => some (tail, next)
  | .enqSwing node tail => some (tail, node)
  | .enqHelp _ tail next => some (tail, next)
  | .deqCheck head (some next) => some (head, next)
  | .deqTail head next => some (head, next)
  | .deqHelp head next _ => some (head, next)
  | .deqRead head next => some (head, next)
  | .deqCas head next _ => some (head, next)
  | _ => none

/-- What the second slot protects. -/
@[simp] def Pc.second : Pc π α → Option (Ptr π)
  | .deqTail _ next => some next
  | .deqHelp _ next _ => some next
  | .deqRead _ next => some next
  | _ => none

/-- The sentinel that `tail_` is past. -/
@[simp] def Pc.passed : Pc π α → Option (Ptr π)
  | .deqRead head _ => some head
  | .deqCas head _ _ => some head
  | _ => none

/-- The value that was read from a node. -/
@[simp] def Pc.copied : Pc π α → Option (Ptr π × α)
  | .deqCas _ next tmp => some (next, tmp)
  | _ => none

@[simp] def Pc.dequeuing : Pc π α → Bool
  | .deqLoad => true
  | .deqValidate _ => true
  | .deqNext _ => true
  | .deqRevalidate _ _ => true
  | .deqCheck _ _ => true
  | .deqTail _ _ => true
  | .deqHelp _ _ _ => true
  | .deqRead _ _ => true
  | .deqCas _ _ _ => true
  | _ => false

/-- What the thread is still to retire. -/
@[simp] def Pc.owed : Pc π α → List (Ptr π)
  | .finish chores _ => chores.filterMap fun
      | .reset _ => none
      | .retire x => some x
  | _ => []

/-- A node that nobody else knows of. -/
def Private (heap : π → Option (Node π α)) (v : View π α) (op : Op α) (n : Ptr π) : Prop :=
  (∃ val, op = .enqueue val ∧ heap n.addr = some ⟨n.inc, some val, none⟩) ∧
    ∀ k, v.node k ≠ some n

structure PcOk (D : Domain (Ptr π) π) (heap : π → Option (Node π α)) (v : View π α)
    (th : Thread π α) : Prop where
  alive : th.pc ≠ .crashed
  own : ∀ n, th.pc.node = some n → Private heap v th.op n
  allocating : ∀ val, th.pc = .alloc val → th.op = .enqueue val
  promised : ∀ i p, (i, p) ∈ th.pc.promised → Will D th.loc i p
  anchored : ∀ x, th.pc.anchor = some x → th.cover 0 = some x ∧
    ∃ k, v.node k = some x ∧ (th.pc.dequeuing = true → k ≤ v.h)
  linked : ∀ x y, th.pc.link = some (x, y) → ∃ k, v.node k = some x ∧ v.node (k + 1) = some y
  second : ∀ y, th.pc.second = some y → th.cover 1 = some y
  passed : ∀ x, th.pc.passed = some x →
    ∃ k, v.node k = some x ∧ k ≤ v.h ∧ (k = v.h → v.h < v.j)
  copied : ∀ y d, th.pc.copied = some (y, d) → ∃ k : Nat, v.hist[k]? = some (y, some d)
  dequeuing : th.pc.dequeuing = true → th.op = .dequeue
  lagging : ∀ head next tail, th.pc = .deqHelp head next tail → tail.addr = head.addr

/-- What a thread knows stays true when the queue moves on, and while the domain is at work
for it. -/
theorem PcOk.mono {D D' : Domain (Ptr π) π} {heap heap' : π → Option (Node π α)} {v v' : View π α}
    {th : Thread π α} {l : Local (Ptr π) π} (h : PcOk D heap v th)
    (hhist : ∀ (k : Nat) e, v.hist[k]? = some e → v'.hist[k]? = some e) (hh : v.h ≤ v'.h)
    (hj : v.j ≤ v'.j) (hwill : ∀ i p, Will D th.loc i p → Will D' l i p)
    (hown : ∀ n, th.pc.node = some n → Private heap v th.op n → Private heap' v' th.op n) :
    PcOk D' heap' v' { th with loc := l } := by
  have hnode : ∀ k x, v.node k = some x → v'.node k = some x := by
    intro k x hx
    obtain ⟨d, hd⟩ := View.node_eq_some.mp hx
    exact View.node_eq_some.mpr ⟨d, hhist k _ hd⟩
  constructor
  case alive => exact h.alive
  case own => exact fun n hn => hown n hn (h.own n hn)
  case allocating => exact h.allocating
  case promised => exact fun i p hp => hwill i p (h.promised i p hp)
  case anchored =>
      intro x hx
      obtain ⟨hc, k, hk, hle⟩ := h.anchored x hx
      exact ⟨hc, k, hnode k x hk, fun hd => Nat.le_trans (hle hd) hh⟩
  case linked =>
      intro x y hxy
      obtain ⟨k, hx, hy⟩ := h.linked x y hxy
      exact ⟨k, hnode k x hx, hnode (k + 1) y hy⟩
  case second => exact h.second
  case passed =>
      intro x hx
      obtain ⟨k, hk, hle, hlt⟩ := h.passed x hx
      refine ⟨k, hnode k x hk, Nat.le_trans hle hh, fun heq => ?_⟩
      have hlt := hlt (by omega)
      omega
  case copied =>
      intro y d hy
      obtain ⟨k, hk⟩ := h.copied y d hy
      exact ⟨k, hhist k _ hk⟩
  case dequeuing => exact h.dequeuing
  case lagging => exact h.lagging

/-! ## The invariant -/

/-- The places an unlinked node can be in: the domain's list, or the hands of a thread. -/
def custody (s : State τ π α) : Option τ → List (Ptr π)
  | none => s.dom.retire
  | some t => (s.thread t).loc.op.carried ++ (s.thread t).pc.owed

structure QueueInv [DecidableEq π] (s : State τ π α) (v : View π α) : Prop where
  linked : Linked s.heap s.head s.tail s.clock v
  pcs : ∀ t, PcOk s.dom s.heap v (s.thread t)
  single : ∀ t u n, (s.thread t).pc.node = some n → (s.thread u).pc.node = some n → t = u
  /-- What a slot protects is there. -/
  covered : ∀ t i x, (s.thread t).cover i = some x → ∃ n, deref s.heap x = some n
  guarded : Guarded Ptr.addr s.dom (fun t => (s.thread t).loc) fun t => (s.thread t).cover
  once : ∀ x, Once (custody s) x
  /-- What is to be reclaimed is before the sentinel, and still there. -/
  unlinked : ∀ k x, x ∈ custody s k →
    (∃ i, i < v.h ∧ v.node i = some x) ∧ ∃ n, deref s.heap x = some n

/-! ## What the thread has got to -/

@[simp] def Pc.phase : Pc π α → Phase (Res α)
  | .idle => .quiet
  | .crashed => .quiet
  | .enqSwing _ _ => .done .done
  | .deqCheck _ none => .looked .empty
  | .finish _ .empty => .looked .empty
  | .finish _ res => .done res
  | _ => .pending

/-- What the books say of a thread. -/
@[simp] def Thread.status (th : Thread π α) : Status (Op α) (Res α) := ⟨th.id, th.op, th.pc.phase⟩

@[simp] theorem with_self [DecidableEq τ] {s : State τ π α} {t : τ} (th : Thread π α) :
    (s.with t th).thread t = th := by
  simp only [State.with, Function.update_self]

theorem with_other [DecidableEq τ] {s : State τ π α} {t u : τ} (th : Thread π α) (hu : u ≠ t) :
    (s.with t th).thread u = s.thread u := by
  simp only [State.with, Function.update_of_ne hu]

theorem custody_rest {s s' : State τ π α} {t : τ}
    (hother : ∀ u, u ≠ t → s'.thread u = s.thread u) (k : Option τ)
    (hk : k ≠ none) (hkt : k ≠ some t) : custody s' k = custody s k := by
  cases k with
  | none => exact absurd rfl hk
  | some u =>
      have hu : u ≠ t := fun heq => hkt (by rw [heq])
      simp only [custody, hother u hu]

section Steps

variable [DecidableEq τ] [DecidableEq π] {s s' : State τ π α} {v v' : View π α} {t : τ}

omit [DecidableEq τ] in
/-- What a step of thread `t` has to respect for the invariant to go on. -/
theorem inv_of (hI : QueueInv s v) (hother : ∀ u, u ≠ t → s'.thread u = s.thread u)
    (hlinked : Linked s'.heap s'.head s'.tail s'.clock v')
    (hmine : PcOk s'.dom s'.heap v' (s'.thread t))
    (hhist : ∀ (k : Nat) e, v.hist[k]? = some e → v'.hist[k]? = some e) (hh : v.h ≤ v'.h)
    (hj : v.j ≤ v'.j)
    (hwill : ∀ u, u ≠ t → ∀ i p, Will s.dom (s.thread u).loc i p →
      Will s'.dom (s.thread u).loc i p)
    (hown : ∀ u, u ≠ t → ∀ n, (s.thread u).pc.node = some n →
      Private s.heap v (s.thread u).op n → Private s'.heap v' (s.thread u).op n)
    (hnode : ∀ n, (s'.thread t).pc.node = some n → (s.thread t).pc.node = some n ∨
      ∀ u, u ≠ t → (s.thread u).pc.node ≠ some n)
    (hcovered : ∀ u i x, (s'.thread u).cover i = some x → ∃ n, deref s'.heap x = some n)
    (hguarded : Guarded Ptr.addr s'.dom (fun u => (s'.thread u).loc) fun u => (s'.thread u).cover)
    (honce : ∀ x, Once (custody s') x)
    (hunlinked : ∀ k x, x ∈ custody s' k →
      (∃ i, i < v'.h ∧ v'.node i = some x) ∧ ∃ n, deref s'.heap x = some n) :
    QueueInv s' v' := by
  -- a node that `t` has for itself is nobody else's
  have hmineonly : ∀ u n, u ≠ t → (s'.thread t).pc.node = some n →
      (s'.thread u).pc.node ≠ some n := by
    intro u n hu hn hn'
    rw [hother u hu] at hn'
    rcases hnode n hn with hold | hnew
    · exact hu (hI.single u t n hn' hold)
    · exact hnew u hu hn'
  constructor
  case linked => exact hlinked
  case pcs =>
      intro u
      by_cases hu : u = t
      · rw [hu]
        exact hmine
      · rw [hother u hu]
        exact (hI.pcs u).mono hhist hh hj (hwill u hu) (hown u hu)
  case single =>
      intro u w n hn hn'
      by_cases hu : u = t
      · by_cases hw : w = t
        · rw [hu, hw]
        · rw [hu] at hn
          exact absurd hn' (hmineonly w n hw hn)
      · by_cases hw : w = t
        · rw [hw] at hn'
          exact absurd hn (hmineonly u n hu hn')
        · rw [hother u hu] at hn
          rw [hother w hw] at hn'
          exact hI.single u w n hn hn'
  case covered => exact hcovered
  case guarded => exact hguarded
  case once => exact honce
  case unlinked => exact hunlinked

/-- A step that leaves the domain, the slots and what is to be reclaimed alone. -/
theorem inv_static (hI : QueueInv s v) (hother : ∀ u, u ≠ t → s'.thread u = s.thread u)
    (hdom : s'.dom = s.dom) (hloc : (s'.thread t).loc = (s.thread t).loc)
    (hcover : (s'.thread t).cover = (s.thread t).cover)
    (howed : (s'.thread t).pc.owed = (s.thread t).pc.owed)
    (hlinked : Linked s'.heap s'.head s'.tail s'.clock v')
    (hderef : ∀ x n, deref s.heap x = some n → ∃ n', deref s'.heap x = some n')
    (hmine : PcOk s.dom s'.heap v' (s'.thread t))
    (hhist : ∀ (k : Nat) e, v.hist[k]? = some e → v'.hist[k]? = some e) (hh : v.h ≤ v'.h)
    (hj : v.j ≤ v'.j)
    (hown : ∀ u, u ≠ t → ∀ n, (s.thread u).pc.node = some n →
      Private s.heap v (s.thread u).op n → Private s'.heap v' (s.thread u).op n)
    (hnode : ∀ n, (s'.thread t).pc.node = some n → (s.thread t).pc.node = some n ∨
      ∀ u, u ≠ t → (s.thread u).pc.node ≠ some n) : QueueInv s' v' := by
  have hlocs : (fun u => (s'.thread u).loc) = fun u => (s.thread u).loc := by
    funext u
    by_cases hu : u = t
    · rw [hu, hloc]
    · rw [hother u hu]
  have hcovers : (fun u => (s'.thread u).cover) = fun u => (s.thread u).cover := by
    funext u
    by_cases hu : u = t
    · rw [hu, hcover]
    · rw [hother u hu]
  have hcustody : custody s' = custody s := by
    funext k
    cases k with
    | none => exact congrArg Domain.retire hdom
    | some u =>
        by_cases hu : u = t
        · simp only [custody, hu, hloc, howed]
        · simp only [custody, hother u hu]
  have hnode' : ∀ k x, v.node k = some x → v'.node k = some x := by
    intro k x hx
    obtain ⟨d, hd⟩ := View.node_eq_some.mp hx
    exact View.node_eq_some.mpr ⟨d, hhist k _ hd⟩
  refine inv_of hI hother hlinked (hdom ▸ hmine) hhist hh hj ?_ hown hnode ?_ ?_ ?_ ?_
  · intro u _ i p hw
    rw [hdom]
    exact hw
  · intro u i x hx
    rw [congrFun hcovers u] at hx
    obtain ⟨n, hn⟩ := hI.covered u i x hx
    exact hderef x n hn
  · rw [hdom, hlocs, hcovers]
    exact hI.guarded
  · rw [hcustody]
    exact hI.once
  · rw [hcustody]
    intro k x hx
    obtain ⟨⟨i, hi, hx'⟩, n, hn⟩ := hI.unlinked k x hx
    exact ⟨⟨i, Nat.lt_of_lt_of_le hi hh, hnode' i x hx'⟩, hderef x n hn⟩

/-- Only where a thread is changes. -/
theorem inv_goto (hI : QueueInv s v) {pc : Pc π α}
    (hmine : PcOk s.dom s.heap v { s.thread t with pc := pc })
    (howed : pc.owed = (s.thread t).pc.owed)
    (hnode : ∀ n, pc.node = some n → (s.thread t).pc.node = some n) :
    QueueInv (s.goto t pc) v := by
  have hself : (s.goto t pc).thread t = { s.thread t with pc := pc } := by
    simp only [State.goto, State.with, Function.update_self]
  refine inv_static (t := t) hI (fun u hu => ?_) rfl ?_ ?_ ?_ hI.linked (fun x n hn => ⟨n, hn⟩) ?_
    (fun _ _ h => h) (Nat.le_refl _) (Nat.le_refl _) (fun _ _ _ _ h => h) ?_
  · simp only [State.goto, State.with, Function.update_of_ne hu]
  · rw [hself]
  · rw [hself]
  · rw [hself]
    exact howed
  · rw [hself]
    exact hmine
  · intro n hn
    rw [hself] at hn
    exact .inl (hnode n hn)

/-- A thread asks the domain for something, or has a pointer validated. -/
theorem inv_with (hI : QueueInv s v) {th : Thread π α}
    (hguarded : Guarded Ptr.addr s.dom (fun u => ((s.with t th).thread u).loc)
      fun u => ((s.with t th).thread u).cover)
    (hcovered : ∀ i x, th.cover i = some x → ∃ n, deref s.heap x = some n)
    (hcustody : th.loc.op.carried ++ th.pc.owed =
      (s.thread t).loc.op.carried ++ (s.thread t).pc.owed)
    (hmine : PcOk s.dom s.heap v th)
    (hnode : ∀ n, th.pc.node = some n → (s.thread t).pc.node = some n) :
    QueueInv (s.with t th) v := by
  have hcust : custody (s.with t th) = custody s := by
    funext k
    cases k with
    | none => rfl
    | some u =>
        by_cases hu : u = t
        · simp only [custody, hu, with_self, hcustody]
        · simp only [custody, with_other th hu]
  refine inv_of hI (fun u hu => with_other th hu) hI.linked ?_ (fun _ _ h => h) (Nat.le_refl _)
    (Nat.le_refl _) (fun _ _ _ _ h => h) (fun _ _ _ _ h => h) ?_ ?_ hguarded ?_ ?_
  · rw [with_self]
    exact hmine
  · intro n hn
    rw [with_self] at hn
    exact .inl (hnode n hn)
  · intro u i x hx
    by_cases hu : u = t
    · rw [hu, with_self] at hx
      exact hcovered i x hx
    · rw [with_other th hu] at hx
      exact hI.covered u i x hx
  · rw [hcust]
    exact hI.once
  · rw [hcust]
    exact hI.unlinked

/-- A pointer is announced. -/
theorem inv_announce (hI : QueueInv s v) (hop : (s.thread t).loc.op = .idle) {i : Slot}
    {p : Option π} {pc : Pc π α} (howed : pc.owed = (s.thread t).pc.owed)
    (hmine : PcOk s.dom s.heap v
      { s.thread t with
        loc := (s.thread t).loc.setSlot i p, pc := pc
        cover := Function.update (s.thread t).cover i none })
    (hnode : ∀ n, pc.node = some n → (s.thread t).pc.node = some n) :
    QueueInv (s.announce t i p pc) v := by
  have hcover : ∀ j x, Function.update (s.thread t).cover i none j = some x →
      (s.thread t).cover j = some x := by
    intro j x hx
    by_cases hj : j = i
    · rw [hj, Function.update_self] at hx
      cases hx
    · rwa [Function.update_of_ne hj] at hx
  refine inv_with hI ?_ ?_ ?_ hmine hnode
  · refine hI.guarded.setSlot (t := t) (i := i) (p := p) hop ?_ (fun u hu => ?_) ?_ ?_
    · rw [with_self]
    · rw [with_other _ hu]
    · intro u j x hx
      by_cases hu : u = t
      · rw [hu, with_self] at hx
        rw [hu]
        exact hcover j x hx
      · rwa [with_other _ hu] at hx
    · rw [with_self]
      simp only [Function.update_self]
  · intro j x hx
    exact hI.covered t j x (hcover j x hx)
  · rw [hop, howed]
    unfold Local.setSlot
    cases (s.thread t).loc.record <;> rfl

/-- A pointer that has been announced is found to be still linked: from now on the slot
protects it. -/
theorem inv_protect (hI : QueueInv s v) (hop : (s.thread t).loc.op = .idle) {i : Slot}
    {x : Ptr π} {pc : Pc π α} (hwill : Will s.dom (s.thread t).loc i (some x.addr)) {k : Nat}
    (hk : v.h ≤ k) (hx : v.node k = some x) (howed : pc.owed = (s.thread t).pc.owed)
    (hmine : PcOk s.dom s.heap v
      { s.thread t with pc := pc, cover := Function.update (s.thread t).cover i (some x) })
    (hnode : ∀ n, pc.node = some n → (s.thread t).pc.node = some n) :
    QueueInv (s.protect t i x pc) v := by
  have hwrites : (s.thread t).loc.op.writes i = false := by
    rw [hop]
    rfl
  have hcover : ∀ j y, Function.update (s.thread t).cover i (some x) j = some y →
      (s.thread t).cover j = some y ∨ (j = i ∧ y = x) := by
    intro j y hy
    by_cases hj : j = i
    · rw [hj, Function.update_self] at hy
      injection hy with hy
      exact .inr ⟨hj, hy.symm⟩
    · rw [Function.update_of_ne hj] at hy
      exact .inl hy
  refine inv_with hI ?_ ?_ ?_ hmine hnode
  · have hlocs : (fun u => ((s.protect t i x pc).thread u).loc) = fun u => (s.thread u).loc := by
      funext u
      by_cases hu : u = t
      · simp only [hu, State.protect, with_self]
      · simp only [State.protect, with_other _ hu]
    refine hlocs ▸ hI.guarded.protect (t := t) (i := i) (x := x) hwrites ?_ ?_ ?_
    · exact (will_iff hwrites).mp hwill
    · -- what is judged is before the sentinel
      intro u hu
      have hin : x ∈ custody s (some u) :=
        List.mem_append_left _ (Reclaim.Hazard.Op.mem_carried_of_judging hu)
      obtain ⟨⟨i, hi, hx'⟩, _⟩ := hI.unlinked _ x hin
      have := hI.linked.nodup k i x hx hx'
      omega
    · intro u j y hy
      by_cases hu : u = t
      · rw [hu, with_self] at hy
        rcases hcover j y hy with hy | ⟨hj, hy⟩
        · rw [hu]
          exact .inl hy
        · exact .inr ⟨hu, hj, hy⟩
      · rw [with_other _ hu] at hy
        exact .inl hy
  · intro j y hy
    rcases hcover j y hy with hy | ⟨_, rfl⟩
    · exact hI.covered t j y hy
    · exact hI.linked.live k y hk hx
  · rw [howed]

/-- The old sentinel is retired. -/
theorem inv_retire (hI : QueueInv s v) (hop : (s.thread t).loc.op = .idle) {x : Ptr π}
    {chores : List (Chore π)} {res : Res α}
    (hpc : (s.thread t).pc = .finish (.retire x :: chores) res) :
    QueueInv (s.with t
      { s.thread t with loc := (s.thread t).loc.retire x, pc := .finish chores res }) v := by
  refine inv_with hI ?_ ?_ ?_ ?_ (by simp)
  · refine hI.guarded.ask (t := t) (l := (s.thread t).loc.retire x) ?_ (fun u hu => ?_) ?_ rfl
      ?_ ?_
    · rw [with_self]
    · rw [with_other _ hu]
    · unfold Local.retire Local.owns
      rw [hop]
    · intro u j y hy
      by_cases hu : u = t
      · rw [hu, with_self] at hy
        rw [hu]
        exact hy
      · rwa [with_other _ hu] at hy
    · exact fun _ _ _ => rfl
  · exact fun j y hy => hI.covered t j y hy
  · simp [hop, hpc, Local.retire, Reclaim.Hazard.Op.carried, Reclaim.Hazard.Op.held]
  · constructor <;> simp

theorem inv_drain (hI : QueueInv s v) (hop : (s.thread t).loc.op = .idle) :
    QueueInv (s.with t { s.thread t with loc := (s.thread t).loc.scan }) v := by
  refine inv_with hI ?_ (fun j y hy => hI.covered t j y hy) ?_ ?_ fun n hn => hn
  · refine hI.guarded.ask (t := t) (l := (s.thread t).loc.scan) ?_ (fun u hu => ?_) ?_ rfl
      ?_ ?_
    · rw [with_self]
    · rw [with_other _ hu]
    · unfold Local.scan Local.owns
      rw [hop]
    · intro u j y hy
      by_cases hu : u = t
      · rw [hu, with_self] at hy
        rw [hu]
        exact hy
      · rwa [with_other _ hu] at hy
    · exact fun _ _ _ => rfl
  · rw [hop]
    rfl
  · refine (hI.pcs t).mono (fun _ _ h => h) (Nat.le_refl _) (Nat.le_refl _) (fun i p hw => ?_)
      fun _ _ h => h
    have hquiet : (s.thread t).loc.op.writes i = false := by
      rw [hop]
      rfl
    rw [will_iff rfl]
    rw [will_iff hquiet] at hw
    rw [← hw]
    refine published_eq ?_ (fun q hq => ?_) i
    · unfold Local.scan Local.owns
      rw [hop]
    · obtain ⟨rec, hrec⟩ := hI.guarded.exists_record t q hq
      exact ⟨rec, rec, hrec, hrec, rfl⟩

theorem inv_exit (hI : QueueInv s v) (hop : (s.thread t).loc.op = .idle)
    (hpc : (s.thread t).pc = .idle) (hcover : ∀ i, (s.thread t).cover i = none) :
    QueueInv
      { s.with t { s.thread t with loc := (exit s.dom (s.thread t).loc).2 } with
        dom := (exit s.dom (s.thread t).loc).1 } v := by
  have hop' : (exit s.dom (s.thread t).loc).2.op = (s.thread t).loc.op := by
    unfold exit
    cases (s.thread t).loc.record <;> rfl
  have hret : (exit s.dom (s.thread t).loc).1.retire = s.dom.retire := by
    unfold exit
    cases (s.thread t).loc.record <;> rfl
  have hcust : custody
      { s.with t { s.thread t with loc := (exit s.dom (s.thread t).loc).2 } with
        dom := (exit s.dom (s.thread t).loc).1 } = custody s := by
    funext k
    cases k with
    | none => exact hret
    | some u =>
        by_cases hu : u = t
        · simp only [custody, hu, with_self, hop']
        · simp only [custody, with_other _ hu]
  refine inv_of (t := t) hI (fun u hu => with_other _ hu) hI.linked ?_ (fun _ _ h => h)
    (Nat.le_refl _) (Nat.le_refl _) (fun u _ i p hw => ?_) (fun _ _ _ _ h => h) ?_ ?_ ?_ ?_ ?_
  · simp only [with_self]
    constructor <;> simp [hpc]
  · exact hw.other (published_exit s.dom _ _ i)
  · simp [hpc]
  · intro u i x hx
    by_cases hu : u = t
    · simp only [hu, with_self, hcover i] at hx
      cases hx
    · simp only [with_other _ hu] at hx
      exact hI.covered u i x hx
  · have hcovers : (fun u => ((s.with t
          { s.thread t with loc := (exit s.dom (s.thread t).loc).2 }).thread u).cover) =
        fun u => (s.thread u).cover := by
      funext u
      by_cases hu : u = t
      · simp only [hu, with_self]
      · simp only [with_other _ hu]
    simp only [hcovers]
    refine hI.guarded.exit hop hcover ?_ fun u hu => ?_
    · simp only [with_self]
    · simp only [with_other _ hu]
  · rw [hcust]
    exact hI.once
  · rw [hcust]
    exact hI.unlinked

section Domain

variable {D : Domain (Ptr π) π} {l : Local (Ptr π) π} {ev : List (HazardEvent (Ptr π))}

omit [DecidableEq τ] [DecidableEq π] in
/-- What is reclaimed was in the hands of the thread. -/
theorem mem_custody_of_reclaimed (hm : Moves Ptr.addr s.dom (s.thread t).loc D l ev) {x : Ptr π}
    (hx : HazardEvent.reclaimed x ∈ ev) : x ∈ custody s (some t) := by
  rcases hm.reclaims with hnone | ⟨y, rfl, hy⟩
  · exact absurd hx (hnone x)
  · simp only [List.mem_singleton, HazardEvent.reclaimed.injEq] at hx
    rw [hx]
    exact List.mem_append_left _ hy

omit [DecidableEq τ] in
/-- What is not reclaimed stays. -/
theorem QueueInv.deref_free (hI : QueueInv s v)
    (hm : Moves Ptr.addr s.dom (s.thread t).loc D l ev) {y : Ptr π} {n : Node π α}
    (hy : HazardEvent.reclaimed y ∉ ev) (hn : deref s.heap y = some n) :
    deref (free s.heap ev) y = some n := by
  rcases hm.reclaims with hnone | ⟨x, rfl, hx⟩
  · rw [free_eq hnone]
    exact hn
  · obtain ⟨_, m, hm'⟩ := hI.unlinked (some t) x (List.mem_append_left _ hx)
    refine deref_update_other hm' hn fun heq => hy ?_
    rw [heq]
    exact List.mem_singleton_self _

omit [DecidableEq τ] in
theorem custody_count (hdom : s'.dom = D)
    (hself : s'.thread t = { s.thread t with loc := l })
    (hm : Moves Ptr.addr s.dom (s.thread t).loc D l ev) (x : Ptr π) :
    (custody s' none).count x + (custody s' (some t)).count x +
      ev.count (HazardEvent.reclaimed x) =
        (custody s none).count x + (custody s (some t)).count x := by
  have hcount := hm.count_carried x
  simp only [custody, hdom, hself, List.count_append]
  omega

omit [DecidableEq τ] in
/-- What the domain still has to reclaim it had before, and has not reclaimed just now. -/
theorem mem_custody_domain (hI : QueueInv s v) (hdom : s'.dom = D)
    (hself : s'.thread t = { s.thread t with loc := l })
    (hother : ∀ u, u ≠ t → s'.thread u = s.thread u)
    (hm : Moves Ptr.addr s.dom (s.thread t).loc D l ev) {k : Option τ} {x : Ptr π}
    (hx : x ∈ custody s' k) : (∃ k', x ∈ custody s k') ∧ HazardEvent.reclaimed x ∉ ev := by
  have hcount := custody_count hdom hself hm x
  by_cases hk : k = none ∨ k = some t
  · have hle := (hI.once x).count_add_le (a := none) (b := some t) (by simp)
    have hpos : 0 < (custody s' none).count x + (custody s' (some t)).count x := by
      have hpos := List.count_pos_iff.mpr hx
      rcases hk with hk | hk
      all_goals
        rw [hk] at hpos
        omega
    refine ⟨?_, fun hrec => ?_⟩
    · by_contra hnot
      have h₁ : x ∉ custody s none := fun h => hnot ⟨none, h⟩
      have h₂ : x ∉ custody s (some t) := fun h => hnot ⟨some t, h⟩
      rw [List.count_eq_zero.mpr h₁, List.count_eq_zero.mpr h₂] at hcount
      omega
    · have := List.count_pos_iff.mpr hrec
      omega
  · obtain ⟨hkn, hkt⟩ := not_or.mp hk
    rw [custody_rest hother k hkn hkt] at hx
    refine ⟨⟨k, hx⟩, fun hrec => hkt ?_⟩
    exact (hI.once x).place k (some t) hx (mem_custody_of_reclaimed hm hrec)

omit [DecidableEq τ] in
theorem linked_free (hI : QueueInv s v) (hm : Moves Ptr.addr s.dom (s.thread t).loc D l ev) :
    Linked (free s.heap ev) s.head s.tail s.clock v := by
  constructor
  case nodup => exact hI.linked.nodup
  case head => exact hI.linked.head
  case tail => exact hI.linked.tail
  case le => exact hI.linked.le
  case cells => exact fun k x d n hk hn => hI.linked.cells k x d n hk (deref_of_free hn)
  case live =>
      intro k x hk hx
      obtain ⟨n, hn⟩ := hI.linked.live k x hk hx
      refine ⟨n, hI.deref_free hm (fun hrec => ?_) hn⟩
      obtain ⟨⟨i, hi, hx'⟩, _⟩ := hI.unlinked _ x (mem_custody_of_reclaimed hm hrec)
      have := hI.linked.nodup k i x hx hx'
      omega
  case values => exact hI.linked.values
  case recent => exact hI.linked.recent
  case allocated => exact fun a n hn => hI.linked.allocated a n (of_free hn)

omit [DecidableEq τ] in
theorem private_free (hI : QueueInv s v) (hm : Moves Ptr.addr s.dom (s.thread t).loc D l ev)
    {op : Op α} {n : Ptr π} (h : Private s.heap v op n) : Private (free s.heap ev) v op n := by
  obtain ⟨⟨val, hop, hn⟩, hnot⟩ := h
  have hderef : deref s.heap n = some ⟨n.inc, some val, none⟩ := deref_eq_some.mpr ⟨hn, rfl⟩
  refine ⟨⟨val, hop, ?_⟩, hnot⟩
  refine (deref_eq_some.mp (hI.deref_free hm (fun hrec => ?_) hderef)).1
  obtain ⟨⟨i, _, hx⟩, _⟩ := hI.unlinked _ n (mem_custody_of_reclaimed hm hrec)
  exact hnot i hx

/-- **The domain is at work for a thread**: what it reclaims is freed. -/
theorem inv_domain (hI : QueueInv s v) (hm : Moves Ptr.addr s.dom (s.thread t).loc D l ev) :
    QueueInv
      { s.with t { s.thread t with loc := l } with dom := D, heap := free s.heap ev } v := by
  obtain ⟨s', hs'⟩ : ∃ s' : State τ π α, s' =
    { s.with t { s.thread t with loc := l } with dom := D, heap := free s.heap ev } := ⟨_, rfl⟩
  have hself : s'.thread t = { s.thread t with loc := l } := by simp only [hs', with_self]
  have hother : ∀ u, u ≠ t → s'.thread u = s.thread u := by
    intro u hu
    simp only [hs', with_other _ hu]
  have hdom : s'.dom = D := by rw [hs']
  have hheap : s'.heap = free s.heap ev := by rw [hs']
  have hcovers : ∀ u, (s'.thread u).cover = (s.thread u).cover := by
    intro u
    by_cases hu : u = t
    · rw [hu, hself]
    · rw [hother u hu]
  rw [← hs']
  refine inv_of (t := t) hI hother ?_ ?_ (fun _ _ h => h) (Nat.le_refl _) (Nat.le_refl _)
    (fun u hu i p hw => ?_) (fun u _ n _ hn => ?_) ?_ ?_ ?_ (fun x => ?_) ?_
  · rw [hs']
    exact linked_free hI hm
  · rw [hself, hdom, hheap]
    refine (hI.pcs t).mono (fun _ _ h => h) (Nat.le_refl _) (Nat.le_refl _) (fun i p hw => ?_)
      fun n _ hn => private_free hI hm hn
    exact hw.run hm fun q hq => hI.guarded.exists_record t q hq
  · rw [hdom]
    exact hw.other (hI.guarded.published_other hm hu i)
  · rw [hheap]
    exact private_free hI hm hn
  · intro n hn
    rw [hself] at hn
    exact .inl hn
  · intro u i x hx
    rw [hcovers u] at hx
    obtain ⟨n, hn⟩ := hI.covered u i x hx
    rw [hheap]
    exact ⟨n, hI.deref_free hm (fun hrec => hI.guarded.reclaimed hm hrec u i hx) hn⟩
  · simp only [hcovers, hdom]
    refine hI.guarded.run hm ?_ fun u hu => ?_
    · rw [hself]
    · rw [hother u hu]
  · have hcount := custody_count hdom hself hm x
    exact (hI.once x).transfer (a := none) (b := some t) (by simp)
      (fun k hk hkt => custody_rest hother k hk hkt) (by omega)
  · intro k x hx
    obtain ⟨⟨k', hx'⟩, hnot⟩ := mem_custody_domain hI hdom hself hother hm hx
    obtain ⟨hpos, n, hn⟩ := hI.unlinked k' x hx'
    refine ⟨hpos, n, ?_⟩
    rw [hheap]
    exact hI.deref_free hm hnot hn

end Domain

end Steps

end CrossMachine.Queue
