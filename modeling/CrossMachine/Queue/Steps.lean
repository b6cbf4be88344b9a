import CrossMachine.Lib.Instances
import CrossMachine.Lib.Prefix
import CrossMachine.Queue.Chain

/-!
# The steps of the queue

Four steps of `enqueue` and `dequeue` change something that others see: a node is allocated,
a node is linked in behind the last one, `tail_` moves on by one, `head_` moves on by one.
They keep the chain in order. All others only add to what the thread knows.
-/

namespace CrossMachine.Queue

open Lib Reclaim Reclaim.Hazard

variable {τ α π : Type*}

/-! ## Positions -/

variable {tail x : Ptr π} {k : Nat} {val : α} {i : Slot}

theorem Linked.later {heap : π → Option (Node π α)} {head : Ptr π} {clock clock' : Nat}
    {v : View π α} (h : Linked heap head tail clock v) (hle : clock ≤ clock') :
    Linked heap head tail clock' v :=
  { h with
    recent := fun k x hx => Nat.lt_of_lt_of_le (h.recent k x hx) hle
    allocated := fun a n hn => Nat.lt_of_lt_of_le (h.allocated a n hn) hle }

theorem View.lt_of_node {v : View π α} (h : v.node k = some x) : k < v.hist.length := by
  obtain ⟨d, hd⟩ := View.node_eq_some.mp h
  exact (List.getElem?_eq_some_iff.mp hd).1

theorem View.le_of_node_none {v : View π α} (h : v.node k = none) : v.hist.length ≤ k := by
  unfold View.node at h
  rw [Option.map_eq_none_iff] at h
  exact List.getElem?_eq_none_iff.mp h

/-- A node is linked in behind the last one. -/
def View.link (v : View π α) (x : Ptr π) (val : α) : View π α :=
  { v with hist := v.hist ++ [(x, some val)] }

theorem View.link_old {v : View π α} {e : Ptr π × Option α} (h : v.hist[k]? = some e) :
    (v.link x val).hist[k]? = some e := by
  have hlt := (List.getElem?_eq_some_iff.mp h).1
  simp only [View.link, List.getElem?_append_left hlt, h]

theorem View.of_link {v : View π α} {e : Ptr π × Option α} (h : (v.link x val).hist[k]? = some e) :
    v.hist[k]? = some e ∨ (k = v.hist.length ∧ e = (x, some val)) :=
  (getElem?_snoc h).imp_left And.right

theorem View.node_link {v : View π α} (x : Ptr π) (val : α) (k : Nat) :
    (v.link x val).node k = if k = v.hist.length then some x else v.node k := by
  unfold View.node View.link
  rcases Nat.lt_trichotomy k v.hist.length with hlt | heq | hgt
  · rw [if_neg (by omega), List.getElem?_append_left hlt]
  · rw [if_pos heq, heq, List.getElem?_concat_length]
    rfl
  · rw [if_neg (by omega), List.getElem?_eq_none (by simp; omega),
      List.getElem?_eq_none (by omega)]

theorem View.queue_link {v : View π α} (val : α) (h : v.node v.h = some x) (y : Ptr π) :
    (v.link y val).queue = v.queue ++ [val] := by
  have hlt := View.lt_of_node h
  simp only [View.queue, View.link, List.drop_append_of_le_length (Nat.succ_le_of_lt hlt),
    List.filterMap_append]
  rfl

/-- `head_` moves on. -/
def View.pop (v : View π α) : View π α := { v with h := v.h + 1 }

theorem View.queue_pop {v : View π α} (h : v.hist[v.h + 1]? = some (x, some val)) :
    v.queue = val :: v.pop.queue := by
  obtain ⟨hlt, he⟩ := List.getElem?_eq_some_iff.mp h
  simp only [View.queue, View.pop]
  rw [List.drop_eq_getElem_cons hlt, he, List.filterMap_cons]

/-- The memory after a node is linked in behind the last one. -/
theorem Linked.link [DecidableEq π] {heap : π → Option (Node π α)} {first last : Ptr π}
    {clock : Nat} {v : View π α} (hL : Linked heap first last clock v) {node : Ptr π} {n : Node π α}
    (hk : v.node k = some tail) (hlen : v.hist.length = k + 1) (hn : deref heap tail = some n)
    (hnode : heap node.addr = some ⟨node.inc, some val, none⟩) (hnot : ∀ i, v.node i ≠ some node) :
    Linked (Function.update heap tail.addr (some { n with next := some node })) first last
      clock (v.link node val) := by
  have hderef : deref heap node = some ⟨node.inc, some val, none⟩ :=
    deref_eq_some.mpr ⟨hnode, rfl⟩
  have hne : node ≠ tail := by
    intro heq
    exact hnot k (heq ▸ hk)
  -- a node is still what it was, but for the one that was the last
  have hread : ∀ x m, deref (Function.update heap tail.addr (some { n with next := some node })) x
      = some m → (x = tail ∧ m = { n with next := some node }) ∨
        (x ≠ tail ∧ deref heap x = some m) := by
    intro x m hm
    by_cases hx : x = tail
    · have hself : deref (Function.update heap tail.addr (some { n with next := some node })) tail
          = some { n with next := some node } := deref_update_self hn rfl
      rw [hx, hself] at hm
      injection hm with hm
      exact .inl ⟨hx, hm.symm⟩
    · refine .inr ⟨hx, ?_⟩
      by_cases haddr : x.addr = tail.addr
      · obtain ⟨hm, hi⟩ := deref_eq_some.mp hm
        simp only [haddr, Function.update_self, Option.some.injEq] at hm
        obtain ⟨_, hi'⟩ := deref_eq_some.mp hn
        refine absurd ?_ hx
        rw [← hm] at hi
        cases x
        cases tail
        simp only at haddr hi hi'
        rw [haddr, ← hi, ← hi']
      · rwa [deref_update_ne haddr] at hm
  have hlive : ∀ x m, deref heap x = some m → ∃ m',
      deref (Function.update heap tail.addr (some { n with next := some node })) x = some m' := by
    intro x m hm
    by_cases hx : x = tail
    · exact ⟨_, by rw [hx]; exact deref_update_self hn rfl⟩
    · exact ⟨m, deref_update_other hn hm hx⟩
  constructor
  case nodup =>
      intro i i' x hx hx'
      rw [View.node_link] at hx hx'
      split at hx
      · injection hx with hx
        subst hx
        split at hx'
        · omega
        · exact absurd hx' (hnot i')
      · split at hx'
        · injection hx' with hx'
          subst hx'
          exact absurd hx (hnot i)
        · exact hL.nodup i i' x hx hx'
  case head =>
      rw [View.node_link, if_neg]
      · exact hL.head
      · have := View.lt_of_node hL.head
        simp only [View.link]
        omega
  case tail =>
      rw [View.node_link, if_neg]
      · exact hL.tail
      · have := View.lt_of_node hL.tail
        simp only [View.link]
        omega
  case le => exact hL.le
  case cells =>
      intro i x d m hi hm
      rw [View.node_link]
      rcases View.of_link hi with hi | ⟨hlast, he⟩
      · rcases hread x m hm with ⟨rfl, rfl⟩ | ⟨hx, hm⟩
        · have hik := hL.nodup i k x (View.node_eq_some.mpr ⟨d, hi⟩) hk
          rw [if_pos (by omega)]
          exact ⟨(hL.cells i x d n hi hn).1, rfl⟩
        · rw [if_neg]
          · exact hL.cells i x d m hi hm
          · intro heq
            have hik : i = k := by omega
            rw [hik] at hi
            have hxk := View.node_eq_some.mpr ⟨d, hi⟩
            rw [hk] at hxk
            injection hxk with hxk
            exact hx hxk.symm
      · injection he with hx hd
        subst hx hd
        rcases hread x m hm with ⟨hx, _⟩ | ⟨_, hm⟩
        · exact absurd hx hne
        · rw [hderef] at hm
          injection hm with hm
          rw [← hm, if_neg (by omega)]
          refine ⟨rfl, ?_⟩
          cases hnone : v.node (i + 1) with
          | none => rfl
          | some y =>
              have := View.lt_of_node hnone
              omega
  case live =>
      intro i x hi hx
      rw [View.node_link] at hx
      split at hx
      · injection hx with hx
        subst hx
        exact hlive node _ hderef
      · obtain ⟨m, hm⟩ := hL.live i x hi hx
        exact hlive x m hm
  case values =>
      intro i x d hi
      rcases View.of_link hi with hi | ⟨_, he⟩
      · exact hL.values i x d hi
      · injection he with _ hd
        exact ⟨val, hd⟩
  case recent =>
      intro i x hx
      rw [View.node_link] at hx
      split at hx
      · injection hx with hx
        subst hx
        exact hL.allocated _ _ hnode
      · exact hL.recent i x hx
  case allocated =>
      intro b m hm
      by_cases hb : b = tail.addr
      · simp only [hb, Function.update_self, Option.some.injEq] at hm
        rw [← hm]
        exact hL.allocated _ n (deref_eq_some.mp hn).1
      · rw [Function.update_of_ne hb] at hm
        exact hL.allocated b m hm

/-- `head_` still is what the thread has protected, if its address is. -/
theorem head_eq [DecidableEq π] {s : State τ π α} {v : View π α} {t : τ} (hI : QueueInv s v)
    (hx : (s.thread t).cover i = some x) (h : s.head.addr = x.addr) : s.head = x := by
  obtain ⟨n, hn⟩ := hI.linked.live v.h s.head (Nat.le_refl _) hI.linked.head
  obtain ⟨m, hm⟩ := hI.covered t i x hx
  exact ptr_eq hn hm h

/-- `tail_` still is what the thread has protected, if its address is. -/
theorem tail_eq [DecidableEq π] {s : State τ π α} {v : View π α} {t : τ} (hI : QueueInv s v)
    (hx : (s.thread t).cover i = some x) (h : s.tail.addr = x.addr) : s.tail = x := by
  obtain ⟨n, hn⟩ := hI.linked.live v.j s.tail hI.linked.le hI.linked.tail
  obtain ⟨m, hm⟩ := hI.covered t i x hx
  exact ptr_eq hn hm h

/-! ## Steps that others see -/

section Steps

variable [DecidableEq τ] [DecidableEq π] {s s' : State τ π α} {v v' : View π α} {t : τ}

/-- An operation begins. -/
theorem inv_invoke (hI : QueueInv s v) (hpc : (s.thread t).pc = .idle) (op : Op α) {pc : Pc π α}
    (hpc' : pc = match op with | .enqueue val => .alloc val | .dequeue => .deqLoad) :
    QueueInv
      { s.with t { s.thread t with pc := pc, id := s.clock, op := op } with
        clock := s.clock + 1 } v := by
  refine inv_static (t := t) hI (fun u hu => with_other _ hu) rfl ?_ ?_ ?_
    (hI.linked.later (Nat.le_succ _)) (fun x n hn => ⟨n, hn⟩) ?_ (fun _ _ h => h) (Nat.le_refl _)
    (Nat.le_refl _) (fun _ _ _ _ h => h) ?_
  · simp only [with_self]
  · simp only [with_self]
  · simp only [with_self, hpc']
    cases op <;> simp [hpc]
  · simp only [with_self]
    cases op with
    | enqueue val =>
        constructor <;> simp [hpc']
    | dequeue =>
        constructor <;> simp [hpc']
  · simp only [with_self, hpc']
    cases op <;> simp

/-- A node is allocated where nothing is. -/
theorem inv_alloc (hI : QueueInv s v) {a : π} (hpc : (s.thread t).pc = .alloc val)
    (ha : s.heap a = none) :
    QueueInv
      { s.goto t (.enqLoad ⟨a, s.clock⟩) with
        heap := Function.update s.heap a (some ⟨s.clock, some val, none⟩)
        clock := s.clock + 1 } v := by
  have hne : ∀ x n, deref s.heap x = some n → x.addr ≠ a := by
    intro x n hn heq
    obtain ⟨hn, _⟩ := deref_eq_some.mp hn
    rw [heq, ha] at hn
    cases hn
  have hkeep : ∀ x n, deref s.heap x = some n →
      deref (Function.update s.heap a (some ⟨s.clock, some val, none⟩)) x = some n := by
    intro x n hn
    rw [deref_update_ne (hne x n hn), hn]
  refine inv_static (t := t) hI (fun u hu => with_other _ hu) rfl ?_ ?_ ?_ ?_
    (fun x n hn => ⟨n, hkeep x n hn⟩) ?_ (fun _ _ h => h) (Nat.le_refl _) (Nat.le_refl _) ?_ ?_
  · simp only [State.goto, with_self]
  · simp only [State.goto, with_self]
  · simp only [State.goto, with_self]
    simp [hpc]
  · have hL := hI.linked
    constructor
    case nodup => exact hL.nodup
    case head => exact hL.head
    case tail => exact hL.tail
    case le => exact hL.le
    case cells =>
        intro k x d n hk hn
        refine hL.cells k x d n hk ?_
        by_cases hx : x.addr = a
        · -- an old pointer to this address is from another allocation
          obtain ⟨hn, hi⟩ := deref_eq_some.mp hn
          simp only [hx, Function.update_self, Option.some.injEq] at hn
          have := hL.recent k x (View.node_eq_some.mpr ⟨d, hk⟩)
          rw [← hi, ← hn] at this
          exact absurd this (Nat.lt_irrefl _)
        · rwa [deref_update_ne hx] at hn
    case live =>
        intro k x hk hx
        obtain ⟨n, hn⟩ := hL.live k x hk hx
        exact ⟨n, hkeep x n hn⟩
    case values => exact hL.values
    case recent => exact fun k x hx => Nat.lt_succ_of_lt (hL.recent k x hx)
    case allocated =>
        intro b n hn
        by_cases hb : b = a
        · simp only [hb, Function.update_self, Option.some.injEq] at hn
          rw [← hn]
          exact Nat.lt_succ_self _
        · simp only [Function.update_of_ne hb] at hn
          exact Nat.lt_succ_of_lt (hL.allocated b n hn)
  · simp only [State.goto, with_self]
    have hop := (hI.pcs t).allocating val hpc
    constructor
    case own =>
        intro n hn
        simp only [Pc.node, Option.some.injEq] at hn
        subst hn
        refine ⟨⟨val, hop, by simp⟩, fun k hk => ?_⟩
        exact Nat.lt_irrefl _ (hI.linked.recent k _ hk)
    all_goals simp
  · intro u _ n _ hn
    obtain ⟨⟨val', hop, hn⟩, hnot⟩ := hn
    refine ⟨⟨val', hop, ?_⟩, hnot⟩
    have hna : n.addr ≠ a := hne n _ (deref_eq_some.mpr ⟨hn, rfl⟩)
    simp only [Function.update_of_ne hna, hn]
  · intro n hn
    simp only [State.goto, with_self, Pc.node, Option.some.injEq] at hn
    subst hn
    refine .inr fun u _ hu => ?_
    obtain ⟨⟨val', _, hn⟩, _⟩ := (hI.pcs u).own _ hu
    simp only [ha] at hn
    cases hn

/-- **A node is linked in.** -/
theorem inv_link (hI : QueueInv s v) {node : Ptr π} {n : Node π α}
    (hpc : (s.thread t).pc = .enqLink node tail) (hn : deref s.heap tail = some n)
    (hnext : n.next = none) :
    ∃ val, (s.thread t).op = .enqueue val ∧ QueueInv
      { s.goto t (.enqSwing node tail) with
        heap := Function.update s.heap tail.addr (some { n with next := some node }) }
      (v.link node val) := by
  have hok := hI.pcs t
  obtain ⟨⟨val, hop, hnode⟩, hnot⟩ := hok.own node (by rw [hpc]; rfl)
  obtain ⟨hcover, k, hk, _⟩ := hok.anchored tail (by rw [hpc]; rfl)
  -- the last node is the only one that points nowhere
  have hlen : v.hist.length = k + 1 := by
    obtain ⟨d, hd⟩ := View.node_eq_some.mp hk
    have hnone := (hI.linked.cells k tail d n hd hn).2
    rw [hnext] at hnone
    have h₁ := View.le_of_node_none hnone.symm
    have h₂ := View.lt_of_node hk
    omega
  have hfresh : (v.link node val).node (k + 1) = some node := by
    rw [View.node_link, if_pos hlen.symm]
  refine ⟨val, hop, inv_static (t := t) hI (fun u hu => with_other _ hu) rfl ?_ ?_ ?_
    (hI.linked.link hk hlen hn hnode hnot) (fun x m hm => ?_) ?_ (fun _ _ h => View.link_old h)
    (Nat.le_refl _) (Nat.le_refl _) (fun u hu m hm hpriv => ?_) ?_⟩
  · simp only [State.goto, with_self]
  · simp only [State.goto, with_self]
  · simp only [State.goto, with_self]
    simp [hpc]
  · by_cases hx : x = tail
    · exact ⟨_, by rw [hx]; exact deref_update_self hn rfl⟩
    · exact ⟨m, deref_update_other hn hm hx⟩
  · simp only [State.goto, with_self]
    have hk' : (v.link node val).node k = some tail := by
      rw [View.node_link, if_neg (by omega)]
      exact hk
    constructor
    case anchored =>
        intro x hx
        simp only [Pc.anchor, Option.some.injEq] at hx
        rw [← hx]
        exact ⟨hcover, k, hk', by simp⟩
    case linked =>
        intro x y hxy
        simp only [Pc.link, Option.some.injEq, Prod.mk.injEq] at hxy
        rw [← hxy.1, ← hxy.2]
        exact ⟨k, hk', hfresh⟩
    all_goals simp
  · -- what another thread has for itself is neither the last node nor the new one
    obtain ⟨⟨val', hop', hm'⟩, hnot'⟩ := hpriv
    have hne : m.addr ≠ tail.addr := by
      intro heq
      have hmt := ptr_eq (deref_eq_some.mpr ⟨hm', rfl⟩) hn heq
      exact hnot' k (hmt ▸ hk)
    refine ⟨⟨val', hop', by simp only [Function.update_of_ne hne, hm']⟩, fun i hi => ?_⟩
    rw [View.node_link] at hi
    split at hi
    · injection hi with hi
      subst hi
      exact hu (hI.single u t node hm (by rw [hpc]; rfl))
    · exact hnot' i hi
  · simp only [State.goto, with_self]
    simp

/-- **`tail_` moves on by one**, or has already moved. -/
theorem inv_swing (hI : QueueInv s v) {next : Ptr π} (hcover : (s.thread t).cover i = some x)
    (haddr : tail.addr = x.addr) (hx : v.node k = some x) (hnext : v.node (k + 1) = some next) :
    ∃ j, v.j ≤ j ∧ QueueInv (s.swing tail next) { v with j := j } := by
  by_cases htail : s.tail.addr = tail.addr
  · have heq : s.tail = x := tail_eq hI hcover (htail.trans haddr)
    have hkj : k = v.j := hI.linked.nodup k v.j x hx (heq ▸ hI.linked.tail)
    subst hkj
    have hswing : s.swing tail next = { s with tail := next } := by
      unfold State.swing
      rw [if_pos htail]
    rw [hswing]
    refine ⟨v.j + 1, Nat.le_succ _, ?_⟩
    refine inv_static (t := t) hI (fun u hu => rfl) rfl rfl rfl rfl ?_ (fun x n hn => ⟨n, hn⟩) ?_
      (fun _ _ h => h) (Nat.le_refl _) (Nat.le_succ _) (fun _ _ _ _ h => h) fun n hn => .inl hn
    · exact { hI.linked with tail := hnext, le := Nat.le_succ_of_le hI.linked.le }
    · exact (hI.pcs t).mono (fun _ _ h => h) (Nat.le_refl _) (Nat.le_succ _) (fun _ _ h => h)
        fun _ _ h => h
  · refine ⟨v.j, Nat.le_refl _, ?_⟩
    have hswing : s.swing tail next = s := by
      unfold State.swing
      rw [if_neg htail]
    rw [hswing]
    exact hI

/-- **`head_` moves on by one**, and the old sentinel is to be retired. -/
theorem inv_cas (hI : QueueInv s v) {head next : Ptr π} {tmp : α}
    (hpc : (s.thread t).pc = .deqCas head next tmp) (hhead : s.head.addr = head.addr) :
    QueueInv
      { s.goto t (.finish [.reset 0, .reset 1, .retire head, .reset 1, .reset 0] (.got tmp)) with
        head := next } v.pop ∧ v.queue = tmp :: v.pop.queue := by
  have hL := hI.linked
  have hok := hI.pcs t
  obtain ⟨hcover, _⟩ := hok.anchored head (by rw [hpc]; rfl)
  have heq : s.head = head := head_eq hI hcover hhead
  have hfirst : v.node v.h = some head := heq ▸ hL.head
  have hnext : v.node (v.h + 1) = some next := by
    obtain ⟨k, hk, hk'⟩ := hok.linked head next (by rw [hpc]; rfl)
    rw [hL.nodup k v.h head hk hfirst] at hk'
    exact hk'
  have hlt : v.h < v.j := by
    obtain ⟨k, hk, _, hlt⟩ := hok.passed head (by rw [hpc]; rfl)
    exact hlt (hL.nodup k v.h head hk hfirst)
  have hvalue : v.hist[v.h + 1]? = some (next, some tmp) := by
    obtain ⟨k, hk⟩ := hok.copied next tmp (by rw [hpc]; rfl)
    rw [← hL.nodup k (v.h + 1) next (View.node_eq_some.mpr ⟨_, hk⟩) hnext]
    exact hk
  refine ⟨?_, View.queue_pop hvalue⟩
  -- the sentinel was nobody's to reclaim
  have hnowhere : ∀ k, head ∉ custody s k := by
    intro k hk
    obtain ⟨⟨i, hi, hx⟩, _⟩ := hI.unlinked k head hk
    have := hL.nodup i v.h head hx hfirst
    omega
  obtain ⟨s', hs'⟩ : ∃ s' : State τ π α, s' =
      { s.goto t (.finish [.reset 0, .reset 1, .retire head, .reset 1, .reset 0] (.got tmp)) with
        head := next } := ⟨_, rfl⟩
  have hself : s'.thread t = { s.thread t with
      pc := .finish [.reset 0, .reset 1, .retire head, .reset 1, .reset 0] (.got tmp) } := by
    simp only [hs', State.goto, with_self]
  have hother : ∀ u, u ≠ t → s'.thread u = s.thread u := by
    intro u hu
    simp only [hs', State.goto, with_other _ hu]
  have hmine : custody s' (some t) = custody s (some t) ++ [head] := by
    simp only [custody, hself, hpc]
    simp
  have hrest : ∀ k, k ≠ some t → custody s' k = custody s k := by
    intro k hk
    cases k with
    | none => simp only [custody, hs', State.goto, State.with]
    | some u => exact custody_rest hother _ (by simp) hk
  rw [← hs']
  refine inv_of (t := t) hI hother ?_ ?_ (fun _ _ h => h) (Nat.le_succ _) (Nat.le_refl _)
    (fun _ _ _ _ h => ?_) (fun _ _ _ _ h => ?_) ?_ ?_ ?_ (fun x => ?_) ?_
  · rw [hs']
    exact { hL with
      head := hnext, le := hlt
      live := fun k x hk hx => hL.live k x (Nat.le_of_succ_le hk) hx }
  · rw [hself]
    constructor <;> simp
  · rw [hs']
    exact h
  · rw [hs']
    exact h
  · rw [hself]
    simp
  · intro u i x hx
    have hx' : (s.thread u).cover i = some x := by
      by_cases hu : u = t
      · rw [hu, hself] at hx
        rw [hu]
        exact hx
      · rwa [hother u hu] at hx
    rw [hs']
    exact hI.covered u i x hx'
  · have hlocs : (fun u => (s'.thread u).loc) = fun u => (s.thread u).loc := by
      funext u
      by_cases hu : u = t
      · rw [hu, hself]
      · rw [hother u hu]
    have hcovers : (fun u => (s'.thread u).cover) = fun u => (s.thread u).cover := by
      funext u
      by_cases hu : u = t
      · rw [hu, hself]
      · rw [hother u hu]
    rw [hlocs, hcovers, hs']
    exact hI.guarded
  · by_cases hx : x = head
    · subst hx
      refine Once.put hnowhere hrest ?_
      rw [hmine, List.count_append, List.count_eq_zero.mpr (hnowhere _)]
      simp
    · refine (hI.once x).transfer (a := some t) (b := none) (by simp) (fun k hk _ => hrest k hk) ?_
      rw [hmine, hrest none (by simp), List.count_append]
      have hzero : List.count x [head] = 0 := by
        rw [List.count_eq_zero, List.mem_singleton]
        exact hx
      omega
  · intro k x hx
    have hcases : x ∈ custody s k ∨ x = head := by
      by_cases hk : k = some t
      · rw [hk, hmine, List.mem_append, List.mem_singleton] at hx
        rw [hk]
        exact hx
      · rw [hrest k hk] at hx
        exact .inl hx
    rw [hs']
    rcases hcases with hx | rfl
    · obtain ⟨⟨i, hi, hx'⟩, hn⟩ := hI.unlinked k x hx
      exact ⟨⟨i, Nat.lt_succ_of_lt hi, hx'⟩, hn⟩
    · exact ⟨⟨v.h, Nat.lt_succ_self _, hfirst⟩, hL.live v.h x (Nat.le_refl _) hfirst⟩

end Steps

end CrossMachine.Queue
