import CrossMachine.Queue.Steps

/-!
# The program, point by point

Each point of `enqueue` and `dequeue` is left by one atomic operation. Here is, for every
point, what the thread knows when it has left it, and which turn of the queue that was
(`Sound`). A thread is never at a loss: what it reads through a pointer is what a slot of
its covers, and that is still there.

The operation of an `enqueue` happens when its node is linked in, that of a `dequeue` that
gets something when `head_` moves. A `dequeue` that finds nothing has looked when it read
`head->next` for the second time. It does not know that until `head_` has been compared once
more, and by then there may be something in the queue again.
-/

namespace CrossMachine.Queue

open Lib Reclaim Reclaim.Hazard

variable {τ α π : Type*} [DecidableEq τ] [DecidableEq π] {s s' : State τ π α} {v : View π α}
  {t : τ} {weak : Bool} {a : π} {ev : List (Event π α)}

/-- What there is to say about a step of thread `t`. -/
def Sound (s : State τ π α) (v : View π α) (t : τ) (s' : State τ π α) (ev : List (Event π α)) :
    Prop :=
  ∃ v' es, ev = es.map Event.client ∧ (∀ u, u ≠ t → s'.thread u = s.thread u) ∧ QueueInv s' v' ∧
    Turn fifo s.clock s'.clock v.queue v'.queue (s.thread t).status (s'.thread t).status es

/-! ## Steps that nobody sees -/

variable {pc : Pc π α} {x tail next node head : Ptr π}

/-- The thread goes on to another point, and what it is at stays undecided. -/
theorem sound_goto (hI : QueueInv s v) (hmine : PcOk s.dom s.heap v { s.thread t with pc := pc })
    (howed : pc.owed = (s.thread t).pc.owed)
    (hnode : ∀ n, pc.node = some n → (s.thread t).pc.node = some n)
    (hphase : pc.phase = (s.thread t).pc.phase ∨
      ∃ r, (s.thread t).pc.phase = .looked r ∧ pc.phase = .pending) :
    Sound s v t (s.goto t pc) [] := by
  refine ⟨v, [], rfl, fun u hu => with_other _ hu, inv_goto hI hmine howed hnode, ?_⟩
  simp only [State.goto, with_self]
  exact .silent rfl (Nat.le_refl _) rfl rfl hphase

theorem sound_announce (hI : QueueInv s v) (hop : (s.thread t).loc.op = .idle) {i : Slot}
    {p : Option π} (howed : pc.owed = (s.thread t).pc.owed) (hmine : PcOk s.dom s.heap v
      { s.thread t with
        loc := (s.thread t).loc.setSlot i p, pc := pc
        cover := Function.update (s.thread t).cover i none })
    (hnode : ∀ n, pc.node = some n → (s.thread t).pc.node = some n)
    (hphase : pc.phase = (s.thread t).pc.phase) : Sound s v t (s.announce t i p pc) [] := by
  refine ⟨v, [], rfl, fun u hu => with_other _ hu, inv_announce hI hop howed hmine hnode, ?_⟩
  simp only [State.announce, with_self]
  exact .silent rfl (Nat.le_refl _) rfl rfl (.inl hphase)

theorem sound_protect (hI : QueueInv s v) (hop : (s.thread t).loc.op = .idle) {i : Slot}
    (hwill : Will s.dom (s.thread t).loc i (some x.addr)) {k : Nat} (hk : v.h ≤ k)
    (hx : v.node k = some x) (howed : pc.owed = (s.thread t).pc.owed) (hmine : PcOk s.dom s.heap v
      { s.thread t with pc := pc, cover := Function.update (s.thread t).cover i (some x) })
    (hnode : ∀ n, pc.node = some n → (s.thread t).pc.node = some n)
    (hphase : pc.phase = (s.thread t).pc.phase) : Sound s v t (s.protect t i x pc) [] := by
  refine ⟨v, [], rfl, fun u hu => with_other _ hu,
    inv_protect hI hop hwill hk hx howed hmine hnode, ?_⟩
  simp only [State.protect, with_self]
  exact .silent rfl (Nat.le_refl _) rfl rfl (.inl hphase)

/-- `tail_` is helped on, and the thread goes on. -/
theorem sound_swing (hI : QueueInv s v) (hanchor : (s.thread t).pc.anchor = some x)
    (haddr : tail.addr = x.addr) (hlink : (s.thread t).pc.link = some (x, next))
    (hmine : ∀ v', PcOk s.dom s.heap v' (s.thread t) →
      PcOk s.dom s.heap v' { s.thread t with pc := pc }) (howed : pc.owed = (s.thread t).pc.owed)
    (hnode : ∀ n, pc.node = some n → (s.thread t).pc.node = some n)
    (hphase : pc.phase = (s.thread t).pc.phase) :
    Sound s v t ((s.swing tail next).goto t pc) [] := by
  obtain ⟨hcover, _⟩ := (hI.pcs t).anchored x hanchor
  obtain ⟨k, hx, hnext⟩ := (hI.pcs t).linked x next hlink
  obtain ⟨j, _, hI'⟩ := inv_swing hI hcover haddr hx hnext
  have hsame : (s.swing tail next).thread = s.thread ∧ (s.swing tail next).dom = s.dom ∧
      (s.swing tail next).heap = s.heap ∧ (s.swing tail next).clock = s.clock := by
    unfold State.swing
    split <;> exact ⟨rfl, rfl, rfl, rfl⟩
  obtain ⟨hthread, hdom, hheap, hclock⟩ := hsame
  have hok := hI'.pcs t
  rw [hthread, hdom, hheap] at hok
  refine ⟨{ v with j := j }, [], rfl, fun u hu => ?_, inv_goto hI' ?_ ?_ ?_, ?_⟩
  · simp only [State.goto, with_other _ hu, hthread]
  · rw [hthread, hdom, hheap]
    exact hmine _ hok
  · rw [hthread]
    exact howed
  · rw [hthread]
    exact hnode
  · have hclock' : ((s.swing tail next).goto t pc).clock = s.clock := hclock
    simp only [State.goto, with_self, hthread] at hclock' ⊢
    rw [hclock']
    exact .silent rfl (Nat.le_refl _) rfl rfl (.inl hphase)

/-! ## Where a loop begins again -/

omit [DecidableEq π] in
theorem pcOk_enqLoad {D : Domain (Ptr π) π} {heap : π → Option (Node π α)} {th : Thread π α}
    (hok : PcOk D heap v th) (hnode : th.pc.node = some node) :
    PcOk D heap v { th with pc := .enqLoad node } := by
  constructor
  case own =>
      intro n hn
      simp only [Pc.node] at hn
      exact hok.own n (hnode.trans hn)
  all_goals simp

omit [DecidableEq π] in
theorem pcOk_deqLoad {D : Domain (Ptr π) π} {heap : π → Option (Node π α)} {th : Thread π α}
    (hok : PcOk D heap v th) (hdeq : th.pc.dequeuing = true) :
    PcOk D heap v { th with pc := .deqLoad } := by
  constructor
  case dequeuing => exact fun _ => hok.dequeuing hdeq
  all_goals simp

/-- `enqueue` starts over. -/
theorem sound_enqLoad (hI : QueueInv s v) (hnode : (s.thread t).pc.node = some node)
    (howed : (s.thread t).pc.owed = []) (hphase : (s.thread t).pc.phase = .pending) :
    Sound s v t (s.goto t (.enqLoad node)) [] := by
  refine sound_goto hI (pcOk_enqLoad (hI.pcs t) hnode) howed.symm ?_ (.inl hphase.symm)
  intro n hn
  simp only [Pc.node] at hn
  rw [hnode, hn]

/-- `dequeue` starts over. -/
theorem sound_deqLoad (hI : QueueInv s v) (hdeq : (s.thread t).pc.dequeuing = true)
    (howed : (s.thread t).pc.owed = [])
    (hphase : (s.thread t).pc.phase = .pending ∨ (s.thread t).pc.phase = .looked .empty) :
    Sound s v t (s.goto t .deqLoad) [] := by
  refine sound_goto hI (pcOk_deqLoad (hI.pcs t) hdeq) howed.symm (by simp) ?_
  rcases hphase with hphase | hphase
  · exact .inl hphase.symm
  · exact .inr ⟨_, hphase, rfl⟩

omit [DecidableEq τ] in
/-- What a thread reads through the pointer in its first slot. -/
theorem read_anchor (hI : QueueInv s v) (hx : (s.thread t).pc.anchor = some x) :
    ∃ n k, deref s.heap x = some n ∧ v.node k = some x ∧ n.next = v.node (k + 1) := by
  obtain ⟨hcover, k, hk, _⟩ := (hI.pcs t).anchored x hx
  obtain ⟨n, hn⟩ := hI.covered t 0 x hcover
  obtain ⟨d, hd⟩ := View.node_eq_some.mp hk
  exact ⟨n, k, hn, hk, (hI.linked.cells k x d n hd hn).2⟩

/-! ## `enqueue` -/

theorem sound_alloc (hI : QueueInv s v) {val : α} (hpc : (s.thread t).pc = .alloc val)
    (h : go s t weak a = some (s', ev)) : Sound s v t s' ev := by
  simp only [go, hpc] at h
  split at h
  · rename_i ha
    cases h
    refine ⟨v, [], rfl, fun u hu => with_other _ hu, inv_alloc hI hpc ha, ?_⟩
    simp only [State.goto, with_self]
    exact .silent rfl (Nat.le_succ _) rfl rfl (.inl (by simp [hpc]))
  · cases h

theorem sound_enqProtect (hI : QueueInv s v) (hop : (s.thread t).loc.op = .idle)
    (hpc : (s.thread t).pc = .enqLoad node) (h : go s t weak a = some (s', ev)) :
    Sound s v t s' ev := by
  simp only [go, hpc, Option.some.injEq, Prod.mk.injEq] at h
  obtain ⟨rfl, rfl⟩ := h
  refine sound_announce hI hop (by simp [hpc]) ?_ (by simp [hpc]) (by simp [hpc])
  constructor
  case own => exact fun n hn => (hI.pcs t).own n (by simpa [hpc] using hn)
  case promised =>
      intro i p hp
      simp only [Pc.promised, List.mem_singleton, Prod.mk.injEq] at hp
      obtain ⟨rfl, rfl⟩ := hp
      exact will_setSlot s.dom (s.thread t).loc 0 _
  all_goals simp

theorem sound_enqValidate (hI : QueueInv s v) (hop : (s.thread t).loc.op = .idle)
    (hpc : (s.thread t).pc = .enqValidate node tail) (h : go s t weak a = some (s', ev)) :
    Sound s v t s' ev := by
  simp only [go, hpc] at h
  split at h
  · rename_i haddr
    cases h
    have hwill : Will s.dom (s.thread t).loc 0 (some s.tail.addr) := by
      rw [haddr]
      exact (hI.pcs t).promised 0 _ (by simp [hpc])
    refine sound_protect hI hop hwill hI.linked.le hI.linked.tail (by simp [hpc]) ?_ (by simp [hpc])
      (by simp [hpc])
    constructor
    case own => exact fun n hn => (hI.pcs t).own n (by simpa [hpc] using hn)
    case anchored =>
        intro x hx
        simp only [Pc.anchor, Option.some.injEq] at hx
        subst hx
        exact ⟨by simp, v.j, hI.linked.tail, by simp⟩
    all_goals simp
  · cases h
    exact sound_enqLoad hI (by simp [hpc]) (by simp [hpc]) (by simp [hpc])

theorem sound_enqNext (hI : QueueInv s v) (hpc : (s.thread t).pc = .enqNext node tail)
    (h : go s t weak a = some (s', ev)) : Sound s v t s' ev := by
  obtain ⟨n, k, hn, hk, hnext⟩ := read_anchor hI (t := t) (x := tail) (by simp [hpc])
  simp only [go, hpc, hn, Option.some.injEq, Prod.mk.injEq] at h
  obtain ⟨rfl, rfl⟩ := h
  refine sound_goto hI ?_ (by simp [hpc]) (by simp [hpc]) (.inl (by simp [hpc]))
  constructor
  case own => exact fun m hm => (hI.pcs t).own m (by simpa [hpc] using hm)
  case anchored =>
      intro x hx
      have hold := (hI.pcs t).anchored x (by simpa [hpc] using hx)
      simpa [hpc] using hold
  case linked =>
      intro x y hxy
      cases hy : n.next with
      | none => simp [hy] at hxy
      | some z =>
          simp only [hy, Pc.link, Option.some.injEq, Prod.mk.injEq] at hxy
          obtain ⟨rfl, rfl⟩ := hxy
          exact ⟨k, hk, hnext.symm.trans hy⟩
  all_goals simp

theorem sound_enqCheck (hI : QueueInv s v) {next : Option (Ptr π)}
    (hpc : (s.thread t).pc = .enqCheck node tail next) (h : go s t weak a = some (s', ev)) :
    Sound s v t s' ev := by
  have hown : ∀ m, some node = some m → Private s.heap v (s.thread t).op m :=
    fun m hm => (hI.pcs t).own m (by simpa [hpc] using hm)
  have hanchored := (hI.pcs t).anchored tail (by simp [hpc])
  simp only [hpc, Pc.dequeuing] at hanchored
  simp only [go, hpc] at h
  split at h
  · split at h
    · cases h
      refine sound_goto hI ?_ (by simp [hpc]) (by simp [hpc]) (.inl (by simp [hpc]))
      constructor
      case own => exact hown
      case anchored =>
          intro x hx
          simp only [Pc.anchor, Option.some.injEq] at hx
          exact hx ▸ hanchored
      all_goals simp
    · rename_i next
      cases h
      refine sound_goto hI ?_ (by simp [hpc]) (by simp [hpc]) (.inl (by simp [hpc]))
      constructor
      case own => exact hown
      case anchored =>
          intro x hx
          simp only [Pc.anchor, Option.some.injEq] at hx
          exact hx ▸ hanchored
      case linked => exact fun x y hxy => (hI.pcs t).linked x y (by simpa [hpc] using hxy)
      all_goals simp
  · cases h
    exact sound_enqLoad hI (by simp [hpc]) (by simp [hpc]) (by simp [hpc])

/-- Where an `enqueue` happens. -/
theorem sound_enqLink (hI : QueueInv s v) (hpc : (s.thread t).pc = .enqLink node tail)
    (h : go s t weak a = some (s', ev)) : Sound s v t s' ev := by
  obtain ⟨n, k, hn, hk, _⟩ := read_anchor hI (t := t) (x := tail) (by simp [hpc])
  simp only [go, hpc, hn] at h
  split at h
  · rename_i hlast
    cases h
    obtain ⟨val, hval, hI'⟩ := inv_link hI hpc hn hlast.1
    refine ⟨v.link node val, [], rfl, fun u hu => with_other _ hu, hI', ?_⟩
    simp only [State.goto, with_self]
    refine .commits (r := .done) (Nat.le_refl _) rfl rfl (by simp [hpc]) (by simp) ?_
    simp only [Thread.status, hval, View.queue_link val hI.linked.head node]
    rfl
  · cases h
    exact sound_enqLoad hI (by simp [hpc]) (by simp [hpc]) (by simp [hpc])

theorem sound_enqSwing (hI : QueueInv s v) (hpc : (s.thread t).pc = .enqSwing node tail)
    (h : go s t weak a = some (s', ev)) : Sound s v t s' ev := by
  simp only [go, hpc, Option.some.injEq, Prod.mk.injEq] at h
  obtain ⟨rfl, rfl⟩ := h
  refine sound_swing hI (x := tail) (by simp [hpc]) rfl (by simp [hpc]) (fun v' _ => ?_)
    (by simp [hpc]) (by simp) (by simp [hpc])
  constructor <;> simp

theorem sound_enqHelp (hI : QueueInv s v) (hpc : (s.thread t).pc = .enqHelp node tail next)
    (h : go s t weak a = some (s', ev)) : Sound s v t s' ev := by
  simp only [go, hpc, Option.some.injEq, Prod.mk.injEq] at h
  obtain ⟨rfl, rfl⟩ := h
  exact sound_swing hI (x := tail) (by simp [hpc]) rfl (by simp [hpc])
    (fun v' hok => pcOk_enqLoad hok (by simp [hpc])) (by simp [hpc]) (by simp [hpc]) (by simp [hpc])

/-! ## `dequeue` -/

theorem sound_deqProtect (hI : QueueInv s v) (hop : (s.thread t).loc.op = .idle)
    (hpc : (s.thread t).pc = .deqLoad) (h : go s t weak a = some (s', ev)) :
    Sound s v t s' ev := by
  have hdeq := (hI.pcs t).dequeuing (by simp [hpc])
  simp only [go, hpc, Option.some.injEq, Prod.mk.injEq] at h
  obtain ⟨rfl, rfl⟩ := h
  refine sound_announce hI hop (by simp [hpc]) ?_ (by simp) (by simp [hpc])
  constructor
  case promised =>
      intro i p hp
      simp only [Pc.promised, List.mem_singleton, Prod.mk.injEq] at hp
      obtain ⟨rfl, rfl⟩ := hp
      exact will_setSlot s.dom (s.thread t).loc 0 _
  case dequeuing => exact fun _ => hdeq
  all_goals simp

theorem sound_deqValidate (hI : QueueInv s v) (hop : (s.thread t).loc.op = .idle)
    (hpc : (s.thread t).pc = .deqValidate head) (h : go s t weak a = some (s', ev)) :
    Sound s v t s' ev := by
  have hdeq := (hI.pcs t).dequeuing (by simp [hpc])
  simp only [go, hpc] at h
  split at h
  · rename_i haddr
    cases h
    have hwill : Will s.dom (s.thread t).loc 0 (some s.head.addr) := by
      rw [haddr]
      exact (hI.pcs t).promised 0 _ (by simp [hpc])
    refine sound_protect hI hop hwill (Nat.le_refl _) hI.linked.head (by simp [hpc]) ?_ (by simp)
      (by simp [hpc])
    constructor
    case anchored =>
        intro x hx
        simp only [Pc.anchor, Option.some.injEq] at hx
        subst hx
        exact ⟨by simp, v.h, hI.linked.head, fun _ => Nat.le_refl _⟩
    case dequeuing => exact fun _ => hdeq
    all_goals simp
  · cases h
    exact sound_deqLoad hI (by simp [hpc]) (by simp [hpc]) (.inl (by simp [hpc]))

theorem sound_deqNext (hI : QueueInv s v) (hop : (s.thread t).loc.op = .idle)
    (hpc : (s.thread t).pc = .deqNext head) (h : go s t weak a = some (s', ev)) :
    Sound s v t s' ev := by
  have hdeq := (hI.pcs t).dequeuing (by simp [hpc])
  obtain ⟨n, _, hn, _⟩ := read_anchor hI (t := t) (x := head) (by simp [hpc])
  simp only [go, hpc, hn, Option.some.injEq, Prod.mk.injEq] at h
  obtain ⟨rfl, rfl⟩ := h
  refine sound_announce hI hop (by simp [hpc]) ?_ (by simp) (by simp [hpc])
  constructor
  case promised =>
      intro i p hp
      simp only [Pc.promised, List.mem_singleton, Prod.mk.injEq] at hp
      obtain ⟨rfl, rfl⟩ := hp
      exact will_setSlot s.dom (s.thread t).loc 1 _
  case anchored =>
      intro x hx
      have hold := (hI.pcs t).anchored x (by simpa [hpc] using hx)
      simpa [hpc] using hold
  case dequeuing => exact fun _ => hdeq
  all_goals simp

omit [DecidableEq τ] in
/-- When nothing follows a sentinel, it is the one that `head_` points to, and the queue is
empty. -/
theorem queue_of_last (hI : QueueInv s v) {k : Nat} (hle : k ≤ v.h)
    (hlast : v.node (k + 1) = none) : v.queue = [] := by
  have hlen := View.le_of_node_none hlast
  have hlt := View.lt_of_node hI.linked.head
  unfold View.queue
  rw [List.drop_eq_nil_of_le (by omega)]
  rfl

/-- Where a `dequeue` that finds nothing happens, if it does. -/
theorem sound_deqRevalidate (hI : QueueInv s v) {next : Option (Ptr π)}
    (hpc : (s.thread t).pc = .deqRevalidate head next) (h : go s t weak a = some (s', ev)) :
    Sound s v t s' ev := by
  have hdeq := (hI.pcs t).dequeuing (by simp [hpc])
  have hwill := (hI.pcs t).promised 1 (next.map Ptr.addr) (by simp [hpc])
  obtain ⟨hcover, k, hk, hle⟩ := (hI.pcs t).anchored head (by simp [hpc])
  obtain ⟨n, k', hn, hk', hnext⟩ := read_anchor hI (t := t) (x := head) (by simp [hpc])
  obtain rfl : k' = k := hI.linked.nodup k' k head hk' hk
  have hle : k' ≤ v.h := hle (by simp [hpc])
  simp only [go, hpc, hn] at h
  split at h
  · rename_i haddr
    cases h
    have hok : PcOk s.dom s.heap v { s.thread t with pc := .deqCheck head n.next } := by
      constructor
      case promised =>
          intro i p hp
          simp only [Pc.promised, List.mem_singleton, Prod.mk.injEq] at hp
          obtain ⟨rfl, rfl⟩ := hp
          rw [haddr]
          exact hwill
      case anchored =>
          intro x hx
          simp only [Pc.anchor, Option.some.injEq] at hx
          subst hx
          exact ⟨hcover, k', hk, fun _ => hle⟩
      case linked =>
          intro x y hxy
          cases hy : n.next with
          | none => simp [hy] at hxy
          | some z =>
              simp only [hy, Pc.link, Option.some.injEq, Prod.mk.injEq] at hxy
              obtain ⟨rfl, rfl⟩ := hxy
              exact ⟨k', hk, hnext.symm.trans hy⟩
      case dequeuing => exact fun _ => hdeq
      all_goals simp
    cases hy : n.next with
    | some z =>
        rw [hy] at hok
        exact sound_goto hI hok (by simp [hpc]) (by simp) (.inl (by simp [hpc]))
    | none =>
        rw [hy] at hok hnext
        have hempty := queue_of_last hI hle hnext.symm
        refine ⟨v, [], rfl, fun u hu => with_other _ hu,
          inv_goto hI hok (by simp [hpc]) (by simp), ?_⟩
        simp only [State.goto, with_self]
        refine .looks (r := .empty) rfl (Nat.le_refl _) rfl rfl (by simp [hpc]) (by simp) ?_
        simp only [Thread.status, hdeq, hempty]
        rfl
  · cases h
    refine sound_goto hI ?_ (by simp [hpc]) (by simp) (.inl (by simp [hpc]))
    constructor
    case anchored =>
        intro x hx
        simp only [Pc.anchor, Option.some.injEq] at hx
        subst hx
        exact ⟨hcover, k', hk, fun _ => hle⟩
    case dequeuing => exact fun _ => hdeq
    all_goals simp

theorem sound_deqCheck (hI : QueueInv s v) (hop : (s.thread t).loc.op = .idle)
    {next : Option (Ptr π)} (hpc : (s.thread t).pc = .deqCheck head next)
    (h : go s t weak a = some (s', ev)) : Sound s v t s' ev := by
  have hok := hI.pcs t
  have hdeq := hok.dequeuing (by simp [hpc])
  obtain ⟨hcover, k, hk, hle⟩ := hok.anchored head (by simp [hpc])
  have hle : k ≤ v.h := hle (by simp [hpc])
  simp only [go, hpc] at h
  split at h
  · rename_i haddr
    split at h
    · cases h
      refine sound_goto hI ?_ (by simp [hpc]) (by simp) (.inl (by simp [hpc]))
      constructor <;> simp
    · rename_i next
      cases h
      -- `head` still is the sentinel, so what follows it is not retired
      have hhead : v.node v.h = some head := head_eq hI hcover haddr ▸ hI.linked.head
      have hnext : v.node (v.h + 1) = some next := by
        obtain ⟨i, hi, hi'⟩ := hok.linked head next (by simp [hpc])
        rw [hI.linked.nodup i v.h head hi hhead] at hi'
        exact hi'
      refine sound_protect hI hop (hok.promised 1 _ (by simp [hpc])) (Nat.le_succ _) hnext
        (by simp [hpc]) ?_ (by simp) (by simp [hpc])
      constructor
      case anchored =>
          intro x hx
          simp only [Pc.anchor, Option.some.injEq] at hx
          subst hx
          exact ⟨by simpa using hcover, k, hk, fun _ => hle⟩
      case linked =>
          intro x y hxy
          simp only [Pc.link, Option.some.injEq, Prod.mk.injEq] at hxy
          obtain ⟨rfl, rfl⟩ := hxy
          exact ⟨v.h, hhead, hnext⟩
      case second =>
          intro y hy
          simp only [Pc.second, Option.some.injEq] at hy
          subst hy
          simp
      case dequeuing => exact fun _ => hdeq
      all_goals simp
  · cases h
    refine sound_deqLoad hI (by simp [hpc]) (by simp [hpc]) ?_
    cases next with
    | none => exact .inr (by simp [hpc])
    | some next => exact .inl (by simp [hpc])

theorem sound_deqTail (hI : QueueInv s v) (hpc : (s.thread t).pc = .deqTail head next)
    (h : go s t weak a = some (s', ev)) : Sound s v t s' ev := by
  have hok := hI.pcs t
  have hdeq := hok.dequeuing (by simp [hpc])
  obtain ⟨hcover, k, hk, hle⟩ := hok.anchored head (by simp [hpc])
  have hle : k ≤ v.h := hle (by simp [hpc])
  have hlinked := hok.linked head next (by simp [hpc])
  have hsecond := hok.second next (by simp [hpc])
  simp only [go, hpc] at h
  split at h
  · rename_i haddr
    cases h
    refine sound_goto hI ?_ (by simp [hpc]) (by simp) (.inl (by simp [hpc]))
    constructor
    case anchored =>
        intro x hx
        simp only [Pc.anchor, Option.some.injEq] at hx
        subst hx
        exact ⟨hcover, k, hk, fun _ => hle⟩
    case linked =>
        intro x y hxy
        simp only [Pc.link, Option.some.injEq, Prod.mk.injEq] at hxy
        exact hxy.1 ▸ hxy.2 ▸ hlinked
    case second =>
        intro y hy
        simp only [Pc.second, Option.some.injEq] at hy
        exact hy ▸ hsecond
    case dequeuing => exact fun _ => hdeq
    case lagging =>
        intro head' next' tail' heq
        injection heq with hhead _ htail
        rw [← hhead, ← htail, haddr]
    all_goals simp
  · rename_i haddr
    cases h
    refine sound_goto hI ?_ (by simp [hpc]) (by simp) (.inl (by simp [hpc]))
    constructor
    case anchored =>
        intro x hx
        simp only [Pc.anchor, Option.some.injEq] at hx
        subst hx
        exact ⟨hcover, k, hk, fun _ => hle⟩
    case linked =>
        intro x y hxy
        simp only [Pc.link, Option.some.injEq, Prod.mk.injEq] at hxy
        exact hxy.1 ▸ hxy.2 ▸ hlinked
    case second =>
        intro y hy
        simp only [Pc.second, Option.some.injEq] at hy
        exact hy ▸ hsecond
    case passed =>
        intro x hx
        simp only [Pc.passed, Option.some.injEq] at hx
        subst hx
        refine ⟨k, hk, hle, fun heq => ?_⟩
        refine Nat.lt_of_le_of_ne hI.linked.le fun hhj => haddr ?_
        rw [heq, hhj, hI.linked.tail] at hk
        injection hk with hk
        rw [hk]
    case dequeuing => exact fun _ => hdeq
    all_goals simp

theorem sound_deqHelp (hI : QueueInv s v) (hpc : (s.thread t).pc = .deqHelp head next tail)
    (h : go s t weak a = some (s', ev)) : Sound s v t s' ev := by
  simp only [go, hpc, Option.some.injEq, Prod.mk.injEq] at h
  obtain ⟨rfl, rfl⟩ := h
  exact sound_swing hI (x := head) (by simp [hpc]) ((hI.pcs t).lagging head next tail hpc)
    (by simp [hpc]) (fun v' hok => pcOk_deqLoad hok (by simp [hpc])) (by simp [hpc]) (by simp)
    (by simp [hpc])

theorem sound_deqRead (hI : QueueInv s v) (hpc : (s.thread t).pc = .deqRead head next)
    (h : go s t weak a = some (s', ev)) : Sound s v t s' ev := by
  have hok := hI.pcs t
  have hdeq := hok.dequeuing (by simp [hpc])
  obtain ⟨n, hn⟩ := hI.covered t 1 next (hok.second next (by simp [hpc]))
  obtain ⟨k, hk, hnext⟩ := hok.linked head next (by simp [hpc])
  -- a node that follows another has a value
  obtain ⟨d, hd⟩ := View.node_eq_some.mp hnext
  obtain ⟨val, rfl⟩ := hI.linked.values k next d hd
  have hdata := (hI.linked.cells (k + 1) next _ n hd hn).1
  simp only [go, hpc, hn, Option.bind_some, hdata, Option.some.injEq, Prod.mk.injEq] at h
  obtain ⟨rfl, rfl⟩ := h
  refine sound_goto hI ?_ (by simp [hpc]) (by simp) (.inl (by simp [hpc]))
  constructor
  case anchored =>
      intro x hx
      have hold := hok.anchored x (by simpa [hpc] using hx)
      simpa [hpc] using hold
  case linked => exact fun x y hxy => hok.linked x y (by simpa [hpc] using hxy)
  case passed => exact fun x hx => hok.passed x (by simpa [hpc] using hx)
  case copied =>
      intro y d hy
      simp only [Pc.copied, Option.some.injEq, Prod.mk.injEq] at hy
      obtain ⟨rfl, rfl⟩ := hy
      exact ⟨k + 1, hd⟩
  case dequeuing => exact fun _ => hdeq
  all_goals simp

/-- Where a `dequeue` that gets something happens. -/
theorem sound_deqCas (hI : QueueInv s v) {tmp : α} (hpc : (s.thread t).pc = .deqCas head next tmp)
    (h : go s t weak a = some (s', ev)) : Sound s v t s' ev := by
  have hdeq := (hI.pcs t).dequeuing (by simp [hpc])
  simp only [go, hpc] at h
  split at h
  · rename_i hhead
    cases h
    obtain ⟨hI', hq⟩ := inv_cas hI hpc hhead.1
    refine ⟨v.pop, [], rfl, fun u hu => with_other _ hu, hI', ?_⟩
    simp only [State.goto, with_self]
    refine .commits (r := .got tmp) (Nat.le_refl _) rfl rfl (by simp [hpc]) (by simp) ?_
    simp only [Thread.status, hdeq, hq]
    rfl
  · cases h
    exact sound_deqLoad hI (by simp [hpc]) (by simp [hpc]) (.inl (by simp [hpc]))

/-! ## The way out -/

theorem sound_finish (hI : QueueInv s v) (hop : (s.thread t).loc.op = .idle)
    {chores : List (Chore π)} {res : Res α} (hpc : (s.thread t).pc = .finish chores res)
    (h : go s t weak a = some (s', ev)) : Sound s v t s' ev := by
  have hphase : ∀ chores' : List (Chore π),
      (Pc.finish chores' res).phase = (s.thread t).pc.phase := by
    intro chores'
    rw [hpc]
    cases res <;> simp
  match chores with
  | [] =>
      simp only [go, hpc, Option.some.injEq, Prod.mk.injEq] at h
      obtain ⟨rfl, rfl⟩ := h
      have hdone : (s.thread t).pc.phase = .done res ∨ (s.thread t).pc.phase = .looked res := by
        rw [hpc]
        cases res <;> simp
      refine ⟨v, [_], rfl, fun u hu => with_other _ hu,
        inv_goto hI ?_ (by simp [hpc]) (by simp), ?_⟩
      · constructor <;> simp
      · simp only [State.goto, with_self]
        exact .returns rfl (Nat.le_refl _) hdone (by simp)
  | .reset i :: chores =>
      simp only [go, hpc, Option.some.injEq, Prod.mk.injEq] at h
      obtain ⟨rfl, rfl⟩ := h
      refine sound_announce hI hop (by simp [hpc]) ?_ (by simp) (hphase chores)
      constructor <;> simp
  | .retire x :: chores =>
      simp only [go, hpc, Option.some.injEq, Prod.mk.injEq] at h
      obtain ⟨rfl, rfl⟩ := h
      refine ⟨v, [], rfl, fun u hu => with_other _ hu, inv_retire hI hop hpc, ?_⟩
      simp only [with_self]
      exact .silent rfl (Nat.le_refl _) rfl rfl (.inl (hphase chores))

/-! ## Every step -/

theorem sound_go (hI : QueueInv s v) (hop : (s.thread t).loc.op = .idle)
    (h : go s t weak a = some (s', ev)) : Sound s v t s' ev := by
  cases hpc : (s.thread t).pc with
  | idle => simp [go, hpc] at h
  | crashed => simp [go, hpc] at h
  | alloc val => exact sound_alloc hI hpc h
  | enqLoad node => exact sound_enqProtect hI hop hpc h
  | enqValidate node tail => exact sound_enqValidate hI hop hpc h
  | enqNext node tail => exact sound_enqNext hI hpc h
  | enqCheck node tail next => exact sound_enqCheck hI hpc h
  | enqLink node tail => exact sound_enqLink hI hpc h
  | enqSwing node tail => exact sound_enqSwing hI hpc h
  | enqHelp node tail next => exact sound_enqHelp hI hpc h
  | deqLoad => exact sound_deqProtect hI hop hpc h
  | deqValidate head => exact sound_deqValidate hI hop hpc h
  | deqNext head => exact sound_deqNext hI hop hpc h
  | deqRevalidate head next => exact sound_deqRevalidate hI hpc h
  | deqCheck head next => exact sound_deqCheck hI hop hpc h
  | deqTail head next => exact sound_deqTail hI hpc h
  | deqHelp head next tail => exact sound_deqHelp hI hpc h
  | deqRead head next => exact sound_deqRead hI hpc h
  | deqCas head next tmp => exact sound_deqCas hI hpc h
  | finish chores res => exact sound_finish hI hop hpc h

theorem sound_begin (hI : QueueInv s v) (hop : (s.thread t).loc.op = .idle)
    (hpc : (s.thread t).pc = .idle) {c : Call α} (h : begin s t c = some (s', ev)) :
    Sound s v t s' ev := by
  cases c with
  | run op =>
      simp only [begin, Option.some.injEq, Prod.mk.injEq] at h
      obtain ⟨rfl, rfl⟩ := h
      refine ⟨v, [_], rfl, fun u hu => with_other _ hu, inv_invoke hI hpc op rfl, ?_⟩
      simp only [with_self]
      cases op with
      | enqueue val => exact .invokes rfl rfl rfl (by simp [hpc]) (by simp)
      | dequeue => exact .invokes rfl rfl rfl (by simp [hpc]) (by simp)
  | drain =>
      simp only [begin, Option.some.injEq, Prod.mk.injEq] at h
      obtain ⟨rfl, rfl⟩ := h
      refine ⟨v, [], rfl, fun u hu => with_other _ hu, inv_drain hI hop, ?_⟩
      simp only [with_self]
      exact .silent rfl (Nat.le_refl _) rfl rfl (.inl rfl)
  | exit =>
      simp only [begin] at h
      split at h
      · rename_i hcover
        cases h
        refine ⟨v, [], rfl, fun u hu => with_other _ hu, inv_exit hI hop hpc hcover, ?_⟩
        simp only [with_self]
        exact .silent rfl (Nat.le_refl _) rfl rfl (.inl rfl)
      · cases h

/-- **Every step of every thread** keeps the queue in order. -/
theorem step_sound {act : Action τ π α} (hI : QueueInv s v) (h : step s act = some (s', ev)) :
    ∃ t, Sound s v t s' ev := by
  cases act with
  | call t c =>
      simp only [step] at h
      split at h
      · exact ⟨t, sound_begin hI (by assumption) (by assumption) h⟩
      · cases h
  | run t weak a =>
      refine ⟨t, ?_⟩
      simp only [step] at h
      split at h
      · exact sound_go hI (by assumption) h
      · simp only [Option.map_eq_some_iff, Prod.exists, Prod.mk.injEq] at h
        obtain ⟨D, l, hev, hrun, rfl, rfl⟩ := h
        refine ⟨v, [], rfl, fun u hu => with_other _ hu, inv_domain hI (run_moves hrun), ?_⟩
        simp only [with_self]
        exact .silent rfl (Nat.le_refl _) rfl rfl (.inl rfl)

end CrossMachine.Queue
