import CrossMachine.Lib.Bits
import CrossMachine.Lib.Ledger
import CrossMachine.Lib.Prefix
import CrossMachine.Lib.Run
import Mathlib.Data.Nat.ModEq

/-!
# The queue of one producer and one consumer

`SpscQueue` of `spsc_queue.h`, one atomic operation at a time. `tail_` is written by the
producer alone and `head_` by the consumer alone, and each of them reads the other's index
once in a call. What it has read may be out of date a moment later, but only to its advantage:
to the producer there may be more room than it knows of, to the consumer more values.

The indices wrap around and say nothing about how often they have done so. So the proof counts
(`View`): the values that have been pushed so far, and how many of them have been taken. That
the two counts are never `N` apart is what the slot that stays free is for.

A `push` happens when `tail_` is stored, or when `head_` is read and there is no room; a `pop`
when `head_` is stored, or when `tail_` is read and there is nothing.
-/

namespace CrossMachine.Queue.Spsc

open Lib

variable {α : Type*}

inductive Op (α : Type*) where
  | push (val : α)
  | pop
  deriving DecidableEq, Repr

inductive Res (α : Type*) where
  /-- `push` returns true. -/
  | ok
  /-- `push` returns false. -/
  | full
  /-- `pop` returns true. A slot that nothing was stored in has no value. -/
  | got (val : Option α)
  /-- `pop` returns false. -/
  | empty
  deriving DecidableEq, Repr

/-- What the producer does next. The names of the arguments are those of the variables. -/
inductive Producer (α : Type*) where
  | idle
  /-- Before the load of `tail_`. -/
  | loadTail (val : α)
  /-- Before the load of `head_`. -/
  | loadHead (val : α) (tail : Nat)
  /-- There is room; before the value is stored. -/
  | write (val : α) (tail : Nat)
  /-- Before `tail_` is stored. -/
  | storeTail (val : α) (tail : Nat)
  | finish (val : α) (res : Res α)
  deriving DecidableEq, Repr

/-- What the consumer does next. -/
inductive Consumer (α : Type*) where
  | idle
  /-- Before the load of `head_`. -/
  | loadHead
  /-- Before the load of `tail_`. -/
  | loadTail (head : Nat)
  /-- There is something; before the value is read. -/
  | read (head : Nat)
  /-- Before `head_` is stored. -/
  | storeHead (head : Nat) (val : Option α)
  | finish (res : Res α)
  deriving DecidableEq, Repr

structure State (α : Type*) where
  /-- `head_`. -/
  head : Nat
  /-- `tail_`. -/
  tail : Nat
  /-- `slots_`. -/
  slots : Nat → Option α
  producer : Producer α
  consumer : Consumer α
  /-- The numbers of the calls that the two are in, and of the next call. -/
  producerId : Nat
  consumerId : Nat
  clock : Nat

inductive Event (α : Type*) where
  | client (e : HistoryEvent (Op α) (Res α))
  /-- A value is stored in a slot. -/
  | wrote (i : Nat) (val : α)
  /-- A slot is read. -/
  | read (i : Nat) (val : Option α)
  deriving DecidableEq, Repr

/-- The assertion about `N`. -/
def Admits (N : Nat) : Prop := 2 ≤ N ∧ N &&& (N - 1) = 0

/-- `index & kMask`. -/
def wrap (N index : Nat) : Nat := index &&& (N - 1)

/-- One step of `push`. -/
def push (N : Nat) (s : State α) : Option (State α × List (Event α)) :=
  match s.producer with
  | .idle => none
  | .loadTail val => some ({ s with producer := .loadHead val s.tail }, [])
  | .loadHead val tail =>
      if wrap N (tail + 1) = s.head then some ({ s with producer := .finish val .full }, [])
      else some ({ s with producer := .write val tail }, [])
  | .write val tail =>
      some ({ s with
        slots := Function.update s.slots tail (some val)
        producer := .storeTail val tail }, [.wrote tail val])
  | .storeTail val tail =>
      some ({ s with tail := wrap N (tail + 1), producer := .finish val .ok }, [])
  | .finish _ res =>
      some ({ s with producer := .idle }, [.client (.ret s.producerId res)])

/-- One step of `pop`. -/
def pop (N : Nat) (s : State α) : Option (State α × List (Event α)) :=
  match s.consumer with
  | .idle => none
  | .loadHead => some ({ s with consumer := .loadTail s.head }, [])
  | .loadTail head =>
      if head = s.tail then some ({ s with consumer := .finish .empty }, [])
      else some ({ s with consumer := .read head }, [])
  | .read head =>
      some ({ s with consumer := .storeHead head (s.slots head) }, [.read head (s.slots head)])
  | .storeHead head val =>
      some ({ s with head := wrap N (head + 1), consumer := .finish (.got val) }, [])
  | .finish res =>
      some ({ s with consumer := .idle }, [.client (.ret s.consumerId res)])

/-- The producer calls `push`, the consumer calls `pop`, or one of them goes on. -/
inductive Action (α : Type*) where
  | push (val : α)
  | pop
  | produce
  | consume
  deriving DecidableEq, Repr

/-- Any interleaving of the two. -/
def step (N : Nat) (s : State α) : Action α → Option (State α × List (Event α))
  | .push val =>
      match s.producer with
      | .idle =>
          some ({ s with
            producer := .loadTail val
            producerId := s.clock
            clock := s.clock + 1 }, [.client (.inv s.clock (.push val))])
      | _ => none
  | .pop =>
      match s.consumer with
      | .idle =>
          some ({ s with
            consumer := .loadHead
            consumerId := s.clock
            clock := s.clock + 1 }, [.client (.inv s.clock .pop)])
      | _ => none
  | .produce => push N s
  | .consume => pop N s

/-- The constructor. -/
def init : State α :=
  { head := 0, tail := 0, slots := fun _ => none, producer := .idle, consumer := .idle,
    producerId := 0, consumerId := 0, clock := 0 }

/-! ## What it is to be -/

/-- A queue with room for `N - 1` values. -/
def fifo (N : Nat) : List α → Op α → List α × Res α
  | q, .push val => if q.length < N - 1 then (q ++ [val], .ok) else (q, .full)
  | [], .pop => ([], .empty)
  | val :: q, .pop => (q, .got (some val))

/-- The values of a list are in the slots from `head_` up to `tail_`. -/
structure Holds (N : Nat) (s : State α) (q : List α) : Prop where
  slots : ∀ k x, q[k]? = some x → s.slots (wrap N (s.head + k)) = some x
  tail : s.tail = wrap N (s.head + q.length)
  room : q.length < N

def history (es : List (Event α)) : List (HistoryEvent (Op α) (Res α)) :=
  es.filterMap fun
    | .client e => some e
    | _ => none

/-- The values that `pop` has returned, one after the other. -/
def popped (h : List (HistoryEvent (Op α) (Res α))) : List α :=
  h.filterMap fun
    | .ret _ (.got val) => val
    | _ => none

/-- The values that `push` was called with, one after the other, without the ones it has
refused. What is refused is the value of the last call, since there is one producer. -/
def accepted (h : List (HistoryEvent (Op α) (Res α))) : List α :=
  h.foldl (fun vals e =>
    match e with
    | .inv _ (.push val) => vals ++ [val]
    | .ret _ .full => vals.dropLast
    | _ => vals) []

/-! ## What the two know -/

/-- The values that have been pushed so far, and how many of them have been taken. -/
structure View (α : Type*) where
  vals : List α
  taken : Nat

@[simp] def View.queue (v : View α) : List α := v.vals.drop v.taken

/-- The value of the call. -/
@[simp] def Producer.val : Producer α → Option α
  | .idle => none
  | .loadTail val => some val
  | .loadHead val _ => some val
  | .write val _ => some val
  | .storeTail val _ => some val
  | .finish val _ => some val

/-- What the producer has read of `tail_`. -/
@[simp] def Producer.tail : Producer α → Option Nat
  | .loadHead _ tail => some tail
  | .write _ tail => some tail
  | .storeTail _ tail => some tail
  | _ => none

/-- The producer has seen that there is room. -/
@[simp] def Producer.cleared : Producer α → Prop
  | .write _ _ => True
  | .storeTail _ _ => True
  | _ => False

@[simp] def Producer.phase : Producer α → Phase (Res α)
  | .idle => .quiet
  | .finish _ res => .done res
  | _ => .pending

/-- What the consumer has read of `head_`. -/
@[simp] def Consumer.head : Consumer α → Option Nat
  | .loadTail head => some head
  | .read head => some head
  | .storeHead head _ => some head
  | _ => none

/-- The consumer has seen that there is something. -/
@[simp] def Consumer.cleared : Consumer α → Prop
  | .read _ => True
  | .storeHead _ _ => True
  | _ => False

@[simp] def Consumer.phase : Consumer α → Phase (Res α)
  | .idle => .quiet
  | .finish res => .done res
  | _ => .pending

/-- The ring and the two that use it agree with the counts. -/
structure Ring (N : Nat) (s : State α) (v : View α) : Prop where
  tail : s.tail = wrap N v.vals.length
  head : s.head = wrap N v.taken
  le : v.taken ≤ v.vals.length
  room : v.vals.length < v.taken + N
  slots : ∀ k x, v.taken ≤ k → v.vals[k]? = some x → s.slots (wrap N k) = some x
  ownTail : ∀ tail, s.producer.tail = some tail → tail = s.tail
  space : s.producer.cleared → v.vals.length + 1 < v.taken + N
  stored : ∀ val tail, s.producer = .storeTail val tail → s.slots tail = some val
  ownHead : ∀ head, s.consumer.head = some head → head = s.head
  present : s.consumer.cleared → v.taken < v.vals.length
  copied : ∀ head val, s.consumer = .storeHead head val → v.vals[v.taken]? = val

section Indices

variable {N i j : Nat}

theorem wrap_eq_mod (hN : Admits N) (i : Nat) : wrap N i = i % N :=
  land_pred_eq_mod (by have := hN.1; omega) hN.2 i

theorem wrap_inj (hN : Admits N) (hle : i ≤ j) (hlt : j < i + N) (h : wrap N i = wrap N j) :
    i = j := by
  rw [wrap_eq_mod hN, wrap_eq_mod hN] at h
  have hdvd : N ∣ j - i := (Nat.modEq_iff_dvd' hle).mp h
  have := Nat.eq_zero_of_dvd_of_lt hdvd (by omega)
  omega

theorem wrap_wrap_add (hN : Admits N) : wrap N (wrap N i + j) = wrap N (i + j) := by
  simp only [wrap_eq_mod hN, Nat.mod_add_mod]

theorem wrap_add_self (hN : Admits N) : wrap N (i + N) = wrap N i := by
  simp only [wrap_eq_mod hN, Nat.add_mod_right]

end Indices

section Ring

variable {N : Nat} {s : State α} {v : View α}

/-- There is no room when all but one of the slots are taken. -/
theorem Ring.next_eq_head (hN : Admits N) (hR : Ring N s v) :
    wrap N (s.tail + 1) = s.head ↔ v.vals.length + 1 = v.taken + N := by
  rw [hR.tail, hR.head, wrap_wrap_add hN]
  constructor
  · intro h
    by_contra hne
    have hle := hR.le
    have hroom := hR.room
    have := wrap_inj hN (by omega) (by omega) h.symm
    omega
  · intro h
    rw [h, wrap_add_self hN]

theorem Ring.head_eq_tail (hN : Admits N) (hR : Ring N s v) :
    s.head = s.tail ↔ v.taken = v.vals.length := by
  rw [hR.tail, hR.head]
  exact ⟨wrap_inj hN hR.le hR.room, fun h => by rw [h]⟩

theorem Ring.holds (hN : Admits N) (hR : Ring N s v) : Holds N s v.queue := by
  have hle := hR.le
  have hroom := hR.room
  constructor
  case slots =>
      intro k x hx
      rw [View.queue, List.getElem?_drop] at hx
      rw [hR.head, wrap_wrap_add hN]
      exact hR.slots _ x (Nat.le_add_right ..) hx
  case tail =>
      rw [View.queue, List.length_drop, hR.head, wrap_wrap_add hN, hR.tail]
      congr 1
      omega
  case room =>
      rw [View.queue, List.length_drop]
      omega

theorem ring_init (hN : Admits N) : Ring N (init : State α) ⟨[], 0⟩ := by
  have hpos : 0 < N := by
    have := hN.1
    omega
  constructor <;> simp [init, wrap_eq_mod hN, hpos]

end Ring

/-! ## Every step -/

inductive Side where
  | producer
  | consumer
  deriving DecidableEq, Repr

/-- How far the two are with their calls. -/
def State.status (s : State α) : Side → Status (Op α) (Res α)
  | .producer => ⟨s.producerId, (s.producer.val.elim .pop .push), s.producer.phase⟩
  | .consumer => ⟨s.consumerId, .pop, s.consumer.phase⟩

/-- The counts after a step. They change where an index is stored. -/
def View.after (v : View α) (s : State α) : Action α → View α
  | .produce =>
      match s.producer with
      | .storeTail val _ => { v with vals := v.vals ++ [val] }
      | _ => v
  | .consume =>
      match s.consumer with
      | .storeHead _ _ => { v with taken := v.taken + 1 }
      | _ => v
  | _ => v

/-- What there is to say about a step. -/
def Sound (N : Nat) (s : State α) (v : View α) (s' : State α) (v' : View α)
    (ev : List (Event α)) : Prop :=
  ∃ w, (∀ u, u ≠ w → s'.status u = s.status u) ∧ Ring N s' v' ∧
    Turn (fifo N) s.clock s'.clock v.queue v'.queue (s.status w) (s'.status w) (history ev)

section Steps

variable {N : Nat} {s s' : State α} {v : View α} {ev : List (Event α)}

/-- The producer goes on, and the ring stays as it is. -/
theorem Ring.produce (hR : Ring N s v) {p : Producer α}
    (hown : ∀ tail, p.tail = some tail → tail = s.tail)
    (hspace : p.cleared → v.vals.length + 1 < v.taken + N)
    (hstored : ∀ val tail, p = .storeTail val tail → s.slots tail = some val) :
    Ring N { s with producer := p } v :=
  { hR with ownTail := hown, space := hspace, stored := hstored }

/-- The consumer goes on, and the ring stays as it is. -/
theorem Ring.consume (hR : Ring N s v) {c : Consumer α}
    (hown : ∀ head, c.head = some head → head = s.head)
    (hpresent : c.cleared → v.taken < v.vals.length)
    (hcopied : ∀ head val, c = .storeHead head val → v.vals[v.taken]? = val) :
    Ring N { s with consumer := c } v :=
  { hR with ownHead := hown, present := hpresent, copied := hcopied }

/-- Nothing that the consumer may read is in the slot that is written. -/
theorem Ring.write (hN : Admits N) (hR : Ring N s v) {val : α} {tail : Nat}
    (hpc : s.producer = .write val tail) :
    Ring N { s with
      slots := Function.update s.slots tail (some val), producer := .storeTail val tail } v := by
  have htail := hR.ownTail tail (by simp [hpc])
  have hspace := hR.space (by simp [hpc])
  exact
    { hR with
      slots := fun k x hk hx => by
        have hlt := (List.getElem?_eq_some_iff.mp hx).1
        refine (Function.update_of_ne (fun heq => ?_) _ _).trans (hR.slots k x hk hx)
        rw [htail, hR.tail] at heq
        have := wrap_inj hN (by omega) (by omega) heq
        omega
      ownTail := fun tail' h => by
        simp only [Producer.tail, Option.some.injEq] at h
        rw [← h, htail]
      space := fun _ => hspace
      stored := fun val' tail' h => by
        injection h with hval htail'
        rw [← hval, ← htail']
        exact Function.update_self .. }

/-- One more value is in the ring. -/
theorem Ring.storeTail (hN : Admits N) (hR : Ring N s v) {val : α} {tail : Nat}
    (hpc : s.producer = .storeTail val tail) :
    Ring N { s with tail := wrap N (tail + 1), producer := .finish val .ok }
      { v with vals := v.vals ++ [val] } := by
  have htail := hR.ownTail tail (by simp [hpc])
  have hspace := hR.space (by simp [hpc])
  have hstored := hR.stored val tail hpc
  have hle := hR.le
  exact
    { hR with
      tail := by rw [htail, hR.tail, wrap_wrap_add hN, List.length_append, List.length_singleton]
      le := by simp only [List.length_append]; omega
      room := by simpa using hspace
      slots := fun k x hk hx => by
        rcases Nat.lt_or_ge k v.vals.length with hlt | hge
        · rw [List.getElem?_append_left hlt] at hx
          exact hR.slots k x hk hx
        · rw [List.getElem?_append_right hge] at hx
          have hlt := (List.getElem?_eq_some_iff.mp hx).1
          have hk' : k = v.vals.length := by
            rw [List.length_singleton] at hlt
            omega
          subst hk'
          rw [Nat.sub_self, List.getElem?_cons_zero] at hx
          rw [← hx, ← hstored, htail, hR.tail]
      ownTail := by simp
      space := by simp
      stored := by simp
      present := fun hc => by
        have := hR.present hc
        simp only [List.length_append]
        omega
      copied := fun head x hc => by
        have hc : s.consumer = .storeHead head x := hc
        rw [List.getElem?_append_left (hR.present (by simp [hc]))]
        exact hR.copied head x hc }

/-- One value less is in the ring. -/
theorem Ring.storeHead (hN : Admits N) (hR : Ring N s v) {val : Option α} {head : Nat}
    (hpc : s.consumer = .storeHead head val) :
    Ring N { s with head := wrap N (head + 1), consumer := .finish (.got val) }
      { v with taken := v.taken + 1 } := by
  have hhead := hR.ownHead head (by simp [hpc])
  have hpresent := hR.present (by simp [hpc])
  have hroom := hR.room
  exact
    { hR with
      head := by rw [hhead, hR.head, wrap_wrap_add hN]
      le := hpresent
      room := by simp only; omega
      slots := fun k x hk hx => hR.slots k x (Nat.le_of_succ_le hk) hx
      space := fun hc => by
        have := hR.space hc
        simp only
        omega
      ownHead := by simp
      present := by simp
      copied := by simp }

theorem sound_push (hN : Admits N) (hR : Ring N s v) (h : push N s = some (s', ev)) :
    Sound N s v s' (v.after s .produce) ev := by
  have hother : ∀ (s₁ : State α), s₁.consumer = s.consumer → s₁.consumerId = s.consumerId →
      ∀ u, u ≠ Side.producer → s₁.status u = s.status u := by
    intro s₁ hc hid u hu
    cases u with
    | producer => exact absurd rfl hu
    | consumer => simp only [State.status, hc, hid]
  cases hpc : s.producer <;>
    simp only [push, hpc, Option.some.injEq, Prod.mk.injEq, View.after] at h ⊢
  case idle => cases h
  case loadTail val =>
    obtain ⟨rfl, rfl⟩ := h
    refine ⟨.producer, hother _ rfl rfl, hR.produce ?_ ?_ ?_, ?_⟩
    · simp
    · simp
    · simp
    · exact .silent rfl (Nat.le_refl _) rfl (by simp [State.status, hpc])
        (.inl (by simp [State.status, hpc]))
  case loadHead val tail =>
    have htail := hR.ownTail tail (by simp [hpc])
    rw [htail] at h
    split at h
    · rename_i hfull
      obtain ⟨rfl, rfl⟩ := h
      rw [hR.next_eq_head hN] at hfull
      -- the call is refused here, where it sees that there is no room
      refine ⟨.producer, hother _ rfl rfl, hR.produce ?_ ?_ ?_, ?_⟩
      · simp
      · simp
      · simp
      · refine .commits (Nat.le_refl _) rfl (by simp [State.status, hpc])
          (by simp [State.status, hpc]) (r := .full) (by simp [State.status]) ?_
        have hlen : ¬ v.queue.length < N - 1 := by
          rw [View.queue, List.length_drop]
          omega
        simp only [State.status, hpc, Producer.val, Option.elim_some, fifo, if_neg hlen]
    · rename_i hfull
      obtain ⟨rfl, rfl⟩ := h
      rw [hR.next_eq_head hN] at hfull
      refine ⟨.producer, hother _ rfl rfl, hR.produce ?_ ?_ ?_, ?_⟩
      · simp
      · have hroom := hR.room
        simp only [Producer.cleared, true_implies]
        omega
      · simp
      · exact .silent rfl (Nat.le_refl _) rfl (by simp [State.status, hpc])
          (.inl (by simp [State.status, hpc]))
  case write val tail =>
    obtain ⟨rfl, rfl⟩ := h
    refine ⟨.producer, hother _ rfl rfl, hR.write hN hpc, ?_⟩
    exact .silent rfl (Nat.le_refl _) rfl (by simp [State.status, hpc])
      (.inl (by simp [State.status, hpc]))
  case storeTail val tail =>
    obtain ⟨rfl, rfl⟩ := h
    have hspace := hR.space (by simp [hpc])
    have hle := hR.le
    refine ⟨.producer, hother _ rfl rfl, hR.storeTail hN hpc, ?_⟩
    refine .commits (Nat.le_refl _) rfl (by simp [State.status, hpc])
      (by simp [State.status, hpc]) (r := .ok) (by simp [State.status]) ?_
    have hlen : v.queue.length < N - 1 := by
      rw [View.queue, List.length_drop]
      omega
    simp only [State.status, hpc, Producer.val, Option.elim_some, fifo, if_pos hlen]
    rw [View.queue, View.queue, List.drop_append_of_le_length hle]
  case finish val res =>
    obtain ⟨rfl, rfl⟩ := h
    refine ⟨.producer, hother _ rfl rfl, hR.produce ?_ ?_ ?_, ?_⟩
    · simp
    · simp
    · simp
    · exact .returns rfl (Nat.le_refl _) (.inl (by simp [State.status, hpc]))
        (by simp [State.status])

theorem sound_pop (hN : Admits N) (hR : Ring N s v) (h : pop N s = some (s', ev)) :
    Sound N s v s' (v.after s .consume) ev := by
  have hother : ∀ (s₁ : State α), s₁.producer = s.producer → s₁.producerId = s.producerId →
      ∀ u, u ≠ Side.consumer → s₁.status u = s.status u := by
    intro s₁ hp hid u hu
    cases u with
    | producer => simp only [State.status, hp, hid]
    | consumer => exact absurd rfl hu
  cases hpc : s.consumer <;>
    simp only [pop, hpc, Option.some.injEq, Prod.mk.injEq, View.after] at h ⊢
  case idle => cases h
  case loadHead =>
    obtain ⟨rfl, rfl⟩ := h
    refine ⟨.consumer, hother _ rfl rfl, hR.consume ?_ ?_ ?_, ?_⟩
    · simp
    · simp
    · simp
    · exact .silent rfl (Nat.le_refl _) rfl rfl (.inl (by simp [State.status, hpc]))
  case loadTail head =>
    have hhead := hR.ownHead head (by simp [hpc])
    split at h
    · rename_i hempty
      obtain ⟨rfl, rfl⟩ := h
      rw [hhead, hR.head_eq_tail hN] at hempty
      -- the call finds nothing here, where it sees that there is nothing
      refine ⟨.consumer, hother _ rfl rfl, hR.consume ?_ ?_ ?_, ?_⟩
      · simp
      · simp
      · simp
      · refine .commits (Nat.le_refl _) rfl rfl (by simp [State.status, hpc])
          (r := .empty) (by simp [State.status]) ?_
        have hnil : v.queue = [] := by
          rw [View.queue, hempty, List.drop_length]
        simp only [State.status, hnil, fifo]
    · rename_i hempty
      obtain ⟨rfl, rfl⟩ := h
      rw [hhead, hR.head_eq_tail hN] at hempty
      have hle := hR.le
      refine ⟨.consumer, hother _ rfl rfl, hR.consume ?_ (fun _ => by omega) ?_, ?_⟩
      · simp [hhead]
      · simp
      · exact .silent rfl (Nat.le_refl _) rfl rfl (.inl (by simp [State.status, hpc]))
  case read head =>
    obtain ⟨rfl, rfl⟩ := h
    have hhead := hR.ownHead head (by simp [hpc])
    have hpresent := hR.present (by simp [hpc])
    refine ⟨.consumer, hother _ rfl rfl, hR.consume ?_ (fun _ => hpresent) ?_, ?_⟩
    · simp [hhead]
    · intro head' val heq
      injection heq with _ hval
      have hslot := hR.slots _ _ (Nat.le_refl _) (List.getElem?_eq_getElem hpresent)
      rw [← hval, hhead, hR.head, hslot, List.getElem?_eq_getElem hpresent]
    · exact .silent rfl (Nat.le_refl _) rfl rfl (.inl (by simp [State.status, hpc]))
  case storeHead head val =>
    obtain ⟨rfl, rfl⟩ := h
    have hcopied := hR.copied head val hpc
    have hpresent := hR.present (by simp [hpc])
    refine ⟨.consumer, hother _ rfl rfl, hR.storeHead hN hpc, ?_⟩
    refine .commits (Nat.le_refl _) rfl rfl (by simp [State.status, hpc])
      (r := .got val) (by simp [State.status]) ?_
    simp only [State.status, View.queue]
    rw [List.drop_eq_getElem_cons hpresent, fifo, ← hcopied, List.getElem?_eq_getElem hpresent]
  case finish res =>
    obtain ⟨rfl, rfl⟩ := h
    refine ⟨.consumer, hother _ rfl rfl, hR.consume ?_ ?_ ?_, ?_⟩
    · simp
    · simp
    · simp
    · exact .returns rfl (Nat.le_refl _) (.inl (by simp [State.status, hpc]))
        (by simp [State.status])

/-- **Every step** is a turn of the queue. -/
theorem step_sound (hN : Admits N) (hR : Ring N s v) {a : Action α}
    (h : step N s a = some (s', ev)) : Sound N s v s' (v.after s a) ev := by
  cases a with
  | push val =>
      cases hpc : s.producer <;> simp only [step, hpc, Option.some.injEq, Prod.mk.injEq] at h
      case idle =>
        obtain ⟨rfl, rfl⟩ := h
        refine ⟨.producer, fun u hu => ?_, ?_, ?_⟩
        · cases u with
          | producer => exact absurd rfl hu
          | consumer => rfl
        · exact { hR with ownTail := by simp, space := by simp, stored := by simp }
        · exact .invokes rfl rfl rfl (by simp [State.status, hpc]) (by simp [State.status])
      all_goals cases h
  | pop =>
      cases hpc : s.consumer <;> simp only [step, hpc, Option.some.injEq, Prod.mk.injEq] at h
      case idle =>
        obtain ⟨rfl, rfl⟩ := h
        refine ⟨.consumer, fun u hu => ?_, ?_, ?_⟩
        · cases u with
          | producer => rfl
          | consumer => exact absurd rfl hu
        · exact { hR with ownHead := by simp, present := by simp, copied := by simp }
        · exact .invokes rfl rfl rfl (by simp [State.status, hpc]) (by simp [State.status])
      all_goals cases h
  | produce => exact sound_push hN hR h
  | consume => exact sound_pop hN hR h

end Steps

/-! ## What has been told -/

section History

variable {es : List (Event α)} {h : List (HistoryEvent (Op α) (Res α))} {i : Nat}

theorem mem_history {e : HistoryEvent (Op α) (Res α)} :
    e ∈ history es ↔ Event.client e ∈ es := by
  rw [history, List.mem_filterMap]
  constructor
  · rintro ⟨e', he', heq⟩
    cases e' with
    | client e'' => exact Option.some.inj heq ▸ he'
    | wrote => cases heq
    | read => cases heq
  · exact fun h => ⟨_, h, rfl⟩

theorem history_append (es ev : List (Event α)) :
    history (es ++ ev) = history es ++ history ev := List.filterMap_append ..

theorem popped_append (h h' : List (HistoryEvent (Op α) (Res α))) :
    popped (h ++ h') = popped h ++ popped h' := List.filterMap_append ..

theorem accepted_snoc (h : List (HistoryEvent (Op α) (Res α)))
    (e : HistoryEvent (Op α) (Res α)) :
    accepted (h ++ [e]) =
      match e with
      | .inv _ (.push val) => accepted h ++ [val]
      | .ret _ .full => (accepted h).dropLast
      | _ => accepted h := by
  rw [accepted, List.foldl_append]
  rfl

end History

/-- The value of a `push` that has not taken effect. -/
@[simp] def Producer.asked : Producer α → List α
  | .loadTail val => [val]
  | .loadHead val _ => [val]
  | .write val _ => [val]
  | .storeTail val _ => [val]
  | .finish val .full => [val]
  | _ => []

/-- The value that is in its slot, but not yet in the queue. -/
@[simp] def Producer.stored : Producer α → List α
  | .storeTail val _ => [val]
  | _ => []

/-- The value of a `pop` that has taken effect. -/
@[simp] def Consumer.owed : Consumer α → List α
  | .finish (.got val) => val.toList
  | _ => []

/-- How many values have been read that are still in the queue. -/
@[simp] def Consumer.ahead : Consumer α → Nat
  | .storeHead _ _ => 1
  | _ => 0

/-- What has been told so far agrees with the counts. -/
structure Told (es : List (Event α)) (s : State α) (v : View α) : Prop where
  puts : accepted (history es) = v.vals ++ s.producer.asked
  gots : popped (history es) ++ s.consumer.owed = v.vals.take v.taken
  putRes : ∀ val res, s.producer = .finish val res → res = .ok ∨ res = .full
  gotRes : ∀ res, s.consumer = .finish res → res = .empty ∨ ∃ val, res = .got val

/-- Of the values that have been written, the first `seen` have been read; and no slot has been
written again before it was read. -/
structure Kept (N : Nat) (es : List (Event α)) (written : List α) (seen : Nat) : Prop where
  le : seen ≤ written.length
  kept : ∀ es₁ i w es₂, es = es₁ ++ .wrote i w :: es₂ → Event.read i (some w) ∈ es₂ ∨
    ∃ k, wrap N k = i ∧ written[k]? = some w ∧ seen ≤ k
  unread : ∀ es₁ i w es₂ x es₃, es = (es₁ ++ .wrote i w :: es₂) ++ .wrote i x :: es₃ →
    Event.read i (some w) ∈ es₂

section Kept

variable {N : Nat} {es ev : List (Event α)} {written : List α} {seen : Nat}

theorem Kept.nil (N : Nat) : Kept N ([] : List (Event α)) [] 0 := by
  constructor <;> simp

theorem Kept.quiet (hK : Kept N es written seen) (ev : List (Event α))
    (hev : ∀ i w, Event.wrote i w ∉ ev) : Kept N (es ++ ev) written seen := by
  constructor
  case le => exact hK.le
  case kept =>
      intro es₁ i w es₂ heq
      rcases append_eq_append_cons heq with ⟨us, hes, rfl⟩ | ⟨us, -, hin⟩
      · exact (hK.kept es₁ i w us hes).imp_left (List.mem_append_left _)
      · exact absurd (by simp [hin]) (hev i w)
  case unread =>
      intro es₁ i w es₂ x es₃ heq
      rcases append_eq_append_cons heq with ⟨us, hes, -⟩ | ⟨us, -, hin⟩
      · exact hK.unread es₁ i w es₂ x us hes
      · exact absurd (by simp [hin]) (hev i x)

/-- The next value is read. -/
theorem Kept.read (hK : Kept N es written seen) {val : α} (hval : written[seen]? = some val) :
    Kept N (es ++ [.read (wrap N seen) (some val)]) written (seen + 1) := by
  have hq := hK.quiet [.read (wrap N seen) (some val)] (by simp)
  have hlt := (List.getElem?_eq_some_iff.mp hval).1
  refine { hq with le := hlt, kept := fun es₁ i w es₂ heq => ?_ }
  rcases append_eq_append_cons heq with ⟨us, hes, rfl⟩ | ⟨us, -, hin⟩
  · rcases hK.kept es₁ i w us hes with hin | ⟨k, hk, hw, hle⟩
    · exact .inl (List.mem_append_left _ hin)
    · rcases Nat.eq_or_lt_of_le hle with rfl | hlt
      · -- this is the value that is read
        left
        obtain rfl : val = w := Option.some.inj (hval.symm.trans hw)
        rw [hk]
        simp
      · exact .inr ⟨k, hk, hw, hlt⟩
  · have hmem : Event.wrote i w ∈ [Event.read (wrap N seen) (some val)] := by simp [hin]
    simp at hmem

/-- A value is written, into a slot that has been read. -/
theorem Kept.write (hN : Admits N) (hK : Kept N es written seen) (val : α)
    (hroom : written.length < seen + N) :
    Kept N (es ++ [.wrote (wrap N written.length) val]) (written ++ [val]) seen := by
  have hle := hK.le
  constructor
  case le =>
      rw [List.length_append]
      omega
  case kept =>
      intro es₁ i w es₂ heq
      rcases append_eq_append_cons heq with ⟨us, hes, rfl⟩ | ⟨us, -, hin⟩
      · rcases hK.kept es₁ i w us hes with hin | ⟨k, hk, hw, hle⟩
        · exact .inl (List.mem_append_left _ hin)
        · refine .inr ⟨k, hk, ?_, hle⟩
          rw [List.getElem?_append_left (List.getElem?_eq_some_iff.mp hw).1]
          exact hw
      · have hmem : Event.wrote i w ∈ [Event.wrote (wrap N written.length) val] := by simp [hin]
        simp only [List.mem_singleton, Event.wrote.injEq] at hmem
        obtain ⟨rfl, rfl⟩ := hmem
        exact .inr ⟨written.length, rfl, by simp, hle⟩
  case unread =>
      intro es₁ i w es₂ x es₃ heq
      rcases append_eq_append_cons heq with ⟨us, hes, -⟩ | ⟨us, hes, hin⟩
      · exact hK.unread es₁ i w es₂ x us hes
      · have hmem : Event.wrote i x ∈ [Event.wrote (wrap N written.length) val] := by simp [hin]
        simp only [List.mem_singleton, Event.wrote.injEq] at hmem
        obtain ⟨rfl, rfl⟩ := hmem
        have hus : us = [] := by
          cases us with
          | nil => rfl
          | cons u us => simp at hin
        rw [hus, List.append_nil] at hes
        rcases hK.kept es₁ _ w es₂ hes.symm with hin | ⟨k, hk, hw, hle⟩
        · exact hin
        · have hlt := (List.getElem?_eq_some_iff.mp hw).1
          have := wrap_inj hN (by omega) (by omega) hk
          omega

end Kept

/-- The values that are in the slots or have been. -/
@[simp] def View.written (v : View α) (s : State α) : List α := v.vals ++ s.producer.stored

/-- How many of them have been read. -/
@[simp] def View.seen (v : View α) (s : State α) : Nat := v.taken + s.consumer.ahead

section Steps

variable {N : Nat} {s s' : State α} {v : View α} {es ev : List (Event α)} {a : Action α}

theorem kept_step (hN : Admits N) (hR : Ring N s v) (hK : Kept N es (v.written s) (v.seen s))
    (h : step N s a = some (s', ev)) :
    Kept N (es ++ ev) ((v.after s a).written s') ((v.after s a).seen s') := by
  cases a with
  | push val =>
      cases hpc : s.producer <;> simp only [step, hpc, Option.some.injEq, Prod.mk.injEq] at h
      case idle =>
        obtain ⟨rfl, rfl⟩ := h
        simpa [View.after, hpc] using hK.quiet [.client _] (by simp)
      all_goals cases h
  | pop =>
      cases hpc : s.consumer <;> simp only [step, hpc, Option.some.injEq, Prod.mk.injEq] at h
      case idle =>
        obtain ⟨rfl, rfl⟩ := h
        simpa [View.after, hpc] using hK.quiet [.client _] (by simp)
      all_goals cases h
  | produce =>
      cases hpc : s.producer <;>
        simp only [step, push, hpc, Option.some.injEq, Prod.mk.injEq, View.after] at h ⊢
      case idle => cases h
      case loadHead val tail =>
        split at h
        all_goals
          obtain ⟨rfl, rfl⟩ := Prod.mk.inj (Option.some.inj h)
          simpa [hpc] using hK
      case write val tail =>
        obtain ⟨rfl, rfl⟩ := h
        have hroom := hR.room
        have hwrite := hK.write hN val (by simp [hpc]; omega)
        simp only [View.written, hpc, Producer.stored, List.append_nil] at hwrite
        rwa [hR.ownTail tail (by simp [hpc]), hR.tail]
      case finish val res =>
        obtain ⟨rfl, rfl⟩ := h
        simpa [hpc] using hK.quiet [.client _] (by simp)
      all_goals
        obtain ⟨rfl, rfl⟩ := h
        simpa [hpc] using hK
  | consume =>
      cases hpc : s.consumer <;>
        simp only [step, pop, hpc, Option.some.injEq, Prod.mk.injEq, View.after] at h ⊢
      case idle => cases h
      case loadTail head =>
        split at h
        all_goals
          obtain ⟨rfl, rfl⟩ := Prod.mk.inj (Option.some.inj h)
          simpa [hpc] using hK
      case read head =>
        obtain ⟨rfl, rfl⟩ := h
        have hpresent := hR.present (by simp [hpc])
        have hval := List.getElem?_eq_getElem hpresent
        have hnext : (v.written s)[v.seen s]? = some v.vals[v.taken] := by
          simp only [View.written, View.seen, hpc, Consumer.ahead, Nat.add_zero]
          rw [List.getElem?_append_left hpresent, hval]
        have hread := hK.read hnext
        simp only [View.seen, hpc, Consumer.ahead, Nat.add_zero] at hread
        rwa [hR.ownHead head (by simp [hpc]), hR.head, hR.slots _ _ (Nat.le_refl _) hval]
      case finish res =>
        obtain ⟨rfl, rfl⟩ := h
        simpa [hpc] using hK.quiet [.client _] (by simp)
      all_goals
        obtain ⟨rfl, rfl⟩ := h
        simpa [hpc, Nat.add_assoc] using hK

/-- The consumer is not told anything of the producer, and the other way round. -/
theorem Told.produce (hT : Told es s v) {p : Producer α} {tail : Nat} {slots : Nat → Option α}
    {id clock : Nat} {h : List (HistoryEvent (Op α) (Res α))} {vals : List α}
    (haccepted : accepted (history es ++ h) = vals ++ p.asked) (hpopped : popped h = [])
    (htake : vals.take v.taken = v.vals.take v.taken)
    (hres : ∀ val res, p = .finish val res → res = .ok ∨ res = .full) (hev : history ev = h) :
    Told (es ++ ev)
      { s with producer := p, tail := tail, slots := slots, producerId := id, clock := clock }
      { v with vals := vals } := by
  constructor
  case puts => rw [history_append, hev, haccepted]
  case gots => rw [history_append, hev, popped_append, hpopped, List.append_nil, hT.gots, htake]
  case putRes => exact hres
  case gotRes => exact hT.gotRes

theorem Told.consume (hT : Told es s v) {c : Consumer α} {head id clock taken : Nat}
    {h : List (HistoryEvent (Op α) (Res α))}
    (haccepted : accepted (history es ++ h) = accepted (history es))
    (hpopped : popped (history es ++ h) ++ c.owed = v.vals.take taken)
    (hres : ∀ res, c = .finish res → res = .empty ∨ ∃ val, res = .got val)
    (hev : history ev = h) :
    Told (es ++ ev) { s with consumer := c, head := head, consumerId := id, clock := clock }
      { v with taken := taken } := by
  constructor
  case puts => rw [history_append, hev, haccepted, hT.puts]
  case gots => rw [history_append, hev, hpopped]
  case putRes => exact hT.putRes
  case gotRes => exact hres

theorem told_step (hR : Ring N s v) (hT : Told es s v) (h : step N s a = some (s', ev)) :
    Told (es ++ ev) s' (v.after s a) := by
  have haccepted := hT.puts
  have hpopped := hT.gots
  cases a with
  | push val =>
      cases hpc : s.producer <;> simp only [step, hpc, Option.some.injEq, Prod.mk.injEq] at h
      case idle =>
        obtain ⟨rfl, rfl⟩ := h
        simp only [hpc, Producer.asked, List.append_nil] at haccepted
        exact hT.produce (h := [.inv s.clock (.push val)])
          (by rw [accepted_snoc, haccepted]; rfl) rfl rfl (by simp) rfl
      all_goals cases h
  | pop =>
      cases hpc : s.consumer <;> simp only [step, hpc, Option.some.injEq, Prod.mk.injEq] at h
      case idle =>
        obtain ⟨rfl, rfl⟩ := h
        simp only [hpc, Consumer.owed] at hpopped
        exact hT.consume (h := [.inv s.clock .pop]) (accepted_snoc ..)
          (by rw [popped_append]; simpa [popped] using hpopped) (by simp) rfl
      all_goals cases h
  | produce =>
      cases hpc : s.producer <;>
        simp only [step, push, hpc, Option.some.injEq, Prod.mk.injEq, View.after] at h ⊢ <;>
        simp only [hpc, Producer.asked] at haccepted
      case idle => cases h
      case loadTail val =>
        obtain ⟨rfl, rfl⟩ := h
        exact hT.produce (h := []) (by simpa using haccepted) rfl rfl (by simp) rfl
      case loadHead val tail =>
        split at h
        all_goals
          obtain ⟨rfl, rfl⟩ := Prod.mk.inj (Option.some.inj h)
          exact hT.produce (h := []) (by simpa using haccepted) rfl rfl (by simp) rfl
      case write val tail =>
        obtain ⟨rfl, rfl⟩ := h
        exact hT.produce (h := []) (by simpa using haccepted) rfl rfl (by simp) rfl
      case storeTail val tail =>
        obtain ⟨rfl, rfl⟩ := h
        exact hT.produce (h := []) (by simpa using haccepted) rfl
          (List.take_append_of_le_length hR.le) (by simp) rfl
      case finish val res =>
        obtain ⟨rfl, rfl⟩ := h
        rcases hT.putRes val res hpc with rfl | rfl
        · exact hT.produce (h := [.ret s.producerId .ok])
            (by rw [accepted_snoc]; simpa using haccepted) rfl rfl (by simp) rfl
        · -- what is refused is taken back
          exact hT.produce (h := [.ret s.producerId .full])
            (by rw [accepted_snoc, haccepted]; simp) rfl rfl (by simp) rfl
  | consume =>
      cases hpc : s.consumer <;>
        simp only [step, pop, hpc, Option.some.injEq, Prod.mk.injEq, View.after] at h ⊢ <;>
        simp only [hpc, Consumer.owed] at hpopped
      case idle => cases h
      case loadHead =>
        obtain ⟨rfl, rfl⟩ := h
        exact hT.consume (h := []) (by simp) (by simpa using hpopped) (by simp) rfl
      case loadTail head =>
        split at h
        all_goals
          obtain ⟨rfl, rfl⟩ := Prod.mk.inj (Option.some.inj h)
          exact hT.consume (h := []) (by simp) (by simpa using hpopped) (by simp) rfl
      case read head =>
        obtain ⟨rfl, rfl⟩ := h
        exact hT.consume (h := []) (by simp) (by simpa using hpopped) (by simp) rfl
      case storeHead head val =>
        obtain ⟨rfl, rfl⟩ := h
        refine hT.consume (h := []) (by simp) ?_ (by simp) rfl
        rw [List.append_nil] at hpopped ⊢
        rw [hpopped, List.take_add_one, hR.copied head val hpc]
        rfl
      case finish res =>
        obtain ⟨rfl, rfl⟩ := h
        rcases hT.gotRes res hpc with rfl | ⟨val, rfl⟩
        · exact hT.consume (h := [.ret s.consumerId .empty]) (accepted_snoc ..)
            (by rw [popped_append]; simpa [popped] using hpopped) (by simp) rfl
        · refine hT.consume (h := [.ret s.consumerId (.got val)]) (accepted_snoc ..) ?_
            (by simp) rfl
          rw [popped_append, ← hpopped]
          cases val <;> simp [popped]

end Steps

/-! ## Along a run -/

section Runs

variable {N : Nat} {s s' : State α} {v : View α} {es es₂ ev : List (Event α)}
  {ds : List (Done (Op α) (Res α))} {a : Action α} {i : Nat} {op : Op α} {r : Res α}

/-- There was an instant, after the call was made, at which its result was right; `es₂` is what
has happened since. -/
def RightSince (N : Nat) (es₂ es : List (Event α)) (s : State α) (i : Nat) (op : Op α)
    (r : Res α) : Prop :=
  ∃ es₁ s₁ q, es = es₁ ++ es₂ ∧ Run (step N) Any init es₁ s₁ ∧ Run (step N) Any s₁ es₂ s ∧
    Event.client (.inv i op) ∈ es₁ ∧ Holds N s₁ q ∧ (fifo N q op).2 = r

theorem RightSince.step (h : RightSince N es₂ es s i op r) (hs : step N s a = some (s', ev)) :
    RightSince N (es₂ ++ ev) (es ++ ev) s' i op r := by
  obtain ⟨es₁, s₁, q, rfl, hrun₁, hrun₂, hinv, hholds, hr⟩ := h
  exact ⟨es₁, s₁, q, List.append_assoc .., hrun₁, hrun₂.tail trivial hs, hinv, hholds, hr⟩

structure RunInv (N : Nat) (es : List (Event α)) (s : State α) (v : View α)
    (ds : List (Done (Op α) (Res α))) : Prop where
  run : Run (step N) Any init es s
  ring : Ring N s v
  told : Told es s v
  kept : Kept N es (v.written s) (v.seen s)
  ledger : Ledger (fifo N) [] (history es) ds v.queue s.clock s.status
  saw : ∀ u r, (s.status u).phase = .done r →
    ∃ es₂, RightSince N es₂ es s (s.status u).id (s.status u).op r
  answered : ∀ i r, Event.client (.ret i r) ∈ es →
    ∃ es₂ op, RightSince N es₂ es s i op r ∧ Event.client (.ret i r) ∈ es₂

theorem runInv_init (hN : Admits N) : RunInv N [] (init : State α) ⟨[], 0⟩ [] where
  run := .refl
  ring := ring_init hN
  told := ⟨rfl, rfl, by simp [init], by simp [init]⟩
  kept := Kept.nil N
  ledger := .nil (fifo N) [] _ _ fun u => by cases u <;> rfl
  saw u r hr := by cases u <;> simp [State.status, init] at hr
  answered i r hr := by cases hr

/-- **The books are kept** along every run. -/
theorem runInv_step (hN : Admits N) (hR : RunInv N es s v ds) (hs : step N s a = some (s', ev)) :
    ∃ ds', RunInv N (es ++ ev) s' (v.after s a) ds' := by
  obtain ⟨w, hother, hring, hturn⟩ := step_sound hN hR.ring hs
  obtain ⟨ds', hledger⟩ := hR.ledger.turn hturn hother
  rw [← history_append] at hledger
  generalize hh : history ev = h at hturn
  refine ⟨ds', hR.run.tail trivial hs, hring, told_step hR.ring hR.told hs,
    kept_step hN hR.ring hR.kept hs, hledger, fun u r hu => ?_, fun i r hi => ?_⟩
  · by_cases huw : u = w
    · subst huw
      cases hturn with
      | silent _ _ hid hop hphase =>
          rw [hid, hop]
          rcases hphase with hphase | ⟨_, _, hphase⟩
          · obtain ⟨es₂, hsince⟩ := hR.saw u r (hphase ▸ hu)
            exact ⟨_, hsince.step hs⟩
          · simp [hphase] at hu
      | looks _ _ _ _ _ hphase' _ => simp [hphase'] at hu
      | commits _ hid hop hphase hphase' hspec =>
          -- the instant is the one just before this step
          obtain rfl := Phase.done.inj (hphase'.symm.trans hu)
          have hinv := (hR.ledger.booked u (by simp [hphase])).invoked
          have hright : RightSince N [] es s (s.status u).id (s.status u).op _ :=
            ⟨es, s, v.queue, (List.append_nil es).symm, hR.run, .refl, mem_history.mp hinv,
              hR.ring.holds hN, congrArg Prod.snd hspec⟩
          rw [hid, hop]
          exact ⟨_, hright.step hs⟩
      | invokes _ _ _ _ hphase' => simp [hphase'] at hu
      | returns _ _ _ hphase' => simp [hphase'] at hu
    · rw [hother u huw] at hu ⊢
      obtain ⟨es₂, hsince⟩ := hR.saw u r hu
      exact ⟨_, hsince.step hs⟩
  · rcases List.mem_append.mp hi with hi | hi
    · obtain ⟨es₂, op, hsince, hret⟩ := hR.answered i r hi
      exact ⟨_, op, hsince.step hs, List.mem_append_left _ hret⟩
    · have hmem := mem_history.mpr hi
      rw [hh] at hmem
      cases hturn with
      | silent => cases hmem
      | looks => cases hmem
      | commits => cases hmem
      | invokes => exact nomatch List.mem_singleton.mp hmem
      | returns _ _ hphase _ =>
          obtain ⟨rfl, rfl⟩ := HistoryEvent.ret.inj (List.mem_singleton.mp hmem)
          rcases hphase with hphase | hphase
          · obtain ⟨es₂, hsince⟩ := hR.saw w _ hphase
            exact ⟨_, _, hsince.step hs, List.mem_append_right _ hi⟩
          · cases w with
            | producer => cases hpc : s.producer <;> simp [State.status, hpc] at hphase
            | consumer => cases hpc : s.consumer <;> simp [State.status, hpc] at hphase

theorem runInv (hN : Admits N) (h : Run (step N) Any init es s) :
    ∃ v ds, RunInv N es s v ds := by
  refine h.invariant (I := fun es s => ∃ v ds, RunInv N es s v ds)
    ⟨_, _, runInv_init hN⟩ fun hI _ hs => ?_
  obtain ⟨v, ds, hR⟩ := hI
  exact ⟨_, runInv_step hN hR hs⟩

/-- Nobody is in a call when all have returned. -/
theorem RunInv.quiet (hR : RunInv N es s v ds) (hc : Complete (history es)) (u : Side) :
    (s.status u).phase = .quiet := by
  by_contra hne
  have hb := hR.ledger.booked u hne
  obtain ⟨r, hr⟩ := hc _ _ hb.invoked
  exact hb.unanswered r hr

theorem RunInv.popped_prefix (hR : RunInv N es s v ds) :
    popped (history es) <+: accepted (history es) := by
  have htake : popped (history es) <+: v.vals.take v.taken := ⟨_, hR.told.gots⟩
  rw [hR.told.puts]
  exact htake.trans ((List.take_prefix _ _).trans (List.prefix_append _ _))

theorem RunInv.accepted_eq (hR : RunInv N es s v ds) (hc : Complete (history es)) :
    accepted (history es) = popped (history es) ++ v.queue := by
  have hp : s.producer.asked = [] := by
    have := hR.quiet hc .producer
    cases hpc : s.producer <;> simp [State.status, hpc] at this ⊢
  have hconsumer : s.consumer.owed = [] := by
    have := hR.quiet hc .consumer
    cases hpc : s.consumer <;> simp [State.status, hpc] at this ⊢
  have hgots := hR.told.gots
  rw [hconsumer, List.append_nil] at hgots
  rw [hR.told.puts, hp, List.append_nil, hgots, View.queue, List.take_append_drop]

/-- **The queue is a FIFO with room for `N - 1` values.** In every run the calls can be ordered
as those of such a queue, which ends up holding what is in the ring. What `pop` returns is what
`push` has accepted, in that order, and when all calls have returned the rest is in the ring.
No slot is written again before its value has been read. A `push` that was refused was refused
because of an instant of the call at which there were `N - 1` values, and a `pop` that found
nothing because of one at which there was none. -/
theorem spscQueue_linearizable (hN : Admits N) (h : Run (step N) Any init es s) :
    WellFormed (history es) ∧
    popped (history es) <+: accepted (history es) ∧
    (∃ ds q, Linearization (fifo N) [] (history es) ds q ∧ Holds N s q ∧
      (Complete (history es) → accepted (history es) = popped (history es) ++ q)) ∧
    (∀ es₁ i w es₂ x es₃, es = (es₁ ++ .wrote i w :: es₂) ++ .wrote i x :: es₃ →
      Event.read i (some w) ∈ es₂) ∧
    (∀ i, Event.client (.ret i .full) ∈ es → ∃ es₁ s₁ es₂ q val, es = es₁ ++ es₂ ∧
      Run (step N) Any init es₁ s₁ ∧ Run (step N) Any s₁ es₂ s ∧ Holds N s₁ q ∧
      q.length = N - 1 ∧ Event.client (.inv i (.push val)) ∈ es₁ ∧
      Event.client (.ret i .full) ∈ es₂) ∧
    ∀ i, Event.client (.ret i .empty) ∈ es → ∃ es₁ s₁ es₂, es = es₁ ++ es₂ ∧
      Run (step N) Any init es₁ s₁ ∧ Run (step N) Any s₁ es₂ s ∧ Holds N s₁ [] ∧
      Event.client (.inv i .pop) ∈ es₁ ∧ Event.client (.ret i .empty) ∈ es₂ := by
  obtain ⟨v, ds, hR⟩ := runInv hN h
  refine ⟨hR.ledger.wellFormed, hR.popped_prefix,
    ⟨ds, v.queue, hR.ledger.order, hR.ring.holds hN, hR.accepted_eq⟩, hR.kept.unread, ?_, ?_⟩
  · intro i hi
    obtain ⟨es₂, op, ⟨es₁, s₁, q, heq, hrun₁, hrun₂, hinv, hholds, hright⟩, hret⟩ :=
      hR.answered i _ hi
    have hroom := hholds.room
    cases op with
    | push val =>
        rw [fifo] at hright
        split at hright
        · cases hright
        · exact ⟨es₁, s₁, es₂, q, val, heq, hrun₁, hrun₂, hholds, by omega, hinv, hret⟩
    | pop => cases q <;> cases hright
  · intro i hi
    obtain ⟨es₂, op, ⟨es₁, s₁, q, heq, hrun₁, hrun₂, hinv, hholds, hright⟩, hret⟩ :=
      hR.answered i _ hi
    cases op with
    | push val =>
        rw [fifo] at hright
        split at hright <;> cases hright
    | pop =>
        cases q with
        | nil => exact ⟨es₁, s₁, es₂, heq, hrun₁, hrun₂, hholds, hinv, hret⟩
        | cons val q => cases hright

end Runs

/-- Room for one value. The second `push` looks while the first value is being taken, and is
refused; the third one gets the same slot. -/
def raceSchedule : List (Action Nat) :=
  [Action.push 7] ++ List.replicate 5 Action.produce ++ [Action.pop] ++
  List.replicate 3 Action.consume ++ [Action.push 8] ++ List.replicate 2 Action.produce ++
  List.replicate 2 Action.consume ++ [Action.produce, .push 9] ++
  List.replicate 5 Action.produce ++ [Action.push 5] ++ List.replicate 3 Action.produce ++
  [Action.pop] ++ List.replicate 5 Action.consume ++
  [Action.push 6] ++ List.replicate 5 Action.produce ++ [Action.pop] ++
  List.replicate 5 Action.consume ++ [Action.pop] ++ List.replicate 3 Action.consume

theorem spscQueue_linearizable_two :
    ∃ (es : List (Event Nat)) (s : State Nat), Run (step 2) Any init es s ∧
      popped (history es) = [7, 9, 6] ∧ accepted (history es) = [7, 9, 6] ∧
      Event.client (.ret 8 .empty) ∈ es ∧
      ∃ es₁ s₁ es₂ q val, es = es₁ ++ es₂ ∧ Run (step 2) Any init es₁ s₁ ∧
        Run (step 2) Any s₁ es₂ s ∧ Holds 2 s₁ q ∧ q.length = 1 ∧
        Event.client (.inv 2 (.push val)) ∈ es₁ ∧ Event.client (.ret 2 .full) ∈ es₂ := by
  have h : Leads (step 2) Any (init : State Nat) raceSchedule fun _ es =>
      popped (history es) = [7, 9, 6] ∧ accepted (history es) = [7, 9, 6] ∧
        Event.client (.ret 8 .empty) ∈ es ∧ Event.client (.ret 2 .full) ∈ es := by
    decide +kernel
  obtain ⟨s, es, hrun, hpopped, haccepted, hempty, hfull⟩ := h.run
  have hall := spscQueue_linearizable ⟨by decide, by decide⟩ hrun
  exact ⟨es, s, hrun, hpopped, haccepted, hempty, hall.2.2.2.2.1 2 hfull⟩

end CrossMachine.Queue.Spsc
