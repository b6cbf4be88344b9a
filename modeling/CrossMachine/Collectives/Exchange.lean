import Mathlib.Data.List.OfFn
import Mathlib.Data.Fintype.Basic
import CrossMachine.Lib.Network

/-!
# Rounds of exchanges

The bandwidth-optimal collectives are loops of one kind. In each round a rank sends one
region of its buffer to a partner and receives another region from a partner, either
adding what it receives to its own values or overwriting them. Which partner and which
region is arithmetic on the rank and the round: no value of the buffer enters it. A
loop is therefore modelled as the list of the `Exchange`s it makes, and `perform` makes
them.

What the lists of all ranks do together is the content of `meets_rounds`. When in
every round the partners agree on who is whose partner, on the region and on its size
(`Fits`), the ranks can be thought of as moving in lockstep: after round `t` every
buffer is `round` of the buffers before it, whatever the real schedule was.
-/

namespace CrossMachine.Collectives

open Lib
open Relation (ReflTransGen)

variable {n count : Nat} {α β : Type*}

/-! ## Buffers -/

/-- The block `buf[off .. off + len)`. -/
def block (buf : List α) (off len : Nat) : List α := (buf.drop off).take len

/-- `buf + off` read for `len` elements, which have to be inside the buffer. Offsets are
integers: a `size_t` that wraps below zero is an address before the buffer. -/
def load (buf : List α) (off : Int) (len : Nat) (k : List α → Proc (Fin n) α β) :
    Proc (Fin n) α β :=
  if 0 ≤ off ∧ off + len ≤ buf.length then k (block buf off.toNat len) else .fault

/-- `buf[off + i] = f buf[off + i] data[i]` for every `i`, inside the buffer. -/
def store (f : α → α → α) (buf : List α) (off : Int) (data : List α)
    (k : List α → Proc (Fin n) α β) : Proc (Fin n) α β :=
  if 0 ≤ off ∧ off + data.length ≤ buf.length then
    k (buf.take off.toNat ++ List.zipWith f (block buf off.toNat data.length) data
      ++ buf.drop (off.toNat + data.length))
  else .fault

/-- `channel.send`: `fds_.at` refuses a rank that does not exist. -/
def sendTo (dst : Nat) (data : List α) (k : Proc (Fin n) α β) : Proc (Fin n) α β :=
  if h : dst < n then .send ⟨dst, h⟩ data k else .fault

/-- `channel.recv`. -/
def recvFrom (src : Nat) (len : Nat) (k : List α → Proc (Fin n) α β) : Proc (Fin n) α β :=
  if h : src < n then .recv ⟨src, h⟩ len k else .fault

@[simp] theorem sendTo_val (i : Fin n) (data : List α) (k : Proc (Fin n) α β) :
    sendTo i.val data k = .send i data k := by
  unfold sendTo
  rw [dif_pos i.isLt]

@[simp] theorem recvFrom_val (i : Fin n) (len : Nat) (k : List α → Proc (Fin n) α β) :
    recvFrom i.val len k = .recv i len k := by
  unfold recvFrom
  rw [dif_pos i.isLt]

theorem length_block {buf : List α} {off len : Nat} (h : off + len ≤ buf.length) :
    (block buf off len).length = len := by
  unfold block
  rw [List.length_take, List.length_drop]
  omega

theorem load_ofFn {b : Fin count → α} {off : Int} {len : Nat} (h : 0 ≤ off ∧ off + len ≤ count)
    (k : List α → Proc (Fin n) α β) :
    load (List.ofFn b) off len k = k (block (List.ofFn b) off.toNat len) := by
  unfold load
  rw [if_pos (by rw [List.length_ofFn]; exact h)]

/-- Storing a region of one buffer over the same region of another. -/
theorem store_ofFn {f : α → α → α} {b b' : Fin count → α} {off : Int} {len : Nat}
    (h : 0 ≤ off ∧ off + len ≤ count) (k : List α → Proc (Fin n) α β) :
    store f (List.ofFn b) off (block (List.ofFn b') off.toNat len) k
      = k (List.ofFn fun y : Fin count =>
          if off ≤ y.val ∧ y.val < off + len then f (b y) (b' y) else b y) := by
  obtain ⟨off, rfl⟩ := Int.eq_ofNat_of_zero_le h.1
  have hlen : (block (List.ofFn b') off len).length = len :=
    length_block (by rw [List.length_ofFn]; omega)
  unfold store
  simp only [Int.toNat_natCast]
  rw [hlen, if_pos (by rw [List.length_ofFn]; exact h)]
  congr 1
  refine List.ext_getElem ?_ fun y hy hy' => ?_
  · simp only [block, List.length_append, List.length_take, List.length_zipWith, List.length_drop,
      List.length_ofFn]
    omega
  · rw [List.length_ofFn] at hy'
    rw [List.getElem_ofFn]
    by_cases h₁ : y < off
    · rw [if_neg (by simp only; omega), List.getElem_append_left, List.getElem_append_left,
        List.getElem_take, List.getElem_ofFn]
      · simp only [List.length_take, List.length_ofFn]; omega
      · simp only [List.length_append, List.length_take, List.length_ofFn]; omega
    · by_cases h₂ : y < off + len
      · rw [if_pos (by simp only; omega), List.getElem_append_left, List.getElem_append_right]
        · simp only [block, List.getElem_zipWith, List.getElem_take, List.getElem_drop,
            List.getElem_ofFn, List.length_take, List.length_ofFn]
          have hmin : min off count = off := by omega
          have hy₀ : off + (y - off) = y := by omega
          simp only [hmin, hy₀]
        · simp only [List.length_take, List.length_ofFn]; omega
        · simp only [block, List.length_append, List.length_take, List.length_zipWith,
            List.length_drop, List.length_ofFn]
          omega
      · rw [if_neg (by simp only; omega), List.getElem_append_right]
        · simp only [block, List.getElem_drop, List.getElem_ofFn, List.length_append,
            List.length_take, List.length_zipWith, List.length_drop, List.length_ofFn]
          congr 2
          omega
        · simp only [block, List.length_append, List.length_take, List.length_zipWith,
            List.length_drop, List.length_ofFn]
          omega

/-- A block that a store does not reach. -/
theorem block_apart {b b' : Fin count → α} {off len : Nat} (h : off + len ≤ count)
    (hb : ∀ y : Fin count, off ≤ y.val → y.val < off + len → b y = b' y) :
    block (List.ofFn b) off len = block (List.ofFn b') off len := by
  refine List.ext_getElem ?_ fun y hy hy' => ?_
  · rw [length_block (by rw [List.length_ofFn]; exact h),
      length_block (by rw [List.length_ofFn]; exact h)]
  · rw [length_block (by rw [List.length_ofFn]; exact h)] at hy
    simp only [block, List.getElem_take, List.getElem_drop, List.getElem_ofFn]
    exact hb _ (by simp only; omega) (by simp only; omega)

/-! ## Exchanges -/

/-- One pass through the body of a collective's loop. -/
structure Exchange where
  dst : Nat
  src : Nat
  /-- Send before receiving, or the other way round. -/
  sendFirst : Bool
  sendOffset : Int
  sendCount : Nat
  recvOffset : Int
  recvCount : Nat
  /-- Add what is received to the buffer, or overwrite it. -/
  reduce : Bool

/-- What becomes of an element when its partner's arrives. -/
def Exchange.merge (e : Exchange) (op : α → α → α) : α → α → α :=
  if e.reduce then op else fun _ x => x

/-- The loop body. A reducing round receives into a temporary, which it adds once both
transfers are over; the others receive into the buffer itself, so that a rank that
receives first sends from the buffer as it is after that. -/
def exchange (op : α → α → α) (e : Exchange) (buf : List α) : Proc (Fin n) α (List α) :=
  if e.sendFirst then
    load buf e.sendOffset e.sendCount fun out =>
      sendTo e.dst out <| recvFrom e.src e.recvCount fun x =>
        store (e.merge op) buf e.recvOffset x .done
  else
    recvFrom e.src e.recvCount fun x =>
      if e.reduce then
        load buf e.sendOffset e.sendCount fun out =>
          sendTo e.dst out <| store (e.merge op) buf e.recvOffset x .done
      else
        store (e.merge op) buf e.recvOffset x fun buf' =>
          load buf' e.sendOffset e.sendCount fun out => sendTo e.dst out (.done buf')

/-- The loop. -/
def perform (op : α → α → α) : List Exchange → List α → Proc (Fin n) α (List α)
  | [], buf => .done buf
  | e :: es, buf => (exchange op e buf).bind (perform op es)

theorem perform_append (op : α → α → α) (es es' : List Exchange) (buf : List α) :
    (perform op (es ++ es') buf : Proc (Fin n) α (List α))
      = (perform op es buf).bind (perform op es') := by
  induction es generalizing buf with
  | nil => rfl
  | cons e es ih =>
      simp only [List.cons_append, perform, Proc.bind_assoc]
      congr 1
      funext buf'
      exact ih buf'

theorem perform_singleton (op : α → α → α) (e : Exchange) (buf : List α) :
    (perform op [e] buf : Proc (Fin n) α (List α)) = exchange op e buf :=
  Proc.bind_done_right _

/-- The position lies in the region that is received. -/
def Exchange.Covers (e : Exchange) (y : Nat) : Prop :=
  e.recvOffset ≤ y ∧ y < e.recvOffset + e.recvCount

instance (e : Exchange) (y : Nat) : Decidable (e.Covers y) :=
  inferInstanceAs (Decidable (_ ∧ _))

/-- The buffers after a round that all ranks make together. -/
def round (op : α → α → α) (left : Fin n → Fin n) (e : Fin n → Exchange)
    (b : Fin n → Fin count → α) : Fin n → Fin count → α :=
  fun i y => if (e i).Covers y.val then (e i).merge op (b i y) (b (left i) y) else b i y

/-- The exchanges of all ranks in one round fit together: each sends to `right` and
receives from `left`, what is sent is what the partner expects, and some order of the
transfers goes through. -/
structure Fits (count : Nat) (right left : Fin n → Fin n) (e : Fin n → Exchange) : Prop where
  left_right : ∀ i, left (right i) = i
  right_left : ∀ i, right (left i) = i
  dst : ∀ i, (e i).dst = (right i).val
  src : ∀ i, (e i).src = (left i).val
  offset : ∀ i, (e (left i)).sendOffset = (e i).recvOffset
  size : ∀ i, (e (left i)).sendCount = (e i).recvCount
  inside : ∀ i, 0 ≤ (e i).recvOffset ∧ (e i).recvOffset + (e i).recvCount ≤ count
  /-- A rank does not send what it receives in the same round. -/
  apart : ∀ i, (e i).sendOffset + (e i).sendCount ≤ (e i).recvOffset ∨
    (e i).recvOffset + (e i).recvCount ≤ (e i).sendOffset
  pair : ∀ i, (e i).sendFirst = false → (e (right i)).sendFirst = true
  three : ∀ i, (e i).sendFirst = true → (e (right i)).sendFirst = true →
    (e (right (right i))).sendFirst = false

namespace Fits

variable {right left : Fin n → Fin n} {e : Fin n → Exchange}

theorem send_inside (h : Fits count right left e) (i : Fin n) :
    0 ≤ (e i).sendOffset ∧ (e i).sendOffset + (e i).sendCount ≤ count := by
  have hoff := h.offset (right i)
  have hsize := h.size (right i)
  have hin := h.inside (right i)
  rw [h.left_right] at hoff hsize
  omega

/-- The region a rank sends is untouched by what it receives. -/
theorem send_kept (h : Fits count right left e) (op : α → α → α) (b : Fin n → Fin count → α)
    (i : Fin n) :
    block (List.ofFn (round op left e b i)) (e i).sendOffset.toNat (e i).sendCount
      = block (List.ofFn (b i)) (e i).sendOffset.toNat (e i).sendCount := by
  have hin := h.send_inside i
  refine block_apart (by omega) fun y hy hy' => if_neg fun hc => ?_
  obtain ⟨hc₁, hc₂⟩ := hc
  have hapart := h.apart i
  omega

/-- **A round goes through**, and leaves the buffers `round` says. -/
theorem meets (h : Fits count right left e) (op : α → α → α) (b : Fin n → Fin count → α)
    (k : Fin n → List α → Proc (Fin n) α β) :
    ReflTransGen Meet (fun i => (exchange op (e i) (List.ofFn (b i))).bind (k i))
      (fun i => k i (List.ofFn (round op left e b i))) := by
  let d : Fin n → List α := fun i => block (List.ofFn (b i)) (e i).sendOffset.toNat (e i).sendCount
  have hd : ∀ i, d (left i)
      = block (List.ofFn (b (left i))) (e i).recvOffset.toNat (e i).recvCount := by
    intro i
    simp only [d, h.offset, h.size]
  have hdlen : ∀ i, (d (left i)).length = (e i).recvCount := by
    intro i
    have hin := h.inside i
    rw [hd]
    exact length_block (by rw [List.length_ofFn]; omega)
  have hstore : ∀ i (l : List α → Proc (Fin n) α (List α)),
      store ((e i).merge op) (List.ofFn (b i)) (e i).recvOffset (d (left i)) l
        = l (List.ofFn (round op left e b i)) := by
    intro i l
    rw [hd]
    exact store_ofFn (h.inside i) l
  -- what a rank does with the block it receives
  let q : Fin n → List α → Proc (Fin n) α β := fun i x =>
    let keep := store ((e i).merge op) (List.ofFn (b i)) (e i).recvOffset x
    if (e i).sendFirst then (keep .done).bind (k i)
    else if (e i).reduce then .send (right i) (d i) ((keep .done).bind (k i))
    else (keep fun buf' => load buf' (e i).sendOffset (e i).sendCount fun out =>
      sendTo (e i).dst out (.done buf')).bind (k i)
  refine meets_exchange h.left_right h.right_left (f := fun i => (e i).sendFirst) h.pair
    h.three (d := d) (q := q) ?_ ?_
  · intro i hf
    constructor
    · simp only [exchange, q, hf, if_true, load_ofFn (h.send_inside i), h.dst, h.src, sendTo_val,
        recvFrom_val, Proc.bind_send, Proc.bind_recv, hdlen, d]
    · simp only [q, hf, if_true, hstore, Proc.bind_done]
  · intro i hf
    constructor
    · simp only [exchange, q, hf, Bool.false_eq_true, if_false, h.src, recvFrom_val,
        Proc.bind_recv, hdlen]
      congr 1
      funext x
      split
      · simp only [load_ofFn (h.send_inside i), h.dst, sendTo_val, Proc.bind_send, d]
      · rfl
    · simp only [q, hf, Bool.false_eq_true, if_false, hstore, Proc.bind_done]
      split
      · rfl
      · simp only [load_ofFn (h.send_inside i), h.send_kept, h.dst, sendTo_val, Proc.bind_send,
          Proc.bind_done, d]

end Fits

/-- **Rounds in lockstep.** An invariant of the buffers that every round carries on
holds when all rounds are over. -/
theorem meets_rounds {op : α → α → α} {I : Nat → (Fin n → Fin count → α) → Prop}
    {right left : Nat → Fin n → Fin n} {e : Nat → Fin n → Exchange} {b : Fin n → Fin count → α}
    {m : Nat} (hfits : ∀ t, t < m → Fits count (right t) (left t) (e t)) (hinit : I 0 b)
    (hround : ∀ t b, t < m → I t b → I (t + 1) (round op (left t) (e t) b)) :
    ∃ b', I m b' ∧ ∀ k : Fin n → List α → Proc (Fin n) α β,
      ReflTransGen Meet
        (fun i => (perform op ((List.range m).map fun t => e t i) (List.ofFn (b i))).bind (k i))
        (fun i => k i (List.ofFn (b' i))) := by
  induction m with
  | zero => exact ⟨b, hinit, fun k => .refl⟩
  | succ m ih =>
      obtain ⟨b', hI, hrun⟩ := ih (fun t ht => hfits t (by omega)) fun t b ht =>
        hround t b (by omega)
      refine ⟨_, hround m b' (by omega) hI, fun k => ?_⟩
      have hsplit : (fun i => (perform op ((List.range (m + 1)).map fun t => e t i)
            (List.ofFn (b i))).bind (k i))
          = fun i => (perform op ((List.range m).map fun t => e t i) (List.ofFn (b i))).bind
              fun buf => (exchange op (e m i) buf).bind (k i) := by
        funext i
        rw [List.range_succ, List.map_append, perform_append, Proc.bind_assoc]
        simp only [List.map_cons, List.map_nil, perform_singleton]
      rw [hsplit]
      exact (hrun _).trans ((hfits m (by omega)).meets op b' k)

/-! ## Sizes -/

/-- In every round, whom a rank sends to receives from it, and as much as it sends. -/
def SizesAgree (plan : Fin n → List Exchange) : Prop :=
  ∀ (t : Nat) (i : Fin n) (e : Exchange), (plan i)[t]? = some e →
    ∃ (j : Fin n) (e' : Exchange), e.dst = j.val ∧ (plan j)[t]? = some e' ∧ e'.src = i.val ∧
      e'.recvCount = e.sendCount

theorem sizesAgree_of_fits {right left : Nat → Fin n → Fin n} {e : Nat → Fin n → Exchange}
    {m : Nat} (hfits : ∀ t, t < m → Fits count (right t) (left t) (e t)) :
    SizesAgree fun i => (List.range m).map fun t => e t i := by
  intro t i x hx
  rw [List.getElem?_map, Option.map_eq_some_iff] at hx
  obtain ⟨t', ht', rfl⟩ := hx
  obtain ⟨htm, rfl⟩ := List.getElem?_eq_some_iff.mp ht'
  rw [List.getElem_range]
  rw [List.length_range] at htm
  have h := hfits t htm
  refine ⟨right t i, e t (right t i), h.dst i, ?_, ?_, ?_⟩
  · rw [List.getElem?_map, List.getElem?_range htm, Option.map_some]
  · rw [h.src, h.left_right]
  · rw [← h.size, h.left_right]

theorem SizesAgree.append {p q : Fin n → List Exchange} {m : Nat} (hlen : ∀ i, (p i).length = m)
    (hp : SizesAgree p) (hq : SizesAgree q) : SizesAgree fun i => p i ++ q i := by
  intro t i e he
  rcases Nat.lt_or_ge t m with ht | ht
  · rw [List.getElem?_append_left (by rw [hlen]; exact ht)] at he
    obtain ⟨j, e', h₁, h₂, h₃⟩ := hp t i e he
    exact ⟨j, e', h₁, by rw [List.getElem?_append_left (by rw [hlen]; exact ht), h₂], h₃⟩
  · rw [List.getElem?_append_right (by rw [hlen]; exact ht), hlen] at he
    obtain ⟨j, e', h₁, h₂, h₃⟩ := hq (t - m) i e he
    refine ⟨j, e', h₁, ?_, h₃⟩
    rw [List.getElem?_append_right (by rw [hlen]; exact ht), hlen, h₂]

end CrossMachine.Collectives
