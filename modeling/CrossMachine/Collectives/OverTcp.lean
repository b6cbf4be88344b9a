import CrossMachine.Collectives.Halving
import CrossMachine.Collectives.Tree
import CrossMachine.Common.TcpChannel
import CrossMachine.Lib.Codec

/-!
# The collectives over sockets

The collectives call `channel.send(dst, data + off, len * sizeof(float))`: what goes over the wire
are the bytes of the elements. `TcpChannel` cuts the block anywhere, also inside of an element, and
the receiver has the elements when it has all bytes.

With the channel of `CrossMachine.Common.TcpChannel` below them, the all-reduces and the broadcast
end with what they end with by rendezvous, whatever room the buffers of a connection have
(`collectives_over_tcp`). The header of the channel warns of two ranks that both send before they
receive. They stop each other exactly if neither block fits into the buffers between them
(`sendFirst_deadlock_iff`).
-/

namespace CrossMachine.Collectives

open Lib Common Relation

variable {ι α β γ : Type*}

/-- The program with its calls in bytes. -/
def bytes (c : Codec α γ) : Proc ι α β → Proc ι γ β
  | .done r => .done r
  | .send dst data k => .send dst (data.flatMap c.enc) (bytes c k)
  | .recv src len k => .recv src (len * c.width) fun raw => bytes c (k (c.decode len raw))
  | .fault => .fault

variable {c : Codec α γ}

variable [DecidableEq ι]

/-- A rendezvous in elements is one in bytes. -/
theorem meets_bytes {P Q : ι → Proc ι α β} (h : ReflTransGen Meet P Q) :
    ReflTransGen Meet (fun i => bytes c (P i)) fun i => bytes c (Q i) := by
  induction h with
  | refl => exact .refl
  | @tail Q _ _ hmeet ih =>
      refine ih.tail ?_
      cases hmeet with
      | @intro i j d k l hs hr =>
          have hmove := Meet.intro (P := fun i => bytes c (Q i)) (i := i) (j := j)
            (d := d.flatMap c.enc) (k := bytes c k)
            (l := fun raw => bytes c (l (c.decode d.length raw)))
            (by rw [hs, bytes]) (by rw [hr, bytes, c.length_flatMap_enc])
          rw [c.decode_flatMap_enc] at hmove
          convert hmove using 1
          funext x
          simp only [Function.update_apply]
          split_ifs <;> rfl

/-- Over sockets, every schedule ends with what the rendezvous run ends with. -/
theorem settles_bytes {cap : ι → ι → Nat} (hcap : ∀ i j, 0 < cap i j) (c : Codec α γ)
    {P : ι → Proc ι α β} {r : ι → β} (h : ReflTransGen Meet P fun i => .done (r i)) :
    Settles (Tcp cap) (connected fun i => bytes c (P i)) (connected fun i => .done (r i)) := by
  have hbytes := meets_bytes (c := c) h
  simp only [bytes] at hbytes
  exact tcp_settles hcap hbytes

/-- The elementwise sum of all buffers. -/
def reduced {M : Type*} [AddCommMonoid M] {n count : Nat} (init : Fin n → Fin count → M) : List M :=
  List.ofFn fun y => ∑ i, init i y

section Allreduce

variable {M : Type*} [AddCommMonoid M] {n count : Nat}

theorem treeAllreduce_meets (init : Fin n → Fin count → M) :
    ReflTransGen Meet
      (fun i : Fin n => treeAllreduce (· + ·) n count i (List.ofFn (init i)))
      fun _ => .done (reduced init) := by
  rcases Nat.eq_zero_or_pos n with rfl | hn
  · rw [show (fun i : Fin 0 => treeAllreduce (· + ·) 0 count i (List.ofFn (init i))) =
      fun _ => .done (reduced init) from funext fun i => i.elim0]
  obtain ⟨out, hout, hrun⟩ := treeReduce_meets (β := List M) ⟨0, hn⟩ init
  have hsum : out ⟨0, hn⟩ = fun y => ∑ i, init i y := funext hout
  have hback := treeBroadcast_meets (β := List M) ⟨0, hn⟩ out fun _ => .done
  rw [hsum] at hback
  simp only [Proc.bind_done_right] at hback
  exact (hrun fun i => treeBroadcast n count 0 i).trans hback

omit [AddCommMonoid M] in
theorem treeBroadcast_meets_root (root : Fin n) (init : Fin n → Fin count → M) :
    ReflTransGen Meet
      (fun i : Fin n => treeBroadcast n count root i (List.ofFn (init i)))
      fun _ => .done (List.ofFn (init root)) := by
  have h := treeBroadcast_meets (β := List M) root init fun _ => .done
  simp only [Proc.bind_done_right] at h
  exact h

theorem halvingDoublingAllreduce_meets (h : n ≤ 1 ∨ isPowerOfTwo n = false ∨ n ∣ count)
    (init : Fin n → Fin count → M) :
    ReflTransGen Meet
      (fun i : Fin n => halvingDoublingAllreduce (· + ·) n count i (List.ofFn (init i)))
      fun _ => .done (reduced init) := by
  unfold reduced
  by_cases hn : n ≤ 1
  · have : Subsingleton (Fin n) := Fin.subsingleton_iff_le_one.mpr hn
    have hend : (fun i : Fin n => halvingDoublingAllreduce (· + ·) n count i
        (List.ofFn (init i))) = fun _ => .done (List.ofFn fun y => ∑ i, init i y) := by
      funext i
      simp only [halvingDoublingAllreduce, if_pos hn, Fintype.sum_subsingleton _ i]
    rw [hend]
  cases hpow : isPowerOfTwo n with
  | false =>
      simp only [halvingDoublingAllreduce, if_neg hn, hpow, Bool.not_false, if_true]
      exact ringAllreduce_sum_meets init
  | true =>
      rw [hpow] at h
      obtain ⟨k, rfl⟩ := isPowerOfTwo_iff.mp hpow
      obtain ⟨m, rfl⟩ : ∃ m, count = m * 2 ^ k := by
        obtain ⟨m, hm⟩ := (h.resolve_left hn).resolve_left (by simp)
        exact ⟨m, by rw [hm, Nat.mul_comm]⟩
      simp only [halvingDoublingAllreduce, if_neg hn, hpow, Bool.not_true, Bool.false_eq_true,
        if_false]
      exact halvingDoubling_meets init

end Allreduce

/-- Every run of the collectives over the sockets ends, and ends with the result: the all-reduces
with the sum at every rank, the broadcast with the buffer of the root. The halving needs buffers
that it can split evenly. -/
structure OverTcp {M : Type*} [AddCommMonoid M] (c : Codec M γ) {n count : Nat}
    (cap : Fin n → Fin n → Nat) (init : Fin n → Fin count → M) : Prop where
  ring : Settles (Tcp cap)
    (connected fun i => bytes c (ringAllreduce (· + ·) n count i (List.ofFn (init i))))
    (connected fun _ => .done (reduced init))
  tree : Settles (Tcp cap)
    (connected fun i => bytes c (treeAllreduce (· + ·) n count i (List.ofFn (init i))))
    (connected fun _ => .done (reduced init))
  halving : n ≤ 1 ∨ isPowerOfTwo n = false ∨ n ∣ count → Settles (Tcp cap)
    (connected fun i => bytes c (halvingDoublingAllreduce (· + ·) n count i (List.ofFn (init i))))
    (connected fun _ => .done (reduced init))
  broadcast : ∀ root : Fin n, Settles (Tcp cap)
    (connected fun i => bytes c (treeBroadcast n count root i (List.ofFn (init i))))
    (connected fun _ => .done (List.ofFn (init root)))

/-- **Collectives over sockets.** Whatever the buffers of the connections hold and however the
system calls cut the blocks, the collectives end with what they end with by rendezvous. -/
theorem collectives_over_tcp {M : Type*} [AddCommMonoid M] (c : Codec M γ) {n : Nat}
    {cap : Fin n → Fin n → Nat} (hcap : ∀ i j, 0 < cap i j) (count : Nat)
    (init : Fin n → Fin count → M) : OverTcp c cap init where
  ring := settles_bytes hcap c (ringAllreduce_sum_meets init)
  tree := settles_bytes hcap c (treeAllreduce_meets init)
  halving := fun h => settles_bytes hcap c (halvingDoublingAllreduce_meets h init)
  broadcast := fun root => settles_bytes hcap c (treeBroadcast_meets_root root init)

/-- An element of two halves. -/
def halves : Codec (Nat × Nat) Nat where
  width := 2
  enc := fun x => [x.1, x.2]
  dec := fun raw => (raw.headD 0, raw.tail.headD 0)
  length_enc := fun _ => rfl
  dec_enc := fun _ => rfl

/-- Three ranks, with room for half an element on the way. -/
theorem collectives_over_tcp_three :
    OverTcp halves (fun _ _ => 1) fun (i : Fin 3) (y : Fin 2) => (i.val, y.val) :=
  collectives_over_tcp halves (fun _ _ => Nat.one_pos) 2 _

/-! ## Both send first -/

/-- Two ranks of a mesh that send to each other and then receive. -/
def sendFirst (i j : ι) (d d' : List α) (x : ι) : Proc ι α (List α) :=
  if x = i then .send j d (.recv j d'.length .done)
  else if x = j then .send i d' (.recv i d.length .done)
  else .done []

section SendFirst

variable {cap : ι → ι → Nat} {i j : ι} {d d' : List α}

theorem sendFirst_comm (hij : i ≠ j) : sendFirst i j d d' = sendFirst j i d' d := by
  funext x
  unfold sendFirst
  by_cases hi : x = i
  · rw [if_pos hi, if_neg fun hj => hij (hi.symm.trans hj), if_pos hi]
  · rw [if_neg hi, if_neg hi]

omit [DecidableEq ι] in
/-- Where the buffers are full, a send waits. -/
theorem not_turn_of_full {chan : ι → ι → List α} {m : List α} {k : Proc ι α β} {n : Nat}
    {e : Effect ι α} {r : Rank ι α β} (hfull : (chan i j).length = cap i j)
    (hlt : m.length < d.length) : ¬ Turn cap chan i n ⟨.send j d k, m⟩ e r := by
  intro h
  cases h with
  | send hpos hlen hroom => omega
  | sent hlen => omega

/-- If one of the blocks fits into the buffers, both ranks end with the block of the other. -/
theorem sendFirst_completes (hij : i ≠ j) (hcap : 0 < cap j i) (hfits : d.length ≤ cap i j)
    (d' : List α) :
    ReflTransGen (Byte cap) (connected (sendFirst i j d d'))
      (connected fun x => .done (if x = i then d' else if x = j then d else [])) := by
  have hsend : ReflTransGen (Tcp cap) (connected (sendFirst i j d d')) _ :=
    send_block (i := i) (j := j) (d := d) (k := .recv j d'.length .done)
      (congrArg (Rank.mk · []) (if_pos rfl)) (by simpa [connected] using hfits)
  have hmeet : ReflTransGen (Byte cap) ⟨Function.update (connected (sendFirst i j d d')).rank i
      ⟨.recv j d'.length .done, []⟩, cell (fun _ _ => []) i j d⟩ _ :=
    bytes_of_meet (d := d') (k := .recv i d.length .done) (l := .done) hij.symm hcap
    ((Function.update_of_ne hij.symm _ _).trans
      (congrArg (Rank.mk · []) ((if_neg hij.symm).trans (if_pos rfl))))
    (Function.update_self ..)
    (cell_of_ne (f := fun _ _ => ([] : List α)) fun hc => hij hc.1.symm)
  have hrecv : ReflTransGen (Tcp cap) ⟨Function.update (Function.update (Function.update
      (connected (sendFirst i j d d')).rank i ⟨.recv j d'.length .done, []⟩) j
      ⟨.recv i d.length .done, []⟩) i ⟨.done d', []⟩, cell (fun _ _ => []) i j d⟩ _ :=
    recv_block (i := i) (j := j) (m := d.length) (l := .done)
    ((Function.update_of_ne hij.symm _ _).trans (Function.update_self ..))
    (by simp only [cell_self, Nat.le_refl])
  refine ((bytes_of_tcp hsend).trans hmeet).trans ?_
  convert bytes_of_tcp hrecv using 1
  unfold connected
  congr 1
  · funext x
    simp only [Function.update_apply, sendFirst, cell_self, List.take_length]
    by_cases hi : x = i
    · have hj : x ≠ j := fun hj => hij (hi.symm.trans hj)
      simp only [if_pos hi, if_neg hj]
    · by_cases hj : x = j
      · simp only [if_neg hi, if_pos hj]
      · simp only [if_neg hi, if_neg hj]
  · simp only [cell_self, cell_cell, List.drop_length, cell_eq_self (fun _ _ => [])]

/-- **The deadlock the channel warns of.** Two ranks that both send before they receive can stop
each other if and only if neither block fits into the buffers in its direction. -/
theorem sendFirst_deadlock_iff (hij : i ≠ j) (hcap : ∀ i j, 0 < cap i j) :
    (∃ s, ReflTransGen (Tcp cap) (connected (sendFirst i j d d')) s ∧ Stuck (Tcp cap) s ∧
      ∃ x, ∀ r, (s.rank x).proc ≠ .done r) ↔
    cap i j < d.length ∧ cap j i < d'.length := by
  constructor
  · rintro ⟨s, hrun, hstuck, x, hx⟩
    by_contra hfits
    rcases Nat.lt_or_ge (cap i j) d.length with hd | hd
    · have hd' : d'.length ≤ cap j i := by omega
      rw [sendFirst_comm hij] at hrun
      obtain ⟨N, hN⟩ := tcp_settles_of_bytes (sendFirst_completes hij.symm (hcap i j) hd' d)
      obtain ⟨m, hm⟩ := exists_steps hrun
      obtain rfl := (hN m s hm).2 hstuck
      exact hx _ rfl
    · obtain ⟨N, hN⟩ := tcp_settles_of_bytes (sendFirst_completes hij (hcap j i) hd d')
      obtain ⟨m, hm⟩ := exists_steps hrun
      obtain rfl := (hN m s hm).2 hstuck
      exact hx _ rfl
  · rintro ⟨hd, hd'⟩
    -- each rank fills the buffers in its direction
    have hfull : ((d.drop 0).take (cap i j)).length = cap i j := by
      rw [List.drop_zero, List.length_take_of_le hd.le]
    have hfull' : ((d'.drop 0).take (cap j i)).length = cap j i := by
      rw [List.drop_zero, List.length_take_of_le hd'.le]
    have hcall : Call cap (cap i j) (connected (sendFirst i j d d')) _ :=
      .at (i := i) (congrArg (Rank.mk · []) (if_pos rfl))
        (.send (hcap i j) (by simpa using hd.le) (by simp [connected]))
    have hcall' : Call cap (cap j i) ⟨Function.update (connected
        (sendFirst i j d d')).rank i ⟨.send j d (.recv j d'.length .done),
        (d.drop 0).take (cap i j)⟩, cell (fun _ _ => []) i j ((d.drop 0).take (cap i j))⟩ _ := .at
      (i := j) ((Function.update_of_ne hij.symm _ _).trans
        (congrArg (Rank.mk · []) ((if_neg hij.symm).trans (if_pos rfl))))
      (.send (hcap j i) (by simpa using hd'.le)
        (by simp [cell_of_ne fun hc : j = i ∧ i = j => hij hc.2]))
    refine ⟨_, (ReflTransGen.single ⟨_, hcall⟩).tail ⟨_, hcall'⟩, ?_, i, fun r hr => ?_⟩
    · rintro u ⟨n, hu⟩
      cases hu with
      | @intro x e r hturn =>
      dsimp only [Effect.apply] at hturn
      by_cases hxj : x = j
      · subst hxj
        rw [Function.update_self] at hturn
        refine not_turn_of_full ?_ ?_ hturn
        · rw [cell_self, cell_of_ne fun hc : x = i ∧ i = x => hij hc.2]
          exact hfull'
        · simpa using hfull'.trans_lt hd'
      by_cases hxi : x = i
      · subst hxi
        rw [Function.update_of_ne hxj, Function.update_self] at hturn
        refine not_turn_of_full ?_ ?_ hturn
        · rw [cell_of_ne fun hc : x = j ∧ j = x => hij hc.1, cell_self]
          exact hfull
        · simpa using hfull.trans_lt hd
      · rw [Function.update_of_ne hxj, Function.update_of_ne hxi] at hturn
        simp only [connected, sendFirst, if_neg hxi, if_neg hxj] at hturn
        cases hturn
    · simp only [Function.update_of_ne hij, Function.update_self] at hr
      cases hr

/-- Two ranks with room for one element in each direction, and blocks of two. -/
theorem sendFirst_deadlock_two :
    (∃ s, ReflTransGen (Tcp fun _ _ => 1) (connected (sendFirst false true [1, 2] [3, 4])) s ∧
      Stuck (Tcp fun _ _ => 1) s ∧ ∃ x, ∀ r, (s.rank x).proc ≠ .done r) ↔
    1 < [1, 2].length ∧ 1 < [3, 4].length :=
  sendFirst_deadlock_iff (by decide) fun _ _ => Nat.one_pos

end SendFirst

end CrossMachine.Collectives
