import CrossMachine.Lib.Network

/-!
# The channel over stream sockets

`TcpChannel` of `channel.cpp`. `send` and `recv` are the loops `sendAll` and `recvAll` around
the system calls, and a system call moves as much as it likes: at least one element, no more than
the loop still asks for, no more than there is room for in the buffers of the connection or than
has arrived. So a block may be sent in one piece and be received in three, or be received in part
while the other part waits for room.

The algorithms are written against the abstract channel, where a block is sent or received as a
whole (`Lib.Proc`). That they may be: the order of two calls of different ranks does not matter
(`byte_diamond`), so one complete run decides all schedules, however small the buffers are and
however the blocks are cut; and a rendezvous is such a run (`bytes_of_meets`). What completes by
rendezvous completes over sockets (`tcp_settles`).
-/

namespace CrossMachine.Common

open Lib Relation

variable {ι α β : Type*}

/-- A rank in the middle of a call: its program from the call on, and what the loop of the call
has sent or received so far (`sent`, `got`). -/
structure Rank (ι α β : Type*) where
  proc : Proc ι α β
  moved : List α

/-- All ranks, and for every pair what is in the buffers of their connection in that direction. -/
structure Mesh (ι α β : Type*) where
  rank : ι → Rank ι α β
  chan : ι → ι → List α

/-- What a system call does to the buffers of the rank that makes it. -/
inductive Effect (ι α : Type*) where
  | quiet
  | push (dst : ι) (data : List α)
  | pop (src : ι) (n : Nat)

/-- One iteration of the loop of a call, which moves `n` elements, or the return from the call
when the loop is over. `cap` is how much the buffers of a connection hold. -/
inductive Turn (cap : ι → ι → Nat) (chan : ι → ι → List α) (i : ι) :
    Nat → Rank ι α β → Effect ι α → Rank ι α β → Prop where
  /-- `::send` in `sendAll`. -/
  | send {j : ι} {d m : List α} {k : Proc ι α β} {n : Nat} (hpos : 0 < n)
      (hlen : m.length + n ≤ d.length) (hroom : (chan i j).length + n ≤ cap i j) :
      Turn cap chan i n ⟨.send j d k, m⟩ (.push j ((d.drop m.length).take n))
        ⟨.send j d k, m ++ (d.drop m.length).take n⟩
  /-- `::recv` in `recvAll`. -/
  | recv {j : ι} {len : Nat} {m : List α} {k : List α → Proc ι α β} {n : Nat} (hpos : 0 < n)
      (hlen : m.length + n ≤ len) (havail : n ≤ (chan j i).length) :
      Turn cap chan i n ⟨.recv j len k, m⟩ (.pop j n) ⟨.recv j len k, m ++ (chan j i).take n⟩
  /-- `sendAll` returns. -/
  | sent {j : ι} {d m : List α} {k : Proc ι α β} (hlen : m.length = d.length) :
      Turn cap chan i 0 ⟨.send j d k, m⟩ .quiet ⟨k, []⟩
  /-- `recvAll` returns. -/
  | got {j : ι} {len : Nat} {m : List α} {k : List α → Proc ι α β} (hlen : m.length = len) :
      Turn cap chan i 0 ⟨.recv j len k, m⟩ .quiet ⟨k m, []⟩

variable [DecidableEq ι]

def Effect.apply (i : ι) (chan : ι → ι → List α) : Effect ι α → ι → ι → List α
  | .quiet => chan
  | .push j d => cell chan i j (chan i j ++ d)
  | .pop j n => cell chan j i ((chan j i).drop n)

@[simp] theorem apply_quiet (i : ι) (chan : ι → ι → List α) :
    (Effect.quiet : Effect ι α).apply i chan = chan := rfl

@[simp] theorem apply_push (i j : ι) (chan : ι → ι → List α) (d : List α) :
    (Effect.push j d).apply i chan = cell chan i j (chan i j ++ d) := rfl

@[simp] theorem apply_pop (i j : ι) (chan : ι → ι → List α) (n : Nat) :
    (Effect.pop j n).apply i chan = cell chan j i ((chan j i).drop n) := rfl

/-- Some rank makes a step that moves `n` elements. -/
inductive Call (cap : ι → ι → Nat) (n : Nat) (s : Mesh ι α β) : Mesh ι α β → Prop where
  | intro {i : ι} {e : Effect ι α} {r : Rank ι α β} (hturn : Turn cap s.chan i n (s.rank i) e r) :
      Call cap n s ⟨Function.update s.rank i r, e.apply i s.chan⟩

/-- The network over sockets. -/
def Tcp (cap : ι → ι → Nat) (s t : Mesh ι α β) : Prop := ∃ n, Call cap n s t

/-- The same when the system calls move one element at a time. -/
def Byte (cap : ι → ι → Nat) (s t : Mesh ι α β) : Prop := ∃ n ≤ 1, Call cap n s t

/-- No rank is in a call, nothing is under way. -/
def connected (P : ι → Proc ι α β) : Mesh ι α β :=
  { rank := fun i => ⟨P i, []⟩, chan := fun _ _ => [] }

variable {cap : ι → ι → Nat} {chan : ι → ι → List α} {i j a : ι} {n m : Nat}
  {r r' r'' : Rank ι α β} {e f : Effect ι α} {s t : Mesh ι α β} {P Q : ι → Proc ι α β}

/-! ## Two ranks do not interfere -/

/-- Nobody else adds to what a rank has sent. -/
theorem apply_out (h : a ≠ i) : ∃ k, f.apply a chan i j = (chan i j).drop k := by
  cases f with
  | quiet => exact ⟨0, rfl⟩
  | push b d =>
      refine ⟨0, ?_⟩
      rw [apply_push, cell_of_ne fun hc => h hc.1.symm, List.drop_zero]
  | pop b k =>
      rw [apply_pop]
      by_cases hc : i = b ∧ j = a
      · obtain ⟨rfl, rfl⟩ := hc
        exact ⟨k, cell_self ..⟩
      · exact ⟨0, by rw [cell_of_ne hc, List.drop_zero]⟩

/-- Nobody else takes from what a rank is sent. -/
theorem apply_in (h : a ≠ i) : ∃ x, f.apply a chan j i = chan j i ++ x := by
  cases f with
  | quiet => exact ⟨[], (List.append_nil _).symm⟩
  | push b d =>
      rw [apply_push]
      by_cases hc : j = a ∧ i = b
      · obtain ⟨rfl, rfl⟩ := hc
        exact ⟨d, cell_self ..⟩
      · exact ⟨[], by rw [cell_of_ne hc, List.append_nil]⟩
  | pop b k =>
      refine ⟨[], ?_⟩
      rw [apply_pop, cell_of_ne fun hc => h hc.2.symm, List.append_nil]

/-- What a rank can do it can still do when another one has moved. -/
theorem Turn.stable (h : Turn cap chan i n r e r') (hne : a ≠ i) :
    Turn cap (f.apply a chan) i n r e r' := by
  cases h with
  | @send j d m k n hpos hlen hroom =>
      obtain ⟨x, hx⟩ : ∃ x, f.apply a chan i j = (chan i j).drop x := apply_out hne
      refine .send hpos hlen ?_
      rw [hx, List.length_drop]
      omega
  | @recv j len m k n hpos hlen havail =>
      obtain ⟨x, hx⟩ : ∃ x, f.apply a chan j i = chan j i ++ x := apply_in hne
      have hturn : Turn cap (f.apply a chan) i n ⟨.recv j len k, m⟩ (.pop j n)
          ⟨.recv j len k, m ++ (f.apply a chan j i).take n⟩ := .recv hpos hlen <| by
        rw [hx, List.length_append]
        omega
      rwa [hx, List.take_append_of_le_length havail] at hturn
  | sent hlen => exact .sent hlen
  | got hlen => exact .got hlen

omit [DecidableEq ι] in
/-- A rank takes only what is there. -/
theorem Turn.avail (h : Turn cap chan i n r (.pop j m) r') : m ≤ (chan j i).length := by
  cases h with
  | recv _ _ havail => exact havail

/-- A channel is extended at its end and shortened at its front. -/
theorem push_pop_comm (hne : a ≠ i) {d : List α} (hn : n ≤ (chan j a).length) {b : ι} :
    (Effect.push b d).apply i ((Effect.pop j n).apply a chan) =
      (Effect.pop j n).apply a ((Effect.push b d).apply i chan) := by
  simp only [apply_push, apply_pop]
  by_cases hc : i = j ∧ b = a
  · obtain ⟨rfl, rfl⟩ := hc
    simp only [cell_self, cell_cell, List.drop_append_of_le_length hn]
  · rw [cell_of_ne hc, cell_of_ne fun hc' => hc ⟨hc'.1.symm, hc'.2.symm⟩,
      cell_comm fun hc' => hc hc']

/-- Calls of two ranks change the buffers in any order. -/
theorem apply_comm (hne : a ≠ i) (he : ∀ j n, e = .pop j n → n ≤ (chan j i).length)
    (hf : ∀ j n, f = .pop j n → n ≤ (chan j a).length) :
    e.apply i (f.apply a chan) = f.apply a (e.apply i chan) := by
  cases e with
  | quiet => rfl
  | push j d =>
      cases f with
      | quiet => rfl
      | push b d' =>
          simp only [apply_push]
          rw [cell_of_ne fun hc => hne hc.1.symm, cell_of_ne fun hc => hne hc.1,
            cell_comm fun hc => hne hc.1.symm]
      | pop b n => exact push_pop_comm hne (hf b n rfl)
  | pop j n =>
      cases f with
      | quiet => rfl
      | push b d' => exact (push_pop_comm hne.symm (he j n rfl)).symm
      | pop b m =>
          simp only [apply_pop]
          rw [cell_of_ne fun hc => hne hc.2.symm, cell_of_ne fun hc => hne hc.2,
            cell_comm fun hc => hne hc.2.symm]

omit [DecidableEq ι] in
/-- With one element at a time a rank has no choice. -/
theorem Turn.unique (h : Turn cap chan i n r e r') (h' : Turn cap chan i m r f r'')
    (hn : n ≤ 1) (hm : m ≤ 1) : e = f ∧ r' = r'' := by
  cases h with
  | send hpos hlen hroom =>
      cases h' with
      | send hpos' hlen' hroom' =>
          obtain rfl : n = m := by omega
          exact ⟨rfl, rfl⟩
      | sent hlen' => omega
  | recv hpos hlen havail =>
      cases h' with
      | recv hpos' hlen' havail' =>
          obtain rfl : n = m := by omega
          exact ⟨rfl, rfl⟩
      | got hlen' => omega
  | sent hlen =>
      cases h' with
      | send hpos' hlen' hroom' => omega
      | sent hlen' => exact ⟨rfl, rfl⟩
  | got hlen =>
      cases h' with
      | recv hpos' hlen' havail' => omega
      | got hlen' => exact ⟨rfl, rfl⟩

theorem Call.at (hr : s.rank i = r) (hturn : Turn cap s.chan i n r e r') :
    Call cap n s ⟨Function.update s.rank i r', e.apply i s.chan⟩ :=
  .intro (by rw [hr]; exact hturn)

/-- **The order of two calls of different ranks does not matter.** -/
theorem byte_diamond : Diamond (Byte cap : Mesh ι α β → Mesh ι α β → Prop) := by
  intro s t t' ht ht'
  obtain ⟨n, hn, ht⟩ := ht
  obtain ⟨m, hm, ht'⟩ := ht'
  cases ht with
  | @intro i e r h =>
  cases ht' with
  | @intro a f r' h' =>
  by_cases hia : i = a
  · subst hia
    obtain ⟨rfl, rfl⟩ := h.unique h' hn hm
    exact .inl rfl
  · refine .inr ⟨_, ⟨m, hm, Call.at (i := a) ?_ (h'.stable hia)⟩, n, hn, ?_⟩
    · exact Function.update_of_ne (Ne.symm hia) _ _
    have hback := Call.at (s := ⟨Function.update s.rank a r', f.apply a s.chan⟩)
      (Function.update_of_ne hia _ _) (h.stable (f := f) (Ne.symm hia))
    rw [Function.update_comm hia, apply_comm hia
      (fun j k hk => Turn.avail (hk ▸ h')) fun j k hk => Turn.avail (hk ▸ h)]
    exact hback

/-! ## A call that moves much is many that move little -/

theorem Turn.split (h : Turn cap chan i (n + 1) r e r') (hn : 0 < n) :
    ∃ e₁ r₁ e₂, Turn cap chan i n r e₁ r₁ ∧ Turn cap (e₁.apply i chan) i 1 r₁ e₂ r' ∧
      e₂.apply i (e₁.apply i chan) = e.apply i chan := by
  cases h with
  | @send j d m k _ hpos hlen hroom =>
      have hmoved : ((d.drop m.length).take n).length = n := by
        rw [List.length_take, List.length_drop]
        omega
      have hsum : (m ++ (d.drop m.length).take n).length = m.length + n := by
        rw [List.length_append, hmoved]
      have hroom₁ : (cell chan i j (chan i j ++ (d.drop m.length).take n) i j).length + 1 ≤
          cap i j := by
        rw [cell_self, List.length_append, hmoved]
        omega
      have hlast := Turn.send (d := d) (k := k) (m := m ++ (d.drop m.length).take n) Nat.one_pos
        (by rw [hsum]; omega) hroom₁
      rw [hsum, ← List.drop_drop, List.append_assoc, ← List.take_add] at hlast
      refine ⟨_, _, _, .send hn (by omega) (by omega), hlast, ?_⟩
      simp only [apply_push, cell_self, cell_cell, List.append_assoc, ← List.take_add]
  | @recv j len m k _ hpos hlen havail =>
      have hsum : (m ++ (chan j i).take n).length = m.length + n := by
        rw [List.length_append, List.length_take]
        omega
      have havail₁ : 1 ≤ (cell chan j i ((chan j i).drop n) j i).length := by
        rw [cell_self, List.length_drop]
        omega
      have hlast : Turn cap _ i 1 ⟨.recv j len k, m ++ (chan j i).take n⟩ (.pop j 1) _ :=
        .recv Nat.one_pos (by rw [hsum]; exact hlen) havail₁
      rw [cell_self, List.append_assoc, ← List.take_add] at hlast
      refine ⟨_, _, _, .recv hn (by omega) (by omega), hlast, ?_⟩
      simp only [apply_pop, cell_self, cell_cell, List.drop_drop]

theorem bytes_of_call (h : Call cap n s t) : ∃ m, 0 < m ∧ Steps (Byte cap) m s t := by
  induction n generalizing t with
  | zero => exact ⟨1, Nat.one_pos, .head ⟨0, Nat.zero_le 1, h⟩ (.refl t)⟩
  | succ n ih =>
      rcases Nat.eq_zero_or_pos n with rfl | hn
      · exact ⟨1, Nat.one_pos, .head ⟨1, Nat.le_refl 1, h⟩ (.refl t)⟩
      cases h with
      | @intro i e r h =>
          obtain ⟨e₁, r₁, e₂, h₁, h₂, heq⟩ := h.split hn
          obtain ⟨m, hm, hsteps⟩ := ih (.intro h₁)
          have hlast := Call.at (s := ⟨Function.update s.rank i r₁, e₁.apply i s.chan⟩)
            (Function.update_self ..) h₂
          dsimp only at hlast
          rw [Function.update_idem, heq] at hlast
          exact ⟨m + 1, Nat.succ_pos m,
            hsteps.trans (.head ⟨1, Nat.le_refl 1, hlast⟩ (.refl _))⟩

/-! ## A rendezvous over sockets -/

section Meet

variable {d : List α} {k : Proc ι α β} {l : List α → Proc ι α β}

/-- One element goes over, taken as soon as it has arrived. -/
theorem bytes_of_element (hij : i ≠ j) (hcap : 0 < cap i j) {x : Nat} (hx : x < d.length)
    (hi : s.rank i = ⟨.send j d k, d.take x⟩)
    (hj : s.rank j = ⟨.recv i d.length l, d.take x⟩) (hchan : s.chan i j = []) :
    ReflTransGen (Byte cap) s ⟨Function.update (Function.update s.rank i
      ⟨.send j d k, d.take (x + 1)⟩) j ⟨.recv i d.length l, d.take (x + 1)⟩, s.chan⟩ := by
  have hlen : (d.take x).length = x := List.length_take_of_le hx.le
  have hnext : d.take x ++ (d.drop x).take 1 = d.take (x + 1) := List.take_add.symm
  have hone : ((d.drop x).take 1).length = 1 := by
    rw [List.length_take, List.length_drop]
    omega
  have hsend : Turn cap s.chan i 1 ⟨.send j d k, d.take x⟩ (.push j _) _ :=
    .send Nat.one_pos (by rw [hlen]; exact hx) (by rw [hchan]; exact hcap)
  rw [hlen, hnext] at hsend
  have hrecv : Turn cap (cell s.chan i j ((d.drop x).take 1)) j 1 ⟨.recv i d.length l, d.take x⟩
      (.pop i 1) _ :=
    .recv Nat.one_pos (by rw [hlen]; exact hx) (by rw [cell_self, hone])
  rw [cell_self, List.take_take, Nat.min_self, hnext] at hrecv
  have hcall := Call.at hi hsend
  have hcall' := Call.at (s := ⟨Function.update s.rank i ⟨.send j d k, d.take (x + 1)⟩,
    cell s.chan i j ((d.drop x).take 1)⟩) ((Function.update_of_ne hij.symm _ _).trans hj) hrecv
  rw [apply_push, hchan, List.nil_append] at hcall
  simp only [apply_pop, cell_self, cell_cell, List.drop_of_length_le hone.le] at hcall'
  rw [← hchan, cell_eq_self] at hcall'
  exact (ReflTransGen.single ⟨1, Nat.le_refl 1, hcall⟩).tail ⟨1, Nat.le_refl 1, hcall'⟩

/-- The block goes over one element after the other. -/
theorem bytes_of_meet (hij : i ≠ j) (hcap : 0 < cap i j) (hi : s.rank i = ⟨.send j d k, []⟩)
    (hj : s.rank j = ⟨.recv i d.length l, []⟩) (hchan : s.chan i j = []) :
    ReflTransGen (Byte cap) s
      ⟨Function.update (Function.update s.rank i ⟨k, []⟩) j ⟨l d, []⟩, s.chan⟩ := by
  let mid (x : Nat) : ι → Rank ι α β := Function.update (Function.update s.rank i
    ⟨.send j d k, d.take x⟩) j ⟨.recv i d.length l, d.take x⟩
  have hi_mid : ∀ x, mid x i = ⟨.send j d k, d.take x⟩ := fun x =>
    (Function.update_of_ne hij _ _).trans (Function.update_self ..)
  have hj_mid : ∀ x, mid x j = ⟨.recv i d.length l, d.take x⟩ := fun x =>
    Function.update_self ..
  have hmid : ∀ x ≤ d.length, ReflTransGen (Byte cap) s ⟨mid x, s.chan⟩ := by
    intro x hx
    induction x with
    | zero =>
        have hstart : mid 0 = s.rank := by
          unfold mid
          rw [List.take_zero, ← hi, ← hj, Function.update_eq_self, Function.update_eq_self]
        rw [hstart]
    | succ x ih =>
        have hstep := bytes_of_element (s := ⟨mid x, s.chan⟩) hij hcap hx (hi_mid x) (hj_mid x)
          hchan
        have hends : Function.update (Function.update (mid x) i ⟨.send j d k, d.take (x + 1)⟩) j
            ⟨.recv i d.length l, d.take (x + 1)⟩ = mid (x + 1) := by
          unfold mid
          rw [Function.update_comm hij.symm, Function.update_idem, Function.update_idem]
        rw [← hends]
        exact (ih (by omega)).trans hstep
  have hsent : Call cap 0 ⟨mid d.length, s.chan⟩ _ :=
    .at (hi_mid d.length) (.sent (by rw [List.take_length]))
  have hends : Function.update (mid d.length) i ⟨k, []⟩ =
      Function.update (Function.update s.rank i ⟨k, []⟩) j ⟨.recv i d.length l, d⟩ := by
    unfold mid
    rw [List.take_length, Function.update_comm hij.symm, Function.update_idem]
  have hgot : Call cap 0 ⟨Function.update (Function.update s.rank i ⟨k, []⟩) j
      ⟨.recv i d.length l, d⟩, s.chan⟩ _ := .at (i := j) (Function.update_self ..) (.got rfl)
  simp only [apply_quiet, hends] at hsent
  simp only [apply_quiet, Function.update_idem] at hgot
  exact ((hmid d.length (Nat.le_refl _)).tail ⟨0, Nat.zero_le 1, hsent⟩).tail
    ⟨0, Nat.zero_le 1, hgot⟩

theorem bytes_of_meets (hcap : ∀ i j, 0 < cap i j) (h : ReflTransGen Meet P Q) :
    ReflTransGen (Byte cap) (connected P) (connected Q) := by
  induction h with
  | refl => exact .refl
  | @tail Q _ _ hmeet ih =>
      refine ih.trans ?_
      cases hmeet with
      | @intro i j d k l hs hr =>
          have hij : i ≠ j := by
            intro h
            rw [← h, hs] at hr
            cases hr
          have hrun := bytes_of_meet (s := connected Q) hij (hcap i j) (congrArg (Rank.mk · []) hs)
            (congrArg (Rank.mk · []) hr) rfl
          convert hrun using 1
          unfold connected
          congr 1
          funext x
          by_cases hx : x = j
          · subst hx
            rw [Function.update_self, Function.update_self]
          · rw [Function.update_of_ne hx, Function.update_of_ne hx]
            by_cases hx' : x = i
            · subst hx'
              rw [Function.update_self, Function.update_self]
            · rw [Function.update_of_ne hx', Function.update_of_ne hx']

end Meet

/-! ## Completion -/

theorem stuck_connected (r : ι → β) :
    Stuck (Byte cap : Mesh ι α β → Mesh ι α β → Prop) (connected fun i => .done (r i)) := by
  rintro t ⟨n, -, ⟨hturn⟩⟩
  cases hturn

theorem byte_tcp (h : Byte cap s t) : Tcp cap s t := by
  obtain ⟨n, -, h⟩ := h
  exact ⟨n, h⟩

/-- One complete run decides every schedule. -/
theorem tcp_settles_of_bytes {r : ι → β}
    (h : ReflTransGen (Byte cap) s (connected fun i => .done (r i))) :
    Settles (Tcp cap) s (connected fun i => .done (r i)) := by
  refine (settles_of_reaches byte_diamond (stuck_connected r) h).coarsen ?_ fun s t => byte_tcp
  rintro s t ⟨n, hcall⟩
  exact bytes_of_call hcall

/-- **What completes by rendezvous completes over sockets**, whatever the buffers hold and however
the system calls cut the blocks: every run is finite, and one that cannot go on has ended. -/
theorem tcp_settles (hcap : ∀ i j, 0 < cap i j) {r : ι → β}
    (h : ReflTransGen Meet P fun i => .done (r i)) :
    Settles (Tcp cap) (connected P) (connected fun i => .done (r i)) :=
  tcp_settles_of_bytes (bytes_of_meets hcap h)

/-! ## Blocks that fit -/

theorem bytes_of_tcp (h : ReflTransGen (Tcp cap) s t) : ReflTransGen (Byte cap) s t := by
  induction h with
  | refl => exact .refl
  | tail _ hcall ih =>
      obtain ⟨n, hcall⟩ := hcall
      obtain ⟨m, -, hsteps⟩ := bytes_of_call hcall
      exact ih.trans hsteps.reaches

/-- A block for which there is room is sent at once. -/
theorem send_block {d : List α} {k : Proc ι α β} (hi : s.rank i = ⟨.send j d k, []⟩)
    (hroom : (s.chan i j).length + d.length ≤ cap i j) :
    ReflTransGen (Tcp cap) s
      ⟨Function.update s.rank i ⟨k, []⟩, cell s.chan i j (s.chan i j ++ d)⟩ := by
  rcases Nat.eq_zero_or_pos d.length with hd | hd
  · have hcall : Call cap 0 s _ := .at hi (.sent hd.symm)
    have hnil : d = [] := List.length_eq_zero_iff.mp hd
    rw [hnil, List.append_nil, cell_eq_self]
    exact .single ⟨0, hcall⟩
  · have hturn : Turn cap s.chan i d.length ⟨.send j d k, []⟩ (.push j _) _ :=
      .send hd (by simp) hroom
    rw [List.length_nil, List.drop_zero, List.take_length, List.nil_append] at hturn
    refine (ReflTransGen.single ⟨d.length, Call.at hi hturn⟩).tail ⟨0, ?_⟩
    have hcall : Call cap 0 ⟨Function.update s.rank i ⟨.send j d k, d⟩,
      (Effect.push j d).apply i s.chan⟩ _ := .at (Function.update_self ..) (.sent rfl)
    dsimp only at hcall
    rw [Function.update_idem] at hcall
    exact hcall

/-- A block that has arrived is received at once. -/
theorem recv_block {l : List α → Proc ι α β} (hj : s.rank j = ⟨.recv i m l, []⟩)
    (havail : m ≤ (s.chan i j).length) :
    ReflTransGen (Tcp cap) s ⟨Function.update s.rank j ⟨l ((s.chan i j).take m), []⟩,
      cell s.chan i j ((s.chan i j).drop m)⟩ := by
  rcases Nat.eq_zero_or_pos m with rfl | hm
  · have hcall : Call cap 0 s _ := .at hj (.got rfl)
    rw [List.take_zero, List.drop_zero, cell_eq_self]
    exact .single ⟨0, hcall⟩
  · have hturn : Turn cap s.chan j m ⟨.recv i m l, []⟩ (.pop i m) _ := .recv hm (by simp) havail
    rw [List.nil_append] at hturn
    refine (ReflTransGen.single ⟨m, Call.at hj hturn⟩).tail ⟨0, ?_⟩
    have hcall : Call cap 0 ⟨Function.update s.rank j ⟨.recv i m l, (s.chan i j).take m⟩,
        (Effect.pop i m).apply j s.chan⟩ _ :=
      .at (Function.update_self ..) (.got (List.length_take_of_le havail))
    dsimp only at hcall
    rw [Function.update_idem] at hcall
    exact hcall

end CrossMachine.Common
