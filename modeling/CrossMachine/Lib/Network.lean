import Mathlib.Data.Fintype.Basic
import CrossMachine.Lib.Confluence

/-!
# Processes over channels

A process is what one rank of a collective does as seen from outside: it sends a
block of elements to a rank, receives a block of a length it knows beforehand, or is
finished. What it does next may depend on what it received, and on nothing else.

Two networks run the same processes.

* **First in, first out.** A channel from each rank to each other rank carries an
  unframed stream. Sending never blocks; a receive waits until enough has arrived.
* **Rendezvous.** A send blocks until the receiver asks for exactly that block, and
  the two move together.

Both have the diamond property, so one complete run decides every schedule
(`CrossMachine.Lib.Confluence`), and a rendezvous run is also a run of the
first-in first-out network in which every block is taken as soon as it is sent
(`fifo_of_meets`). A complete rendezvous run is therefore all that has to be shown
of a collective: `completes_of_meets`.
-/

namespace CrossMachine.Lib

open Relation (ReflTransGen)

variable {ι α β γ : Type*}

/-- What a rank does, up to what it receives. `fault` is an operation that the
program may not perform: a rank that does not exist, memory outside a buffer. -/
inductive Proc (ι α β : Type*) where
  | done (result : β)
  | send (dst : ι) (data : List α) (next : Proc ι α β)
  | recv (src : ι) (len : Nat) (next : List α → Proc ι α β)
  | fault

namespace Proc

/-- Run `p`, then go on with its result. -/
def bind : Proc ι α β → (β → Proc ι α γ) → Proc ι α γ
  | done r, k => k r
  | send dst data next, k => send dst data (next.bind k)
  | recv src len next, k => recv src len fun x => (next x).bind k
  | fault, _ => fault

@[simp] theorem bind_done (r : β) (k : β → Proc ι α γ) : (done r : Proc ι α β).bind k = k r := rfl

@[simp] theorem bind_send (dst : ι) (data : List α) (next : Proc ι α β) (k : β → Proc ι α γ) :
    (send dst data next).bind k = send dst data (next.bind k) := rfl

@[simp] theorem bind_recv (src : ι) (len : Nat) (next : List α → Proc ι α β)
    (k : β → Proc ι α γ) :
    (recv src len next).bind k = recv src len fun x => (next x).bind k := rfl

@[simp] theorem bind_fault (k : β → Proc ι α γ) : (fault : Proc ι α β).bind k = fault := rfl

theorem bind_assoc {δ : Type*} (p : Proc ι α β) (k : β → Proc ι α γ) (l : γ → Proc ι α δ) :
    (p.bind k).bind l = p.bind fun r => (k r).bind l := by
  induction p with
  | done r => rfl
  | send dst data next ih => simp only [bind_send, ih]
  | recv src len next ih => simp only [bind_recv, ih]
  | fault => rfl

@[simp] theorem bind_done_right (p : Proc ι α β) : p.bind done = p := by
  induction p with
  | done r => rfl
  | send dst data next ih => rw [bind_send, ih]
  | recv src len next ih => rw [bind_recv]; congr 1; funext x; exact ih x
  | fault => rfl

end Proc

variable [DecidableEq ι]

/-! ## Rendezvous -/

/-- A sender and the receiver waiting for exactly its block move together. -/
inductive Meet : (ι → Proc ι α β) → (ι → Proc ι α β) → Prop where
  | intro {P : ι → Proc ι α β} {i j : ι} {d : List α} {k : Proc ι α β}
      {l : List α → Proc ι α β} (hsend : P i = .send j d k) (hrecv : P j = .recv i d.length l) :
      Meet P (Function.update (Function.update P i k) j (l d))

/-- Who can move is fixed by whom they wait for, so different meetings have no
rank in common. -/
theorem meet_diamond : Diamond (Meet : (ι → Proc ι α β) → (ι → Proc ι α β) → Prop) := by
  intro P Q Q' hQ hQ'
  cases hQ with
  | @intro i j d k k' hs hr =>
  cases hQ' with
  | @intro a b e l l' hs' hr' =>
  by_cases hia : i = a
  · subst hia
    rw [hs] at hs'
    injection hs' with h₁ h₂ h₃
    subst h₁ h₂ h₃
    rw [hr] at hr'
    injection hr' with _ _ h₄
    subst h₄
    exact .inl rfl
  · have hij : i ≠ j := by intro h; rw [← h, hs] at hr; cases hr
    have hab : a ≠ b := by intro h; rw [← h, hs'] at hr'; cases hr'
    have hib : i ≠ b := by intro h; rw [← h, hs] at hr'; cases hr'
    have haj : a ≠ j := by intro h; rw [← h, hs'] at hr; cases hr
    have hjb : j ≠ b := by
      intro h
      rw [← h, hr] at hr'
      injection hr' with h₁
      exact hia h₁
    refine .inr ⟨_, .intro (i := a) (j := b) (d := e) (k := l) (l := l') ?_ ?_, ?_⟩
    · rw [Function.update_of_ne haj, Function.update_of_ne (Ne.symm hia), hs']
    · rw [Function.update_of_ne hjb.symm, Function.update_of_ne hib.symm, hr']
    · have hcomm : Function.update (Function.update (Function.update (Function.update P i k) j
            (k' d)) a l) b (l' e)
          = Function.update (Function.update (Function.update (Function.update P a l) b
            (l' e)) i k) j (k' d) := by
        funext x
        simp only [Function.update_apply]
        split_ifs <;> simp_all
      rw [hcomm]
      refine .intro (i := i) (j := j) (d := d) (k := k) (l := k') ?_ ?_
      · rw [Function.update_of_ne hib, Function.update_of_ne hia, hs]
      · rw [Function.update_of_ne hjb, Function.update_of_ne haj.symm, hr]

variable {P Q : ι → Proc ι α β} {i j a b : ι}

/-- A run of the first parts of some processes is a run of the whole. -/
theorem meets_bind (k : ι → β → Proc ι α γ) (h : ReflTransGen Meet P Q) :
    ReflTransGen Meet (fun i => (P i).bind (k i)) fun i => (Q i).bind (k i) := by
  induction h with
  | refl => exact .refl
  | @tail Q _ _ hmeet ih =>
      refine ih.tail ?_
      cases hmeet with
      | @intro i j d p l hsend hrecv =>
          have hmove := Meet.intro (P := fun i => (Q i).bind (k i)) (i := i) (j := j) (d := d)
            (k := p.bind (k i)) (l := fun x => (l x).bind (k j)) (by simp only [hsend]; rfl)
            (by simp only [hrecv]; rfl)
          convert hmove using 1
          funext x
          simp only [Function.update_apply]
          split
          next heq => rw [heq]
          next =>
            split
            next heq => rw [heq]
            next => rfl

/-- A set of meetings taken together: every rank of `S` sends, its partner receives,
and the ranks outside stay where they are. -/
theorem meets_stage (dst : ι → ι) (d : ι → List α) (S : Finset ι) :
    ∀ {P Q : ι → Proc ι α β}, (∀ i ∈ S, P i = .send (dst i) (d i) (Q i)) →
    (∀ i ∈ S, ∃ k, P (dst i) = .recv i (d i).length k ∧ Q (dst i) = k (d i)) →
    (∀ x, x ∉ S → (∀ i ∈ S, dst i ≠ x) → Q x = P x) → ReflTransGen Meet P Q := by
  induction S using Finset.induction_on with
  | empty =>
      intro P Q _ _ hrest
      have hQ : Q = P := by
        funext x
        exact hrest x (by simp) (by simp)
      rw [hQ]
  | insert a S ha ih =>
      intro P Q hsend hrecv hrest
      have hsa := hsend a (Finset.mem_insert_self a S)
      obtain ⟨k, hra, hqa⟩ := hrecv a (Finset.mem_insert_self a S)
      refine .head (.intro hsa hra) (ih ?_ ?_ ?_)
      · intro i hi
        have hsi := hsend i (Finset.mem_insert_of_mem hi)
        have h₁ : i ≠ a := by intro h; exact ha (h ▸ hi)
        have h₂ : i ≠ dst a := by intro h; rw [← h, hsi] at hra; cases hra
        rw [Function.update_of_ne h₂, Function.update_of_ne h₁, hsi]
      · intro i hi
        obtain ⟨l, hri, hqi⟩ := hrecv i (Finset.mem_insert_of_mem hi)
        have h₁ : dst i ≠ a := by intro h; rw [h, hsa] at hri; cases hri
        have h₂ : dst i ≠ dst a := by
          intro h
          rw [h, hra] at hri
          injection hri with h₃
          exact ha (h₃ ▸ hi)
        exact ⟨l, by rw [Function.update_of_ne h₂, Function.update_of_ne h₁, hri], hqi⟩
      · intro x hx hne
        by_cases h₁ : x = dst a
        · subst h₁; rw [Function.update_self, hqa]
        by_cases h₂ : x = a
        · subst h₂; rw [Function.update_of_ne h₁, Function.update_self]
        rw [Function.update_of_ne h₁, Function.update_of_ne h₂]
        refine hrest x (by simp [hx, h₂]) fun i hi => ?_
        rcases Finset.mem_insert.mp hi with rfl | hi
        · exact fun h => h₁ h.symm
        · exact hne i hi

/-- Everyone sends to the right and receives from the left, some sending first and the
others receiving first. It goes through when no two neighbours both receive first and
no three in a row send first: those who send first to one who waits go first, then
those who send first to one who by now has sent, then the rest. -/
theorem meets_exchange [Fintype ι] {right left : ι → ι} (hlr : ∀ i, left (right i) = i)
    (hrl : ∀ i, right (left i) = i) {f : ι → Bool} (hpair : ∀ i, f i = false → f (right i) = true)
    (hthree : ∀ i, f i = true → f (right i) = true → f (right (right i)) = false) {d : ι → List α}
    {q : ι → List α → Proc ι α β} (hfirst : ∀ i, f i = true →
      P i = .send (right i) (d i) (.recv (left i) (d (left i)).length (q i)) ∧
      q i (d (left i)) = Q i)
    (hsecond : ∀ i, f i = false → P i = .recv (left i) (d (left i)).length (q i) ∧
      q i (d (left i)) = .send (right i) (d i) (Q i)) : ReflTransGen Meet P Q := by
  have hleft : ∀ i, f i = false → f (left i) = true := by
    intro i hi
    cases hl : f (left i) with
    | true => rfl
    | false =>
        rw [← hrl i, hpair _ hl] at hi
        cases hi
  let P₁ : ι → Proc ι α β := fun i =>
    if f i then
      if f (right i) then P i else .recv (left i) (d (left i)).length (q i)
    else .send (right i) (d i) (Q i)
  let P₂ : ι → Proc ι α β := fun i =>
    if f i then
      if f (left i) then Q i else .recv (left i) (d (left i)).length (q i)
    else .send (right i) (d i) (Q i)
  have h₁ : ReflTransGen Meet P P₁ := by
    refine meets_stage right d
      (Finset.univ.filter fun i => f i ∧ f (right i) = false) ?_ ?_ ?_
    · intro i hi
      obtain ⟨hf, hr⟩ := (Finset.mem_filter.mp hi).2
      simp only [P₁, hf, hr, (hfirst i hf).1, if_true, Bool.false_eq_true, if_false]
    · intro i hi
      obtain ⟨hf, hr⟩ := (Finset.mem_filter.mp hi).2
      have hs := hsecond _ hr
      rw [hlr] at hs
      exact ⟨_, hs.1, by simp only [P₁, hr, Bool.false_eq_true, if_false, hs.2]⟩
    · intro x hx hne
      cases hf : f x with
      | false =>
          refine absurd (hrl x) (hne (left x) ?_)
          simp only [Finset.mem_filter, Finset.mem_univ, hrl, hf, hleft x hf, and_self]
      | true =>
          cases hr : f (right x) with
          | false => simp [hf, hr] at hx
          | true => simp only [P₁, hf, hr, if_true]
  have h₂ : ReflTransGen Meet P₁ P₂ := by
    refine meets_stage right d
      (Finset.univ.filter fun i => f i ∧ f (right i)) ?_ ?_ ?_
    · intro i hi
      obtain ⟨hf, hr⟩ := (Finset.mem_filter.mp hi).2
      have hl : f (left i) = false := by
        cases hl : f (left i) with
        | false => rfl
        | true =>
            have := hthree (left i) hl (by rw [hrl]; exact hf)
            rw [hrl, hr] at this
            cases this
      simp only [P₁, P₂, hf, hr, hl, if_true, Bool.false_eq_true, if_false, (hfirst i hf).1]
    · intro i hi
      obtain ⟨hf, hr⟩ := (Finset.mem_filter.mp hi).2
      have hs := hfirst _ hr
      rw [hlr] at hs
      refine ⟨q (right i), ?_, ?_⟩
      · simp only [P₁, hr, hthree i hf hr, hlr, if_true, Bool.false_eq_true, if_false]
      · simp only [P₂, hr, hlr, hf, if_true, hs.2]
    · intro x hx hne
      cases hf : f x with
      | false => simp only [P₁, P₂, hf, Bool.false_eq_true, if_false]
      | true =>
          have hl : f (left x) = false := by
            cases hl : f (left x) with
            | false => rfl
            | true =>
                refine absurd (hrl x) (hne (left x) ?_)
                simp only [Finset.mem_filter, Finset.mem_univ, hrl, hf, hl, and_self]
          have hr : f (right x) = false := by
            cases hr : f (right x) with
            | false => rfl
            | true => simp [hf, hr] at hx
          simp only [P₁, P₂, hf, hl, hr, if_true, Bool.false_eq_true, if_false]
  have h₃ : ReflTransGen Meet P₂ Q := by
    refine meets_stage right d (Finset.univ.filter fun i => f i = false)
      ?_ ?_ ?_
    · intro i hi
      have hf := (Finset.mem_filter.mp hi).2
      simp only [P₂, hf, Bool.false_eq_true, if_false]
    · intro i hi
      have hf := (Finset.mem_filter.mp hi).2
      have hr := hpair i hf
      have hs := hfirst _ hr
      rw [hlr] at hs
      refine ⟨q (right i), ?_, hs.2.symm⟩
      simp only [P₂, hr, hlr, hf, if_true, Bool.false_eq_true, if_false]
    · intro x hx hne
      have hf : f x = true := by simpa using hx
      have hl : f (left x) = true := by
        cases hl : f (left x) with
        | true => rfl
        | false => exact absurd (hrl x) (hne (left x) (by simpa using hl))
      simp only [P₂, hf, hl, if_true]
  exact (h₁.trans h₂).trans h₃

/-! ## First in, first out -/

/-- Change one cell of a table. -/
def cell (f : ι → ι → γ) (i j : ι) (x : γ) : ι → ι → γ :=
  fun a b => if a = i ∧ b = j then x else f a b

@[simp] theorem cell_self (f : ι → ι → γ) (i j : ι) (x : γ) : cell f i j x i j = x := by
  simp [cell]

theorem cell_of_ne {f : ι → ι → γ} {x : γ} (h : ¬ (a = i ∧ b = j)) :
    cell f i j x a b = f a b := if_neg h

theorem cell_comm {f : ι → ι → γ} {x y : γ} (h : ¬ (a = i ∧ b = j)) :
    cell (cell f i j x) a b y = cell (cell f a b y) i j x := by
  funext u v
  simp only [cell]
  split_ifs <;> simp_all

@[simp] theorem cell_cell (f : ι → ι → γ) (i j : ι) (x y : γ) :
    cell (cell f i j x) i j y = cell f i j y := by
  funext u v
  simp only [cell]
  split_ifs <;> rfl

@[simp] theorem cell_eq_self (f : ι → ι → γ) (i j : ι) : cell f i j (f i j) = f := by
  funext u v
  simp only [cell]
  split_ifs with h
  · rw [h.1, h.2]
  · rfl

/-- A network whose channels are streams. The two logs are for the observer: no
process reads them. -/
structure Net (ι α β : Type*) where
  proc : ι → Proc ι α β
  /-- What the first rank sent to the second and the second has not received. -/
  chan : ι → ι → List α
  /-- The sizes of the blocks the first rank sent to the second. -/
  sent : ι → ι → List Nat
  /-- The sizes of the blocks the second rank received from the first. -/
  received : ι → ι → List Nat

/-- One rank sends, or receives a block that has arrived. -/
inductive Fifo : Net ι α β → Net ι α β → Prop where
  | send {s : Net ι α β} {i j : ι} {d : List α} {k : Proc ι α β}
      (hproc : s.proc i = .send j d k) :
      Fifo s { s with
        proc := Function.update s.proc i k
        chan := cell s.chan i j (s.chan i j ++ d)
        sent := cell s.sent i j (s.sent i j ++ [d.length]) }
  | recv {s : Net ι α β} {i j : ι} {m : Nat} {k : List α → Proc ι α β}
      (hproc : s.proc j = .recv i m k) (hlen : m ≤ (s.chan i j).length) :
      Fifo s { s with
        proc := Function.update s.proc j (k ((s.chan i j).take m))
        chan := cell s.chan i j ((s.chan i j).drop m)
        received := cell s.received i j (s.received i j ++ [m]) }

/-- Every rank at its start, nothing in flight. -/
def start (P : ι → Proc ι α β) : Net ι α β :=
  { proc := P, chan := fun _ _ => [], sent := fun _ _ => [], received := fun _ _ => [] }

/-- Every rank finished, nothing in flight, and on every channel the blocks received
are the blocks sent, size by size and in order. -/
def finished (r : ι → β) (log : ι → ι → List Nat) : Net ι α β :=
  { proc := fun i => .done (r i), chan := fun _ _ => [], sent := log, received := log }

/-- What one rank sends and what another receives do not interfere: a channel is
extended at its end and shortened at its front. -/
theorem fifo_send_recv {s : Net ι α β} {d : List α} {k : Proc ι α β} {len : Nat}
    {l : List α → Proc ι α β} (hs : s.proc i = .send j d k) (hr : s.proc b = .recv a len l)
    (hlen : len ≤ (s.chan a b).length) :
    ∃ t, Fifo { s with
        proc := Function.update s.proc i k
        chan := cell s.chan i j (s.chan i j ++ d)
        sent := cell s.sent i j (s.sent i j ++ [d.length]) } t ∧
      Fifo { s with
        proc := Function.update s.proc b (l ((s.chan a b).take len))
        chan := cell s.chan a b ((s.chan a b).drop len)
        received := cell s.received a b (s.received a b ++ [len]) } t := by
  have hib : i ≠ b := by intro h; rw [← h, hs] at hr; cases hr
  -- the receiver sees the same front of its channel before and after the send
  have hfront : ∃ rest, cell s.chan i j (s.chan i j ++ d) a b = s.chan a b ++ rest := by
    by_cases h : a = i ∧ b = j
    · obtain ⟨rfl, rfl⟩ := h
      exact ⟨d, cell_self _ _ _ _⟩
    · exact ⟨[], by rw [cell_of_ne h, List.append_nil]⟩
  obtain ⟨rest, hrest⟩ := hfront
  refine ⟨_, .recv (i := a) (j := b) (m := len) (k := l) ?_ ?_, ?_⟩
  · simp only
    rw [Function.update_of_ne hib.symm, hr]
  · simp only
    rw [hrest, List.length_append]
    omega
  · simp only [hrest, List.take_append_of_le_length hlen]
    rw [Function.update_comm hib]
    have hchan : cell (cell s.chan i j (s.chan i j ++ d)) a b ((s.chan a b ++ rest).drop len)
        = cell (cell s.chan a b ((s.chan a b).drop len)) i j
            (cell s.chan a b ((s.chan a b).drop len) i j ++ d) := by
      by_cases h : a = i ∧ b = j
      · obtain ⟨rfl, rfl⟩ := h
        rw [cell_self] at hrest
        have hd : rest = d := (List.append_cancel_left hrest).symm
        rw [hd, cell_cell, cell_cell, cell_self, List.drop_append_of_le_length hlen]
      · rw [cell_of_ne h] at hrest
        have hnil : rest = [] := by
          have := congrArg List.length hrest
          rw [List.length_append] at this
          exact List.length_eq_zero_iff.mp (by omega)
        rw [hnil, List.append_nil, cell_comm h, cell_of_ne fun h' => h ⟨h'.1.symm, h'.2.symm⟩]
    rw [hchan]
    refine .send ?_
    simp only
    rw [Function.update_of_ne hib, hs]

/-- The order in which two ranks move does not matter. -/
theorem fifo_diamond : Diamond (Fifo : Net ι α β → Net ι α β → Prop) := by
  intro s t t' ht ht'
  cases ht with
  | @send i j d k hs =>
      cases ht' with
      | @send a b e l hs' =>
          by_cases hia : i = a
          · subst hia
            rw [hs] at hs'
            injection hs' with h₁ h₂ h₃
            subst h₁ h₂ h₃
            exact .inl rfl
          · have hne : ¬ (a = i ∧ b = j) := fun h => hia h.1.symm
            have hne' : ¬ (i = a ∧ j = b) := fun h => hia h.1
            refine .inr ⟨_, .send (i := a) (j := b) (d := e) (k := l) ?_, ?_⟩
            · simp only
              rw [Function.update_of_ne (Ne.symm hia), hs']
            · simp only [cell_of_ne hne]
              rw [Function.update_comm hia, cell_comm hne, cell_comm hne]
              have hmove := Fifo.send (s := { s with
                proc := Function.update s.proc a l
                chan := cell s.chan a b (s.chan a b ++ e)
                sent := cell s.sent a b (s.sent a b ++ [e.length]) }) (i := i) (j := j) (d := d)
                (k := k) (by simp only; rw [Function.update_of_ne hia, hs])
              simp only [cell_of_ne hne'] at hmove
              exact hmove
      | @recv a b len l hr hlen => exact .inr (fifo_send_recv hs hr hlen)
  | @recv i j len k hr hlen =>
      cases ht' with
      | @send a b e l hs =>
          obtain ⟨t, h₁, h₂⟩ := fifo_send_recv hs hr hlen
          exact .inr ⟨t, h₂, h₁⟩
      | @recv a b len' l hr' hlen' =>
          by_cases hjb : j = b
          · subst hjb
            rw [hr] at hr'
            injection hr' with h₁ h₂ h₃
            subst h₁ h₂ h₃
            exact .inl rfl
          · have hne : ¬ (a = i ∧ b = j) := fun h => hjb h.2.symm
            have hne' : ¬ (i = a ∧ j = b) := fun h => hjb h.2
            refine .inr ⟨_, .recv (i := a) (j := b) (m := len') (k := l) ?_ ?_, ?_⟩
            · simp only
              rw [Function.update_of_ne (Ne.symm hjb), hr']
            · simp only [cell_of_ne hne]
              exact hlen'
            · simp only [cell_of_ne hne]
              rw [Function.update_comm hjb, cell_comm hne, cell_comm hne]
              have hmove := Fifo.recv (s := { s with
                proc := Function.update s.proc b (l ((s.chan a b).take len'))
                chan := cell s.chan a b ((s.chan a b).drop len')
                received := cell s.received a b (s.received a b ++ [len']) }) (i := i) (j := j)
                (m := len) (k := k) (by simp only; rw [Function.update_of_ne hjb, hr])
                (by simp only [cell_of_ne hne']; exact hlen)
              simp only [cell_of_ne hne'] at hmove
              exact hmove

/-- A rendezvous is a send whose block is taken at once. -/
theorem fifo_of_meets (h : ReflTransGen Meet P Q) :
    ∃ log, ReflTransGen Fifo (start P) { start Q with sent := log, received := log } := by
  induction h with
  | refl => exact ⟨_, .refl⟩
  | @tail Q _ _ hmeet ih =>
      obtain ⟨log, hrun⟩ := ih
      cases hmeet with
      | @intro i j d k k' hs hr =>
          have hij : i ≠ j := by intro h; rw [← h, hs] at hr; cases hr
          refine ⟨cell log i j (log i j ++ [d.length]), (hrun.tail (.send hs)).tail ?_⟩
          have hmove := Fifo.recv (s := { start Q with
            proc := Function.update Q i k
            chan := cell (start Q).chan i j d
            sent := cell log i j (log i j ++ [d.length])
            received := log }) (i := i) (j := j) (m := d.length) (k := k')
            (by simp only; rw [Function.update_of_ne hij.symm, hr]) (by simp)
          simp only [cell_self, List.take_length, List.drop_length, cell_cell] at hmove
          simpa only [start, List.nil_append, cell_eq_self (fun _ _ => [])] using hmove

/-! ## Completion -/

/-- Under every schedule, over streams and by rendezvous, every rank finishes with
its result; over streams nothing is left in flight and every block sent was received
as one block of the same size, in order. -/
structure Completes (P : ι → Proc ι α β) (r : ι → β) : Prop where
  fifo : ∃ log, Settles Fifo (start P) (finished r log)
  meet : Settles Meet P fun i => .done (r i)

theorem stuck_finished (r : ι → β) (log : ι → ι → List Nat) :
    Stuck (Fifo : Net ι α β → Net ι α β → Prop) (finished r log) := by
  intro t ht
  cases ht with
  | send hs => cases hs
  | recv hr => cases hr

theorem stuck_done (r : ι → β) :
    Stuck (Meet : (ι → Proc ι α β) → (ι → Proc ι α β) → Prop) fun i => .done (r i) := by
  intro Q hQ
  generalize hP : (fun i => Proc.done (r i) : ι → Proc ι α β) = P at hQ
  cases hQ with
  | intro hs _ => rw [← hP] at hs; cases hs

/-- **One complete rendezvous run decides every schedule of both networks.** -/
theorem completes_of_meets {r : ι → β} (h : ReflTransGen Meet P fun i => .done (r i)) :
    Completes P r := by
  constructor
  case fifo =>
      obtain ⟨log, hrun⟩ := fifo_of_meets h
      exact ⟨log, settles_of_reaches fifo_diamond (stuck_finished r log) hrun⟩
  case meet => exact settles_of_reaches meet_diamond (stuck_done r) h

/-- What the ranks end with is what one rendezvous run ends with. -/
theorem completes_iff {r r' : ι → β} (h : ReflTransGen Meet P fun i => .done (r i)) :
    Completes P r' ↔ r' = r := by
  refine ⟨fun hr' => ?_, fun heq => heq ▸ completes_of_meets h⟩
  rcases hr'.meet.progress h with hend | ⟨Q, hQ⟩
  · funext i
    have hi := congrFun hend i
    injection hi with hi
    exact hi.symm
  · exact absurd hQ (stuck_done r Q)

end CrossMachine.Lib
