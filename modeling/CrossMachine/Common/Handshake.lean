import CrossMachine.Lib.Codec
import CrossMachine.Lib.Confluence
import CrossMachine.Lib.Instances
import CrossMachine.Lib.Network
import Mathlib.Algebra.Order.BigOperators.Group.Finset
import Mathlib.Algebra.Order.Ring.Int
import Mathlib.Data.Fintype.BigOperators
import Mathlib.Order.Interval.Finset.Fin

/-!
# How a mesh connects

The constructor of `TcpChannel`. Every rank listens, takes the connections of all higher ranks, and
then dials every lower rank and tells it who is calling. The four bytes of the rank may go over in
pieces, and a connection holds `room` of them. The kernel queues `limit` connections that nobody
has taken yet. What the acceptor learns of its peer are those bytes: a step never looks at the
names of a connection's ends.

`connectWithRetry` tries again while nobody listens: a rank that dials waits. Its 2000 attempts,
the failures of system calls and `setsockopt` are not here.

However the ranks are scheduled, all constructors return, and the two ends of every connection are
filed under each other's rank (`handshake_settles`). No constructor returns before its row is
complete (`row_of_returned`).
-/

namespace CrossMachine.Common.Handshake

open Lib Relation

variable {n : Nat} {γ : Type*}

/-- A connection, by who dialed whom. -/
abbrev Conn (n : Nat) := Fin n × Fin n

/-- Where a rank is in its constructor. -/
inductive Phase (n : Nat) (γ : Type*) where
  | start
  /-- In the loop of `acceptFromHigherRanks`, with so many connections to come. -/
  | accepting (left : Nat)
  /-- In `recvAll`, for the rank of the peer. -/
  | reading (left : Nat) (fd : Conn n) (got : List γ)
  /-- In the loop over the lower ranks, at rank `j`. -/
  | dialing (j : Nat)
  /-- In `sendAll`, telling rank `j` who is calling. -/
  | greeting (j : Fin n) (sent : Nat)

structure State (n : Nat) (γ : Type*) where
  phase : Fin n → Phase n γ
  /-- Connections the kernel has made and the rank has not yet taken. -/
  backlog : Fin n → List (Conn n)
  /-- The bytes on the way from the dialer to the one it dialed. -/
  wire : Conn n → List γ
  fds : Fin n → Fin n → Option (Conn n)

def Phase.listening : Phase n γ → Prop
  | .accepting _ | .reading _ _ _ => True
  | _ => False

/-- One step of rank `r`. -/
inductive Step (c : Codec (Fin n) γ) (limit room : Nat) (s : State n γ) : State n γ → Prop where
  /-- `makeListenSocket`. -/
  | listen {r : Fin n} (hr : s.phase r = .start) :
      Step c limit room s { s with
        phase := Function.update s.phase r (.accepting (n - 1 - r.val)) }
  /-- `accept`. -/
  | accept {r : Fin n} {k : Nat} {fd : Conn n} {rest : List (Conn n)}
      (hr : s.phase r = .accepting (k + 1)) (hfd : s.backlog r = fd :: rest) :
      Step c limit room s { s with
        phase := Function.update s.phase r (.reading k fd [])
        backlog := Function.update s.backlog r rest }
  /-- `::recv` in `recvAll`. -/
  | recv {r : Fin n} {k : Nat} {fd : Conn n} {got : List γ} {m : Nat}
      (hr : s.phase r = .reading k fd got) (hpos : 0 < m) (hlen : got.length + m ≤ c.width)
      (havail : m ≤ (s.wire fd).length) :
      Step c limit room s { s with
        phase := Function.update s.phase r (.reading k fd (got ++ (s.wire fd).take m))
        wire := Function.update s.wire fd ((s.wire fd).drop m) }
  /-- `fds_[peerRank] = fd`. -/
  | accepted {r : Fin n} {k : Nat} {fd : Conn n} {got : List γ}
      (hr : s.phase r = .reading k fd got) (hlen : got.length = c.width) :
      Step c limit room s { s with
        phase := Function.update s.phase r (.accepting k)
        fds := cell s.fds r (c.dec got) (some fd) }
  /-- `close(listenFd)`. -/
  | close {r : Fin n} (hr : s.phase r = .accepting 0) :
      Step c limit room s { s with phase := Function.update s.phase r (.dialing 0) }
  /-- `connect` succeeds. -/
  | connect {r j : Fin n} (hr : s.phase r = .dialing j.val) (hlt : j < r)
      (hlisten : (s.phase j).listening) (hroom : (s.backlog j).length < limit) :
      Step c limit room s { s with
        phase := Function.update s.phase r (.greeting j 0)
        backlog := Function.update s.backlog j (s.backlog j ++ [(r, j)]) }
  /-- `::send` in `sendAll`. -/
  | send {r j : Fin n} {k m : Nat} (hr : s.phase r = .greeting j k) (hpos : 0 < m)
      (hlen : k + m ≤ c.width) (hroom : (s.wire (r, j)).length + m ≤ room) :
      Step c limit room s { s with
        phase := Function.update s.phase r (.greeting j (k + m))
        wire := Function.update s.wire (r, j)
          (s.wire (r, j) ++ ((c.enc r).drop k).take m) }
  /-- `fds_[j] = fd`. -/
  | connected {r j : Fin n} (hr : s.phase r = .greeting j c.width) :
      Step c limit room s { s with
        phase := Function.update s.phase r (.dialing (j.val + 1))
        fds := cell s.fds r j (some (r, j)) }

def init : State n γ where
  phase := fun _ => .start
  backlog := fun _ => []
  wire := fun _ => []
  fds := fun _ _ => none

/-- Every pair of ranks has one connection, and nothing is under way on it. -/
def meshed : State n γ where
  phase := fun r => .dialing r.val
  backlog := fun _ => []
  wire := fun _ => []
  fds := fun r x => if x = r then none else some (max r x, min r x)

/-- The loop over the lower ranks is over. -/
def Returned (s : State n γ) (r : Fin n) : Prop := s.phase r = .dialing r.val

/-! ## Where a rank is -/

/-- How many ranks it has dialed. -/
def Phase.dialed : Phase n γ → Nat
  | .dialing j => j
  | .greeting j _ => j.val + 1
  | _ => 0

/-- To how many of them it has said who it is. -/
def Phase.greeted : Phase n γ → Nat
  | .dialing j => j
  | .greeting j _ => j.val
  | _ => 0

/-- How many bytes of its rank it has written to rank `t`. -/
def Phase.written (w : Nat) (t : Fin n) : Phase n γ → Nat
  | .dialing j => if t.val < j then w else 0
  | .greeting j k => if t < j then w else if t = j then k else 0
  | _ => 0

/-- How many ranks have yet to be filed, for rank `r`. -/
def Phase.left (r : Fin n) : Phase n γ → Nat
  | .start => n - 1 - r.val
  | .accepting k => k
  | .reading k _ _ => k + 1
  | _ => 0

/-- What a rank has read from a connection, while it reads from it. -/
def Phase.held (fd : Conn n) : Phase n γ → Option (List γ)
  | .reading _ fd' got => if fd' = fd then some got else none
  | _ => none

/-- The higher ranks without an entry in the row of rank `t`. -/
def missing (s : State n γ) (t : Fin n) : Finset (Fin n) :=
  Finset.univ.filter fun d => t < d ∧ s.fds t d = none

/-- How far a connection is: whether the dialer has dialed and how many bytes of `enc` it has
written, whether the connection is queued, what has been read from it, where it is filed and what
is under way. -/
inductive Link (enc : List γ) (fd : Conn n) (dialed : Prop) (written : Nat) (queued : Prop)
    (held : Option (List γ)) (filed : Option (Conn n)) (wire : List γ) : Prop where
  | fresh (hdialed : ¬ dialed) (hwritten : written = 0) (hqueued : ¬ queued) (hheld : held = none)
      (hfiled : filed = none) (hwire : wire = [])
  | queued (hdialed : dialed) (hqueued : queued) (hheld : held = none) (hfiled : filed = none)
      (hwire : wire = enc.take written)
  | reading {g : List γ} (hdialed : dialed) (hqueued : ¬ queued) (hheld : held = some g)
      (hfiled : filed = none) (hwire : g ++ wire = enc.take written)
  | filed (hdialed : dialed) (hwritten : written = enc.length) (hqueued : ¬ queued)
      (hheld : held = none) (hfiled : filed = some fd) (hwire : wire = [])

/-- The connection from `d` to `t`. -/
def State.link (c : Codec (Fin n) γ) (s : State n γ) (d t : Fin n) : Prop :=
  Link (c.enc d) (d, t) (t.val < (s.phase d).dialed) ((s.phase d).written c.width t)
    ((d, t) ∈ s.backlog t) ((s.phase t).held (d, t)) (s.fds t d) (s.wire (d, t))

/-- What a phase can be. -/
def Phase.Fits (c : Codec (Fin n) γ) (r : Fin n) : Phase n γ → Prop
  | .reading _ fd got => fd.2 = r ∧ r < fd.1 ∧ got.length ≤ c.width
  | .dialing j => j ≤ r.val
  | .greeting j k => j < r ∧ k ≤ c.width
  | _ => True

structure Inv (c : Codec (Fin n) γ) (s : State n γ) : Prop where
  link : ∀ d t, t < d → s.link c d t
  /-- The row of a rank below its own entry. -/
  lower : ∀ d t, t < d → s.fds d t = if t.val < (s.phase d).greeted then some (d, t) else none
  self : ∀ r, s.fds r r = none
  queue : ∀ t, (s.backlog t).Nodup ∧ ∀ fd ∈ s.backlog t, fd.2 = t ∧ t < fd.1
  idle : ∀ fd, fd.1 ≤ fd.2 → s.wire fd = []
  fits : ∀ r, (s.phase r).Fits c r
  count : ∀ r, (s.phase r).left r = (missing s r).card

variable {c : Codec (Fin n) γ} {limit room : Nat} {s s' : State n γ} {d t r : Fin n}
  {p : Phase n γ}

/-! ## The number of steps -/

/-- The steps a rank has yet to make, at most. -/
def Phase.steps (w : Nat) (r : Fin n) : Phase n γ → Nat
  | .start => (n - 1 - r.val) * (w + 2) + r.val * (w + 2) + 2
  | .accepting k => k * (w + 2) + r.val * (w + 2) + 1
  | .reading k _ got => k * (w + 2) + (w - got.length) + r.val * (w + 2) + 2
  | .dialing j => (r.val - j) * (w + 2)
  | .greeting j k => (r.val - (j.val + 1)) * (w + 2) + (w - k) + 1

/-- Every step is one rank's, and brings it closer to its return. -/
theorem Step.moves (h : Step c limit room s s') : ∃ r p, s'.phase = Function.update s.phase r p ∧
    p.steps c.width r < (s.phase r).steps c.width r := by
  cases h with
  | @listen r hr =>
      refine ⟨r, _, rfl, ?_⟩
      rw [hr]
      simp only [Phase.steps]
      omega
  | @accept r k fd rest hr hfd =>
      refine ⟨r, _, rfl, ?_⟩
      rw [hr]
      simp only [Phase.steps]
      rw [Nat.add_one_mul, List.length_nil]
      omega
  | @recv r k fd got m hr hpos hlen havail =>
      refine ⟨r, _, rfl, ?_⟩
      rw [hr]
      simp only [Phase.steps]
      rw [List.length_append, List.length_take_of_le havail]
      omega
  | @accepted r k fd got hr hlen =>
      refine ⟨r, _, rfl, ?_⟩
      rw [hr]
      simp only [Phase.steps]
      omega
  | @close r hr =>
      refine ⟨r, _, rfl, ?_⟩
      rw [hr]
      simp only [Phase.steps]
      rw [Nat.zero_mul, Nat.sub_zero]
      omega
  | @connect r j hr hlt hlisten hroom =>
      refine ⟨r, _, rfl, ?_⟩
      have hsub : r.val - j.val = (r.val - (j.val + 1)) + 1 := by
        have : j.val < r.val := hlt
        omega
      rw [hr]
      simp only [Phase.steps]
      rw [hsub, Nat.add_one_mul]
      omega
  | @send r j k m hr hpos hlen hroom =>
      refine ⟨r, _, rfl, ?_⟩
      rw [hr]
      simp only [Phase.steps]
      omega
  | @connected r j hr =>
      refine ⟨r, _, rfl, ?_⟩
      rw [hr]
      simp only [Phase.steps]
      omega

theorem Step.lowers (h : Step c limit room s s') :
    ∑ r, (s'.phase r).steps c.width r < ∑ r, (s.phase r).steps c.width r := by
  obtain ⟨r, p, hphase, hlt⟩ := h.moves
  refine Finset.sum_lt_sum (fun x _ => ?_) ⟨r, Finset.mem_univ r, ?_⟩
  · rw [hphase, Function.update_apply]
    split
    · rename_i hx
      rw [hx]
      exact hlt.le
    · exact Nat.le_refl _
  · rw [hphase, Function.update_self]
    exact hlt

/-! ## What every step keeps -/

theorem keep {β : Type*} {x : Fin n} (f : Phase n γ → β) (h : x = r → f p = f (s.phase r)) :
    f (Function.update s.phase r p x) = f (s.phase x) := by
  rw [Function.update_apply]
  split
  · rename_i hx
    rw [h hx, hx]
  · rfl

theorem written_le (h : (s.phase d).Fits c d) : (s.phase d).written c.width t ≤ c.width := by
  cases hd : s.phase d with
  | greeting j k =>
      rw [hd] at h
      simp only [Phase.written]
      split
      · exact Nat.le_refl _
      · split
        · exact h.2
        · exact Nat.zero_le _
  | dialing j =>
      simp only [Phase.written]
      split
      · exact Nat.le_refl _
      · exact Nat.zero_le _
  | start | accepting | reading => exact Nat.zero_le _

theorem Inv.fits_of (h : Inv c s) (hr : s.phase r = p) : p.Fits c r := hr ▸ h.fits r

/-- What is known of a rank that has not been dialed. -/
theorem Inv.fresh (h : Inv c s) (hlt : t < d) (hnot : ¬ t.val < (s.phase d).dialed) :
    (d, t) ∉ s.backlog t ∧ (s.phase t).held (d, t) = none ∧ s.fds t d = none ∧
      s.wire (d, t) = [] := by
  have hlink := h.link d t hlt
  cases hlink with
  | fresh _ _ hqueued hheld hfiled hwire => exact ⟨hqueued, hheld, hfiled, hwire⟩
  | queued hdialed => exact absurd hdialed hnot
  | reading hdialed => exact absurd hdialed hnot
  | filed hdialed => exact absurd hdialed hnot

variable {k : Nat} {fd : Conn n} {got : List γ} {j : Fin n}

theorem held_of_ne {fd' : Conn n} (h : fd ≠ fd') :
    (Phase.reading k fd got).held fd' = none := if_neg h

theorem held_self :
    (Phase.reading k fd got).held fd = some got := if_pos rfl

theorem written_self {w : Nat} : (Phase.greeting j k : Phase n γ).written w j = k := by
  simp only [Phase.written]
  rw [if_neg (lt_irrefl j)]
  exact if_pos trivial

theorem written_of_ne {w : Nat} (h : t ≠ j) :
    (Phase.greeting j k : Phase n γ).written w t = if t < j then w else 0 := by
  simp only [Phase.written]
  rw [if_neg h]

theorem missing_congr (h : ∀ d, t < d → s'.fds t d = s.fds t d) : missing s' t = missing s t :=
  Finset.filter_congr fun d _ => and_congr_right fun hlt => by rw [h d hlt]

theorem fits_update {p : Phase n γ} (h : ∀ r, (s.phase r).Fits c r) (hp : p.Fits c r) (x : Fin n) :
    (Function.update s.phase r p x).Fits c x := by
  rw [Function.update_apply]
  split
  · rename_i hx
    rw [hx]
    exact hp
  · exact h x

/-- A connection that a step of rank `r` has nothing to do with. -/
theorem Inv.other (h : Inv c s) (hlt : t < d) (hphase : s'.phase = Function.update s.phase r p)
    (hdialed : d = r → (t.val < p.dialed ↔ t.val < (s.phase r).dialed))
    (hwritten : d = r → p.written c.width t = (s.phase r).written c.width t)
    (hqueue : (d, t) ∈ s'.backlog t ↔ (d, t) ∈ s.backlog t)
    (hheld : p.held (d, t) = (s.phase r).held (d, t))
    (hfd : s'.fds t d = s.fds t d) (hwire : s'.wire (d, t) = s.wire (d, t)) : s'.link c d t := by
  have hlink := h.link d t hlt
  unfold State.link at hlink ⊢
  rw [propext hqueue, hfd, hwire, hphase, keep (Phase.written c.width t) fun hd => hwritten hd,
    keep (Phase.held (d, t)) fun _ => hheld,
    keep (fun q => t.val < q.dialed) fun hd => propext (hdialed hd)]
  exact hlink

/-- The row below its own entry, when a step leaves the row and the ranks that were told. -/
theorem Inv.lower_keep (h : Inv c s) (hlt : t < d) (hgreeted : p.greeted = (s.phase r).greeted) :
    s.fds d t = if t.val < (Function.update s.phase r p d).greeted then some (d, t) else none := by
  rw [keep Phase.greeted fun _ => hgreeted]
  exact h.lower d t hlt

theorem Inv.count_keep (h : Inv c s) (hleft : p.left r = (s.phase r).left r) (x : Fin n) :
    (Function.update s.phase r p x).left x = (missing s x).card :=
  (keep (Phase.left x) fun hx => by rw [hx, hleft]).trans (h.count x)

/-- A step to a phase that looks the same from outside. -/
theorem Inv.rephase (h : Inv c s) (hdialed : p.dialed = (s.phase r).dialed)
    (hgreeted : p.greeted = (s.phase r).greeted)
    (hwritten : ∀ t, p.written c.width t = (s.phase r).written c.width t)
    (hheld : ∀ fd, p.held fd = (s.phase r).held fd) (hleft : p.left r = (s.phase r).left r)
    (hfits : p.Fits c r) : Inv c { s with phase := Function.update s.phase r p } where
  link := fun d t hlt => h.other hlt rfl (fun _ => by rw [hdialed]) (fun _ => hwritten t) Iff.rfl
    (hheld _) rfl rfl
  lower := fun d t hlt => h.lower_keep hlt hgreeted
  self := h.self
  queue := h.queue
  idle := h.idle
  fits := fits_update h.fits hfits
  count := h.count_keep hleft

theorem Inv.accept (h : Inv c s) {rest : List (Conn n)} (hr : s.phase r = .accepting (k + 1))
    (hfd : s.backlog r = fd :: rest) :
    Inv c { s with
      phase := Function.update s.phase r (.reading k fd [])
      backlog := Function.update s.backlog r rest } := by
  obtain ⟨hnodup, hends⟩ := h.queue r
  rw [hfd] at hnodup hends
  obtain ⟨hnew, hrest⟩ := List.nodup_cons.mp hnodup
  obtain ⟨htarget, hdialer⟩ := hends fd List.mem_cons_self
  refine ⟨fun d t hlt => ?_, fun d t hlt => ?_, h.self, fun t => ?_, h.idle,
    fits_update h.fits ⟨htarget, hdialer, Nat.zero_le _⟩,
    h.count_keep (by rw [hr]; rfl)⟩
  · have hlink := h.link d t hlt
    by_cases hc : (d, t) = fd
    · -- the connection that is taken
      obtain rfl : t = r := by rw [← htarget, ← hc]
      subst hc
      cases hlink with
      | fresh _ _ hqueued => exact absurd (hfd ▸ List.mem_cons_self) hqueued
      | reading _ hqueued => exact absurd (hfd ▸ List.mem_cons_self) hqueued
      | filed _ _ hqueued => exact absurd (hfd ▸ List.mem_cons_self) hqueued
      | queued hdialed _ _ hfiled hwire =>
          refine .reading (g := []) ?_ ?_ ?_ hfiled ?_
          · dsimp only
            rw [Function.update_of_ne hlt.ne']
            exact hdialed
          · dsimp only
            rw [Function.update_self]
            exact hnew
          · dsimp only
            rw [Function.update_self, held_self]
          · dsimp only
            rw [Function.update_of_ne hlt.ne', List.nil_append]
            exact hwire
    · refine h.other hlt rfl (fun _ => by rw [hr]; rfl) (fun _ => by rw [hr]; rfl) ?_
        (by rw [hr, held_of_ne (Ne.symm hc)]; rfl) rfl rfl
      dsimp only
      by_cases ht : t = r
      · rw [ht, Function.update_self, hfd, List.mem_cons, or_iff_right fun he => hc (ht ▸ he)]
      · rw [Function.update_of_ne ht]
  · exact h.lower_keep hlt (by rw [hr]; rfl)
  · dsimp only
    by_cases ht : t = r
    · rw [ht, Function.update_self]
      exact ⟨hrest, fun x hx => hends x (List.mem_cons_of_mem _ hx)⟩
    · rw [Function.update_of_ne ht]
      exact h.queue t

/-- What is known of the connection that a rank reads from. -/
theorem Inv.reading (h : Inv c s) (hr : s.phase r = .reading k fd got) :
    fd.2 = r ∧ r < fd.1 ∧ r.val < (s.phase fd.1).dialed ∧ fd ∉ s.backlog r ∧
      s.fds r fd.1 = none ∧
      got ++ s.wire fd = (c.enc fd.1).take ((s.phase fd.1).written c.width r) := by
  obtain ⟨htarget, hlt, -⟩ := h.fits_of hr
  obtain ⟨d, t⟩ := fd
  obtain rfl : t = r := htarget
  have hheld : (s.phase t).held (d, t) = some got := by rw [hr, held_self]
  have hlink := h.link d t hlt
  cases hlink with
  | fresh _ _ _ hnone => rw [hheld] at hnone; contradiction
  | queued _ _ hnone => rw [hheld] at hnone; contradiction
  | filed _ _ _ hnone => rw [hheld] at hnone; contradiction
  | reading hdialed hqueued hsome hfiled hwire =>
      rw [hheld] at hsome
      obtain rfl := Option.some.inj hsome
      exact ⟨rfl, hlt, hdialed, hqueued, hfiled, hwire⟩

theorem Inv.recv (h : Inv c s) {m : Nat} (hr : s.phase r = .reading k fd got)
    (hlen : got.length + m ≤ c.width) (havail : m ≤ (s.wire fd).length) :
    Inv c { s with
      phase := Function.update s.phase r (.reading k fd (got ++ (s.wire fd).take m))
      wire := Function.update s.wire fd ((s.wire fd).drop m) } := by
  obtain ⟨htarget, hdialer, hdialed, hqueued, hfiled, hwire⟩ := h.reading hr
  refine ⟨fun d t hlt => ?_, fun d t hlt => ?_, h.self, h.queue, fun x hx => ?_,
    fits_update h.fits ⟨htarget, hdialer, ?_⟩,
    h.count_keep (by rw [hr]; rfl)⟩
  · by_cases hc : (d, t) = fd
    · subst hc
      obtain rfl : t = r := htarget
      refine .reading (g := got ++ (s.wire (d, t)).take m) ?_ hqueued ?_ hfiled ?_
      · dsimp only
        rw [Function.update_of_ne hlt.ne']
        exact hdialed
      · dsimp only
        rw [Function.update_self, held_self]
      · dsimp only
        rw [Function.update_of_ne hlt.ne', Function.update_self, List.append_assoc,
          List.take_append_drop]
        exact hwire
    · exact h.other hlt rfl (fun _ => by rw [hr]; rfl) (fun _ => by rw [hr]; rfl) Iff.rfl
        (by rw [hr, held_of_ne (Ne.symm hc), held_of_ne (Ne.symm hc)]) rfl
        (Function.update_of_ne hc _ _)
  · exact h.lower_keep hlt (by rw [hr]; rfl)
  · have hne : x ≠ fd := by
      rintro rfl
      rw [htarget] at hx
      exact absurd hdialer (not_lt.mpr hx)
    exact (Function.update_of_ne hne _ _).trans (h.idle x hx)
  · rw [List.length_append, List.length_take_of_le havail]
    exact hlen

theorem Inv.accepted (h : Inv c s) (hr : s.phase r = .reading k fd got)
    (hlen : got.length = c.width) :
    Inv c { s with
      phase := Function.update s.phase r (.accepting k)
      fds := cell s.fds r (c.dec got) (some fd) } := by
  obtain ⟨htarget, hdialer, hdialed, hqueued, hfiled, hwire⟩ := h.reading hr
  -- all bytes have arrived
  have hle := written_le (h.fits fd.1) (t := r)
  have hsum := congrArg List.length hwire
  rw [List.length_append, List.length_take, c.length_enc] at hsum
  have hwritten : (s.phase fd.1).written c.width r = c.width := by omega
  have hempty : s.wire fd = [] := List.length_eq_zero_iff.mp (by omega)
  have hdec : c.dec got = fd.1 := by
    rw [hempty, List.append_nil, List.take_of_length_le (by rw [c.length_enc, hwritten])] at hwire
    rw [hwire, c.dec_enc]
  rw [hdec]
  refine ⟨fun d t hlt => ?_, fun d t hlt => ?_, fun x => ?_, h.queue, h.idle,
    fits_update h.fits trivial, fun x => ?_⟩
  · by_cases hc : (d, t) = fd
    · subst hc
      obtain rfl : t = r := htarget
      refine .filed ?_ ?_ hqueued ?_ ?_ hempty
      · dsimp only
        rw [Function.update_of_ne hlt.ne']
        exact hdialed
      · dsimp only
        rw [Function.update_of_ne hlt.ne', c.length_enc]
        exact hwritten
      · dsimp only
        rw [Function.update_self]
        rfl
      · exact cell_self ..
    · refine h.other hlt rfl (fun _ => by rw [hr]; rfl) (fun _ => by rw [hr]; rfl) Iff.rfl
        (by rw [hr, held_of_ne (Ne.symm hc)]; rfl) (cell_of_ne ?_) rfl
      rintro ⟨rfl, rfl⟩
      exact hc (Prod.ext rfl htarget.symm)
  · refine (cell_of_ne ?_).trans (h.lower_keep hlt (by rw [hr]; rfl))
    rintro ⟨rfl, rfl⟩
    exact absurd hdialer hlt.not_gt
  · refine (cell_of_ne ?_).trans (h.self x)
    rintro ⟨rfl, hx⟩
    exact absurd hx hdialer.ne
  · have hcount := h.count x
    dsimp only
    by_cases hx : x = r
    · subst hx
      have herase : missing { s with
          phase := Function.update s.phase x (.accepting k)
          fds := cell s.fds x fd.1 (some fd) } x =
          (missing s x).erase fd.1 := by
        unfold missing
        ext d
        simp only [Finset.mem_filter, Finset.mem_univ, true_and, Finset.mem_erase]
        by_cases hd : d = fd.1
        · rw [hd, cell_self]
          simp
        · rw [cell_of_ne fun hc => hd hc.2]
          simp [hd]
      have hmem : fd.1 ∈ missing s x :=
        Finset.mem_filter.mpr ⟨Finset.mem_univ _, hdialer, hfiled⟩
      rw [hr] at hcount
      rw [herase, Finset.card_erase_of_mem hmem, ← hcount, Function.update_self]
      rfl
    · rw [Function.update_of_ne hx, missing_congr fun d _ => cell_of_ne fun hc => hx hc.1]
      exact hcount

theorem Inv.connect (h : Inv c s) (hr : s.phase r = .dialing j.val) (hlt : j < r) :
    Inv c { s with
      phase := Function.update s.phase r (.greeting j 0)
      backlog := Function.update s.backlog j (s.backlog j ++ [(r, j)]) } := by
  obtain ⟨hqueued, hheld, hfiled, hwire⟩ := h.fresh hlt (by
    rw [hr]
    exact lt_irrefl j.val)
  refine ⟨fun d t hdt => ?_, fun d t hdt => ?_, h.self, fun t => ?_, h.idle,
    fits_update h.fits ⟨hlt, Nat.zero_le _⟩,
    h.count_keep (by rw [hr]; rfl)⟩
  · by_cases hc : d = r ∧ t = j
    · obtain ⟨rfl, rfl⟩ := hc
      refine .queued ?_ ?_ ?_ hfiled ?_
      · dsimp only
        rw [Function.update_self]
        exact Nat.lt_succ_self _
      · dsimp only
        rw [Function.update_self]
        exact List.mem_append_right _ (List.mem_singleton_self _)
      · dsimp only
        rw [Function.update_of_ne hdt.ne]
        exact hheld
      · dsimp only
        rw [Function.update_self, written_self, List.take_zero]
        exact hwire
    · refine h.other hdt rfl (fun hd => ?_) (fun hd => ?_) ?_ (by rw [hr]; rfl) rfl rfl
      · have hne : t.val ≠ j.val := fun ht => hc ⟨hd, Fin.ext ht⟩
        rw [hr]
        change t.val < j.val + 1 ↔ t.val < j.val
        omega
      · rw [written_of_ne fun ht => hc ⟨hd, ht⟩, hr]
        rfl
      · dsimp only
        by_cases ht : t = j
        · rw [ht, Function.update_self, List.mem_append, List.mem_singleton,
            or_iff_left fun he => hc ⟨congrArg Prod.fst he, ht⟩]
        · rw [Function.update_of_ne ht]
  · exact h.lower_keep hdt (by rw [hr]; rfl)
  · dsimp only
    by_cases ht : t = j
    · obtain ⟨hnodup, hends⟩ := h.queue j
      rw [ht, Function.update_self]
      refine ⟨List.nodup_append.mpr ⟨hnodup, List.nodup_singleton _, ?_⟩, fun x hx => ?_⟩
      · rintro x hx y hy rfl
        exact hqueued (List.mem_singleton.mp hy ▸ hx)
      · rcases List.mem_append.mp hx with hx | hx
        · exact hends x hx
        · rw [List.mem_singleton.mp hx]
          exact ⟨rfl, hlt⟩
    · rw [Function.update_of_ne ht]
      exact h.queue t

theorem Inv.send (h : Inv c s) {m : Nat} (hr : s.phase r = .greeting j k) (hpos : 0 < m)
    (hlen : k + m ≤ c.width) :
    Inv c { s with
      phase := Function.update s.phase r (.greeting j (k + m))
      wire := Function.update s.wire (r, j)
        (s.wire (r, j) ++ ((c.enc r).drop k).take m) } := by
  have hlt : j < r := (h.fits_of hr).1
  have hdialed : j.val < (s.phase r).dialed := by
    rw [hr]
    exact Nat.lt_succ_self _
  have hwritten : (s.phase r).written c.width j = k := by rw [hr, written_self]
  refine ⟨fun d t hdt => ?_, fun d t hdt => ?_, h.self, h.queue, fun x hx => ?_,
    fits_update h.fits ⟨hlt, hlen⟩,
    h.count_keep (by rw [hr]; rfl)⟩
  · by_cases hc : d = r ∧ t = j
    · obtain ⟨rfl, rfl⟩ := hc
      have hheld : ((Function.update s.phase d (.greeting t (k + m))) t).held (d, t) =
          (s.phase t).held (d, t) := by rw [Function.update_of_ne hdt.ne]
      have hdial : t.val < (Function.update s.phase d (.greeting t (k + m)) d).dialed := by
        rw [Function.update_self]
        exact Nat.lt_succ_self _
      have hlink := h.link d t hdt
      unfold State.link at hlink ⊢
      dsimp only
      rw [hheld, Function.update_self, Function.update_self, written_self]
      rw [hwritten] at hlink
      cases hlink with
      | fresh hnot => exact absurd hdialed hnot
      | queued _ hqueued hnone hfiled hwire =>
          refine .queued (Nat.lt_succ_self _) hqueued hnone hfiled ?_
          rw [hwire, ← List.take_add]
      | reading _ hqueued hsome hfiled hwire =>
          refine .reading (Nat.lt_succ_self _) hqueued hsome hfiled ?_
          rw [← List.append_assoc, hwire, ← List.take_add]
      | filed _ hall =>
          rw [c.length_enc] at hall
          omega
    · refine h.other hdt rfl (fun _ => by rw [hr]; rfl) (fun hd => ?_) Iff.rfl (by rw [hr]; rfl) rfl
        (Function.update_of_ne (fun he => hc (Prod.ext_iff.mp he)) _ _)
      rw [hr, written_of_ne fun ht => hc ⟨hd, ht⟩, written_of_ne fun ht => hc ⟨hd, ht⟩]
  · exact h.lower_keep hdt (by rw [hr]; rfl)
  · have hne : x ≠ (r, j) := by
      rintro rfl
      exact absurd hlt (not_lt.mpr hx)
    exact (Function.update_of_ne hne _ _).trans (h.idle x hx)

theorem Inv.connected (h : Inv c s) (hr : s.phase r = .greeting j c.width) :
    Inv c { s with
      phase := Function.update s.phase r (.dialing (j.val + 1))
      fds := cell s.fds r j (some (r, j)) } := by
  have hlt : j < r := (h.fits_of hr).1
  have hhigher {x y : Fin n} (hxy : x < y) : cell s.fds r j (some (r, j)) x y = s.fds x y := by
    refine cell_of_ne ?_
    rintro ⟨rfl, rfl⟩
    exact absurd hlt hxy.not_gt
  refine ⟨fun d t hdt => ?_, fun d t hdt => ?_, fun x => ?_, h.queue, h.idle,
    fits_update h.fits (Nat.succ_le_of_lt hlt), fun x => ?_⟩
  · refine h.other hdt rfl (fun _ => by rw [hr]; rfl) (fun _ => ?_) Iff.rfl (by rw [hr]; rfl)
      (hhigher hdt) rfl
    rw [hr]
    by_cases ht : t = j
    · rw [ht, written_self]
      exact if_pos (Nat.lt_succ_self _)
    · have hne : t.val ≠ j.val := fun hval => ht (Fin.ext hval)
      rw [written_of_ne ht]
      simp only [Phase.written, Fin.lt_def]
      exact if_congr (by omega) rfl rfl
  · dsimp only
    by_cases hd : d = r
    · subst hd
      have hlower := h.lower d t hdt
      rw [hr] at hlower
      rw [show (Function.update s.phase d (.dialing (j.val + 1)) d).greeted = j.val + 1 by
        rw [Function.update_self]
        rfl]
      by_cases ht : t = j
      · rw [ht, cell_self]
        exact (if_pos (Nat.lt_succ_self _)).symm
      · have hne : t.val ≠ j.val := fun hval => ht (Fin.ext hval)
        rw [cell_of_ne fun hc => ht hc.2, hlower]
        simp only [Phase.greeted]
        exact if_congr (by omega) rfl rfl
    · rw [cell_of_ne fun hc => hd hc.1]
      simp only [Function.update_of_ne hd]
      exact h.lower d t hdt
  · refine (cell_of_ne ?_).trans (h.self x)
    rintro ⟨rfl, rfl⟩
    exact lt_irrefl x hlt
  · rw [missing_congr fun d hxd => hhigher hxd]
    exact h.count_keep (by rw [hr]; rfl) x

theorem Inv.step (h : Inv c s) (hstep : Step c limit room s s') : Inv c s' := by
  cases hstep with
  | listen hr =>
      exact h.rephase (by rw [hr]; rfl) (by rw [hr]; rfl) (fun _ => by rw [hr]; rfl)
        (fun _ => by rw [hr]; rfl) (by rw [hr]; rfl) trivial
  | accept hr hfd => exact h.accept hr hfd
  | recv hr hpos hlen havail => exact h.recv hr hlen havail
  | accepted hr hlen => exact h.accepted hr hlen
  | close hr =>
      exact h.rephase (by rw [hr]; rfl) (by rw [hr]; rfl) (fun _ => by rw [hr]; rfl)
        (fun _ => by rw [hr]; rfl) (by rw [hr]; rfl) (Nat.zero_le _)
  | connect hr hlt hlisten hroom => exact h.connect hr hlt
  | send hr hpos hlen hroom => exact h.send hr hpos hlen
  | connected hr => exact h.connected hr

theorem inv_init : Inv c (init : State n γ) where
  link := fun _ _ _ => .fresh (Nat.not_lt_zero _) rfl List.not_mem_nil rfl rfl rfl
  lower := fun _ _ _ => rfl
  self := fun _ => rfl
  queue := fun _ => ⟨List.nodup_nil, fun _ hfd => absurd hfd List.not_mem_nil⟩
  idle := fun _ _ => rfl
  fits := fun _ => trivial
  count := fun r => by
    have hall : missing (init : State n γ) r = Finset.Ioi r := by
      unfold missing
      ext d
      simp [init]
    rw [hall, Fin.card_Ioi]
    rfl

/-! ## Nobody waits forever -/

/-- A rank that reads the number of its peer can go on, or the peer can write. -/
theorem Inv.reading_moves (h : Inv c s) (hroom : 0 < room) (hr : s.phase r = .reading k fd got) :
    ∃ s', Step c limit room s s' := by
  obtain ⟨htarget, hlt, hdialed, -, -, hwire⟩ := h.reading hr
  have hlen : got.length ≤ c.width := (h.fits_of hr).2.2
  rcases Nat.eq_or_lt_of_le hlen with hall | hless
  · exact ⟨_, .accepted hr hall⟩
  rcases Nat.eq_zero_or_pos (s.wire fd).length with hempty | hpos
  · -- everything written has been read, so the peer is still writing
    rw [List.length_eq_zero_iff.mp hempty, List.append_nil] at hwire
    have hsum := congrArg List.length hwire
    rw [List.length_take, c.length_enc] at hsum
    have hwritten : (s.phase fd.1).written c.width r < c.width := by omega
    cases hd : s.phase fd.1 with
    | start | accepting | reading =>
        rw [hd] at hdialed
        exact absurd hdialed (Nat.not_lt_zero _)
    | dialing j =>
        rw [hd] at hdialed hwritten
        simp only [Phase.written, Phase.dialed] at hwritten hdialed
        rw [if_pos hdialed] at hwritten
        exact absurd hwritten (lt_irrefl _)
    | greeting j m =>
        rw [hd] at hdialed hwritten
        have hj : r = j := by
          by_contra hne
          have hval : r.val ≠ j.val := fun hval => hne (Fin.ext hval)
          have hlt' : r.val < j.val + 1 := hdialed
          rw [written_of_ne hne, if_pos (show r < j from Fin.lt_def.mpr (by omega))] at hwritten
          exact absurd hwritten (lt_irrefl _)
        subst hj
        rw [written_self] at hwritten
        have hfd : (fd.1, r) = fd := Prod.ext rfl htarget.symm
        exact ⟨_, .send hd Nat.one_pos hwritten (by rw [hfd, hempty]; omega)⟩
  · exact ⟨_, .recv hr Nat.one_pos hless hpos⟩

/-- A rank that listens and has connections waiting can go on, or its peer can. -/
theorem Inv.queue_moves (h : Inv c s) (hroom : 0 < room) (hqueue : 0 < (s.backlog r).length)
    (hlisten : (s.phase r).listening) : ∃ s', Step c limit room s s' := by
  cases hr : s.phase r with
  | start | dialing | greeting =>
      rw [hr] at hlisten
      exact hlisten.elim
  | reading k fd got => exact h.reading_moves hroom hr
  | accepting k =>
      cases k with
      | zero => exact ⟨_, .close hr⟩
      | succ k =>
          obtain ⟨fd, rest, hfd⟩ := List.exists_cons_of_length_pos hqueue
          exact ⟨_, .accept hr hfd⟩

/-- A rank with an entry missing has not closed its socket. -/
theorem Inv.listening_of_missing (h : Inv c s) {d : Fin n} (hlt : r < d)
    (hfd : s.fds r d = none) : s.phase r = .start ∨ (s.phase r).listening := by
  have hcount := h.count r
  have hpos : 0 < (missing s r).card :=
    Finset.card_pos.mpr ⟨d, Finset.mem_filter.mpr ⟨Finset.mem_univ d, hlt, hfd⟩⟩
  cases hr : s.phase r with
  | start => exact .inl rfl
  | accepting | reading => exact .inr trivial
  | dialing | greeting =>
      rw [hr] at hcount
      simp only [Phase.left] at hcount
      omega

/-- Where no step is possible, every rank is in its last loop, and the loop is over. -/
theorem Inv.returned_of_stuck (h : Inv c s) (hlimit : 0 < limit) (hroom : 0 < room)
    (hstuck : Stuck (Step c limit room) s) : ∀ r, Returned s r := by
  have hno : ¬ ∃ s', Step c limit room s s' := by
    rintro ⟨s', hs'⟩
    exact hstuck s' hs'
  have hstarted : ∀ r, s.phase r ≠ .start := fun r hr => hno ⟨_, .listen hr⟩
  -- from the highest rank down
  suffices hdown : ∀ k, ∀ r : Fin n, n - r.val ≤ k → Returned s r from
    fun r => hdown _ r (Nat.le_refl _)
  intro k
  induction k with
  | zero =>
      intro r hr
      have := r.isLt
      omega
  | succ k ih =>
      intro r hrk
      cases hr : s.phase r with
      | start => exact absurd hr (hstarted r)
      | reading => exact absurd (h.reading_moves hroom hr) hno
      | accepting left =>
          cases left with
          | zero => exact absurd ⟨_, .close hr⟩ hno
          | succ left =>
              exfalso
              have hcount := h.count r
              rw [hr] at hcount
              obtain ⟨d, hd⟩ := Finset.card_pos.mp (show 0 < (missing s r).card by
                rw [← hcount]
                exact Nat.succ_pos left)
              obtain ⟨-, hlt, hnone⟩ := Finset.mem_filter.mp hd
              have hreturned : s.phase d = .dialing d.val := ih d (by
                have : r.val < d.val := hlt
                omega)
              have hlink := h.link d r hlt
              have hdialed : r.val < (s.phase d).dialed := by
                rw [hreturned]
                exact hlt
              cases hlink with
              | fresh hnot => exact hnot hdialed
              | queued _ hqueued =>
                  exact hno (h.queue_moves hroom (List.length_pos_of_mem hqueued)
                    (by rw [hr]; trivial))
              | reading _ _ hheld =>
                  rw [hr] at hheld
                  contradiction
              | filed _ _ _ _ hfiled =>
                  rw [hnone] at hfiled
                  contradiction
      | dialing j =>
          have hj : j ≤ r.val := h.fits_of hr
          rcases Nat.eq_or_lt_of_le hj with rfl | hj
          · exact hr
          exfalso
          let t : Fin n := ⟨j, by omega⟩
          have hlt : t < r := hj
          obtain ⟨-, -, hfresh, -⟩ := h.fresh hlt (by
            rw [hr]
            exact lt_irrefl j)
          have hlisten := (h.listening_of_missing hlt hfresh).resolve_left (hstarted t)
          rcases Nat.lt_or_ge (s.backlog t).length limit with hspace | hfull
          · exact hno ⟨_, .connect (j := t) hr hlt hlisten hspace⟩
          · exact hno (h.queue_moves hroom (hlimit.trans_le hfull) hlisten)
      | greeting j m =>
          exfalso
          obtain ⟨hlt, hm⟩ := h.fits_of hr
          rcases Nat.eq_or_lt_of_le hm with rfl | hm
          · exact hno ⟨_, .connected hr⟩
          rcases Nat.lt_or_ge (s.wire (r, j)).length room with hspace | hfull
          · exact hno ⟨_, .send hr Nat.one_pos hm hspace⟩
          -- what the rank has written is not read yet
          have hlink := h.link r j hlt
          cases hlink with
          | fresh hnot =>
              rw [hr] at hnot
              exact hnot (Nat.lt_succ_self _)
          | queued _ hqueued _ hnone =>
              exact hno (h.queue_moves hroom (List.length_pos_of_mem hqueued)
                ((h.listening_of_missing hlt hnone).resolve_left (hstarted j)))
          | reading _ _ hheld =>
              cases hj : s.phase j with
              | reading => exact hno (h.reading_moves hroom hj)
              | start | accepting | dialing | greeting =>
                  rw [hj] at hheld
                  contradiction
          | filed _ _ _ _ _ hempty =>
              rw [hempty, List.length_nil] at hfull
              omega

/-- A rank returns with all its entries. -/
theorem Inv.row (h : Inv c s) (hr : Returned s r) (d : Fin n) :
    s.fds r d = if d = r then none else some (max r d, min r d) := by
  rcases lt_trichotomy d r with hlt | rfl | hlt
  · rw [if_neg hlt.ne, h.lower r d hlt, hr, max_eq_left hlt.le, min_eq_right hlt.le]
    exact if_pos hlt
  · rw [if_pos rfl]
    exact h.self d
  · rw [if_neg hlt.ne', max_eq_right hlt.le, min_eq_left hlt.le]
    have hcount := h.count r
    rw [hr] at hcount
    have hnone : s.fds r d ≠ none := fun hnone =>
      Finset.card_pos.mpr ⟨d, Finset.mem_filter.mpr ⟨Finset.mem_univ d, hlt, hnone⟩⟩ |>.ne hcount
    have hlink := h.link d r hlt
    cases hlink with
    | fresh _ _ _ _ hfd => exact absurd hfd hnone
    | queued _ _ _ hfd => exact absurd hfd hnone
    | reading _ _ _ hfd => exact absurd hfd hnone
    | filed _ _ _ _ hfd => exact hfd

theorem Inv.meshed (h : Inv c s) (hall : ∀ r, Returned s r) : s = meshed := by
  have hfiled : ∀ d t, t < d → (d, t) ∉ s.backlog t ∧ s.wire (d, t) = [] := by
    intro d t hlt
    have hrow := h.row (hall t) d
    rw [if_neg hlt.ne'] at hrow
    have hlink := h.link d t hlt
    cases hlink with
    | fresh _ _ _ _ hnone => rw [hrow] at hnone; contradiction
    | queued _ _ _ hnone => rw [hrow] at hnone; contradiction
    | reading _ _ _ hnone => rw [hrow] at hnone; contradiction
    | filed _ _ hqueued _ _ hwire => exact ⟨hqueued, hwire⟩
  obtain ⟨phase, backlog, wire, fds⟩ := s
  unfold Handshake.meshed
  congr 1
  · funext r
    exact hall r
  · funext t
    refine List.eq_nil_iff_forall_not_mem.mpr fun fd hfd => ?_
    obtain ⟨rfl, hlt⟩ := (h.queue t).2 fd hfd
    exact (hfiled _ _ hlt).1 hfd
  · funext fd
    rcases Nat.lt_or_ge fd.2.val fd.1.val with hlt | hge
    · exact (hfiled fd.1 fd.2 hlt).2
    · exact h.idle fd hge
  · funext r d
    exact h.row (hall r) d

/-- **The mesh connects.** Every schedule of the constructors ends, with all of them returned, and
then the two ends of every connection are filed under each other's rank and its bytes are read. -/
theorem handshake_settles (c : Codec (Fin n) γ) (hlimit : 0 < limit) (hroom : 0 < room) :
    Settles (Step c limit room) init meshed :=
  settles_of_measure (P := Inv c) (fun s => ∑ r, (s.phase r).steps c.width r) inv_init
    (fun _ _ h hstep => h.step hstep) (fun _ _ _ hstep => hstep.lowers)
    fun _ h hstuck => h.meshed (h.returned_of_stuck hlimit hroom hstuck)

/-- The rank in the last of four bytes. -/
def lastByte : Codec (Fin 3) Nat where
  width := 4
  enc := fun r => [0, 0, 0, r.val]
  dec := fun raw => ⟨raw.getD 3 0 % 3, Nat.mod_lt _ (by omega)⟩
  length_enc := fun _ => rfl
  dec_enc := fun r => Fin.ext (Nat.mod_eq_of_lt r.isLt)

theorem handshake_settles_three : Settles (Step lastByte 1 1) init meshed :=
  handshake_settles lastByte Nat.one_pos Nat.one_pos

/-- **A constructor returns with a complete row**, whatever the others have done by then. -/
theorem row_of_returned (c : Codec (Fin n) γ) (hrun : ReflTransGen (Step c limit room) init s)
    (hr : Returned s r) (d : Fin n) :
    s.fds r d = if d = r then none else some (max r d, min r d) := by
  have hinv : Inv c s := by
    clear hr
    induction hrun with
    | refl => exact inv_init
    | tail _ hstep ih => exact ih.step hstep
  exact hinv.row hr d

/-- One byte for one of two ranks. -/
def oneByte : Codec (Fin 2) Nat where
  width := 1
  enc := fun r => [r.val]
  dec := fun raw => ⟨raw.headD 0 % 2, Nat.mod_lt _ (by omega)⟩
  length_enc := fun _ => rfl
  dec_enc := fun r => Fin.ext (Nat.mod_eq_of_lt r.isLt)

/-- Rank `1` returns while rank `0` has taken no connection. -/
theorem row_of_returned_two : ∃ s : State 2 Nat, ReflTransGen (Step oneByte 1 1) init s ∧
    s.phase 0 = .accepting 1 ∧ s.fds 1 0 = some (1, 0) := by
  have hlisten : Step oneByte 1 1 init _ := .listen (r := 0) rfl
  have hrun := (ReflTransGen.single hlisten).tail (.listen (r := 1) rfl)
  have hrun := hrun.tail (.close (r := 1) rfl)
  have hrun := hrun.tail (.connect (r := 1) (j := 0) rfl (by decide) trivial Nat.one_pos)
  have hrun := hrun.tail (.send (r := 1) (j := 0) (m := 1) rfl Nat.one_pos (Nat.le_refl 1)
    (Nat.le_refl 1))
  have hrun := hrun.tail (.connected (r := 1) (j := 0) rfl)
  exact ⟨_, hrun, rfl, row_of_returned (r := 1) oneByte hrun rfl 0⟩

end CrossMachine.Common.Handshake
