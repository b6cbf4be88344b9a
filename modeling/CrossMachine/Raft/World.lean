import Mathlib.Data.Multiset.Filter
import Mathlib.Logic.Relation
import Mathlib.Data.Fintype.Card
import CrossMachine.Lib.Majority
import CrossMachine.Raft.Node

/-!
# The protocol behind the handlers

The safety argument does not care which thread holds a frame, in which order
the sockets carry them, or how the handlers are cut into functions. This module
states what it does care about: the nodes, the *bag* of frames in flight, and a
history of what has happened so far. `Move` lists the ways these can change.
`Simulation` shows that every step of `Cluster` is a finite sequence of moves;
everything in between is proved of moves alone.

The history is written by the moves and read by no node:

* `winner T`: the node that became leader of term `T`;
* `leaderLog T`: that leader's log, as long as it ever got in term `T`;
* `acked T p`: how far `p` has confirmed the log of the leader of `T`;
* `voted T v c`: `v` has given `c` a vote in term `T`;
* `candLog T c`: the log with which `c` asked for votes in term `T`;
* `electors T`: the votes that made the winner of `T`;
* `counted c`: whose votes `c` has counted in its current candidacy.
-/

namespace CrossMachine.Raft

open Lib

variable {n : Nat}

/-- A frame on its way from `src` to `dst`. -/
structure Packet (n : Nat) where
  src : Fin n
  dst : Fin n
  frame : Frame n
  deriving DecidableEq

structure History (n : Nat) where
  winner : Nat → Option (Fin n)
  leaderLog : Nat → List LogEntry
  acked : Nat → Fin n → Nat
  voted : Nat → Fin n → Fin n → Prop
  candLog : Nat → Fin n → List LogEntry
  electors : Nat → Finset (Fin n)
  counted : Fin n → Finset (Fin n)

structure World (n : Nat) where
  node : Fin n → RaftNode n
  net : Multiset (Packet n)
  hist : History n

/-- Set one cell of a two-argument table. -/
def set₂ {α β γ : Type} [DecidableEq α] [DecidableEq β] (f : α → β → γ) (a : α) (b : β) (x : γ) :
    α → β → γ :=
  fun a' b' => if a' = a ∧ b' = b then x else f a' b'

theorem set₂_self {α β γ : Type} [DecidableEq α] [DecidableEq β] (f : α → β → γ) (a : α) (b : β)
    (x : γ) : set₂ f a b x a b = x := by
  simp [set₂]

theorem set₂_ne {α β γ : Type} [DecidableEq α] [DecidableEq β] (f : α → β → γ) {a a' : α}
    {b b' : β} (x : γ) (h : ¬ (a' = a ∧ b' = b)) : set₂ f a b x a' b' = f a' b' := by
  rw [set₂, if_neg h]

/-- The history of a cluster that has done nothing. The sentinel stands for the
log of a leader of term 0, which nobody ever was. -/
def initHistory (n : Nat) : History n where
  winner := fun _ => none
  leaderLog := fun T => if T = 0 then [sentinel] else []
  acked := fun _ _ => 0
  voted := fun _ _ _ => False
  candLog := fun _ _ => []
  electors := fun _ => ∅
  counted := fun _ => ∅

def initWorld (n : Nat) : World n where
  node := fun _ => {}
  net := 0
  hist := initHistory n

namespace World

def setNode (w : World n) (s : Fin n) (nd : RaftNode n) : World n :=
  { w with node := Function.update w.node s nd }

@[simp] theorem setNode_self (w : World n) (s : Fin n) (nd : RaftNode n) :
    (w.setNode s nd).node s = nd := by
  rw [setNode]; exact Function.update_self ..

theorem setNode_ne (w : World n) {s i : Fin n} (nd : RaftNode n) (h : i ≠ s) :
    (w.setNode s nd).node i = w.node i := by
  rw [setNode]; exact Function.update_of_ne h ..

/-- The vote requests of a candidacy of `s`. -/
def ballotsOf (s : Fin n) (T : Nat) (last : LogEntry) : Multiset (Packet n) :=
  ((peers s).map fun p => (⟨s, p, .requestVote T s last.index last.term⟩ : Packet n) :
    Multiset (Packet n))

end World

/-- A reply that promises nothing: a denied vote, or a rejected append. -/
def Frame.Refusal : Frame n → Prop
  | .requestVoteResp _ granted => granted = false
  | .appendEntriesResp _ success _ => success = false
  | _ => False

/-- `log` after the payload reaching up to `M` has been merged into it. -/
def mergeLog (log M : List LogEntry) : List LogEntry := if M <+: log then log else M

/-- The log that an `AppendEntries` payload of term `T` spells out, from the start
of the log to the payload's last entry. -/
def History.payloadLog (h : History n) (T prevLogIndex count : Nat) : List LogEntry :=
  (h.leaderLog T).take (prevLogIndex + 1 + count)

/-- The ways the protocol state can change. -/
inductive Move : World n → World n → Prop where
  /-- Frames disappear: consumed without effect, or lost. -/
  | lose {w : World n} {net : Multiset (Packet n)} (hle : net ≤ w.net) :
      Move w { w with net := net }
  /-- A node sends a refusal. -/
  | refuse {w : World n} {p q : Fin n} {f : Frame n} (hpq : p ≠ q) (hf : f.Refusal) :
      Move w { w with net := ⟨p, q, f⟩ ::ₘ w.net }
  /-- A node moves to a higher term. -/
  | bump {w : World n} {s : Fin n} {T : Nat} (hT : (w.node s).currentTerm < T) :
      Move w (w.setNode s (becomeFollower (w.node s) T))
  /-- A candidate or leader meets a leader of its own term, and forgets its vote. -/
  | stepDown {w : World n} {s p l : Fin n} {T pi pt lc : Nat} {es : List (Nat × Command)}
      (hmem : (⟨p, s, .appendEntries T l pi pt lc es⟩ : Packet n) ∈ w.net)
      (hT : (w.node s).currentTerm = T) (hrole : (w.node s).state ≠ .follower) :
      Move w (w.setNode s (becomeFollower (w.node s) T))
  /-- A node learns who leads. -/
  | follow {w : World n} {s : Fin n} {l : Option (Fin n)} :
      Move w (w.setNode s { w.node s with leaderId := l })
  /-- A leader retreats one index after a rejection. -/
  | backoff {w : World n} {s p : Fin n} (hlead : (w.node s).state = .leader)
      (hnext : 1 < ((w.node s).peerState p).nextIndex) :
      Move w (w.setNode s (setPeer (w.node s) p
        { (w.node s).peerState p with nextIndex := ((w.node s).peerState p).nextIndex - 1 }))
  /-- A node opens a candidacy and votes for itself. -/
  | elect {w : World n} {s : Fin n} {last : LogEntry}
      (hlast : (w.node s).log.getLast? = some last) :
      Move w
        { node := Function.update w.node s (becomeCandidate s (w.node s))
          net := World.ballotsOf s ((w.node s).currentTerm + 1) last + w.net
          hist := { w.hist with
            voted := fun T v c => w.hist.voted T v c ∨
              (T = (w.node s).currentTerm + 1 ∧ v = s ∧ c = s)
            candLog := set₂ w.hist.candLog ((w.node s).currentTerm + 1) s (w.node s).log
            counted := Function.update w.hist.counted s {s} } }
  /-- A node turns a vote request into a vote. -/
  | grant {w : World n} {s c : Fin n} {T li lt : Nat} {last : LogEntry}
      {rest : Multiset (Packet n)}
      (hnet : w.net = ⟨c, s, .requestVote T c li lt⟩ ::ₘ rest)
      (hT : (w.node s).currentTerm = T)
      (hfree : (w.node s).votedFor = none ∨ (w.node s).votedFor = some c)
      (hlast : (w.node s).log.getLast? = some last) (hok : logOk last li lt = true) :
      Move w
        { node := Function.update w.node s { w.node s with votedFor := some c }
          net := ⟨s, c, .requestVoteResp T true⟩ ::ₘ rest
          hist := { w.hist with
            voted := fun T' v' c' => w.hist.voted T' v' c' ∨ (T' = T ∧ v' = s ∧ c' = c) } }
  /-- A candidate counts a vote. -/
  | count {w : World n} {s v : Fin n} {T : Nat} {rest : Multiset (Packet n)}
      (hnet : w.net = ⟨v, s, .requestVoteResp T true⟩ ::ₘ rest)
      (hrole : (w.node s).state = .candidate) (hT : (w.node s).currentTerm = T) :
      Move w
        { node := Function.update w.node s
            { w.node s with votesGranted := (w.node s).votesGranted + 1 }
          net := rest
          hist := { w.hist with
            counted := Function.update w.hist.counted s (insert v (w.hist.counted s)) } }
  /-- A candidate with a majority becomes leader. -/
  | win {w : World n} {s : Fin n} {nd : RaftNode n} (hrole : (w.node s).state = .candidate)
      (hmaj : n < (w.node s).votesGranted * 2) (hnd : becomeLeader s (w.node s) = some nd) :
      Move w
        { node := Function.update w.node s nd
          net := w.net
          hist := { w.hist with
            winner := Function.update w.hist.winner (w.node s).currentTerm (some s)
            leaderLog := Function.update w.hist.leaderLog (w.node s).currentTerm (w.node s).log
            acked := set₂ w.hist.acked (w.node s).currentTerm s ((w.node s).log.length - 1)
            electors := Function.update w.hist.electors (w.node s).currentTerm
              (w.hist.counted s) } }
  /-- A leader appends a command. -/
  | append {w : World n} {s : Fin n} {e : LogEntry} (hlead : (w.node s).state = .leader)
      (hterm : e.term = (w.node s).currentTerm) (hidx : e.index = (w.node s).log.length) :
      Move w
        { node := Function.update w.node s { w.node s with log := (w.node s).log ++ [e] }
          net := w.net
          hist := { w.hist with
            leaderLog := Function.update w.hist.leaderLog (w.node s).currentTerm
              ((w.node s).log ++ [e])
            acked := set₂ w.hist.acked (w.node s).currentTerm s (w.node s).log.length } }
  /-- A leader sends the tail of its log. -/
  | send {w : World n} {s q : Fin n} {prev : LogEntry} {pi : Nat} (hsq : s ≠ q)
      (hlead : (w.node s).state = .leader) (hprev : (w.node s).log[pi]? = some prev) :
      Move w
        { w with
          net := ⟨s, q, .appendEntries (w.node s).currentTerm s pi prev.term
            (w.node s).commitIndex
            (((w.node s).log.drop (pi + 1)).map fun e => (e.term, e.command))⟩ ::ₘ w.net }
  /-- A follower takes over a leader's entries and confirms them. -/
  | accept {w : World n} {s p l : Fin n} {T pi pt lc : Nat} {es : List (Nat × Command)}
      (hmem : (⟨p, s, .appendEntries T l pi pt lc es⟩ : Packet n) ∈ w.net)
      (hT : (w.node s).currentTerm = T) (hrole : (w.node s).state = .follower)
      (hprev : prevMatches (w.node s).log pi pt = true) :
      Move w
        { node := Function.update w.node s
            { w.node s with
              log := mergeLog (w.node s).log (w.hist.payloadLog T pi es.length)
              commitIndex := max (w.node s).commitIndex lc
              lastApplied := max (w.node s).commitIndex lc }
          net := ⟨s, p, .appendEntriesResp T true (pi + es.length)⟩ ::ₘ w.net
          hist := { w.hist with
            acked := set₂ w.hist.acked T s (max (w.hist.acked T s) (pi + es.length)) } }
  /-- A leader records a confirmation. -/
  | confirm {w : World n} {s p : Fin n} {T m : Nat}
      (hmem : (⟨p, s, .appendEntriesResp T true m⟩ : Packet n) ∈ w.net)
      (hlead : (w.node s).state = .leader) (hT : (w.node s).currentTerm = T) :
      Move w (w.setNode s (setPeer (w.node s) p
        { nextIndex := m + 1, matchIndex := max ((w.node s).peerState p).matchIndex m }))
  /-- A leader commits an index of its own term that a majority holds. -/
  | commit {w : World n} {s : Fin n} {k : Nat} {e : LogEntry}
      (hlead : (w.node s).state = .leader) (hk : (w.node s).commitIndex < k)
      (he : (w.node s).log[k]? = some e) (hterm : e.term = (w.node s).currentTerm)
      (hmaj : n < replicaCount (w.node s) k * 2) :
      Move w (w.setNode s { w.node s with commitIndex := k, lastApplied := k })

/-- Finitely many moves. -/
abbrev Moves : World n → World n → Prop := Relation.ReflTransGen Move

end CrossMachine.Raft
