import CrossMachine.Raft.Simulation
import CrossMachine.Raft.Tla

/-!
# `raft.cpp` against `Raft.tla`

The specification was written next to the code, not derived from it, and the two part
ways. `Mapped` is the correspondence one would like to keep: `state_`, `currentTerm_`,
`votedFor_`, `log_` and `commitIndex_` are the specification's variables, and every frame
in flight is one of its messages. `Covered` lists the steps that keep it; each of its
clauses is a place where the two differ:

* `Next` lets one fixed server answer vote requests, and its single request record stands
  for the frames to all peers;
* the specification answers nothing that is stale, and knows no response of a higher term;
* `becomeFollower` clears `votedFor_`, the specification never does;
* `handleAppendEntries` keeps what follows the entries it was sent, the specification cuts
  it off;
* `matchIndex` only grows in the code;
* messages are a set, so handling one of two equal frames removes both;
* the ticker may start an election on a node that has become leader in the meantime.
-/

namespace CrossMachine.Raft

open Lib Tla

variable {n : Nat}

/-! ## The correspondence -/

def specEntry (e : LogEntry) : Entry := { term := e.term, value := e.command }

/-- The log without the sentinel; positions say what `index` says. -/
def specLog (log : List LogEntry) : List Entry := log.tail.map specEntry

/-- The record that stands for a frame. -/
def Packet.toMessage : Packet n → Message n
  | ⟨p, _, .requestVote T _ li lt⟩ => .requestVoteRequest p T lt li
  | ⟨p, q, .requestVoteResp T g⟩ => .requestVoteResponse p q T g
  | ⟨p, q, .appendEntries T _ pi pt lc es⟩ =>
      .appendEntriesRequest p q T pi pt (es.map fun e => { term := e.1, value := e.2 }) lc
  | ⟨p, q, .appendEntriesResp T ok m⟩ => .appendEntriesResponse p q T ok m

/-- The five variables of `s` that the specification takes from the code. -/
structure SameVars (s : Fin n) (nd : RaftNode n) (v : Vars n) : Prop where
  state : v.state s = nd.state
  currentTerm : v.currentTerm s = nd.currentTerm
  votedFor : v.votedFor s = nd.votedFor
  log : v.log s = specLog nd.log
  commitIndex : v.commitIndex s = nd.commitIndex

/-- The variables that mean something in one role only. -/
structure NodeMapped (s : Fin n) (nd : RaftNode n) (v : Vars n) : Prop extends SameVars s nd v where
  nextIndex : nd.state = .leader → ∀ p, v.nextIndex s p = (nd.peerState p).nextIndex
  matchIndex : nd.state = .leader → ∀ p, v.matchIndex s p = (nd.peerState p).matchIndex
  votesGranted : nd.state = .candidate → (v.votesGranted s).card = nd.votesGranted

/-- How many ballots of `p` for `s` in term `T` are in a bag of frames. -/
def ballotsIn (net : Multiset (Packet n)) (T : Nat) (s p : Fin n) : Nat :=
  net.countP fun pkt => pkt.isBallot T s p = true

variable {s : Fin n} {nd : RaftNode n} {v : Vars n} {h : History n} {log : List LogEntry}
  {last : LogEntry} {node : Fin n → RaftNode n} {net net' : Multiset (Packet n)} {w : World n}

theorem NodeMapped.follower (h : SameVars s nd v) (hrole : nd.state = .follower) :
    NodeMapped s nd v :=
  { h with
    nextIndex := fun hl => absurd hl (by rw [hrole]; simp)
    matchIndex := fun hl => absurd hl (by rw [hrole]; simp)
    votesGranted := fun hc => absurd hc (by rw [hrole]; simp) }

structure Mapped (node : Fin n → RaftNode n) (net : Multiset (Packet n)) (v : Vars n) : Prop where
  nodes : ∀ s, NodeMapped s (node s) v
  messages : ∀ pkt ∈ net, pkt.toMessage ∈ v.messages
  /-- Whose vote is counted has no other on its way. -/
  counted : ∀ {s p}, (node s).state = .candidate → p ∈ v.votesGranted s →
    ballotsIn net (node s).currentTerm s p = 0

theorem mapped_init : Mapped (initCluster n).node (inFlight (initCluster n)) (Init n) where
  nodes := fun s =>
    { state := rfl, currentTerm := rfl, votedFor := rfl, log := rfl, commitIndex := rfl
      nextIndex := fun h => absurd h (by simp [initCluster])
      matchIndex := fun h => absurd h (by simp [initCluster])
      votesGranted := fun h => absurd h (by simp [initCluster]) }
  messages := by intro pkt h; rw [inFlight_init] at h; simp at h
  counted := by intro s p h; simp [initCluster] at h

/-! ## The steps that keep it -/

/-- One frame in flight is all that the message of `pkt` stands for. -/
def Sole (net : Multiset (Packet n)) (pkt : Packet n) : Prop :=
  net.countP (fun q => q.toMessage = pkt.toMessage) ≤ 1

instance (net : Multiset (Packet n)) (pkt : Packet n) : Decidable (Sole net pkt) :=
  inferInstanceAs (Decidable (_ ≤ 1))

/-- Handling the frame `f` from `p` in state `nd` of `s` is a step of the specification. -/
def CoveredFrame (chosen : Fin n) (net : Multiset (Packet n)) (s p : Fin n) (nd : RaftNode n) :
    Frame n → Prop
  | .requestVote T c li lt =>
      s = chosen ∧ nd.currentTerm ≤ T ∧ Sole net ⟨p, s, .requestVote T c li lt⟩ ∧
      (nd.currentTerm < T → nd.votedFor = none ∨
        (nd.votedFor = some c ∧ nd.log.getLast?.any (fun last => logOk last li lt) = true))
  | .requestVoteResp T _ => T ≤ nd.currentTerm
  | .appendEntries T l pi pt lc es =>
      nd.currentTerm ≤ T ∧ Sole net ⟨p, s, .appendEntries T l pi pt lc es⟩ ∧
      (nd.currentTerm < T ∨ nd.state ≠ .follower → nd.votedFor = none) ∧
      (prevMatches nd.log pi pt = true → decodeEntries pi es <+: nd.log.drop (pi + 1) →
        nd.log.length ≤ pi + 1 + es.length)
  | .appendEntriesResp T ok m =>
      T ≤ nd.currentTerm ∧ (nd.state = .leader ∧ T = nd.currentTerm →
        Sole net ⟨p, s, .appendEntriesResp T ok m⟩ ∧
        (ok = true → (nd.peerState p).matchIndex ≤ m))

def Covered (chosen : Fin n) (σ : Cluster n) : Action n → Prop
  | .run s θ => (σ.tasks s θ).head? = some .startElection → (σ.node s).state ≠ .leader
  | .recv s p => ∀ f ∈ (σ.chan p s).head?, CoveredFrame chosen (inFlight σ) s p (σ.node s) f
  | _ => True

instance (chosen : Fin n) (net : Multiset (Packet n)) (s p : Fin n) (nd : RaftNode n) :
    ∀ f, Decidable (CoveredFrame chosen net s p nd f)
  | .requestVote .. => inferInstanceAs (Decidable (_ ∧ _ ∧ _ ∧ (_ → _ ∨ _ ∧ _)))
  | .requestVoteResp .. => inferInstanceAs (Decidable (_ ≤ _))
  | .appendEntries .. => inferInstanceAs (Decidable (_ ∧ _ ∧ (_ ∨ _ → _) ∧ (_ → _ → _)))
  | .appendEntriesResp .. => inferInstanceAs (Decidable (_ ∧ (_ ∧ _ → _ ∧ (_ → _))))

instance (chosen : Fin n) (σ : Cluster n) : ∀ a, Decidable (Covered chosen σ a)
  | .run s θ => inferInstanceAs (Decidable ((σ.tasks s θ).head? = some .startElection →
      (σ.node s).state ≠ .leader))
  | .recv s p => inferInstanceAs (Decidable (∀ f ∈ (σ.chan p s).head?,
      CoveredFrame chosen (inFlight σ) s p (σ.node s) f))
  | .tick .. | .propose .. | .finish .. | .lose .. => isTrue trivial

/-! Reading a translated log. -/

theorem specLog_getElem? (log : List LogEntry) (i : Nat) :
    (specLog log)[i]? = log[i + 1]?.map specEntry := by
  rw [specLog, List.getElem?_map, List.getElem?_tail]

theorem length_specLog (hL : GoodLog h log) : (specLog log).length + 1 = log.length := by
  have := hL.length_pos
  rw [specLog, List.length_map, List.length_tail]
  omega

theorem specLog_append (hne : log ≠ []) (es : List LogEntry) :
    specLog (log ++ es) = specLog log ++ es.map specEntry := by
  rw [specLog, specLog, List.tail_append_of_ne_nil hne, List.map_append]

theorem specLog_take (log : List LogEntry) (i : Nat) :
    specLog (log.take (i + 1)) = (specLog log).take i := by
  rw [specLog, specLog, ← List.map_take]
  congr 1
  cases log with
  | nil => simp
  | cons e log => rfl

theorem specLog_drop (log : List LogEntry) (i : Nat) :
    (log.drop (i + 1)).map specEntry = (specLog log).drop i := by
  rw [specLog, ← List.map_drop, List.drop_tail]

/-- `log_.back().term` is `LastTerm`. -/
theorem lastTerm_specLog (hL : GoodLog h log) (hlast : log.getLast? = some last) :
    lastTerm (specLog log) = last.term := by
  have hend := hL.last hlast
  have hlen := length_specLog hL
  rw [List.getLast?_eq_getElem?] at hlast
  rw [lastTerm, List.getLast?_eq_getElem?, specLog_getElem?]
  cases hi : last.index with
  | zero =>
      -- only the sentinel is left
      rw [List.getElem?_eq_none (by omega)]
      have hsent : last = sentinel := by
        rw [show log.length - 1 = 0 by omega, hL.head] at hlast
        exact (Option.some.inj hlast).symm
      rw [hsent]; rfl
  | succ i =>
      rw [show (specLog log).length - 1 + 1 = log.length - 1 by omega, hlast]
      rfl

/-- The two tests of a candidate's log agree. -/
theorem voteLogOk_iff (hL : GoodLog h log) (hlast : log.getLast? = some last) (li lt : Nat) :
    voteLogOk (specLog log) lt li ↔ logOk last li lt = true := by
  have hend := hL.last hlast
  have hlen := length_specLog hL
  rw [voteLogOk, lastTerm_specLog hL hlast, show (specLog log).length = last.index by omega]
  simp [logOk]

/-- `log_[i].term`, with the sentinel in place of the specification's case for 0. -/
theorem prevTerm_specLog (hL : GoodLog h log) (i : Nat) :
    prevTerm (specLog log) i = log[i]?.map LogEntry.term := by
  cases i with
  | zero => rw [hL.head]; rfl
  | succ i =>
      rw [prevTerm, specLog_getElem?, Option.map_map]
      rfl

/-! ## Steps of the specification at one server -/

/-- The variables of `t` are what they were. -/
structure Untouched (t : Fin n) (v v' : Vars n) : Prop where
  state : v'.state t = v.state t
  currentTerm : v'.currentTerm t = v.currentTerm t
  votedFor : v'.votedFor t = v.votedFor t
  log : v'.log t = v.log t
  commitIndex : v'.commitIndex t = v.commitIndex t
  nextIndex : v'.nextIndex t = v.nextIndex t
  matchIndex : v'.matchIndex t = v.matchIndex t
  votesGranted : v'.votesGranted t = v.votesGranted t

theorem NodeMapped.untouched {t : Fin n} {v' : Vars n} (h : NodeMapped t nd v)
    (hu : Untouched t v v') : NodeMapped t nd v' where
  state := hu.state.trans h.state
  currentTerm := hu.currentTerm.trans h.currentTerm
  votedFor := hu.votedFor.trans h.votedFor
  log := hu.log.trans h.log
  commitIndex := hu.commitIndex.trans h.commitIndex
  nextIndex := fun hs p => by rw [hu.nextIndex]; exact h.nextIndex hs p
  matchIndex := fun hs p => by rw [hu.matchIndex]; exact h.matchIndex hs p
  votesGranted := fun hs => by rw [hu.votesGranted]; exact h.votesGranted hs

/-- What a step at `s` has to show. -/
theorem Mapped.at {v' : Vars n} (h : Mapped node net v) (hself : NodeMapped s nd v')
    (hother : ∀ t, t ≠ s → Untouched t v v') (hmsgs : ∀ pkt ∈ net', pkt.toMessage ∈ v'.messages)
    (hballots : ∀ t p T, t ≠ s → ballotsIn net' T t p ≤ ballotsIn net T t p)
    (hcount : ∀ {p}, nd.state = .candidate → p ∈ v'.votesGranted s →
      ballotsIn net' nd.currentTerm s p = 0) :
    Mapped (Function.update node s nd) net' v' where
  nodes := by
    intro t
    by_cases hts : t = s
    · subst hts; rw [Function.update_self]; exact hself
    · rw [Function.update_of_ne hts]; exact (h.nodes t).untouched (hother t hts)
  messages := hmsgs
  counted := by
    intro t p hcand hp
    by_cases hts : t = s
    · subst hts
      rw [Function.update_self] at hcand ⊢
      exact hcount hcand hp
    · rw [Function.update_of_ne hts] at hcand ⊢
      rw [(hother t hts).votesGranted] at hp
      exact Nat.le_zero.mp ((h.counted hcand hp) ▸ hballots t p _ hts)

theorem ballotsIn_mono (hle : net' ≤ net) (T : Nat) (s p : Fin n) :
    ballotsIn net' T s p ≤ ballotsIn net T s p :=
  Multiset.countP_le_of_le _ hle

theorem ballotsIn_cons (pkt : Packet n) (net : Multiset (Packet n)) (T : Nat) (s p : Fin n) :
    ballotsIn (pkt ::ₘ net) T s p
      = ballotsIn net T s p + if pkt.isBallot T s p = true then 1 else 0 :=
  Multiset.countP_cons ..

/-- A stutter: a node changes in nothing the specification sees, frames get lost. -/
theorem Mapped.lose (h : Mapped node net v) (hle : net' ≤ net) : Mapped node net' v where
  nodes := h.nodes
  messages := fun pkt hpkt => h.messages pkt (Multiset.mem_of_le hle hpkt)
  counted := fun hcand hp =>
    Nat.le_zero.mp ((h.counted hcand hp) ▸ ballotsIn_mono hle _ _ _)

/-- A message that stands for one frame only can be removed with it. -/
theorem messages_remove {rest : Multiset (Packet n)} {pkt : Packet n} {M : Set (Message n)}
    (hmsgs : ∀ q ∈ net, q.toMessage ∈ M) (hnet : net = pkt ::ₘ rest) (hsole : Sole net pkt) :
    ∀ q ∈ rest, q.toMessage ∈ M \ {pkt.toMessage} := by
  intro q hq
  refine ⟨hmsgs q (by rw [hnet]; exact Multiset.mem_cons_of_mem hq), fun heq => ?_⟩
  rw [Sole, hnet, Multiset.countP_cons_of_pos (p := fun q : Packet n => q.toMessage = pkt.toMessage)
    _ rfl] at hsole
  have hpos : 0 < rest.countP (fun q => q.toMessage = pkt.toMessage) :=
    Multiset.countP_pos.mpr ⟨q, hq, heq⟩
  omega

theorem mapped_win (chosen : Fin n) (hmap : Mapped node net v) (hL : GoodLog h (node s).log)
    (hcand : (node s).state = .candidate) (hmaj : n < (node s).votesGranted * 2)
    (hnd : becomeLeader s (node s) = some nd) :
    ∃ v', Next chosen v v' ∧ Mapped (Function.update node s nd) net v' := by
  obtain ⟨last, hlast, rfl⟩ := becomeLeader_eq hnd
  have hs := hmap.nodes s
  have hlen : (v.log s).length + 1 = last.index + 1 := by
    rw [hs.log, length_specLog hL, hL.last hlast]
  refine ⟨_, .becomeLeader s ⟨hs.state.trans hcand, ?_, rfl⟩, hmap.at ?_ ?_ hmap.messages
    (fun _ _ _ _ => le_rfl) (fun hc => absurd hc (by simp))⟩
  · rw [Quorum, Majority, Fintype.card_fin, hs.votesGranted hcand]
    omega
  · exact
      { state := Function.update_self ..
        currentTerm := hs.currentTerm
        votedFor := hs.votedFor
        log := hs.log
        commitIndex := hs.commitIndex
        nextIndex := fun _ p => by
          show Function.update v.nextIndex s _ s p = _
          rw [Function.update_self, hlen]
        matchIndex := fun _ p => by
          show Function.update v.matchIndex s _ s p = _
          rw [Function.update_self]
        votesGranted := fun hc => absurd hc (by simp) }
  · intro t hts
    exact ⟨Function.update_of_ne hts .., rfl, rfl, rfl, rfl, Function.update_of_ne hts ..,
      Function.update_of_ne hts .., rfl⟩

/-- Nobody asks itself for a vote, or answers itself. -/
theorem ballots_self (hi : Inv w) (T : Nat) (s : Fin n) : ballotsIn w.net T s s = 0 := by
  rw [ballotsIn, Multiset.countP_eq_zero]
  intro pkt hpkt hb
  refine hi.vote.distinct pkt hpkt ?_
  obtain ⟨p, q, f⟩ := pkt
  cases f with
  | requestVote t c li lt =>
      have hcell := of_decide_eq_true hb
      exact hcell.1.trans hcell.2.1.symm
  | requestVoteResp t g =>
      cases g with
      | true =>
          have hcell := of_decide_eq_true hb
          exact hcell.1.trans hcell.2.1.symm
      | false => exact absurd hb (by simp [Packet.isBallot])
  | appendEntries => exact absurd hb (by simp [Packet.isBallot])
  | appendEntriesResp => exact absurd hb (by simp [Packet.isBallot])

theorem mapped_timeout (chosen : Fin n) (hi : Inv w) (hmap : Mapped w.node w.net v)
    (hrole : (w.node s).state ≠ .leader) (hlast : (w.node s).log.getLast? = some last) :
    ∃ v', Next chosen v v' ∧ Mapped (Function.update w.node s (becomeCandidate s (w.node s)))
      (World.ballotsOf s ((w.node s).currentTerm + 1) last + w.net) v' := by
  have hs := hmap.nodes s
  have hL := hi.log.logs s
  have hlen : (v.log s).length = last.index := by
    have h₁ := length_specLog hL
    have h₂ := hL.last hlast
    rw [hs.log]
    omega
  have hstate : v.state s = .follower ∨ v.state s = .candidate := by
    rw [hs.state]
    cases hr : (w.node s).state with
    | follower => exact Or.inl rfl
    | candidate => exact Or.inr rfl
    | leader => exact absurd hr hrole
  refine ⟨_, .timeout s ⟨hstate, rfl⟩, hmap.at ?_ ?_ ?_ ?_ ?_⟩
  · exact
      { state := Function.update_self ..
        currentTerm := by
          show Function.update v.currentTerm s _ s = _
          rw [Function.update_self, hs.currentTerm]; rfl
        votedFor := Function.update_self ..
        log := hs.log
        commitIndex := hs.commitIndex
        nextIndex := fun hc => absurd hc (by simp [becomeCandidate])
        matchIndex := fun hc => absurd hc (by simp [becomeCandidate])
        votesGranted := fun _ => by
          show (Function.update v.votesGranted s {s} s).card = 1
          rw [Function.update_self, Finset.card_singleton] }
  · intro t hts
    exact ⟨Function.update_of_ne hts .., Function.update_of_ne hts .., Function.update_of_ne hts ..,
      rfl, rfl, rfl, rfl, Function.update_of_ne hts ..⟩
  · intro pkt hpkt
    rcases Multiset.mem_add.mp hpkt with hnew | hold
    · obtain ⟨p, _, rfl⟩ := mem_ballotsOf hnew
      refine Or.inl ?_
      rw [hs.currentTerm, hlen, hs.log, lastTerm_specLog hL hlast]
      rfl
    · exact Or.inr (hmap.messages pkt hold)
  · intro t p T hts
    rw [ballotsIn, Multiset.countP_add, countP_ballotsOf, if_neg fun hc => hts hc.1.symm, zero_add]
    rfl
  · intro p _ hp
    have hps : p = s := by
      change p ∈ Function.update v.votesGranted s {s} s at hp
      rwa [Function.update_self, Finset.mem_singleton] at hp
    have hnone : (peers s).count s = 0 :=
      List.count_eq_zero.mpr fun hmem => mem_peers.mp hmem rfl
    rw [hps, ballotsIn, Multiset.countP_add, countP_ballotsOf, hnone, ite_self, zero_add]
    exact ballots_self hi _ s

theorem mapped_send (chosen : Fin n) {q : Fin n} (hi : Inv w) (hmap : Mapped w.node w.net v)
    (hsq : s ≠ q) {f : Frame n} (hf : sendAppendEntriesTo s (w.node s) q = some (some f)) :
    ∃ v', Next chosen v v' ∧ Mapped w.node (⟨s, q, f⟩ ::ₘ w.net) v' := by
  obtain ⟨hlead, pi, prev, last, hnext, hprev, hlast, rfl⟩ := sendAppendEntriesTo_cases hf
  have hs := hmap.nodes s
  have hL := hi.log.logs s
  have hpi : v.nextIndex s q - 1 = pi := by
    rw [hs.nextIndex hlead q, hnext]
    rfl
  have hpt : prevTerm (v.log s) (v.nextIndex s q - 1) = some prev.term := by
    rw [hpi, hs.log, prevTerm_specLog hL, hprev]
    rfl
  refine ⟨_, .sendAppendEntries s q ⟨hs.state.trans hlead, hsq.symm, _, hpt, rfl⟩, ?_⟩
  have hend := hL.last hlast
  rw [List.take_of_length_le (by rw [List.length_drop]; omega)]
  refine ⟨fun t => (hmap.nodes t).untouched ⟨rfl, rfl, rfl, rfl, rfl, rfl, rfl, rfl⟩, ?_, ?_⟩
  · intro pkt hpkt
    rcases Multiset.mem_cons.mp hpkt with rfl | hold
    · refine Or.inl ?_
      rw [hpi, hs.currentTerm, hs.commitIndex, hs.log, ← specLog_drop]
      show Message.appendEntriesRequest _ _ _ _ _ _ _ = _
      rw [List.map_map]
      rfl
    · exact Or.inr (hmap.messages pkt hold)
  · intro t p hcand hp
    rw [ballotsIn_cons, if_neg (by simp [Packet.isBallot])]
    exact hmap.counted hcand hp

theorem mapped_propose (chosen : Fin n) (hi : Inv w) (hmap : Mapped w.node w.net v) {c : Command}
    {e : LogEntry} (hp : proposeRegion (w.node s) c = some (nd, some e)) :
    ∃ v', Next chosen v v' ∧ Mapped (Function.update w.node s nd) w.net v' := by
  rcases proposeRegion_cases hp with ⟨_, _, hr⟩ | ⟨hlead, last, e', hlast, he', rfl, hr⟩
  · exact absurd hr (by simp)
  · have hs := hmap.nodes s
    refine ⟨_, .clientRequest s c ⟨hs.state.trans hlead, rfl⟩, hmap.at ?_ ?_ hmap.messages
      (fun _ _ _ _ => le_rfl) (fun hc => absurd hc (by rw [hlead]; simp))⟩
    · refine { hs with log := ?_ }
      show Function.update v.log s _ s = _
      rw [Function.update_self, specLog_append (hi.log.logs s).ne_nil, hs.log, hs.currentTerm, he']
      rfl
    · intro t hts
      exact ⟨rfl, rfl, rfl, Function.update_of_ne hts .., rfl, rfl, rfl, rfl⟩

end CrossMachine.Raft
