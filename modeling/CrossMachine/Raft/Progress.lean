import CrossMachine.Lib.Instances
import CrossMachine.Raft.Delivery

/-!
# A leader commits what it can

`advanceCommitIndex` runs when a peer confirms, and at no other time. With a peer in the
cluster that is enough: a new leader starts with no confirmations, a new entry has none
either, and every confirmation is followed by the loop. A leader without peers is a
majority by itself, so each entry that it appends could be committed at once; but nobody
ever confirms anything to it, and `propose` does not run the loop.
-/

namespace CrossMachine.Raft

open Lib

variable {n : Nat}

/-- The leader plus the peers that hold index `i`. -/
def supporters (s : Fin n) (nd : RaftNode n) (i : Nat) : Nat :=
  1 + (peers s).countP fun p => decide (i ≤ (nd.peerState p).matchIndex)

/-- Index `i` could be committed and is not: it holds an entry of the current term, and its
supporters are a strict majority of the cluster. -/
def Committable (s : Fin n) (nd : RaftNode n) (i : Nat) : Prop :=
  nd.commitIndex < i ∧ (∃ e, nd.log[i]? = some e ∧ e.term = nd.currentTerm) ∧
    n < supporters s nd i * 2

/-- No leader leaves a committable index uncommitted. -/
def Cluster.Committed (σ : Cluster n) : Prop :=
  ∀ s, (σ.node s).state = .leader → ∀ i, ¬ Committable s (σ.node s) i

/-- A leader that takes a command has a peer to send it to. -/
def HasPeer (σ : Cluster n) : Action n → Prop
  | .propose s _ => (σ.node s).state = .leader → peers s ≠ []
  | _ => True

instance (σ : Cluster n) : (a : Action n) → Decidable (HasPeer σ a)
  | .propose s _ => inferInstanceAs (Decidable ((σ.node s).state = .leader → peers s ≠ []))
  | .tick .. => isTrue trivial
  | .run .. => isTrue trivial
  | .recv .. => isTrue trivial
  | .finish .. => isTrue trivial
  | .lose .. => isTrue trivial

/-! ## Counting supporters -/

/-- What `advanceCommitIndex` counts, the slot of the leader itself included. -/
theorem supporters_le_replicaCount (s : Fin n) (nd : RaftNode n) (i : Nat) :
    supporters s nd i ≤ replicaCount nd i :=
  Nat.add_le_add_left (List.Sublist.countP_le List.filter_sublist) 1

/-- An index that no peer has confirmed has no majority behind it, unless there are no peers. -/
theorem supporters_alone {s : Fin n} {nd : RaftNode n} {i : Nat} (hn : n ≠ 1)
    (hp : ∀ p, (nd.peerState p).matchIndex < i) : ¬ n < supporters s nd i * 2 := by
  have hzero : (peers s).countP (fun p => decide (i ≤ (nd.peerState p).matchIndex)) = 0 := by
    rw [List.countP_eq_zero]
    intro p _ hle
    have := hp p
    rw [decide_eq_true_eq] at hle
    omega
  have := s.isLt
  rw [supporters, hzero]
  omega

theorem peers_ne_nil {s : Fin n} : peers s ≠ [] ↔ n ≠ 1 := by
  have := length_peers s
  rw [Ne, ← List.length_eq_zero_iff]
  omega

/-! ## The loop of `advanceCommitIndex` tries every index -/

theorem advanceLoop_complete {s : Fin n} {nd : RaftNode n} :
    ∀ {count k : Nat}, advanceLoop s nd count = some k →
      ∀ {i e}, k < i → i ≤ nd.commitIndex + count → nd.log[i]? = some e →
        e.term = nd.currentTerm → ¬ n < replicaCount nd i * 2 := by
  intro count
  induction count with
  | zero =>
      intro k h i e hki hi he hterm
      obtain rfl := Option.some.inj h
      omega
  | succ count ih =>
      intro k h i e hki hi he hterm
      simp only [advanceLoop, Option.bind_eq_bind, Option.bind_eq_some_iff] at h
      obtain ⟨e₀, he₀, h⟩ := h
      by_cases htop : i = nd.commitIndex + (count + 1)
      · -- the index just tried is refused for one of the loop's two reasons
        subst htop
        rw [he₀, Option.some.injEq] at he
        subst he
        rw [if_neg (by simpa using hterm), length_peers] at h
        split at h
        · have := Option.some.inj h
          omega
        · assumption
      · split at h
        · exact ih h hki (by omega) he hterm
        · split at h
          · have := Option.some.inj h
            omega
          · exact ih h hki (by omega) he hterm

/-- After `advanceCommitIndex` nothing committable is left. -/
theorem advanceCommitIndex_complete {s : Fin n} {nd nd' : RaftNode n}
    (h : advanceCommitIndex s nd = some nd')
    (hend : ∀ {last}, nd.log.getLast? = some last → last.index + 1 = nd.log.length) (i : Nat) :
    ¬ Committable s nd' i := by
  simp only [advanceCommitIndex, Option.bind_eq_bind, Option.bind_eq_some_iff] at h
  obtain ⟨last, hlast, k, hk, heq⟩ := h
  obtain rfl := Option.some.inj heq
  rintro ⟨hki, ⟨e, he, hterm⟩, hmaj⟩
  have hi : i < nd.log.length := lt_length_of_getElem? he
  have hlen := hend hlast
  have hnone := advanceLoop_complete hk hki (by omega) he hterm
  have hle := supporters_le_replicaCount s nd i
  have hsame : supporters s { nd with commitIndex := k } i = supporters s nd i := rfl
  omega

/-! ## Every region of a node -/

/-- What a node keeps between its regions. -/
structure Settled (s : Fin n) (nd : RaftNode n) : Prop where
  /-- Only a node with peers has to ask for votes. -/
  contested : nd.state = .candidate → n ≠ 1
  commits : nd.state = .leader → ∀ i, ¬ Committable s nd i

/-- What the other invariants say of a node, as far as it is needed here. -/
structure Bounded (nd : RaftNode n) : Prop where
  terms : ∀ e ∈ nd.log, e.term ≤ nd.currentTerm
  last : ∀ {last}, nd.log.getLast? = some last → last.index + 1 = nd.log.length
  matched : nd.state = .leader → ∀ p, (nd.peerState p).matchIndex < nd.log.length

theorem bounded_of_reaches {σ : Cluster n} {es : List (Event n)} (hσ : Reaches es σ) (s : Fin n) :
    Bounded (σ.node s) := by
  obtain ⟨w, hw⟩ := reaches_sim hσ
  have hgood := hw.inv.log.logs s
  have hbounds := indexBounds_of_inv hw.inv s
  rw [← hw.node]
  refine ⟨hw.inv.log.bound s, fun hlast => hgood.last hlast, fun hlead p => ?_⟩
  obtain ⟨last, hlast⟩ := hgood.exists_last
  have := hbounds.matchIndex hlead p hlast
  have := hgood.last hlast
  omega

section Regions

variable {s p : Fin n} {nd nd' : RaftNode n}

theorem settled_of_follower (h : nd.state = .follower) : Settled s nd where
  contested := fun hc => absurd (h.symm.trans hc) (by simp)
  commits := fun hl => absurd (h.symm.trans hl) (by simp)

/-- Only these fields matter. -/
theorem Settled.congr (h : Settled s nd) (hstate : nd'.state = nd.state)
    (hterm : nd'.currentTerm = nd.currentTerm) (hlog : nd'.log = nd.log)
    (hcommit : nd'.commitIndex = nd.commitIndex)
    (hmatch : ∀ p, (nd'.peerState p).matchIndex = (nd.peerState p).matchIndex) :
    Settled s nd' where
  contested := hstate ▸ h.contested
  commits := by
    intro hlead i hi
    refine h.commits (hstate ▸ hlead) i ?_
    unfold Committable supporters at hi ⊢
    simp only [hterm, hlog, hcommit, hmatch] at hi
    exact hi

theorem settled_meetTerm (h : Settled s nd) (T : Nat) : Settled s (meetTerm nd T) := by
  unfold meetTerm
  split
  · exact settled_of_follower rfl
  · exact h

theorem settled_startElection {out : List (Fin n × Frame n)} (hb : Bounded nd)
    (h : startElection s nd = some (nd', out)) : Settled s nd' := by
  obtain ⟨last, hlast, ⟨_, hlead, _⟩ | ⟨hpeers, rfl, _⟩⟩ := startElection_cases h
  · obtain ⟨last', _, rfl⟩ := becomeLeader_eq hlead
    refine ⟨fun hc => absurd hc (by simp), fun _ i hi => ?_⟩
    -- the log holds nothing of the term that has just begun
    obtain ⟨-, ⟨e, he, hterm⟩, -⟩ := hi
    have hle : e.term ≤ nd.currentTerm := hb.terms e (List.mem_of_getElem? he)
    have hnew : e.term = nd.currentTerm + 1 := hterm
    omega
  · refine ⟨fun _ hn => hpeers ?_, fun hl => absurd hl (by simp [becomeCandidate])⟩
    have := length_peers s
    omega

theorem settled_receive {f : Frame n} {out : List LogEntry} {reply : Option (Frame n)}
    (hs : Settled s nd) (hb : Bounded nd) (h : receive s nd p f = some (nd', out, reply)) :
    Settled s nd' := by
  cases receives_of_receive h with
  | requestVote hr =>
      rename_i T li lt c r
      rcases handleRequestVote_cases hr with ⟨rfl, _⟩ | ⟨_, _, _, rfl, _⟩
      · exact settled_meetTerm hs T
      · exact (settled_meetTerm hs T).congr rfl rfl rfl rfl fun _ => rfl
  | requestVoteResp hr =>
      rcases handleRequestVoteResponse_cases hr with
        ⟨_, rfl⟩ | ⟨_, rfl⟩ | ⟨hcand, _, _, rfl | ⟨_, hlead⟩⟩
      · exact settled_of_follower rfl
      · exact hs
      · exact hs.congr rfl rfl rfl rfl fun _ => rfl
      · obtain ⟨last, _, rfl⟩ := becomeLeader_eq hlead
        refine ⟨fun hc => absurd hc (by simp), fun _ i hi => ?_⟩
        -- a new leader has no confirmations
        obtain ⟨hlt, -, hmaj⟩ := hi
        exact supporters_alone (hs.contested hcand) (fun _ => Nat.zero_lt_of_lt hlt) hmaj
  | appendEntries hr =>
      rename_i T pi pt lc l es r
      have hmeet : nd.currentTerm ≤ T → (meetLeader nd T l).state = .follower :=
        fun hT => (meetLeader_fields hT).2.1
      rcases handleAppendEntries_cases hr with
        ⟨_, rfl, _⟩ | ⟨hT, _, hdrain, _⟩ | ⟨hT, _, nd₂, hacc, hdrain, _⟩
      · exact hs
      · obtain ⟨rfl, -⟩ := drain_eq hdrain
        exact settled_of_follower (hmeet hT)
      · obtain ⟨rfl, -⟩ := drain_eq hdrain
        refine settled_of_follower ?_
        rcases acceptEntries_eq hacc with ⟨_, _, _, rfl⟩ | ⟨_, rfl⟩
        · exact hmeet hT
        · exact hmeet hT
  | appendEntriesResp hr =>
      rcases handleAppendEntriesResponse_cases hr with
        ⟨_, rfl, _⟩ | ⟨_, rfl, _⟩ | ⟨hlead, _, _, nd₂, hadv, hdrain⟩ | ⟨_, _, _, _, _, rfl⟩
      · exact settled_of_follower rfl
      · exact hs
      · obtain ⟨rfl, -⟩ := drain_eq hdrain
        have hstate : nd₂.state = .leader := by
          rcases advanceCommitIndex_cases hadv with rfl | ⟨_, _, _, _, _, _, rfl⟩
          · exact hlead
          · exact hlead
        refine ⟨fun hc => absurd (hstate.symm.trans hc) (by simp), fun _ i hi => ?_⟩
        have hnone := advanceCommitIndex_complete hadv hb.last i
        exact hnone hi
      · refine hs.congr rfl rfl rfl rfl fun q => ?_
        rename_i m hok _ _ _
        by_cases hq : q = p
        · subst hq; simp [setPeer]
        · simp [setPeer, hq]

theorem settled_propose {c : Command} {e : Option LogEntry} (hs : Settled s nd) (hb : Bounded nd)
    (hpeer : nd.state = .leader → peers s ≠ []) (h : proposeRegion nd c = some (nd', e)) :
    Settled s nd' := by
  rcases proposeRegion_cases h with ⟨_, rfl, _⟩ | ⟨hlead, last, e', hlast, rfl, rfl, _⟩
  · exact hs
  · refine ⟨fun hc => absurd (hlead.symm.trans hc) (by simp), fun _ i hi => ?_⟩
    obtain ⟨hlt, ⟨e, he, hterm⟩, hmaj⟩ := hi
    rcases Nat.lt_or_ge i nd.log.length with hi | hi
    · rw [List.getElem?_append_left hi] at he
      exact hs.commits hlead i ⟨hlt, ⟨e, he, hterm⟩, hmaj⟩
    · -- nobody has confirmed the entry that has just been appended
      refine supporters_alone (peers_ne_nil.mp (hpeer hlead)) (fun q => ?_) hmaj
      exact (hb.matched hlead q).trans_le hi

end Regions

/-! ## Runs -/

theorem settled_step {σ σ' : Cluster n} {a : Action n} {ev : List (Event n)}
    (hs : ∀ s, Settled s (σ.node s)) (hb : ∀ s, Bounded (σ.node s)) (hok : HasPeer σ a)
    (hstep : σ.step a = some (σ', ev)) (s : Fin n) : Settled s (σ'.node s) := by
  -- a change of the state of `s₀` alone
  have hset : ∀ {s₀ : Fin n} {nd : RaftNode n}, Settled s₀ nd →
      ∀ s, Settled s ((σ.setNode s₀ nd).node s) := by
    intro s₀ nd hnd s
    by_cases heq : s = s₀
    · subst heq; rw [Cluster.setNode_self]; exact hnd
    · rw [Cluster.setNode_ne _ _ heq]; exact hs s
  cases happens_of_step hstep with
  | elect ht hstart =>
      rw [Cluster.setTasks_node]
      exact hset (settled_startElection (hb _) hstart) s
  | handle hidle hchan hr =>
      rw [Cluster.setReceiver_node]
      exact hset (settled_receive (hs _) (hb _) hr) s
  | accept hp =>
      rw [Cluster.setCalls_node]
      exact hset (settled_propose (hs _) (hb _) hok hp) s
  | write => rw [Cluster.setTasks_node]; exact hs s
  | skip => rw [Cluster.setTasks_node]; exact hs s
  | prepare => rw [Cluster.setTasks_node]; exact hs s
  | callback => rw [Cluster.setTasks_node]; exact hs s
  | heartbeat => exact hs s
  | timeout => exact hs s
  | idle => exact hs s
  | reject => exact hs s
  | finish => exact hs s
  | lose => exact hs s

/-- **Every committable entry has been committed**, in every run in which no leader without
a peer takes a command. -/
theorem commit_progress {σ : Cluster n} {es : List (Event n)}
    (hrun : Run Cluster.step HasPeer (initCluster n) es σ) : σ.Committed := by
  have hinv : Reaches es σ ∧ ∀ s, Settled s (σ.node s) := by
    refine hrun.invariant (I := fun es σ => Reaches es σ ∧ ∀ s, Settled s (σ.node s))
      ⟨.refl, fun s => settled_of_follower rfl⟩ ?_
    intro es ev σ σ' a h hok hstep
    exact ⟨h.1.tail trivial hstep, settled_step h.2 (bounded_of_reaches h.1) hok hstep⟩
  exact fun s hlead i => (hinv.2 s).commits hlead i

/-- Node 0 of three leads, has committed its first command and taken a second. -/
theorem commit_progress_three : ∃ (σ : Cluster 3) (es : List (Event 3)),
    Run Cluster.step HasPeer (initCluster 3) es σ ∧ (σ.node 0).state = .leader ∧
      (σ.node 0).commitIndex = 1 ∧ (σ.node 0).log.length = 3 ∧ σ.Committed := by
  have hplay : Leads Cluster.step HasPeer (initCluster 3)
      (replicateFirst ++ ([.recv 0 1, .propose 0 [8]] : List (Action 3))) fun σ _ =>
        (σ.node 0).state = .leader ∧ (σ.node 0).commitIndex = 1 ∧ (σ.node 0).log.length = 3 := by
    decide +kernel
  obtain ⟨σ, es, hrun, hlead, hcommit, hlog⟩ := hplay.run
  exact ⟨σ, es, hrun, hlead, hcommit, hlog, commit_progress hrun⟩

/-- The condition is exact: a command that a leader without peers takes stays uncommitted. -/
theorem propose_alone {σ σ' : Cluster n} {es ev : List (Event n)} {s : Fin n} {c : Command}
    (hσ : Reaches es σ) (hlead : (σ.node s).state = .leader) (halone : peers s = [])
    (hstep : σ.step (.propose s c) = some (σ', ev)) : ¬ σ'.Committed := by
  have hci := commitIndex_lt hσ s
  have hn : n = 1 := by
    have := length_peers s
    rw [halone] at this
    exact this.symm
  cases happens_of_step hstep with
  | reject hrole => exact absurd hlead hrole
  | accept hp =>
      rename_i nd e
      rcases proposeRegion_cases hp with ⟨hrole, _⟩ | ⟨_, last, e', hlast, rfl, rfl, _⟩
      · exact absurd hlead hrole
      · intro hall
        refine hall s ?_ (σ.node s).log.length ?_
        · rw [Cluster.setCalls_node, Cluster.setNode_self]; exact hlead
        · rw [Cluster.setCalls_node, Cluster.setNode_self]
          refine ⟨hci, ⟨_, List.getElem?_concat_length, rfl⟩, ?_⟩
          rw [supporters, halone, List.countP_nil]
          omega

/-- The only node of its cluster elects itself and takes a command. -/
def proposeFirst : List (Action 1) := [.tick 0 true, .run 0 .ticker, .propose 0 [7]]

theorem commit_alone : ∃ (σ : Cluster 1) (es : List (Event 1)), Reaches es σ ∧
    (σ.node 0).state = .leader ∧ Committable 0 (σ.node 0) 1 ∧ ¬ σ.Committed := by
  have hplay : Leads Cluster.step Any (initCluster 1) proposeFirst fun σ _ =>
      (σ.node 0).state = .leader ∧ (σ.node 0).commitIndex < 1 ∧
        (σ.node 0).log[1]? = some { term := 1, index := 1, command := [7] } ∧
        (σ.node 0).currentTerm = 1 ∧ 1 < supporters 0 (σ.node 0) 1 * 2 := by
    decide +kernel
  obtain ⟨σ, es, hσ, hlead, hlt, he, hterm, hmaj⟩ := hplay.run
  have hopen : Committable 0 (σ.node 0) 1 := ⟨hlt, ⟨_, he, hterm.symm⟩, hmaj⟩
  exact ⟨σ, es, hσ, hlead, hopen, fun hall => hall 0 hlead 1 hopen⟩

end CrossMachine.Raft
