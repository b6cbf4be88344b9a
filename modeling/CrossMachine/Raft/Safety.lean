import CrossMachine.Lib.Instances
import CrossMachine.Raft.Simulation

/-!
# Safety of the cluster

What the protocol's invariant says about the C++: about every state that some
schedule of threads, timeouts, client calls and lost frames leads to, and about any
two states of one run.
-/

namespace CrossMachine.Raft

open Lib

variable {n : Nat}

/-! ## Along a run -/

variable {σ : Cluster n} {es : List (Event n)} {s p : Fin n} {i T : Nat} {nd : RaftNode n}
  {w : World n}

/-- **Terms and commit indices never go back, and what is committed stays.** -/
theorem run_stable {σ' : Cluster n} {es' : List (Event n)} (hσ : Reaches es σ)
    (hrun : Run Cluster.step Any σ es' σ') (s : Fin n) :
    (σ.node s).currentTerm ≤ (σ'.node s).currentTerm ∧
      (σ.node s).commitIndex ≤ (σ'.node s).commitIndex ∧
      (σ.node s).log.take ((σ.node s).commitIndex + 1) <+: (σ'.node s).log := by
  obtain ⟨w, hs⟩ := reaches_sim hσ
  obtain ⟨w', hm, hs'⟩ := run_simulates hrun hs
  have hst := (inv_moves hs.inv hm).2.2.2 s
  rwa [hs.node, hs'.node] at hst

/-- **Election safety.** Whoever leads term `T` at one point of a run is the only node
that leads it at any later point. -/
theorem election_safety {σ σ' : Cluster n} {es es' : List (Event n)} {s t : Fin n}
    (hσ : Reaches es σ) (hrun : Run Cluster.step Any σ es' σ')
    (hs : (σ.node s).state = .leader) (ht : (σ'.node t).state = .leader)
    (hT : (σ.node s).currentTerm = (σ'.node t).currentTerm) : s = t := by
  obtain ⟨w, hw⟩ := reaches_sim hσ
  obtain ⟨w', hm, hw'⟩ := run_simulates hrun hw
  obtain ⟨hi', hx, _⟩ := inv_moves hw.inv hm
  rw [← hw.node] at hs hT
  rw [← hw'.node] at ht hT
  have hwin := hx.winner (hw.inv.vote.leads hs)
  have hwin' := hi'.vote.leads ht
  rw [← hT, hwin] at hwin'
  exact Option.some.inj hwin'

/-- A schedule of three nodes in which node 0 wins term 1 with the vote of node 1. -/
def electFirst : List (Action 3) :=
  [.tick 0 true, .run 0 .ticker, .run 0 .ticker, .run 0 .ticker, .recv 1 0, .run 1 (.receiver 0),
    .recv 0 1]

theorem election_safety_three : ∃ (σ σ' : Cluster 3) (es es' : List (Event 3)) (t : Fin 3),
    Reaches es σ ∧ Run Cluster.step Any σ es' σ' ∧ (σ.node 0).state = .leader ∧
      (σ'.node t).state = .leader ∧ (σ.node 0).currentTerm = (σ'.node t).currentTerm ∧ 0 = t := by
  have hplay : Leads Cluster.step Any (initCluster 3) electFirst fun σ _ =>
      ((σ.node 0).state = .leader ∧ (σ.node 0).currentTerm = 1) ∧
        Leads Cluster.step Any σ [.propose 0 [7], .run 0 (.client 0)] fun σ' _ =>
          (σ'.node 0).state = .leader ∧ (σ'.node 0).currentTerm = 1 := by
    decide +kernel
  obtain ⟨σ, es, hσ, ⟨hs, hT⟩, hnext⟩ := hplay.run
  obtain ⟨σ', es', hrun, ht, hT'⟩ := hnext.run
  exact ⟨σ, σ', es, es', 0, hσ, hrun, hs, ht, hT.trans hT'.symm,
    election_safety hσ hrun hs ht (hT.trans hT'.symm)⟩

/-- What a node has committed by one point of a run, every leader of its term or a later
one has at any later point. -/
theorem committed_in_leader {σ' : Cluster n} {es' : List (Event n)} {t : Fin n} {e : LogEntry}
    (hσ : Reaches es σ) (hrun : Run Cluster.step Any σ es' σ') (hi : i ≤ (σ.node s).commitIndex)
    (he : (σ.node s).log[i]? = some e) (ht : (σ'.node t).state = .leader)
    (hT : (σ.node s).currentTerm ≤ (σ'.node t).currentTerm) : (σ'.node t).log[i]? = some e := by
  obtain ⟨w, hw⟩ := reaches_sim hσ
  obtain ⟨w', hm, hw'⟩ := run_simulates hrun hw
  obtain ⟨hi', hx, hack, _⟩ := inv_moves hw.inv hm
  rw [← hw.node] at hi he hT
  rw [← hw'.node] at ht hT ⊢
  have hc := (hw.inv.commit.nodes s).mono hx hack hT (List.take_prefix _ _)
  by_cases h0 : (w.node s).commitIndex = 0
  · -- only the sentinel
    obtain rfl : i = 0 := by omega
    rw [(hw.inv.log.logs s).head] at he
    rw [(hi'.log.logs t).head, he]
  · have hwon : w'.hist.winner (w'.node t).currentTerm ≠ none := by
      rw [hi'.vote.leads ht]; simp
    have hp := hc.prefix_leaderLog hi'.vote hi'.elect h0 hwon (Nat.le_refl _)
    rw [hi'.log.leads ht] at hp
    refine prefix_getElem? hp ?_
    rw [List.getElem?_take_of_lt (by omega)]; exact he

/-- The receiver thread of `s` for `p` is about to run `handleAppendEntriesResponse` on a
leader of term `T`, and there `advanceCommitIndex` will move the commit index past `i`. -/
def AdvancesPast (σ : Cluster n) (s p : Fin n) (T i : Nat) : Prop :=
  ∃ m rest nd, σ.receiver s p = [] ∧ σ.chan p s = .appendEntriesResp T true m :: rest ∧
    (σ.node s).state = .leader ∧ (σ.node s).currentTerm = T ∧
    advanceCommitIndex s (setPeer (σ.node s) p
      { nextIndex := m + 1, matchIndex := max ((σ.node s).peerState p).matchIndex m }) = some nd ∧
    (σ.node s).commitIndex < i ∧ i ≤ nd.commitIndex

theorem advancesPast_step {σ₁ : Cluster n} {ev : List (Event n)} (h : AdvancesPast σ s p T i)
    (hstep : σ.step (.recv s p) = some (σ₁, ev)) :
    (σ₁.node s).log = (σ.node s).log ∧ (σ₁.node s).currentTerm = T ∧
      i ≤ (σ₁.node s).commitIndex := by
  obtain ⟨m, rest, nd, _, hchan, hlead, hT, hadv, _, hi⟩ := h
  cases happens_of_step hstep with
  | handle _ hchan' hr =>
      rw [hchan] at hchan'
      obtain ⟨rfl, rfl⟩ := List.cons.inj hchan'
      simp only [receive, handleAppendEntriesResponse, hT, Nat.lt_irrefl, if_false, hlead, ne_eq,
        not_true, or_self, if_true, hadv, Option.bind_eq_bind, Option.bind_some,
        Option.bind_eq_some_iff, Option.some.injEq, Prod.mk.injEq] at hr
      obtain ⟨⟨nd₂, out₂⟩, hdrain, rfl, _⟩ := hr
      obtain ⟨rfl, _⟩ := drain_eq hdrain
      rw [Cluster.setReceiver_node, Cluster.setNode_self]
      rcases advanceCommitIndex_cases hadv with rfl | ⟨k, e, _, _, _, _, rfl⟩
      · exact ⟨rfl, hT, hi⟩
      · exact ⟨rfl, hT, hi⟩

/-- **Leader completeness.** Once `advanceCommitIndex` has committed the entry at `i` on a
leader of term `T`, every node that leads a later term, then or at any later time, has
that entry at `i`. -/
theorem leader_completeness {σ σ₁ σ₂ : Cluster n} {es ev es' : List (Event n)}
    {s p t : Fin n} {T i : Nat} {e : LogEntry} (hσ : Reaches es σ)
    (hadv : AdvancesPast σ s p T i) (he : (σ.node s).log[i]? = some e)
    (hstep : σ.step (.recv s p) = some (σ₁, ev)) (hrun : Run Cluster.step Any σ₁ es' σ₂)
    (ht : (σ₂.node t).state = .leader) (hlater : T < (σ₂.node t).currentTerm) :
    (σ₂.node t).log[i]? = some e := by
  have hσ₁ : Reaches (es ++ ev) σ₁ := .tail hσ trivial hstep
  obtain ⟨hlog, hT, hi⟩ := advancesPast_step hadv hstep
  rw [← hlog] at he
  exact committed_in_leader hσ₁ hrun hi he ht (by omega)

/-- Node 0 then replicates a command to node 1, whose confirmation is on its way back. -/
def replicateFirst : List (Action 3) :=
  electFirst ++ ([.propose 0 [7], .run 0 (.client 0), .run 0 (.client 0), .recv 1 0,
    .run 1 (.receiver 0)] : List (Action 3))

/-- Node 1 wins term 2 with the vote of node 2. -/
def electSecond : List (Action 3) :=
  [.tick 1 true, .run 1 .ticker, .run 1 .ticker, .run 1 .ticker, .recv 2 1, .run 2 (.receiver 1),
    .recv 1 2]

theorem leader_completeness_three : ∃ (σ σ₁ σ₂ : Cluster 3) (es ev es' : List (Event 3)),
    Reaches es σ ∧ AdvancesPast σ 0 1 1 1 ∧ σ.step (.recv 0 1) = some (σ₁, ev) ∧
      Run Cluster.step Any σ₁ es' σ₂ ∧ (σ₂.node 1).state = .leader ∧
      1 < (σ₂.node 1).currentTerm ∧
      (σ₂.node 1).log[1]? = some { term := 1, index := 1, command := [7] } := by
  have hplay : Leads Cluster.step Any (initCluster 3) replicateFirst fun σ _ =>
      (σ.receiver 0 1 = [] ∧ σ.chan 1 0 = [.appendEntriesResp 1 true 1] ∧
        (σ.node 0).state = .leader ∧ (σ.node 0).currentTerm = 1 ∧
        (advanceCommitIndex 0 (setPeer (σ.node 0) 1
          { nextIndex := 1 + 1
            matchIndex := max ((σ.node 0).peerState 1).matchIndex 1 })).any
              (fun nd => decide ((σ.node 0).commitIndex < 1 ∧ 1 ≤ nd.commitIndex)) = true ∧
        (σ.node 0).log[1]? = some { term := 1, index := 1, command := [7] }) ∧
      (σ.step (.recv 0 1)).any (fun r => decide
        (Leads Cluster.step Any r.1 electSecond fun σ₂ _ =>
          (σ₂.node 1).state = .leader ∧ 1 < (σ₂.node 1).currentTerm)) = true := by
    decide +kernel
  obtain ⟨σ, es, hσ, ⟨hidle, hchan, hlead, hT, hadv, he⟩, hnext⟩ := hplay.run
  obtain ⟨nd, hnd, hpass⟩ := Option.any_eq_true _ _ |>.mp hadv
  obtain ⟨⟨σ₁, ev⟩, hstep, hlater⟩ := Option.any_eq_true _ _ |>.mp hnext
  obtain ⟨hlow, hhigh⟩ := of_decide_eq_true hpass
  obtain ⟨σ₂, es', hrun, ht, hterm⟩ := (of_decide_eq_true hlater).run
  have hpast : AdvancesPast σ 0 1 1 1 :=
    ⟨1, [], nd, hidle, hchan, hlead, hT, hnd, hlow, hhigh⟩
  exact ⟨σ, σ₁, σ₂, es, ev, es', hσ, hpast, hstep, hrun, ht, hterm,
    leader_completeness hσ hpast he hstep hrun ht hterm⟩

/-! ## In every state -/

/-- Every entry of a log knows its index. -/
theorem log_entry (hσ : Reaches es σ) {e : LogEntry} (he : (σ.node s).log[i]? = some e) :
    e.index = i := by
  obtain ⟨w, hw⟩ := reaches_sim hσ
  rw [← hw.node] at he
  exact ((hw.inv.log.logs s).entry he).1

/-- Two nodes agree on what both have committed. -/
theorem committed_agree (hσ : Reaches es σ) {t : Fin n} (hs : i ≤ (σ.node s).commitIndex)
    (ht : i ≤ (σ.node t).commitIndex) : (σ.node s).log[i]? = (σ.node t).log[i]? := by
  obtain ⟨w, hw⟩ := reaches_sim hσ
  rw [← hw.node] at hs ht ⊢
  exact hw.inv.agree hs ht

/-- **Log matching.** -/
theorem log_matching {σ : Cluster n} {es : List (Event n)} (hσ : Reaches es σ) :
    (∀ (s t : Fin n) (i : Nat) (e e' : LogEntry), (σ.node s).log[i]? = some e →
      (σ.node t).log[i]? = some e' → e.term = e'.term →
      (σ.node s).log.take (i + 1) = (σ.node t).log.take (i + 1)) ∧
    (∀ (s : Fin n) (i : Nat) (e : LogEntry), (σ.node s).log[i]? = some e → e.index = i) ∧
    ∀ s : Fin n, (σ.node s).log[0]? = some sentinel := by
  obtain ⟨w, hw⟩ := reaches_sim hσ
  rw [← hw.node]
  refine ⟨?_, ?_, ?_⟩
  · intro s t i e e' he he' hterm
    exact (hw.inv.log.logs s).matching (hw.inv.log.logs t) he he' hterm
  · intro s i e he
    exact ((hw.inv.log.logs s).entry he).1
  · intro s
    exact (hw.inv.log.logs s).head

theorem log_matching_three : ∃ (σ : Cluster 3) (es : List (Event 3)),
    Reaches es σ ∧ (σ.node 0).log.length = 2 ∧ (σ.node 1).log.length = 2 ∧
      (σ.node 0).log.take 2 = (σ.node 1).log.take 2 := by
  have hplay : Leads Cluster.step Any (initCluster 3) replicateFirst fun σ _ =>
      (σ.node 0).log[1]? = some { term := 1, index := 1, command := [7] } ∧
        (σ.node 1).log[1]? = some { term := 1, index := 1, command := [7] } ∧
        (σ.node 0).log.length = 2 ∧ (σ.node 1).log.length = 2 := by
    decide +kernel
  obtain ⟨σ, es, hσ, h₀, h₁, hlen₀, hlen₁⟩ := hplay.run
  exact ⟨σ, es, hσ, hlen₀, hlen₁, (log_matching hσ).1 0 1 1 _ _ h₀ h₁ rfl⟩

/-! ## No access leaves the log -/

theorem startElection_isSome (hne : nd.log ≠ []) (s : Fin n) : (startElection s nd).isSome := by
  have hlast : (becomeCandidate s nd).log.getLast? = some (nd.log.getLast hne) :=
    List.getLast?_eq_some_getLast hne
  simp only [startElection, hlast, becomeLeader, Option.bind_eq_bind, Option.bind_some]
  split <;> rfl

theorem proposeRegion_isSome (hne : nd.log ≠ []) (c : Command) : (proposeRegion nd c).isSome := by
  unfold proposeRegion
  split
  · rfl
  · rw [List.getLast?_eq_some_getLast hne]; rfl

theorem sendAppendEntriesTo_isSome (hi : Inv w) (s q : Fin n) :
    (sendAppendEntriesTo s (w.node s) q).isSome := by
  unfold sendAppendEntriesTo
  split
  · rfl
  · rename_i hlead
    obtain ⟨_, hpos, hle⟩ := hi.ack.matched (by simpa using hlead) q
    split
    · rename_i h0
      omega
    · rename_i pi hnext
      obtain ⟨last, hlast⟩ := (hi.log.logs s).exists_last
      have hend := (hi.log.logs s).last hlast
      have hread : (readRange (w.node s).log (pi + 1) (last.index + 1 - (pi + 1))).isSome :=
        readRange_isSome (by omega)
      obtain ⟨es, hes⟩ := Option.isSome_iff_exists.mp hread
      rw [List.getElem?_eq_getElem (show pi < (w.node s).log.length by omega), hlast]
      dsimp only [Option.bind_eq_bind, Option.bind_some]
      rw [hes]; rfl

theorem advanceCommitIndex_isSome {last : LogEntry} (hlast : nd.log.getLast? = some last)
    (hend : last.index + 1 = nd.log.length) (hci : nd.commitIndex < nd.log.length) :
    (advanceCommitIndex s nd).isSome := by
  have hloop : (advanceLoop s nd (last.index - nd.commitIndex)).isSome :=
    advanceLoop_isSome (by omega)
  obtain ⟨k, hk⟩ := Option.isSome_iff_exists.mp hloop
  simp [advanceCommitIndex, hlast, hk]

theorem acceptEntries_isSome (hi : Inv w) {l : Fin n} {pi pt lc : Nat} {es : List (Nat × Command)}
    (hmem : (⟨p, s, .appendEntries T l pi pt lc es⟩ : Packet n) ∈ w.net)
    (hT : (w.node s).currentTerm ≤ T) (hprev : prevMatches (w.node s).log pi pt = true) :
    ∃ nd, acceptEntries (w.node s) pi (decodeEntries pi es) lc = some nd ∧ (drain nd).isSome := by
  have hne := ((hi.log.logs s).mergeLog_good (hi.log.payload hi.vote hmem).1).ne_nil
  have hacc : (acceptEntries (w.node s) pi (decodeEntries pi es) lc).isSome := by
    unfold acceptEntries
    rw [appendLoop_merge hi hmem hprev]
    dsimp only
    split
    · rw [List.getLast?_eq_some_getLast hne]; rfl
    · rfl
  obtain ⟨nd, hnd⟩ := Option.isSome_iff_exists.mp hacc
  refine ⟨nd, hnd, drain_isSome ?_⟩
  have hlc := leaderCommit_lt hi hmem
  have hci := (hi.commit.nodes s).1
  have hst := (committed_mergeLog hi.vote hi.log hi.elect hi.commit hmem hT).length_le
  rw [List.length_take] at hst
  rw [acceptEntries_merge hi hmem hprev hnd]
  dsimp only
  omega

theorem handleAppendEntries_isSome (hi : Inv w) {l : Fin n} {pi pt lc : Nat}
    {es : List (Nat × Command)}
    (hmem : (⟨p, s, .appendEntries T l pi pt lc es⟩ : Packet n) ∈ w.net) :
    (handleAppendEntries (w.node s) T l pi pt (decodeEntries pi es) lc).isSome := by
  unfold handleAppendEntries
  split
  · rfl
  · rename_i hT
    have hT' := Nat.le_of_not_lt hT
    obtain ⟨hterm, _, hlog, hci, _⟩ := meetLeader_fields (l := l) hT'
    obtain ⟨hi₁, _⟩ := inv_moves hi (meetLeader_moves hmem hT')
    have hself : (w.setNode s (meetLeader (w.node s) T l)).node s = meetLeader (w.node s) T l :=
      World.setNode_self ..
    change (if prevMatches (meetLeader (w.node s) T l).log pi pt = true then
      (acceptEntries (meetLeader (w.node s) T l) pi (decodeEntries pi es) lc).bind _
        else (drain (meetLeader (w.node s) T l)).bind _).isSome
    split
    · rename_i hprev
      obtain ⟨nd, hnd, hdrain⟩ := acceptEntries_isSome hi₁ hmem
        (by rw [hself]; exact Nat.le_of_eq hterm) (by rw [hself]; exact hprev)
      obtain ⟨⟨nd', out⟩, hnd'⟩ := Option.isSome_iff_exists.mp hdrain
      rw [hself] at hnd
      rw [hnd, Option.bind_some, Option.bind_eq_bind, hnd']; rfl
    · have hdrain : (drain (meetLeader (w.node s) T l)).isSome := by
        refine drain_isSome ?_
        rw [hci, hlog]; exact (hi.commit.nodes s).1
      obtain ⟨⟨nd', out⟩, hnd'⟩ := Option.isSome_iff_exists.mp hdrain
      rw [hnd']; rfl

theorem handleAppendEntriesResponse_isSome (hi : Inv w) {m : Nat} {ok : Bool} :
    (handleAppendEntriesResponse s (w.node s) p T ok m).isSome := by
  unfold handleAppendEntriesResponse
  split
  · rfl
  · split
    · rfl
    · dsimp only
      split
      · obtain ⟨last, hlast⟩ := (hi.log.logs s).exists_last
        have hci := (hi.commit.nodes s).1
        have hadv : (advanceCommitIndex s (setPeer (w.node s) p
            { nextIndex := m + 1
              matchIndex := max ((w.node s).peerState p).matchIndex m })).isSome :=
          advanceCommitIndex_isSome hlast ((hi.log.logs s).last hlast) hci
        obtain ⟨nd, hnd⟩ := Option.isSome_iff_exists.mp hadv
        have hdrain : (drain nd).isSome := by
          refine drain_isSome ?_
          rcases advanceCommitIndex_cases hnd with rfl | ⟨k, e, _, he, _, _, rfl⟩
          · exact hci
          · exact lt_length_of_getElem? he
        rw [hnd, Option.bind_eq_bind, Option.bind_some]
        exact hdrain
      · split <;> rfl

/-- No handler leaves the log on a frame that is in flight. -/
theorem receive_isSome (hi : Inv w) {f : Frame n} (hmem : (⟨p, s, f⟩ : Packet n) ∈ w.net) :
    (receive s (w.node s) p f).isSome := by
  have hne := (hi.log.logs s).ne_nil
  cases f with
  | requestVote T c li lt =>
      obtain ⟨⟨nd, r⟩, hnd⟩ := Option.isSome_iff_exists.mp (handleRequestVote_isSome hne T c li lt)
      rw [receive, hnd]; rfl
  | requestVoteResp T g =>
      obtain ⟨nd, hnd⟩ := Option.isSome_iff_exists.mp (handleRequestVoteResponse_isSome hne s T g)
      rw [receive, hnd]; rfl
  | appendEntries T l pi pt lc es =>
      obtain ⟨⟨nd, o, r⟩, hnd⟩ := Option.isSome_iff_exists.mp (handleAppendEntries_isSome hi hmem)
      rw [receive, hnd]; rfl
  | appendEntriesResp T ok m =>
      have h : (handleAppendEntriesResponse s (w.node s) p T ok m).isSome :=
        handleAppendEntriesResponse_isSome hi
      obtain ⟨⟨nd, o⟩, hnd⟩ := Option.isSome_iff_exists.mp h
      rw [receive, hnd]; rfl

theorem mem_inFlight {q : Fin n} {f : Frame n} (h : f ∈ σ.chan p q) :
    (⟨p, q, f⟩ : Packet n) ∈ inFlight σ := by
  simp only [inFlight, Multiset.mem_add, Multiset.mem_sum, Finset.mem_univ, true_and]
  refine Or.inl (Or.inl (Or.inl ⟨p, q, ?_⟩))
  exact List.mem_map.mpr ⟨f, h, rfl⟩

/-- The bounds a node keeps on its indices. -/
structure IndexBounds (nd : RaftNode n) : Prop where
  applied : nd.lastApplied ≤ nd.commitIndex
  committed : ∀ {last}, nd.log.getLast? = some last → nd.commitIndex ≤ last.index
  nextIndex : nd.state = .leader → ∀ p,
    1 ≤ (nd.peerState p).nextIndex ∧ (nd.peerState p).nextIndex ≤ nd.log.length
  matchIndex : nd.state = .leader → ∀ p {last}, nd.log.getLast? = some last →
    (nd.peerState p).matchIndex ≤ last.index

theorem indexBounds_of_inv (hi : Inv w) (s : Fin n) : IndexBounds (w.node s) where
  applied := Nat.le_of_eq (hi.commit.applied s)
  committed := by
    intro last hlast
    have := (hi.log.logs s).last hlast
    have := (hi.commit.nodes s).1
    omega
  nextIndex := fun hlead p => (hi.ack.matched hlead p).2
  matchIndex := by
    intro hlead p last hlast
    have hend := (hi.log.logs s).last hlast
    have hle := (hi.ack.matched hlead p).1
    rcases Nat.eq_zero_or_pos (w.hist.acked (w.node s).currentTerm p) with h0 | h0
    · omega
    · have hlt := (hi.ack.reach h0).2
      rw [hi.log.leads hlead] at hlt
      omega

/-- **Indices stay in bounds**, no region reads outside the log (a region that did would be
`none`), and neither terms nor commit indices ever decrease. -/
theorem index_bounds {σ : Cluster n} {es : List (Event n)} (hσ : Reaches es σ) (s : Fin n) :
    (σ.node s).log ≠ [] ∧ IndexBounds (σ.node s) ∧
    (startElection s (σ.node s)).isSome ∧
    (∀ q, (sendAppendEntriesTo s (σ.node s) q).isSome) ∧
    (∀ p f, f ∈ σ.chan p s → (receive s (σ.node s) p f).isSome) ∧
    (∀ c, (proposeRegion (σ.node s) c).isSome) ∧
    ∀ a σ' ev, σ.step a = some (σ', ev) →
      (σ.node s).currentTerm ≤ (σ'.node s).currentTerm ∧
      (σ.node s).commitIndex ≤ (σ'.node s).commitIndex := by
  obtain ⟨w, hw⟩ := reaches_sim hσ
  have hne := (hw.inv.log.logs s).ne_nil
  have hframes : ∀ p f, f ∈ σ.chan p s → (receive s (w.node s) p f).isSome := by
    intro p f hf
    refine receive_isSome hw.inv ?_
    rw [hw.net]; exact mem_inFlight hf
  rw [hw.node] at hne hframes
  refine ⟨hne, hw.node ▸ indexBounds_of_inv hw.inv s, startElection_isSome hne s, ?_, hframes,
    proposeRegion_isSome hne, ?_⟩
  · intro q
    have hsend := sendAppendEntriesTo_isSome hw.inv s q
    rwa [hw.node] at hsend
  · intro a σ' ev hstep
    have hst := run_stable hσ (.tail .refl trivial hstep) s
    exact ⟨hst.1, hst.2.1⟩

theorem index_bounds_three : ∃ (σ : Cluster 3) (es : List (Event 3)),
    Reaches es σ ∧ (σ.node 0).state = .leader ∧ IndexBounds (σ.node 0) ∧
      (receive 0 (σ.node 0) 1 (.appendEntriesResp 1 true 1)).isSome := by
  have hplay : Leads Cluster.step Any (initCluster 3) replicateFirst fun σ _ =>
      (σ.node 0).state = .leader ∧ σ.chan 1 0 = [.appendEntriesResp 1 true 1] := by
    decide +kernel
  obtain ⟨σ, es, hσ, hlead, hchan⟩ := hplay.run
  obtain ⟨_, hbounds, _, _, hreceive, _⟩ := index_bounds hσ 0
  exact ⟨σ, es, hσ, hlead, hbounds, hreceive 1 _ (by rw [hchan]; exact List.mem_singleton_self _)⟩

end CrossMachine.Raft
