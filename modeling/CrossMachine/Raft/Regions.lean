import CrossMachine.Raft.Handlers
import CrossMachine.Raft.Commit

/-!
# Every locked region is a sequence of moves

One lemma a region: run in a world that satisfies the invariant, it leads to the
node state that a few moves lead to, and changes the bag of frames as they do.
The moves of `handleAppendEntries` are the interesting ones. Its loop compares terms
entry by entry; on logs that the history accounts for this is `mergeLog`, and the
clamp of `leaderCommit` to the end of the log has no effect.
-/

namespace CrossMachine.Raft

open Lib

variable {n : Nat}

/-- What a region of `s` did to the world: the node, and the bag of frames. -/
def Does (w : World n) (s : Fin n) (nd : RaftNode n) (net : Multiset (Packet n)) : Prop :=
  ∃ w', Moves w w' ∧ w'.node = Function.update w.node s nd ∧ w'.net = net

variable {w : World n} {s p l : Fin n} {nd : RaftNode n} {rest : Multiset (Packet n)} {f : Frame n}
  {out : List LogEntry} {T pi pt lc : Nat} {es : List (Nat × Command)}

theorem Does.here : Does w s (w.node s) w.net :=
  ⟨w, .refl, (Function.update_eq_self s w.node).symm, rfl⟩

/-- A region may begin with moves at its own node. -/
theorem Does.move {w' : World n} {nd' : RaftNode n} {net : Multiset (Packet n)} (hm : Moves w w')
    (hnode : w'.node = Function.update w.node s nd') (h : Does w' s nd net) : Does w s nd net := by
  obtain ⟨w'', hm', hn, hnet⟩ := h
  refine ⟨w'', hm.trans hm', ?_, hnet⟩
  rw [hn, hnode, Function.update_idem]

/-- A region may end by forgetting the frame it was given, -/
theorem Does.drop {pkt : Packet n} (h : Does w s nd (pkt ::ₘ rest)) : Does w s nd rest := by
  obtain ⟨w', hm, hn, hnet⟩ := h
  have hle : rest ≤ w'.net := by rw [hnet]; exact Multiset.le_cons_self _ _
  exact ⟨_, hm.tail (.lose hle), hn, rfl⟩

/-- or by answering it with a refusal. -/
theorem Does.decline {pkt : Packet n} (h : Does w s nd (pkt ::ₘ rest)) (hsp : s ≠ p)
    (hf : f.Refusal) : Does w s nd (⟨s, p, f⟩ ::ₘ rest) := by
  obtain ⟨w', hm, hn, hnet⟩ := h
  have hboth : Does w s nd (pkt ::ₘ ⟨s, p, f⟩ ::ₘ rest) :=
    ⟨_, hm.tail (.refuse hsp hf), hn, by rw [hnet, Multiset.cons_swap]⟩
  exact hboth.drop

/-- Moves that leave `s` in state `nd` and the frames alone. -/
theorem Does.setNode {net : Multiset (Packet n)} (hm : Moves w (w.setNode s nd))
    (hnet : w.net = net) : Does w s nd net :=
  ⟨_, hm, rfl, hnet⟩

/-! ## Votes -/

theorem meetTerm_moves (w : World n) (s : Fin n) (T : Nat) :
    Moves w (w.setNode s (meetTerm (w.node s) T)) := by
  unfold meetTerm
  split
  · rename_i hlt
    exact .single (.bump hlt)
  · rw [World.setNode, Function.update_eq_self]

theorem startElection_does {out : List (Fin n × Frame n)}
    (h : startElection s (w.node s) = some (nd, out)) :
    Does w s nd ((out.map fun (p, f) => (⟨s, p, f⟩ : Packet n) : Multiset (Packet n)) + w.net) := by
  obtain ⟨last, hlast, ⟨hp, hlead, rfl⟩ | ⟨_, rfl, rfl⟩⟩ := startElection_cases h
  · -- a cluster of one: the self-vote is a majority
    have hn := length_peers s
    have hballots : World.ballotsOf s ((w.node s).currentTerm + 1) last = 0 := by
      rw [World.ballotsOf, List.length_eq_zero_iff.mp hp]; rfl
    refine Does.move (.single (.elect hlast)) rfl
      ⟨_, .single (.win ?_ ?_ ?_), rfl, ?_⟩ <;> dsimp only
    · rw [Function.update_self]; rfl
    · rw [Function.update_self]; show n < 1 * 2; omega
    · rw [Function.update_self]; exact hlead
    · rw [hballots]; rfl
  · refine ⟨_, .single (.elect hlast), rfl, ?_⟩
    rw [World.ballotsOf, List.map_map]; rfl

theorem handleRequestVote_does (hi : Inv w) {c : Fin n} {li lt : Nat}
    (hnet : w.net = ⟨p, s, .requestVote T c li lt⟩ ::ₘ rest)
    (h : handleRequestVote (w.node s) T c li lt = some (nd, f)) :
    Does w s nd (⟨s, p, f⟩ ::ₘ rest) := by
  have hmem : (⟨p, s, .requestVote T c li lt⟩ : Packet n) ∈ w.net := by
    rw [hnet]; exact Multiset.mem_cons_self _ _
  have hsp : s ≠ p := fun heq => hi.vote.distinct _ hmem heq.symm
  rcases handleRequestVote_cases h with ⟨rfl, rfl⟩ | ⟨hT, hfree, ⟨last, hlast, hok⟩, rfl, rfl⟩
  · exact (Does.setNode (meetTerm_moves w s T) hnet).decline hsp rfl
  · obtain rfl : c = p := (hi.vote.asks hmem).1
    refine Does.move (meetTerm_moves w s T) rfl ⟨_, .single (.grant hnet ?_ ?_ ?_ hok), ?_, rfl⟩
    · rw [World.setNode_self]; exact hT.symm
    · rw [World.setNode_self]; exact hfree
    · rw [World.setNode_self]; exact hlast
    · dsimp only; rw [World.setNode_self]

theorem handleRequestVoteResponse_does {g : Bool}
    (hnet : w.net = ⟨p, s, .requestVoteResp T g⟩ ::ₘ rest)
    (h : handleRequestVoteResponse s (w.node s) T g = some nd) : Does w s nd rest := by
  rcases handleRequestVoteResponse_cases h with ⟨hlt, rfl⟩ | ⟨_, rfl⟩ | ⟨hrole, hT, rfl, hcase⟩
  · exact (Does.setNode (.single (.bump hlt)) hnet).drop
  · exact (hnet ▸ Does.here (w := w)).drop
  · have hcount : Does w s { w.node s with votesGranted := (w.node s).votesGranted + 1 } rest :=
      ⟨_, .single (.count hnet hrole hT.symm), rfl, rfl⟩
    rcases hcase with rfl | ⟨hmaj, hlead⟩
    · exact hcount
    · obtain ⟨w', hm, hn, hnet'⟩ := hcount
      have hself : w'.node s = { w.node s with votesGranted := (w.node s).votesGranted + 1 } := by
        rw [hn, Function.update_self]
      refine Does.move hm hn ⟨_, .single (.win ?_ ?_ ?_), rfl, hnet'⟩ <;> rw [hself]
      · exact hrole
      · exact hmaj
      · exact hlead

/-! ## Replication -/

theorem meetLeader_moves (hmem : (⟨p, s, .appendEntries T l pi pt lc es⟩ : Packet n) ∈ w.net)
    (hT : (w.node s).currentTerm ≤ T) : Moves w (w.setNode s (meetLeader (w.node s) T l)) := by
  have hfollow : ∀ nd, Moves w (w.setNode s nd) →
      Moves w (w.setNode s { nd with leaderId := some l }) := by
    intro nd hm
    have hlast : Move (w.setNode s nd) ((w.setNode s nd).setNode s
        { (w.setNode s nd).node s with leaderId := some l }) := .follow
    rw [World.setNode_self, World.setNode, World.setNode, Function.update_idem] at hlast
    exact hm.tail hlast
  unfold meetLeader
  refine hfollow _ ?_
  split
  · rename_i hcase
    by_cases hlt : (w.node s).currentTerm < T
    · exact .single (.bump hlt)
    · exact .single (.stepDown hmem (Nat.le_antisymm hT (Nat.le_of_not_lt hlt))
        (hcase.resolve_left hlt))
  · rw [World.setNode, Function.update_eq_self]

theorem meetLeader_fields (hT : nd.currentTerm ≤ T) :
    (meetLeader nd T l).currentTerm = T ∧ (meetLeader nd T l).state = .follower ∧
      (meetLeader nd T l).log = nd.log ∧ (meetLeader nd T l).commitIndex = nd.commitIndex ∧
      (meetLeader nd T l).lastApplied = nd.lastApplied := by
  unfold meetLeader
  split
  · exact ⟨rfl, rfl, rfl, rfl, rfl⟩
  · rename_i hcase
    simp only [not_or, Decidable.not_not] at hcase
    exact ⟨Nat.le_antisymm hT (Nat.le_of_not_lt hcase.1), hcase.2, rfl, rfl, rfl⟩

/-- With everything committed already drained, there is nothing to drain. -/
theorem drain_idle {nd' : RaftNode n} (happ : nd.lastApplied = nd.commitIndex)
    (h : drain nd = some (nd', out)) : nd' = nd ∧ out = [] := by
  obtain ⟨rfl, _, hlen⟩ := drain_eq h
  refine ⟨?_, List.length_eq_zero_iff.mp (by rw [hlen, happ, Nat.sub_self])⟩
  rw [Nat.max_eq_left (Nat.le_of_eq happ.symm)]

/-- The test of `prevLogTerm` makes log and payload agree up to `prevLogIndex`. -/
theorem payload_take (hi : Inv w)
    (hmem : (⟨p, s, .appendEntries T l pi pt lc es⟩ : Packet n) ∈ w.net)
    (hprev : prevMatches (w.node s).log pi pt = true) :
    pi < (w.node s).log.length ∧
      (w.node s).log.take (pi + 1) = (w.hist.payloadLog T pi es.length).take (pi + 1) := by
  obtain ⟨hgood, _, hlen⟩ := hi.log.payload hi.vote hmem
  obtain ⟨_, ⟨prev, hprev', hpt⟩, _⟩ := hi.log.frames _ hmem
  obtain ⟨e, he, het⟩ : ∃ e, (w.node s).log[pi]? = some e ∧ e.term = pt := by
    unfold prevMatches at hprev
    split at hprev
    · rename_i e he
      exact ⟨e, he, by simpa using hprev⟩
    · exact absurd hprev (by simp)
  have heM : (w.hist.payloadLog T pi es.length)[pi]? = some prev := by
    rw [History.payloadLog, List.getElem?_take_of_lt (by omega)]; exact hprev'
  exact ⟨lt_length_of_getElem? he, (hi.log.logs s).matching hgood he heM (by rw [het, hpt])⟩

/-- The loop of `handleAppendEntries`, run on a payload in flight, is `mergeLog`. -/
theorem appendLoop_merge (hi : Inv w)
    (hmem : (⟨p, s, .appendEntries T l pi pt lc es⟩ : Packet n) ∈ w.net)
    (hprev : prevMatches (w.node s).log pi pt = true) :
    appendLoop (w.node s).log (pi + 1) (decodeEntries pi es)
      = mergeLog (w.node s).log (w.hist.payloadLog T pi es.length) := by
  obtain ⟨hgood, _⟩ := hi.log.payload hi.vote hmem
  obtain ⟨_, _, hdec⟩ := hi.log.frames _ hmem
  obtain ⟨hlt, htake⟩ := payload_take hi hmem hprev
  rw [hdec]
  exact appendLoop_eq (fun h₁ h₂ h₃ => (hi.log.logs s).entry_eq hgood h₁ h₂ h₃) htake hlt

/-- What a payload announces as committed lies within the merged log. -/
theorem leaderCommit_lt (hi : Inv w)
    (hmem : (⟨p, s, .appendEntries T l pi pt lc es⟩ : Packet n) ∈ w.net) :
    lc < (mergeLog (w.node s).log (w.hist.payloadLog T pi es.length)).length :=
  Nat.lt_of_lt_of_le (hi.commit.frames hmem).1 (payload_prefix_mergeLog _ _).length_le

/-- What the accepting branch makes of a payload in flight. -/
theorem acceptEntries_merge (hi : Inv w)
    (hmem : (⟨p, s, .appendEntries T l pi pt lc es⟩ : Packet n) ∈ w.net)
    (hprev : prevMatches (w.node s).log pi pt = true)
    (h : acceptEntries (w.node s) pi (decodeEntries pi es) lc = some nd) :
    nd = { w.node s with
      log := mergeLog (w.node s).log (w.hist.payloadLog T pi es.length)
      commitIndex := max (w.node s).commitIndex lc } := by
  have hlog := appendLoop_merge hi hmem hprev
  rcases acceptEntries_eq h with ⟨hlt, last, hlast, rfl⟩ | ⟨hlt, rfl⟩
  · -- the payload reaches the leader's commit index, so the clamp does nothing
    rw [hlog] at hlast ⊢
    have hend := ((hi.log.logs s).mergeLog_good (hi.log.payload hi.vote hmem).1).last hlast
    have hlc := leaderCommit_lt hi hmem
    rw [Nat.min_eq_left (show lc ≤ last.index by omega), Nat.max_eq_right (Nat.le_of_lt hlt)]
  · rw [hlog, Nat.max_eq_left (Nat.le_of_not_lt hlt)]

/-- The same, for a node that has just met the leader. -/
theorem acceptEntries_meet (hi : Inv w)
    (hmem : (⟨p, s, .appendEntries T l pi pt lc es⟩ : Packet n) ∈ w.net)
    (hT : (w.node s).currentTerm ≤ T) (hprev : prevMatches (w.node s).log pi pt = true)
    (h : acceptEntries (meetLeader (w.node s) T l) pi (decodeEntries pi es) lc = some nd) :
    nd = { meetLeader (w.node s) T l with
      log := mergeLog (w.node s).log (w.hist.payloadLog T pi es.length)
      commitIndex := max (w.node s).commitIndex lc } := by
  obtain ⟨_, _, hlog, hci, _⟩ := meetLeader_fields (l := l) hT
  obtain ⟨hi₁, _⟩ := inv_moves hi (meetLeader_moves hmem hT)
  have hself : (w.setNode s (meetLeader (w.node s) T l)).node s = meetLeader (w.node s) T l :=
    World.setNode_self ..
  have hnd := acceptEntries_merge hi₁ hmem (by rw [hself, hlog]; exact hprev)
    (by rw [hself]; exact h)
  rw [hself] at hnd
  rw [hnd, hlog, hci]
  rfl

theorem handleAppendEntries_does (hi : Inv w)
    (hnet : w.net = ⟨p, s, .appendEntries T l pi pt lc es⟩ ::ₘ rest)
    (h : handleAppendEntries (w.node s) T l pi pt (decodeEntries pi es) lc = some (nd, out, f)) :
    Does w s nd (⟨s, p, f⟩ ::ₘ rest) := by
  have hmem : (⟨p, s, .appendEntries T l pi pt lc es⟩ : Packet n) ∈ w.net := by
    rw [hnet]; exact Multiset.mem_cons_self _ _
  have hsp : s ≠ p := fun heq => hi.vote.distinct _ hmem heq.symm
  rcases handleAppendEntries_cases h with
    ⟨hlt, rfl, rfl, rfl⟩ | ⟨hT, hprev, hdrain, rfl⟩ | ⟨hT, hprev, nd₁, hacc, hdrain, rfl⟩
  · exact (hnet ▸ Does.here (w := w)).decline hsp rfl
  · obtain ⟨_, _, _, hci, hla⟩ := meetLeader_fields (l := l) hT
    obtain ⟨rfl, rfl⟩ := drain_idle (by rw [hla, hci]; exact hi.commit.applied s) hdrain
    exact (Does.setNode (meetLeader_moves hmem hT) hnet).decline hsp rfl
  · obtain ⟨hterm, hrole, hlog, hci, hla⟩ := meetLeader_fields (l := l) hT
    have hself : (w.setNode s (meetLeader (w.node s) T l)).node s = meetLeader (w.node s) T l :=
      World.setNode_self ..
    have hnd₁ := acceptEntries_meet hi hmem hT (by rw [← hlog]; exact hprev) hacc
    obtain ⟨rfl, _⟩ := drain_eq hdrain
    have hboth : Does w s { nd₁ with lastApplied := max nd₁.lastApplied nd₁.commitIndex }
        (⟨p, s, .appendEntries T l pi pt lc es⟩ ::ₘ
          ⟨s, p, .appendEntriesResp nd₁.currentTerm true (pi + es.length)⟩ ::ₘ rest) := by
      refine Does.move (meetLeader_moves hmem hT) rfl
        ⟨_, .single (.accept hmem ?_ ?_ ?_), ?_, ?_⟩
      · rw [hself]; exact hterm
      · rw [hself]; exact hrole
      · rw [hself]; exact hprev
      · rw [hnd₁, hself]
        dsimp only
        rw [hlog, hla, hci, hi.commit.applied s, ← Nat.max_assoc, Nat.max_self]
        rfl
      · dsimp only
        rw [hnd₁, hterm, Multiset.cons_swap]
        show _ ::ₘ w.net = _
        rw [hnet]
    rw [decodeEntries_length]
    exact hboth.drop

theorem handleAppendEntriesResponse_does (hi : Inv w) {m : Nat} {ok : Bool}
    (hnet : w.net = ⟨p, s, .appendEntriesResp T ok m⟩ ::ₘ rest)
    (h : handleAppendEntriesResponse s (w.node s) p T ok m = some (nd, out)) :
    Does w s nd rest := by
  have hmem : (⟨p, s, .appendEntriesResp T ok m⟩ : Packet n) ∈ w.net := by
    rw [hnet]; exact Multiset.mem_cons_self _ _
  rcases handleAppendEntriesResponse_cases h with
    ⟨hlt, rfl, _⟩ | ⟨_, rfl, _⟩ | ⟨hlead, hT, rfl, nd₁, hadv, hdrain⟩ | ⟨hlead, _, _, hnext, _, rfl⟩
  · exact (Does.setNode (.single (.bump hlt)) hnet).drop
  · exact (hnet ▸ Does.here (w := w)).drop
  · have happ := hi.commit.applied s
    have hm : Moves w (w.setNode s (setPeer (w.node s) p
        { nextIndex := m + 1, matchIndex := max ((w.node s).peerState p).matchIndex m })) :=
      .single (.confirm hmem hlead hT.symm)
    rcases advanceCommitIndex_cases hadv with rfl | ⟨k, e, hk, he, hterm, hmaj, rfl⟩
    · obtain ⟨rfl, _⟩ := drain_idle (by exact happ) hdrain
      exact (Does.setNode hm hnet).drop
    · obtain ⟨rfl, _⟩ := drain_eq hdrain
      have hla : max (w.node s).lastApplied k = k := by
        have hk' : (w.node s).commitIndex < k := hk
        omega
      refine Does.drop (Does.move hm rfl
        ⟨_, .single (.commit (s := s) (k := k) (e := e) ?_ ?_ ?_ ?_ ?_), ?_, hnet⟩)
      · rw [World.setNode_self]; exact hlead
      · rw [World.setNode_self]; exact hk
      · rw [World.setNode_self]; exact he
      · rw [World.setNode_self]; exact hterm
      · rw [World.setNode_self]; exact hmaj
      · rw [World.setNode_self]
        dsimp only [setPeer]
        rw [hla]; rfl
  · exact (Does.setNode (.single (.backoff hlead hnext)) hnet).drop

/-- **Handling a frame is a sequence of moves**, whatever the frame. -/
theorem receive_does (hi : Inv w) (hnet : w.net = ⟨p, s, f⟩ ::ₘ rest) {reply : Option (Frame n)}
    (h : receive s (w.node s) p f = some (nd, out, reply)) :
    Does w s nd
      (((reply.map fun r => (⟨s, p, r⟩ : Packet n)).toList : Multiset (Packet n)) + rest) := by
  cases receives_of_receive h with
  | requestVote hr =>
      exact handleRequestVote_does hi hnet hr
  | requestVoteResp hr =>
      rw [Option.map_none, Option.toList_none, Multiset.coe_nil, Multiset.zero_add]
      exact handleRequestVoteResponse_does hnet hr
  | appendEntries hr =>
      exact handleAppendEntries_does hi hnet hr
  | appendEntriesResp hr =>
      rw [Option.map_none, Option.toList_none, Multiset.coe_nil, Multiset.zero_add]
      exact handleAppendEntriesResponse_does hi hnet hr

/-- A leader sends everything above `nextIndex - 1`. -/
theorem sendAppendEntriesTo_does (hi : Inv w) {q : Fin n} (hsq : s ≠ q)
    (h : sendAppendEntriesTo s (w.node s) q = some (some f)) :
    Does w s (w.node s) (⟨s, q, f⟩ ::ₘ w.net) := by
  obtain ⟨hlead, pi, prev, last, _, hprev, hlast, rfl⟩ := sendAppendEntriesTo_cases h
  have hend := (hi.log.logs s).last hlast
  rw [List.take_of_length_le (by rw [List.length_drop]; omega)]
  exact ⟨_, .single (.send hsq hlead hprev), (Function.update_eq_self s w.node).symm, rfl⟩

/-! ## Client requests -/

/-- A leader's `propose` records the entry in the log of its term. -/
theorem proposeRegion_moves (hi : Inv w) {c : Command} {e : LogEntry}
    (h : proposeRegion (w.node s) c = some (nd, some e)) :
    ∃ w', Moves w w' ∧ w'.node = Function.update w.node s nd ∧ w'.net = w.net ∧
      1 ≤ e.index ∧ (w'.hist.leaderLog e.term)[e.index]? = some e := by
  rcases proposeRegion_cases h with ⟨_, _, hr⟩ | ⟨hlead, last, e', hlast, he', rfl, hr⟩
  · exact absurd hr (by simp)
  · obtain rfl := Option.some.inj hr
    have hend := (hi.log.logs s).last hlast
    have hterm : e.term = (w.node s).currentTerm := by rw [he']
    have hidx : e.index = (w.node s).log.length := by rw [he']; exact hend
    refine ⟨_, .single (.append hlead hterm hidx), rfl, rfl, ?_, ?_⟩
    · rw [hidx]; exact (hi.log.logs s).length_pos
    dsimp only
    rw [hterm, Function.update_self, hidx, List.getElem?_concat_length]

end CrossMachine.Raft
