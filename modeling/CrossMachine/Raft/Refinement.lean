import CrossMachine.Lib.Instances
import CrossMachine.Raft.Mapping

/-!
# `Raft.tla` simulates the covered steps

Handler by handler: a covered frame is handled by one action of the specification, or by
two where the code does in one region what the specification does in two (`BecomeLeader`
after the last vote, `AdvanceCommitIndex` after a confirmation). `Simulates` says what
this amounts to over all reachable states.

The last section shows that the conditions are not for convenience: without them there
is no simulation at all, whatever the relation between the two.
-/

namespace CrossMachine.Raft

open Lib Tla

variable {n : Nat}

/-! ## Handling a frame -/

variable {rest : Multiset (Packet n)} {s c chosen p l : Fin n} {v : Vars n} {T pi pt lc : Nat}
  {w : World n} {nd nd' : RaftNode n} {f : Frame n} {es : List (Nat × Command)}
  {out : List LogEntry}

/-- A frame that takes the place of another brings no new ballot. -/
theorem ballots_replace {request reply : Packet n}
    (h : ∀ T c v, reply.isBallot T c v = true → request.isBallot T c v = true) (T : Nat)
    (c v : Fin n) : ballotsIn (reply ::ₘ rest) T c v ≤ ballotsIn (request ::ₘ rest) T c v := by
  rw [ballotsIn_cons, ballotsIn_cons]
  by_cases hr : reply.isBallot T c v = true
  · rw [if_pos hr, if_pos (h T c v hr)]
  · rw [if_neg hr]
    omega

/-- An answer takes the place of the request it answers. -/
theorem isBallot_answer {c₀ c' v : Fin n} {T' li lt : Nat} {g : Bool}
    (h : (⟨s, c, .requestVoteResp T g⟩ : Packet n).isBallot T' c' v = true) :
    (⟨c, s, .requestVote T c₀ li lt⟩ : Packet n).isBallot T' c' v = true := by
  cases g with
  | true =>
      obtain ⟨hs, hc, hT⟩ := of_decide_eq_true h
      exact decide_eq_true ⟨hc, hs, hT⟩
  | false => exact absurd h (by simp [Packet.isBallot])

/-- A vote on its way to its candidate stands alone. -/
theorem sole_ballot (hi : Inv w) (p s : Fin n) (T : Nat) :
    Sole w.net ⟨p, s, .requestVoteResp T true⟩ := by
  refine Nat.le_trans ?_ (hi.vote.ballots T s p)
  rw [World.ballots, Multiset.countP_eq_card_filter, Multiset.countP_eq_card_filter]
  refine Multiset.card_le_card (Multiset.monotone_filter_right _ fun pkt heq => ?_)
  obtain ⟨p', s', f⟩ := pkt
  cases f with
  | requestVoteResp T' g =>
      obtain ⟨rfl, rfl, rfl, rfl⟩ := Message.requestVoteResponse.inj heq
      simp [Packet.isBallot]
  | requestVote => exact absurd heq (by simp [Packet.toMessage])
  | appendEntries => exact absurd heq (by simp [Packet.toMessage])
  | appendEntriesResp => exact absurd heq (by simp [Packet.toMessage])

theorem mapped_requestVote (hi : Inv w) (hmap : Mapped w.node w.net v) {li lt : Nat}
    (hnet : w.net = ⟨p, s, .requestVote T c li lt⟩ ::ₘ rest)
    (hcov : CoveredFrame chosen w.net s p (w.node s) (.requestVote T c li lt))
    (h : handleRequestVote (w.node s) T c li lt = some (nd, f)) :
    ∃ v', Next chosen v v' ∧ Mapped (Function.update w.node s nd) (⟨s, p, f⟩ ::ₘ rest) v' := by
  obtain ⟨rfl, hT, hsole, hvote⟩ := hcov
  have hmem : (⟨p, s, .requestVote T c li lt⟩ : Packet n) ∈ w.net := by
    rw [hnet]; exact Multiset.mem_cons_self _ _
  obtain rfl : c = p := (hi.vote.asks hmem).1
  have hs := hmap.nodes s
  have hL := hi.log.logs s
  obtain ⟨last, hlast⟩ := hL.exists_last
  rw [handleRequestVote_eq hT hlast] at h
  cases h
  rw [hlast, Option.any_some] at hvote
  -- the two give the vote in the same cases, and otherwise keep the same one
  have hgrant : grant v s c T lt li ↔ ((meetTerm (w.node s) T).votedFor = none ∨
      (meetTerm (w.node s) T).votedFor = some c) ∧ logOk last li lt = true := by
    rw [grant, hs.currentTerm, hs.log, voteLogOk_iff hL hlast, hs.votedFor]
    unfold meetTerm
    split
    · rename_i hlt
      rcases hvote hlt with hnone | ⟨hsome, hok⟩
      · simp [hT, hnone, becomeFollower]
      · simp [hT, hsome, hok, becomeFollower]
    · simp [hT, and_comm]
  have hkept : ¬ grant v s c T lt li → (meetTerm (w.node s) T).votedFor = v.votedFor s := by
    intro hno
    rw [hgrant] at hno
    rw [hs.votedFor]
    unfold meetTerm at hno ⊢
    split
    · rename_i hlt
      rw [if_pos hlt] at hno
      rcases hvote hlt with hnone | ⟨_, hok⟩
      · rw [hnone]; rfl
      · exact absurd ⟨Or.inl rfl, hok⟩ hno
    · rfl
  obtain ⟨hterm, hstate, hlog, hci, hpeers, hvotes⟩ := meetTerm_fields hT
  -- a node that is still leader or candidate afterwards has not met a higher term
  have hsame : (meetTerm (w.node s) T).state ≠ .follower →
      (w.node s).state = (meetTerm (w.node s) T).state ∧ (w.node s).currentTerm = T := by
    intro hrole
    rw [hstate] at hrole ⊢
    split at hrole
    · exact absurd rfl hrole
    · rename_i hlt
      rw [if_neg hlt]
      exact ⟨rfl, by omega⟩
  refine ⟨_, .handle (.requestVoteRequest c T lt li) (hmap.messages _ hmem) ⟨?_, rfl⟩,
    hmap.at ?_ ?_ ?_ ?_ ?_⟩
  · rw [hs.currentTerm]; exact hT
  · exact
      { state := by
          show Function.update v.state s _ s = (meetTerm (w.node s) T).state
          rw [Function.update_self, hs.currentTerm, hs.state, hstate]
        currentTerm := by
          show Function.update v.currentTerm s _ s = (meetTerm (w.node s) T).currentTerm
          rw [Function.update_self, hterm]
        votedFor := by
          show Function.update v.votedFor s _ s = _
          rw [Function.update_self]
          by_cases hg : grant v s c T lt li
          · rw [if_pos hg, if_pos (hgrant.mp hg)]
          · rw [if_neg hg, if_neg fun hc => hg (hgrant.mpr hc), hkept hg]
        log := by rw [hs.log, hlog]
        commitIndex := by rw [hs.commitIndex, hci]
        nextIndex := fun hl q => by
          rw [hpeers]
          exact hs.nextIndex ((hsame (by rw [hl]; simp)).1.trans hl) q
        matchIndex := fun hl q => by
          rw [hpeers]
          exact hs.matchIndex ((hsame (by rw [hl]; simp)).1.trans hl) q
        votesGranted := fun hc => by
          rw [hvotes]
          exact hs.votesGranted ((hsame (by rw [hc]; simp)).1.trans hc) }
  · intro t hts
    exact ⟨Function.update_of_ne hts .., Function.update_of_ne hts .., Function.update_of_ne hts ..,
      rfl, rfl, rfl, rfl, rfl⟩
  · intro pkt hpkt
    rcases Multiset.mem_cons.mp hpkt with rfl | hold
    · refine Or.inl ?_
      show Message.requestVoteResponse _ _ _ _ = _
      rw [decide_eq_decide.mpr hgrant]
    · exact Or.inr (messages_remove hmap.messages hnet hsole pkt hold)
  · intro t q T' _
    rw [hnet]
    exact ballots_replace (fun _ _ _ => isBallot_answer) T' t q
  · intro q hc hq
    have hcand := hsame (by rw [hc]; simp)
    have hzero := hmap.counted (hcand.1.trans hc) hq
    rw [hcand.2, hnet] at hzero
    show ballotsIn _ (meetTerm (w.node s) T).currentTerm s q = 0
    rw [hterm]
    exact Nat.le_zero.mp (hzero ▸ ballots_replace (fun _ _ _ => isBallot_answer) T s q)

theorem mapped_requestVoteResp (hi : Inv w) (hmap : Mapped w.node w.net v) {g : Bool}
    (hnet : w.net = ⟨p, s, .requestVoteResp T g⟩ ::ₘ rest)
    (hcov : CoveredFrame chosen w.net s p (w.node s) (.requestVoteResp T g))
    (h : handleRequestVoteResponse s (w.node s) T g = some nd) :
    ∃ v', Steps chosen v v' ∧ Mapped (Function.update w.node s nd) rest v' := by
  have hrest : rest ≤ w.net := by rw [hnet]; exact Multiset.le_cons_self _ _
  rcases handleRequestVoteResponse_cases h with ⟨hlt, _⟩ | ⟨_, rfl⟩ | ⟨hcand, hT, rfl, hcase⟩
  · exact absurd hlt (Nat.not_lt.mpr hcov)
  · rw [Function.update_eq_self]
    exact ⟨v, .refl, hmap.lose hrest⟩
  · have hs := hmap.nodes s
    have hmem : (⟨p, s, .requestVoteResp T true⟩ : Packet n) ∈ w.net := by
      rw [hnet]; exact Multiset.mem_cons_self _ _
    have hballot : (⟨p, s, .requestVoteResp T true⟩ : Packet n).isBallot T s p = true := by
      simp [Packet.isBallot]
    -- the answer is the only ballot of `p`, so it is not counted yet and leaves none behind
    have hlast : ballotsIn rest T s p = 0 := by
      have hone : ballotsIn w.net T s p ≤ 1 := hi.vote.ballots T s p
      rw [hnet, ballotsIn_cons, if_pos hballot] at hone
      omega
    have hnew : p ∉ v.votesGranted s := by
      intro hp
      have hzero := hmap.counted hcand hp
      rw [← hT, hnet, ballotsIn_cons, if_pos hballot] at hzero
      omega
    have hcount : Mapped (Function.update w.node s
        { w.node s with votesGranted := (w.node s).votesGranted + 1 }) rest
        { v with
          votesGranted := Function.update v.votesGranted s (insert p (v.votesGranted s))
          messages := v.messages \ {.requestVoteResponse p s T true} } := by
      refine hmap.at ?_ ?_ ?_ ?_ ?_
      · refine { hs with votesGranted := fun _ => ?_ }
        show (Function.update v.votesGranted s _ s).card = _
        rw [Function.update_self, Finset.card_insert_of_notMem hnew, hs.votesGranted hcand]
      · intro t hts
        exact ⟨rfl, rfl, rfl, rfl, rfl, rfl, rfl, Function.update_of_ne hts ..⟩
      · exact messages_remove hmap.messages hnet (sole_ballot hi p s T)
      · exact fun t q T' _ => ballotsIn_mono hrest T' t q
      · intro q _ hq
        change q ∈ Function.update v.votesGranted s _ s at hq
        rw [Function.update_self] at hq
        show ballotsIn rest (w.node s).currentTerm s q = 0
        rcases Finset.mem_insert.mp hq with rfl | hold
        · rw [← hT]; exact hlast
        · exact Nat.le_zero.mp ((hmap.counted hcand hold) ▸ ballotsIn_mono hrest _ _ _)
    have hstep : Next chosen v _ := .handle (.requestVoteResponse p s T true)
      (hmap.messages _ hmem) ⟨hT.trans hs.currentTerm.symm, hs.state.trans hcand, rfl⟩
    rcases hcase with rfl | ⟨hmaj, hlead⟩
    · exact ⟨_, .single hstep, hcount⟩
    · have hself : Function.update w.node s
          { w.node s with votesGranted := (w.node s).votesGranted + 1 } s
            = { w.node s with votesGranted := (w.node s).votesGranted + 1 } :=
        Function.update_self ..
      obtain ⟨v', hwin, hmap'⟩ := mapped_win chosen (s := s) (h := w.hist) hcount
        (by rw [hself]; exact hi.log.logs s) (by rw [hself]; exact hcand)
        (by rw [hself]; exact hmaj) (by rw [hself]; exact hlead)
      rw [Function.update_idem] at hmap'
      exact ⟨v', .tail (.single hstep) hwin, hmap'⟩

/-- Numbering the entries of a frame adds nothing the specification sees. -/
theorem decodeEntries_spec (k : Nat) (es : List (Nat × Command)) :
    (decodeEntries k es).map specEntry = es.map fun e => { term := e.1, value := e.2 } := by
  induction es generalizing k with
  | nil => rfl
  | cons e es ih => rw [decodeEntries, List.map_cons, ih, List.map_cons]; rfl

/-- The two tests of `prevLogTerm` agree on a frame in flight. -/
theorem appendLogOk_iff (hi : Inv w)
    (hmem : (⟨p, s, .appendEntries T l pi pt lc es⟩ : Packet n) ∈ w.net) :
    appendLogOk (specLog (w.node s).log) pi pt ↔ prevMatches (w.node s).log pi pt = true := by
  have hL := hi.log.logs s
  rw [appendLogOk, prevTerm_specLog hL]
  have htest : prevMatches (w.node s).log pi pt = true ↔
      (w.node s).log[pi]?.map LogEntry.term = some pt := by
    unfold prevMatches
    split
    · rename_i e he
      rw [he]
      simp
    · rename_i he
      rw [he]
      simp
  rw [htest]
  refine ⟨?_, Or.inr⟩
  rintro (rfl | hok)
  · -- before the first entry there is the sentinel, on both sides
    obtain ⟨hgood, _, hlen⟩ := hi.log.payload hi.vote hmem
    obtain ⟨_, ⟨prev, hprev, hpt⟩, _⟩ := hi.log.frames _ hmem
    have hsent := hgood.head
    rw [History.payloadLog, List.getElem?_take_of_lt (by omega), hprev] at hsent
    rw [hL.head, ← hpt, Option.some.inj hsent]
    rfl
  · exact hok

/-- The log after a covered payload: what was there up to `prevLogIndex`, and the payload. -/
theorem mergeLog_covered (hi : Inv w)
    (hmem : (⟨p, s, .appendEntries T l pi pt lc es⟩ : Packet n) ∈ w.net)
    (hprev : prevMatches (w.node s).log pi pt = true)
    (hfits : decodeEntries pi es <+: (w.node s).log.drop (pi + 1) →
      (w.node s).log.length ≤ pi + 1 + es.length) :
    specLog (mergeLog (w.node s).log (w.hist.payloadLog T pi es.length))
      = (specLog (w.node s).log).take pi ++ es.map fun e => { term := e.1, value := e.2 } := by
  obtain ⟨_, _, hlen⟩ := hi.log.payload hi.vote hmem
  obtain ⟨_, _, hdec⟩ := hi.log.frames _ hmem
  obtain ⟨_, htake⟩ := payload_take hi hmem hprev
  have hmerge : mergeLog (w.node s).log (w.hist.payloadLog T pi es.length)
      = w.hist.payloadLog T pi es.length := by
    unfold mergeLog
    split
    · rename_i hML
      -- nothing follows the payload, so it is the whole log
      refine (hML.eq_of_length_le ?_).symm
      rw [hlen]
      exact hfits (hdec ▸ hML.drop (pi + 1))
    · rfl
  rw [hmerge, ← List.take_append_drop (pi + 1) (w.hist.payloadLog T pi es.length), ← hdec,
    ← htake, specLog_append, specLog_take, decodeEntries_spec]
  rw [← List.length_pos_iff, List.length_take]
  have := (hi.log.logs s).length_pos
  omega

theorem mapped_appendEntries (hi : Inv w) (hmap : Mapped w.node w.net v)
    (hnet : w.net = ⟨p, s, .appendEntries T l pi pt lc es⟩ ::ₘ rest)
    (hcov : CoveredFrame chosen w.net s p (w.node s) (.appendEntries T l pi pt lc es))
    (h : handleAppendEntries (w.node s) T l pi pt (decodeEntries pi es) lc = some (nd, out, f)) :
    ∃ v', Next chosen v v' ∧ Mapped (Function.update w.node s nd) (⟨s, p, f⟩ ::ₘ rest) v' := by
  obtain ⟨hT, hsole, hvote, hfits⟩ := hcov
  have hmem : (⟨p, s, .appendEntries T l pi pt lc es⟩ : Packet n) ∈ w.net := by
    rw [hnet]; exact Multiset.mem_cons_self _ _
  have hs := hmap.nodes s
  obtain ⟨hterm, hrole, hlog, hci, _⟩ := meetLeader_fields (l := l) hT
  have hvoted : (meetLeader (w.node s) T l).votedFor = (w.node s).votedFor := by
    unfold meetLeader
    split
    · rename_i hcase; exact (hvote hcase).symm
    · rfl
  have hok := appendLogOk_iff hi hmem
  rw [← hs.log] at hok
  have hlc : lc ≤ pi + es.length := by
    have hlt := (hi.commit.frames hmem).1
    rw [(hi.log.payload hi.vote hmem).2.2] at hlt
    omega
  -- neither frame is a ballot, and `s` is a follower afterwards
  have hballots : ∀ {m : Nat} {ok : Bool} (t q : Fin n) (T' : Nat),
      ballotsIn (⟨s, p, .appendEntriesResp T ok m⟩ ::ₘ rest) T' t q ≤ ballotsIn w.net T' t q := by
    intro m ok t q T'
    rw [hnet]
    exact ballots_replace (by simp [Packet.isBallot]) T' t q
  have hmsgs : ∀ {m : Nat} {ok : Bool},
      ∀ pkt ∈ (⟨s, p, .appendEntriesResp T ok m⟩ ::ₘ rest : Multiset (Packet n)),
        pkt.toMessage ∈ insert (Message.appendEntriesResponse s p T ok m) (v.messages \
          {.appendEntriesRequest p s T pi pt
            (es.map fun e => { term := e.1, value := e.2 }) lc}) := by
    intro m ok pkt hpkt
    rcases Multiset.mem_cons.mp hpkt with rfl | hold
    · exact Or.inl rfl
    · exact Or.inr (messages_remove hmap.messages hnet hsole pkt hold)
  have hother : ∀ {v' : Vars n} (t : Fin n), t ≠ s →
      v'.state = Function.update v.state s .follower →
      v'.currentTerm = Function.update v.currentTerm s T → v'.votedFor = v.votedFor →
      v'.log t = v.log t → v'.commitIndex t = v.commitIndex t → v'.nextIndex = v.nextIndex →
      v'.matchIndex = v.matchIndex → v'.votesGranted = v.votesGranted → Untouched t v v' := by
    intro v' t hts h₁ h₂ h₃ h₄ h₅ h₆ h₇ h₈
    refine ⟨?_, ?_, by rw [h₃], h₄, h₅, by rw [h₆], by rw [h₇], by rw [h₈]⟩
    · rw [h₁]; exact Function.update_of_ne hts ..
    · rw [h₂]; exact Function.update_of_ne hts ..
  rcases handleAppendEntries_cases h with
    ⟨hlt, _⟩ | ⟨_, hprev, hdrain, rfl⟩ | ⟨_, hprev, nd₁, hacc, hdrain, rfl⟩
  · omega
  · obtain ⟨rfl, _⟩ := drain_eq hdrain
    rw [hlog] at hprev
    refine ⟨_, .handle _ (hmap.messages _ hmem) ⟨?_, rfl⟩, ?_⟩
    · rw [hs.currentTerm]; exact hT
    · show Mapped _ (⟨s, p, .appendEntriesResp (meetLeader (w.node s) T l).currentTerm false 0⟩
        ::ₘ rest) _
      rw [hterm, if_neg (by rw [hok, hprev]; simp)]
      refine hmap.at (.follower ?_ hrole) ?_ hmsgs (fun t q T' _ => hballots t q T') ?_
      · exact
          { state := (Function.update_self ..).trans hrole.symm
            currentTerm := Function.update_self ..
            votedFor := hs.votedFor.trans hvoted.symm
            log := by rw [hlog]; exact hs.log
            commitIndex := by rw [hci]; exact hs.commitIndex }
      · exact fun t hts => hother t hts rfl rfl rfl rfl rfl rfl rfl rfl
      · intro q hc
        exact absurd (hrole.symm.trans hc) (by simp)
  · rw [hlog] at hprev
    have hnd₁ := acceptEntries_meet hi hmem hT hprev hacc
    obtain ⟨rfl, _⟩ := drain_eq hdrain
    subst hnd₁
    refine ⟨_, .handle _ (hmap.messages _ hmem) ⟨?_, rfl⟩, ?_⟩
    · rw [hs.currentTerm]; exact hT
    · show Mapped _ (⟨s, p, .appendEntriesResp (meetLeader (w.node s) T l).currentTerm true
        (pi + (decodeEntries pi es).length)⟩ ::ₘ rest) _
      rw [hterm, decodeEntries_length, if_pos (hok.mpr hprev), List.length_map]
      refine hmap.at (.follower ?_ hrole) ?_ hmsgs (fun t q T' _ => hballots t q T') ?_
      · exact
          { state := (Function.update_self ..).trans hrole.symm
            currentTerm := Function.update_self ..
            votedFor := hs.votedFor.trans hvoted.symm
            log := by
              show Function.update v.log s _ s = _
              rw [Function.update_self, hs.log, mergeLog_covered hi hmem hprev (hfits hprev)]
            commitIndex := by
              show Function.update v.commitIndex s _ s = max (w.node s).commitIndex lc
              rw [Function.update_self, hs.commitIndex]
              split <;> omega }
      · exact fun t hts => hother t hts rfl rfl rfl (Function.update_of_ne hts ..)
          (Function.update_of_ne hts ..) rfl rfl rfl
      · intro q hc
        exact absurd (hrole.symm.trans hc) (by simp)

theorem mapped_commit (chosen : Fin n) {node : Fin n → RaftNode n} {net : Multiset (Packet n)}
    (hmap : Mapped node net v) (hlead : (node s).state = .leader)
    (hself : ((node s).peerState s).matchIndex = 0) {k : Nat} {e : LogEntry}
    (hk : (node s).commitIndex < k) (he : (node s).log[k]? = some e)
    (hterm : e.term = (node s).currentTerm) (hmaj : n < replicaCount (node s) k * 2) :
    ∃ v', Next chosen v v' ∧
      Mapped (Function.update node s { node s with commitIndex := k }) net v' := by
  have hs := hmap.nodes s
  obtain ⟨i, rfl⟩ : ∃ i, k = i + 1 := ⟨k - 1, by omega⟩
  have hget : (v.log s)[i]? = some (specEntry e) := by
    rw [hs.log, specLog_getElem?, he]
    rfl
  have hquorum : Quorum (insert s (Finset.univ.filter fun t => i + 1 ≤ v.matchIndex s t)) := by
    simp only [hs.matchIndex hlead]
    exact majority_of_replicaCount (Nat.succ_pos i) hself hmaj
  refine ⟨_, .advanceCommitIndex s ⟨hs.state.trans hlead, i + 1, ?_, lt_length_of_getElem? hget, ?_,
    hquorum, rfl⟩, hmap.at ?_ ?_ hmap.messages (fun _ _ _ _ => le_rfl) ?_⟩
  · rw [hs.commitIndex]; exact hk
  · rw [Nat.add_sub_cancel, hget, hs.currentTerm, ← hterm]; rfl
  · exact { hs with commitIndex := Function.update_self .. }
  · intro t hts
    exact ⟨rfl, rfl, rfl, rfl, Function.update_of_ne hts .., rfl, rfl, rfl⟩
  · intro q hc
    exact absurd (hlead.symm.trans hc) (by simp)

/-- A leader notes an answer: the slot of `p` in the two tables. -/
theorem mapped_setPeer (hmap : Mapped w.node w.net v) (hrest : rest ≤ w.net)
    (hlead : (w.node s).state = .leader) (ps : PeerRpcState) {M : Set (Message n)}
    (hmsgs : ∀ pkt ∈ rest, pkt.toMessage ∈ M) :
    Mapped (Function.update w.node s (setPeer (w.node s) p ps)) rest
      { v with
        nextIndex := Function.update v.nextIndex s
          (Function.update (v.nextIndex s) p ps.nextIndex)
        matchIndex := Function.update v.matchIndex s
          (Function.update (v.matchIndex s) p ps.matchIndex)
        messages := M } := by
  have hs := hmap.nodes s
  have hslot : ∀ {β : Type} (f : PeerRpcState → β) (g : Fin n → β),
      (∀ q, g q = f ((w.node s).peerState q)) → ∀ q,
      Function.update g p (f ps) q = f ((setPeer (w.node s) p ps).peerState q) := by
    intro β f g hg q
    show _ = f (Function.update (w.node s).peerState p ps q)
    by_cases hqp : q = p
    · subst hqp; rw [Function.update_self, Function.update_self]
    · rw [Function.update_of_ne hqp, Function.update_of_ne hqp, hg]
  refine hmap.at ?_ ?_ hmsgs (fun t q T _ => ballotsIn_mono hrest T t q) ?_
  · refine { hs with nextIndex := fun _ => ?_, matchIndex := fun _ => ?_ }
    · show ∀ q, Function.update v.nextIndex s _ s q = _
      rw [Function.update_self]
      exact hslot PeerRpcState.nextIndex _ (hs.nextIndex hlead)
    · show ∀ q, Function.update v.matchIndex s _ s q = _
      rw [Function.update_self]
      exact hslot PeerRpcState.matchIndex _ (hs.matchIndex hlead)
  · intro t hts
    exact ⟨rfl, rfl, rfl, rfl, rfl, Function.update_of_ne hts .., Function.update_of_ne hts .., rfl⟩
  · intro q hc
    exact absurd (hlead.symm.trans hc) (by simp)

/-- Draining is invisible to the specification. -/
theorem mapped_drain {node : Fin n → RaftNode n} {net : Multiset (Packet n)}
    (hmap : Mapped (Function.update node s nd) net v) (hdrain : drain nd = some (nd', out)) :
    Mapped (Function.update node s nd') net v := by
  obtain ⟨rfl, _⟩ := drain_eq hdrain
  have hs := hmap.nodes s
  rw [Function.update_self] at hs
  have hdrained : Mapped (Function.update (Function.update node s nd) s
      { nd with lastApplied := max nd.lastApplied nd.commitIndex }) net v := by
    refine hmap.at { hs with } (fun _ _ => ⟨rfl, rfl, rfl, rfl, rfl, rfl, rfl, rfl⟩) hmap.messages
      (fun _ _ _ _ => le_rfl) ?_
    intro p hc hp
    have hzero := hmap.counted (s := s) (p := p)
    rw [Function.update_self] at hzero
    exact hzero hc hp
  rwa [Function.update_idem] at hdrained

theorem mapped_appendEntriesResp (hi : Inv w) (hmap : Mapped w.node w.net v) {m : Nat} {ok : Bool}
    (hnet : w.net = ⟨p, s, .appendEntriesResp T ok m⟩ ::ₘ rest)
    (hcov : CoveredFrame chosen w.net s p (w.node s) (.appendEntriesResp T ok m))
    (h : handleAppendEntriesResponse s (w.node s) p T ok m = some (nd, out)) :
    ∃ v', Steps chosen v v' ∧ Mapped (Function.update w.node s nd) rest v' := by
  have hrest : rest ≤ w.net := by rw [hnet]; exact Multiset.le_cons_self _ _
  have hmem : (⟨p, s, .appendEntriesResp T ok m⟩ : Packet n) ∈ w.net := by
    rw [hnet]; exact Multiset.mem_cons_self _ _
  have hs := hmap.nodes s
  rcases handleAppendEntriesResponse_cases h with
    ⟨hlt, _⟩ | ⟨_, rfl, _⟩ | ⟨hlead, hT, rfl, nd₁, hadv, hdrain⟩ |
    ⟨hlead, hT, rfl, hnext, _, rfl⟩
  · exact absurd hlt (Nat.not_lt.mpr hcov.1)
  · rw [Function.update_eq_self]
    exact ⟨v, .refl, hmap.lose hrest⟩
  · obtain ⟨hsole, hmatch⟩ := hcov.2 ⟨hlead, hT⟩
    have hmax : max ((w.node s).peerState p).matchIndex m = m := Nat.max_eq_right (hmatch rfl)
    have hset := mapped_setPeer hmap hrest hlead (p := p) { nextIndex := m + 1, matchIndex := m }
      (messages_remove hmap.messages hnet hsole)
    have hstep : Next chosen v _ := .handle _ (hmap.messages _ hmem)
      ⟨hs.state.trans hlead, hT.trans hs.currentTerm.symm, rfl⟩
    rw [if_pos rfl] at hstep
    rw [hmax] at hadv
    rcases advanceCommitIndex_cases hadv with rfl | ⟨k, e, hk, he, hterm, hmaj, rfl⟩
    · exact ⟨_, .single hstep, mapped_drain hset hdrain⟩
    · have hself : Function.update w.node s (setPeer (w.node s) p
          { nextIndex := m + 1, matchIndex := m }) s
            = setPeer (w.node s) p { nextIndex := m + 1, matchIndex := m } :=
        Function.update_self ..
      have hps : p ≠ s := hi.vote.distinct _ hmem
      have hslot : ((setPeer (w.node s) p
          { nextIndex := m + 1, matchIndex := m }).peerState s).matchIndex = 0 := by
        show (Function.update (w.node s).peerState p _ s).matchIndex = 0
        rw [Function.update_of_ne hps.symm]
        exact hi.ack.selfSlot hlead
      obtain ⟨v', hadvance, hcommit⟩ := mapped_commit chosen (s := s) hset
        (by rw [hself]; exact hlead) (by rw [hself]; exact hslot) (by rw [hself]; exact hk)
        (by rw [hself]; exact he) (by rw [hself]; exact hterm) (by rw [hself]; exact hmaj)
      rw [Function.update_idem, hself] at hcommit
      exact ⟨v', .tail (.single hstep) hadvance, mapped_drain hcommit hdrain⟩
  · obtain ⟨hsole, _⟩ := hcov.2 ⟨hlead, hT⟩
    refine ⟨_, .single (.handle _ (hmap.messages _ hmem)
      ⟨hs.state.trans hlead, hT.trans hs.currentTerm.symm, rfl⟩), ?_⟩
    have hback : max (v.nextIndex s p - 1) 1 = ((w.node s).peerState p).nextIndex - 1 := by
      rw [hs.nextIndex hlead]
      omega
    have hkeep : Function.update v.matchIndex s (Function.update (v.matchIndex s) p
        ((w.node s).peerState p).matchIndex) = v.matchIndex := by
      rw [← hs.matchIndex hlead, Function.update_eq_self, Function.update_eq_self]
    have hset := mapped_setPeer hmap hrest hlead (p := p)
      { (w.node s).peerState p with nextIndex := ((w.node s).peerState p).nextIndex - 1 }
      (messages_remove hmap.messages hnet hsole)
    rw [hkeep] at hset
    rw [if_neg (by simp), hback]
    exact hset

theorem mapped_receive (hi : Inv w) (hmap : Mapped w.node w.net v)
    (hnet : w.net = ⟨p, s, f⟩ ::ₘ rest) (hcov : CoveredFrame chosen w.net s p (w.node s) f)
    {reply : Option (Frame n)} (h : receive s (w.node s) p f = some (nd, out, reply)) :
    ∃ v', Steps chosen v v' ∧ Mapped (Function.update w.node s nd)
      (((reply.map fun r => (⟨s, p, r⟩ : Packet n)).toList : Multiset (Packet n)) + rest) v' := by
  cases receives_of_receive h with
  | requestVote hr =>
      obtain ⟨v', hnext, hmap'⟩ := mapped_requestVote hi hmap hnet hcov hr
      exact ⟨v', .single hnext, hmap'⟩
  | requestVoteResp hr =>
      rw [Option.map_none, Option.toList_none, Multiset.coe_nil, Multiset.zero_add]
      exact mapped_requestVoteResp hi hmap hnet hcov hr
  | appendEntries hr =>
      obtain ⟨v', hnext, hmap'⟩ := mapped_appendEntries hi hmap hnet hcov hr
      exact ⟨v', .single hnext, hmap'⟩
  | appendEntriesResp hr =>
      rw [Option.map_none, Option.toList_none, Multiset.coe_nil, Multiset.zero_add]
      exact mapped_appendEntriesResp hi hmap hnet hcov hr

theorem mapped_elect (hi : Inv w) (hmap : Mapped w.node w.net v)
    (hrole : (w.node s).state ≠ .leader) {out : List (Fin n × Frame n)}
    (h : startElection s (w.node s) = some (nd, out)) :
    ∃ v', Steps chosen v v' ∧ Mapped (Function.update w.node s nd)
      ((out.map fun (q, f) => (⟨s, q, f⟩ : Packet n) : Multiset (Packet n)) + w.net) v' := by
  obtain ⟨last, hlast, hcase⟩ := startElection_cases h
  obtain ⟨v', htimeout, hcand⟩ := mapped_timeout chosen hi hmap hrole hlast
  rcases hcase with ⟨hp, hlead, rfl⟩ | ⟨_, rfl, rfl⟩
  · -- a cluster of one wins at once
    have hself : Function.update w.node s (becomeCandidate s (w.node s)) s
        = becomeCandidate s (w.node s) := Function.update_self ..
    have hn := length_peers s
    obtain ⟨v'', hwin, hmap'⟩ := mapped_win chosen (s := s) (h := w.hist) hcand
      (by rw [hself]; exact hi.log.logs s) (by rw [hself]; rfl)
      (by rw [hself]; show n < 1 * 2; omega) (by rw [hself]; exact hlead)
    rw [Function.update_idem, World.ballotsOf, List.length_eq_zero_iff.mp hp] at hmap'
    exact ⟨v'', .tail (.single htimeout) hwin, hmap'⟩
  · rw [World.ballotsOf] at hcand
    rw [List.map_map]
    exact ⟨v', .single htimeout, hcand⟩

/-! ## The simulation -/

/-- The specification simulates the steps `ok` of the code, from every reachable state,
through a relation under which the five variables agree. -/
structure Simulates (chosen : Fin n) (ok : Cluster n → Action n → Prop)
    (R : Cluster n → Vars n → Prop) : Prop where
  init : R (initCluster n) (Init n)
  vars : ∀ {σ v}, R σ v → ∀ s, SameVars s (σ.node s) v
  step : ∀ {es σ σ' v a ev}, Reaches es σ → R σ v → ok σ a → σ.step a = some (σ', ev) →
    ∃ v', Steps chosen v v' ∧ R σ' v'

/-- A simulation follows every run of such steps. -/
theorem Simulates.run {ok : Cluster n → Action n → Prop} {R : Cluster n → Vars n → Prop}
    (h : Simulates chosen ok R) {es es' : List (Event n)} {σ σ' : Cluster n} (hσ : Reaches es σ)
    (hv : R σ v) (hrun : Run Cluster.step ok σ es' σ') : ∃ v', Steps chosen v v' ∧ R σ' v' := by
  induction hrun with
  | refl => exact ⟨v, .refl, hv⟩
  | tail hrun hok hstep ih =>
      obtain ⟨v₁, hsteps₁, hv₁⟩ := ih
      obtain ⟨v₂, hsteps₂, hv₂⟩ := h.step (hσ.trans hrun.any) hv₁ hok hstep
      exact ⟨v₂, hsteps₁.trans hsteps₂, hv₂⟩

theorem mapped_step {σ σ' : Cluster n} {a : Action n} {ev : List (Event n)} (hs : Sim σ w)
    (hmap : Mapped σ.node (inFlight σ) v) (hcov : Covered chosen σ a)
    (hstep : σ.step a = some (σ', ev)) :
    ∃ v', Steps chosen v v' ∧ Mapped σ'.node (inFlight σ') v' := by
  have heff := effect_of_happens (happens_of_step hstep)
  generalize hnode : σ'.node = node' at heff
  generalize hnet : inFlight σ' = net' at heff
  rw [← hs.node, ← hs.net] at hmap
  cases heff with
  | quiet hle =>
      rw [← hs.net] at hle
      rw [← hs.node]
      exact ⟨v, .refl, hmap.lose hle⟩
  | elect ht hr =>
      have hrole := hcov (by rw [ht]; rfl)
      rw [← hs.node] at hr hrole ⊢
      rw [← hs.net]
      exact mapped_elect hs.inv hmap hrole hr
  | send ht hr =>
      have hsq := hs.targets (holds_of_mem_tasks (by rw [ht]; exact List.mem_cons_self))
      rw [← hs.node] at hr ⊢
      rw [← hs.net]
      obtain ⟨v', hnext, hmap'⟩ := mapped_send chosen hs.inv hmap hsq hr
      exact ⟨v', .single hnext, hmap'⟩
  | handle hchan hflight hr =>
      have hframe := hcov _ (by rw [hchan]; rfl)
      rw [← hs.node] at hr hframe ⊢
      rw [← hs.net] at hframe hflight
      exact mapped_receive hs.inv hmap hflight hframe hr
  | accept hp =>
      rw [← hs.node] at hp ⊢
      rw [← hs.net]
      obtain ⟨v', hnext, hmap'⟩ := mapped_propose chosen hs.inv hmap hp
      exact ⟨v', .single hnext, hmap'⟩

/-- Covered steps suffice to elect a leader and to commit. The request to the server that
does not answer has to get lost first. -/
def coveredCommit : List (Action 3) :=
  [.tick 1 true, .run 1 .ticker, .run 1 .ticker, .run 1 .ticker, .lose 1 2 0, .recv 0 1,
    .run 0 (.receiver 1), .recv 1 0, .propose 1 [7], .run 1 (.client 0), .run 1 (.client 0),
    .recv 0 1, .run 0 (.receiver 1), .recv 1 0, .run 1 (.client 0), .run 1 (.client 0), .recv 2 1]

/-- Nothing in the specification matches a vote for another that is not `chosen`'s. -/
theorem not_steps_of_grant {v' : Vars n} (h : SameVars s nd v) (h' : SameVars s nd' v')
    (hs : s ≠ chosen) (hc : c ≠ s) (hold : nd.votedFor ≠ some c) (hnew : nd'.votedFor = some c) :
    ¬ Steps chosen v v' := by
  intro hsteps
  rcases steps_votedFor_other hsteps hs with heq | hself
  · rw [h.votedFor, h'.votedFor, hnew] at heq
    exact hold heq.symm
  · rw [h'.votedFor, hnew] at hself
    exact hc (Option.some.inj hself)

/-- Nothing in the specification matches a vote that is forgotten. -/
theorem not_steps_of_forget {v' : Vars n} (h : SameVars s nd v) (h' : SameVars s nd' v')
    (hold : nd.votedFor ≠ none) (hnew : nd'.votedFor = none) : ¬ Steps chosen v v' := by
  intro hsteps
  refine steps_votedFor_ne_none hsteps ?_ (h'.votedFor.trans hnew)
  rw [h.votedFor]
  exact hold

/-- An answer to a stale vote request corresponds to no message of the specification. -/
theorem not_mapped_of_stale {chosen s c : Fin n} {σ : Cluster n} {v : Vars n} {T : Nat} {g : Bool}
    (hmem : (⟨s, c, .requestVoteResp T g⟩ : Packet n) ∈ inFlight σ)
    (hT : (σ.node c).currentTerm < T) (hsteps : Steps chosen (Init n) v) :
    ¬ Mapped σ.node (inFlight σ) v := by
  intro hmap
  have hle := (askedTerms_steps hsteps).answers (hmap.messages _ hmem)
  rw [(hmap.nodes c).currentTerm] at hle
  omega

/-- `c` stands for election and its requests are on their way. -/
def stand (c : Fin 3) : List (Action 3) :=
  [.tick c true, .run c .ticker, .run c .ticker, .run c .ticker]

/-- Server `1` stands twice before it hears of server `0`. -/
theorem not_mapped_of_stale_three : ∃ es σ, Run Cluster.step Any (initCluster 3) es σ ∧
    ∀ v, Steps (0 : Fin 3) (Init 3) v → ¬ Mapped σ.node (inFlight σ) v := by
  have h : Leads Cluster.step Any (initCluster 3) (stand 0 ++ stand 1 ++ [.tick 1 true,
      .run 1 .ticker, .recv 1 0, .run 1 (.receiver 0)]) fun σ _ =>
      (⟨1, 0, .requestVoteResp 2 false⟩ : Packet 3) ∈ inFlight σ ∧ (σ.node 0).currentTerm < 2 := by
    decide +kernel
  obtain ⟨σ, es, hrun, hmem, hT⟩ := h.run
  exact ⟨es, σ, hrun, fun v hsteps => not_mapped_of_stale hmem hT hsteps⟩

def Frame.asksVote : Frame n → Bool
  | .requestVote .. => true
  | _ => false

/-- A vote request reaches no server but `chosen`. -/
def VotesAtChosen (chosen : Fin n) (σ : Cluster n) : Action n → Prop
  | .recv s p => (σ.chan p s).head?.any Frame.asksVote = true → s = chosen
  | _ => True

instance (chosen : Fin n) (σ : Cluster n) : ∀ a, Decidable (VotesAtChosen chosen σ a)
  | .recv s p =>
      inferInstanceAs (Decidable ((σ.chan p s).head?.any Frame.asksVote = true → s = chosen))
  | .tick .. | .run .. | .propose .. | .finish .. | .lose .. => isTrue trivial

/-- `c` and `c'` stand in the same term; `d` votes for `c`, whose entries are on their way to
`c'`. -/
def meetRival (d c c' : Fin 3) : List (Action 3) :=
  stand c ++ stand c' ++ ([.recv d c, .run d (.receiver c), .recv c d, .tick c false,
    .run c .ticker, .run c .ticker, .run c .ticker, .run c .ticker, .lose c c' 0] :
      List (Action 3))

/-- The choice of the server is not all: where only it gets vote requests, a candidate still
forgets its vote when it meets the leader of its term. -/
theorem forgetting_not_simulated : ¬ ∃ (chosen : Fin 3) (R : Cluster 3 → Vars 3 → Prop),
    Simulates chosen (VotesAtChosen chosen) R := by
  rintro ⟨chosen, R, hsim⟩
  have hpick : ∀ d : Fin 3, ∃ c c' : Fin 3, c ≠ d ∧ c' ≠ d ∧ c ≠ c' := by decide
  obtain ⟨c, c', hc, hc', hcc⟩ := hpick chosen
  have hleads : ∀ d c c' : Fin 3, c ≠ d → c' ≠ d → c ≠ c' →
      Leads Cluster.step (VotesAtChosen d) (initCluster 3) (meetRival d c c')
        fun σ _ => (σ.node c').votedFor ≠ none ∧
          Leads Cluster.step (VotesAtChosen d) σ [.recv c' c] fun σ' _ =>
            (σ'.node c').votedFor = none := by
    decide +kernel
  obtain ⟨σ, es, hrun, hvoted, hnext⟩ := (hleads chosen c c' hc hc' hcc).run
  obtain ⟨σ', es', hrun', hforgot⟩ := hnext.run
  obtain ⟨v, _, hv⟩ := hsim.run .refl hsim.init hrun
  obtain ⟨v', hsteps, hv'⟩ := hsim.run hrun.any hv hrun'
  exact not_steps_of_forget (hsim.vars hv c') (hsim.vars hv' c') hvoted hforgot hsteps

end CrossMachine.Raft
