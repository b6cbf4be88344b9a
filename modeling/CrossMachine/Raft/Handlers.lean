import CrossMachine.Lib.Prefix
import CrossMachine.Raft.Node

/-!
# What each handler can do

One inversion lemma a handler: given that the region returned, everything it can
have done, with the guards that led there. Later proofs read these and never unfold
a handler again. That a region *does* return, which is to say that no `log_[...]` in
it leaves the vector, is the subject of the second half: `..._isSome`.
-/

namespace CrossMachine.Raft

open Lib

variable {n : Nat}

/-! ## Role transitions -/

variable {s : Fin n} {nd nd' : RaftNode n} {out es : List LogEntry} {f : Frame n} {T : Nat}

theorem becomeLeader_eq (h : becomeLeader s nd = some nd') :
    ∃ last, nd.log.getLast? = some last ∧
      nd' = { nd with
        state := .leader
        leaderId := some s
        peerState := fun _ => { nextIndex := last.index + 1, matchIndex := 0 } } := by
  simp only [becomeLeader, Option.bind_eq_bind, Option.bind_eq_some_iff] at h
  obtain ⟨last, hlast, heq⟩ := h
  exact ⟨last, hlast, (Option.some.inj heq).symm⟩

theorem startElection_cases {out : List (Fin n × Frame n)}
    (h : startElection s nd = some (nd', out)) :
    ∃ last, nd.log.getLast? = some last ∧
      (((peers s).length = 0 ∧ becomeLeader s (becomeCandidate s nd) = some nd' ∧ out = []) ∨
       ((peers s).length ≠ 0 ∧ nd' = becomeCandidate s nd ∧ out = (peers s).map fun p =>
        (p, .requestVote (nd.currentTerm + 1) s last.index last.term))) := by
  simp only [startElection, Option.bind_eq_bind, Option.bind_eq_some_iff] at h
  obtain ⟨last, hlast, heq⟩ := h
  refine ⟨last, hlast, ?_⟩
  by_cases hp : (peers s).isEmpty
  · left
    rw [if_pos hp, Option.bind_eq_some_iff] at heq
    obtain ⟨nd₁, hnd₁, heq⟩ := heq
    simp only [Option.some.injEq, Prod.mk.injEq] at heq
    obtain ⟨rfl, rfl⟩ := heq
    exact ⟨by rw [List.isEmpty_iff.mp hp]; rfl, hnd₁, rfl⟩
  · right
    rw [if_neg hp] at heq
    simp only [Option.some.injEq, Prod.mk.injEq] at heq
    obtain ⟨rfl, rfl⟩ := heq
    refine ⟨?_, rfl, rfl⟩
    intro h0
    exact hp (by rw [List.length_eq_zero_iff.mp h0]; rfl)

/-! ## Reading the log -/

theorem readRange_eq {log : List LogEntry} :
    ∀ {k i : Nat} {es : List LogEntry}, readRange log i k = some es →
      es = (log.drop i).take k ∧ es.length = k := by
  intro k
  induction k with
  | zero =>
      intro i es h
      simp only [readRange, Option.some.injEq] at h
      subst h; exact ⟨by simp, rfl⟩
  | succ k ih =>
      intro i es h
      simp only [readRange, Option.bind_eq_bind, Option.bind_eq_some_iff] at h
      obtain ⟨e, he, es', hes', heq⟩ := h
      obtain rfl := Option.some.inj heq
      obtain ⟨h₁, h₂⟩ := ih hes'
      have hlt := lt_length_of_getElem? he
      rw [List.drop_eq_getElem_cons hlt, List.take_succ_cons]
      refine ⟨?_, by rw [List.length_cons, h₂]⟩
      rw [List.getElem?_eq_getElem hlt] at he
      rw [Option.some.inj he, ← h₁]

theorem readRange_isSome {log : List LogEntry} :
    ∀ {k i : Nat}, (k = 0 ∨ i + k ≤ log.length) → (readRange log i k).isSome := by
  intro k
  induction k with
  | zero => intro i _; rfl
  | succ k ih =>
      intro i h
      have hle : i + (k + 1) ≤ log.length := by omega
      obtain ⟨es, hes⟩ := Option.isSome_iff_exists.mp (ih (i := i + 1) (Or.inr (by omega)))
      simp [readRange, List.getElem?_eq_getElem (show i < log.length by omega), hes]

theorem drain_eq (h : drain nd = some (nd', es)) :
    nd' = { nd with lastApplied := max nd.lastApplied nd.commitIndex } ∧
      es = (nd.log.drop (nd.lastApplied + 1)).take (nd.commitIndex - nd.lastApplied) ∧
      es.length = nd.commitIndex - nd.lastApplied := by
  simp only [drain, Option.bind_eq_bind, Option.bind_eq_some_iff] at h
  obtain ⟨es', hes', heq⟩ := h
  simp only [Option.some.injEq, Prod.mk.injEq] at heq
  obtain ⟨rfl, rfl⟩ := heq
  exact ⟨rfl, (readRange_eq hes').1, (readRange_eq hes').2⟩

theorem drain_isSome (h : nd.commitIndex < nd.log.length) : (drain nd).isSome := by
  have hread : (readRange nd.log (nd.lastApplied + 1)
      (nd.commitIndex - nd.lastApplied)).isSome := readRange_isSome (by omega)
  obtain ⟨es, hes⟩ := Option.isSome_iff_exists.mp hread
  simp [drain, hes]

theorem sendAppendEntriesTo_cases {q : Fin n} (h : sendAppendEntriesTo s nd q = some (some f)) :
    nd.state = .leader ∧ ∃ pi prev last, (nd.peerState q).nextIndex = pi + 1 ∧
      nd.log[pi]? = some prev ∧ nd.log.getLast? = some last ∧
      f = .appendEntries nd.currentTerm s pi prev.term nd.commitIndex
        (((nd.log.drop (pi + 1)).take (last.index - pi)).map fun e => (e.term, e.command)) := by
  unfold sendAppendEntriesTo at h
  split at h
  · exact absurd h (by simp)
  · rename_i hlead
    refine ⟨by simpa using hlead, ?_⟩
    split at h
    · exact absurd h (by simp)
    · rename_i pi hnext
      simp only [Option.bind_eq_bind, Option.bind_eq_some_iff, Option.some.injEq] at h
      obtain ⟨prev, hprev, last, hlast, es, hes, rfl⟩ := h
      refine ⟨pi, prev, last, hnext, hprev, hlast, ?_⟩
      rw [(readRange_eq hes).1, show last.index + 1 - (pi + 1) = last.index - pi by omega]

/-! ## Vote handlers -/

/-- The state in which a request of term `T` is examined. -/
def meetTerm (nd : RaftNode n) (T : Nat) : RaftNode n :=
  if nd.currentTerm < T then becomeFollower nd T else nd

/-- Meeting a term changes role, term and vote, and only when the term is higher. -/
theorem meetTerm_fields (hT : nd.currentTerm ≤ T) :
    (meetTerm nd T).currentTerm = T ∧
      (meetTerm nd T).state = (if nd.currentTerm < T then .follower else nd.state) ∧
      (meetTerm nd T).log = nd.log ∧ (meetTerm nd T).commitIndex = nd.commitIndex ∧
      (meetTerm nd T).peerState = nd.peerState ∧
      (meetTerm nd T).votesGranted = nd.votesGranted := by
  unfold meetTerm
  split
  · exact ⟨rfl, rfl, rfl, rfl, rfl, rfl⟩
  · exact ⟨by omega, rfl, rfl, rfl, rfl, rfl⟩

theorem handleRequestVote_cases {li lt : Nat} {c : Fin n}
    (h : handleRequestVote nd T c li lt = some (nd', f)) :
    (nd' = meetTerm nd T ∧ f = .requestVoteResp (meetTerm nd T).currentTerm false) ∨
    (T = (meetTerm nd T).currentTerm ∧
      ((meetTerm nd T).votedFor = none ∨ (meetTerm nd T).votedFor = some c) ∧
      (∃ last, (meetTerm nd T).log.getLast? = some last ∧ logOk last li lt = true) ∧
      nd' = { meetTerm nd T with votedFor := some c } ∧
      f = .requestVoteResp T true) := by
  unfold handleRequestVote at h
  dsimp only at h
  rw [show (if nd.currentTerm < T then becomeFollower nd T else nd) = meetTerm nd T from rfl] at h
  split at h
  · rename_i hT
    simp only [Option.bind_eq_bind, Option.bind_eq_some_iff] at h
    obtain ⟨last, hlast, h⟩ := h
    split at h
    · rename_i hok
      cases h
      exact Or.inr ⟨hT, hok.1, ⟨last, hlast, hok.2⟩, rfl, by rw [← hT]⟩
    · simp only [Option.some.injEq, Prod.mk.injEq] at h
      exact Or.inl ⟨h.1.symm, h.2.symm⟩
  · simp only [Option.some.injEq, Prod.mk.injEq] at h
    exact Or.inl ⟨h.1.symm, h.2.symm⟩

/-- A request that is not stale, in one equation. -/
theorem handleRequestVote_eq (hT : nd.currentTerm ≤ T) {last : LogEntry}
    (hlast : nd.log.getLast? = some last) (c : Fin n) (li lt : Nat) :
    handleRequestVote nd T c li lt = some
      ({ meetTerm nd T with
          votedFor := if ((meetTerm nd T).votedFor = none ∨ (meetTerm nd T).votedFor = some c) ∧
            logOk last li lt = true then some c else (meetTerm nd T).votedFor },
        .requestVoteResp T (decide (((meetTerm nd T).votedFor = none ∨
          (meetTerm nd T).votedFor = some c) ∧ logOk last li lt = true))) := by
  obtain ⟨hterm, _, hlog, _⟩ := meetTerm_fields hT
  have hlast' : (meetTerm nd T).log.getLast? = some last := by rw [hlog, hlast]
  unfold handleRequestVote
  dsimp only
  rw [show (if nd.currentTerm < T then becomeFollower nd T else nd) = meetTerm nd T from rfl,
    if_pos hterm.symm, hlast', Option.bind_eq_bind, Option.bind_some]
  split
  · rename_i hok
    refine congrArg some (Prod.ext ?_ ?_)
    · rfl
    · simp only [decide_eq_true hok, hterm]
  · rename_i hok
    refine congrArg some (Prod.ext ?_ ?_)
    · rfl
    · simp only [decide_eq_false hok, hterm]

theorem handleRequestVote_isSome (hne : nd.log ≠ []) (T : Nat) (c : Fin n) (li lt : Nat) :
    (handleRequestVote nd T c li lt).isSome := by
  have hlog : (meetTerm nd T).log = nd.log := by unfold meetTerm; split <;> rfl
  unfold handleRequestVote
  dsimp only
  rw [show (if nd.currentTerm < T then becomeFollower nd T else nd) = meetTerm nd T from rfl]
  split
  · rw [hlog, List.getLast?_eq_some_getLast hne]
    dsimp only [Option.bind_eq_bind, Option.bind_some]
    split <;> rfl
  · rfl

theorem handleRequestVoteResponse_cases {g : Bool}
    (h : handleRequestVoteResponse s nd T g = some nd') :
    (nd.currentTerm < T ∧ nd' = becomeFollower nd T) ∨
    (¬ nd.currentTerm < T ∧ nd' = nd) ∨
    (nd.state = .candidate ∧ T = nd.currentTerm ∧ g = true ∧
      (nd' = { nd with votesGranted := nd.votesGranted + 1 } ∨
       (n < (nd.votesGranted + 1) * 2 ∧
        becomeLeader s { nd with votesGranted := nd.votesGranted + 1 } = some nd'))) := by
  unfold handleRequestVoteResponse at h
  split at h
  · rename_i hlt
    exact Or.inl ⟨hlt, (Option.some.inj h).symm⟩
  · rename_i hlt
    split at h
    · exact Or.inr (Or.inl ⟨hlt, (Option.some.inj h).symm⟩)
    · rename_i hguard
      simp only [not_or, Decidable.not_not, Bool.not_eq_false] at hguard
      refine Or.inr (Or.inr ⟨hguard.1, hguard.2.1, hguard.2.2, ?_⟩)
      dsimp only at h
      rw [length_peers] at h
      split at h
      · rename_i hmaj
        exact Or.inr ⟨hmaj, h⟩
      · exact Or.inl (Option.some.inj h).symm

theorem handleRequestVoteResponse_isSome (hne : nd.log ≠ []) (s : Fin n) (T : Nat) (g : Bool) :
    (handleRequestVoteResponse s nd T g).isSome := by
  unfold handleRequestVoteResponse
  split
  · rfl
  · split
    · rfl
    · dsimp only
      split
      · simp [becomeLeader, List.getLast?_eq_some_getLast hne]
      · rfl

/-! ## Replication handlers -/

/-- The state in which entries of a leader of term `T` are examined. -/
def meetLeader (nd : RaftNode n) (T : Nat) (l : Fin n) : RaftNode n :=
  { (if nd.currentTerm < T ∨ nd.state ≠ .follower then becomeFollower nd T else nd) with
    leaderId := some l }

theorem acceptEntries_eq {pi lc : Nat} (h : acceptEntries nd pi es lc = some nd') :
    (nd.commitIndex < lc ∧ ∃ last, (appendLoop nd.log (pi + 1) es).getLast? = some last ∧
      nd' = { nd with
        log := appendLoop nd.log (pi + 1) es, commitIndex := min lc last.index }) ∨
    (¬ nd.commitIndex < lc ∧ nd' = { nd with log := appendLoop nd.log (pi + 1) es }) := by
  unfold acceptEntries at h
  dsimp only at h
  split at h
  · rename_i hlt
    simp only [Option.bind_eq_bind, Option.bind_eq_some_iff] at h
    obtain ⟨last, hlast, heq⟩ := h
    exact Or.inl ⟨hlt, last, hlast, (Option.some.inj heq).symm⟩
  · rename_i hlt
    exact Or.inr ⟨hlt, (Option.some.inj h).symm⟩

theorem handleAppendEntries_cases {pi pt lc : Nat} {l : Fin n}
    (h : handleAppendEntries nd T l pi pt es lc = some (nd', out, f)) :
    (T < nd.currentTerm ∧ nd' = nd ∧ out = [] ∧
      f = .appendEntriesResp nd.currentTerm false 0) ∨
    (nd.currentTerm ≤ T ∧ prevMatches (meetLeader nd T l).log pi pt = false ∧
      drain (meetLeader nd T l) = some (nd', out) ∧
      f = .appendEntriesResp nd'.currentTerm false 0) ∨
    (nd.currentTerm ≤ T ∧ prevMatches (meetLeader nd T l).log pi pt = true ∧
      ∃ nd₁, acceptEntries (meetLeader nd T l) pi es lc = some nd₁ ∧
        drain nd₁ = some (nd', out) ∧
        f = .appendEntriesResp nd'.currentTerm true (pi + es.length)) := by
  unfold handleAppendEntries at h
  split at h
  · rename_i hlt
    cases h
    exact Or.inl ⟨hlt, rfl, rfl, rfl⟩
  · rename_i hlt
    right
    change (if prevMatches (meetLeader nd T l).log pi pt = true then _ else _) = _ at h
    split at h
    · rename_i hprev
      simp only [Option.bind_eq_bind, Option.bind_eq_some_iff] at h
      obtain ⟨nd₁, hacc, ⟨nd₂, out₂⟩, hdrain, heq⟩ := h
      simp only [Option.some.injEq, Prod.mk.injEq] at heq
      obtain ⟨rfl, rfl, rfl⟩ := heq
      exact Or.inr ⟨by omega, hprev, nd₁, hacc, hdrain, rfl⟩
    · rename_i hprev
      simp only [Option.bind_eq_bind, Option.bind_eq_some_iff] at h
      obtain ⟨⟨nd₂, out₂⟩, hdrain, heq⟩ := h
      simp only [Option.some.injEq, Prod.mk.injEq] at heq
      obtain ⟨rfl, rfl, rfl⟩ := heq
      exact Or.inl ⟨by omega, by simpa using hprev, hdrain, rfl⟩

theorem advanceLoop_cases :
    ∀ {count k : Nat}, advanceLoop s nd count = some k →
      k = nd.commitIndex ∨ ∃ e, nd.commitIndex < k ∧ nd.log[k]? = some e ∧
        e.term = nd.currentTerm ∧ n < replicaCount nd k * 2 := by
  intro count
  induction count with
  | zero => intro k h; exact Or.inl (Option.some.inj h).symm
  | succ count ih =>
      intro k h
      simp only [advanceLoop, Option.bind_eq_bind, Option.bind_eq_some_iff] at h
      obtain ⟨e, he, h⟩ := h
      split at h
      · exact ih h
      · rename_i hterm
        split at h
        · rename_i hmaj
          obtain rfl := Option.some.inj h
          rw [length_peers] at hmaj
          exact Or.inr ⟨e, by omega, he, by simpa using hterm, hmaj⟩
        · exact ih h

theorem advanceLoop_isSome :
    ∀ {count : Nat}, nd.commitIndex + count < nd.log.length →
      (advanceLoop s nd count).isSome := by
  intro count
  induction count with
  | zero => intro _; rfl
  | succ count ih =>
      intro h
      simp only [advanceLoop, List.getElem?_eq_getElem h, Option.bind_eq_bind, Option.bind_some]
      split
      · exact ih (by omega)
      · split
        · rfl
        · exact ih (by omega)

theorem advanceCommitIndex_cases (h : advanceCommitIndex s nd = some nd') :
    nd' = nd ∨ ∃ k e, nd.commitIndex < k ∧ nd.log[k]? = some e ∧ e.term = nd.currentTerm ∧
      n < replicaCount nd k * 2 ∧ nd' = { nd with commitIndex := k } := by
  simp only [advanceCommitIndex, Option.bind_eq_bind, Option.bind_eq_some_iff] at h
  obtain ⟨last, _, k, hk, heq⟩ := h
  obtain rfl := Option.some.inj heq
  rcases advanceLoop_cases hk with rfl | ⟨e, hlt, he, hterm, hmaj⟩
  · exact Or.inl rfl
  · exact Or.inr ⟨k, e, hlt, he, hterm, hmaj, rfl⟩

theorem handleAppendEntriesResponse_cases {p : Fin n} {m : Nat} {ok : Bool}
    (h : handleAppendEntriesResponse s nd p T ok m = some (nd', out)) :
    (nd.currentTerm < T ∧ nd' = becomeFollower nd T ∧ out = []) ∨
    (¬ nd.currentTerm < T ∧ nd' = nd ∧ out = []) ∨
    (nd.state = .leader ∧ T = nd.currentTerm ∧ ok = true ∧
      ∃ nd₁, advanceCommitIndex s (setPeer nd p
          { nextIndex := m + 1, matchIndex := max (nd.peerState p).matchIndex m }) = some nd₁ ∧
        drain nd₁ = some (nd', out)) ∨
    (nd.state = .leader ∧ T = nd.currentTerm ∧ ok = false ∧ 1 < (nd.peerState p).nextIndex ∧
      out = [] ∧ nd' = setPeer nd p
        { nd.peerState p with nextIndex := (nd.peerState p).nextIndex - 1 }) := by
  unfold handleAppendEntriesResponse at h
  split at h
  · rename_i hlt
    simp only [Option.some.injEq, Prod.mk.injEq] at h
    exact Or.inl ⟨hlt, h.1.symm, h.2.symm⟩
  · rename_i hlt
    split at h
    · simp only [Option.some.injEq, Prod.mk.injEq] at h
      exact Or.inr (Or.inl ⟨hlt, h.1.symm, h.2.symm⟩)
    · rename_i hguard
      simp only [not_or, Decidable.not_not] at hguard
      dsimp only at h
      split at h
      · rename_i hok
        simp only [Option.bind_eq_bind, Option.bind_eq_some_iff] at h
        obtain ⟨nd₁, hadv, hdrain⟩ := h
        exact Or.inr (Or.inr (Or.inl ⟨hguard.1, hguard.2, hok, nd₁, hadv, hdrain⟩))
      · rename_i hok
        split at h
        · rename_i hnext
          simp only [Option.some.injEq, Prod.mk.injEq] at h
          exact Or.inr (Or.inr (Or.inr
            ⟨hguard.1, hguard.2, by simpa using hok, hnext, h.2.symm, h.1.symm⟩))
        · simp only [Option.some.injEq, Prod.mk.injEq] at h
          exact Or.inr (Or.inl ⟨hlt, h.1.symm, h.2.symm⟩)

/-! ## Receiving a frame -/

/-- What `receiverLoop` does with a frame, one constructor a tag. -/
inductive Receives (s : Fin n) (nd : RaftNode n) (p : Fin n) :
    Frame n → RaftNode n → List LogEntry → Option (Frame n) → Prop where
  | requestVote {T li lt : Nat} {c : Fin n} {nd' : RaftNode n} {r : Frame n}
      (h : handleRequestVote nd T c li lt = some (nd', r)) :
      Receives s nd p (.requestVote T c li lt) nd' [] (some r)
  | requestVoteResp {T : Nat} {g : Bool} {nd' : RaftNode n}
      (h : handleRequestVoteResponse s nd T g = some nd') :
      Receives s nd p (.requestVoteResp T g) nd' [] none
  | appendEntries {T pi pt lc : Nat} {l : Fin n} {es : List (Nat × Command)} {nd' : RaftNode n}
      {out : List LogEntry} {r : Frame n}
      (h : handleAppendEntries nd T l pi pt (decodeEntries pi es) lc = some (nd', out, r)) :
      Receives s nd p (.appendEntries T l pi pt lc es) nd' out (some r)
  | appendEntriesResp {T m : Nat} {ok : Bool} {nd' : RaftNode n} {out : List LogEntry}
      (h : handleAppendEntriesResponse s nd p T ok m = some (nd', out)) :
      Receives s nd p (.appendEntriesResp T ok m) nd' out none

theorem receives_of_receive {p : Fin n} {reply : Option (Frame n)}
    (h : receive s nd p f = some (nd', out, reply)) : Receives s nd p f nd' out reply := by
  cases f with
  | requestVote T c li lt =>
      simp only [receive, Option.bind_eq_bind, Option.bind_eq_some_iff] at h
      obtain ⟨⟨nd₁, r⟩, hr, heq⟩ := h
      simp only [Option.some.injEq, Prod.mk.injEq] at heq
      obtain ⟨rfl, rfl, rfl⟩ := heq
      exact .requestVote hr
  | requestVoteResp T g =>
      simp only [receive, Option.bind_eq_bind, Option.bind_eq_some_iff] at h
      obtain ⟨nd₁, hr, heq⟩ := h
      simp only [Option.some.injEq, Prod.mk.injEq] at heq
      obtain ⟨rfl, rfl, rfl⟩ := heq
      exact .requestVoteResp hr
  | appendEntries T l pi pt lc es =>
      simp only [receive, Option.bind_eq_bind, Option.bind_eq_some_iff] at h
      obtain ⟨⟨nd₁, o, r⟩, hr, heq⟩ := h
      simp only [Option.some.injEq, Prod.mk.injEq] at heq
      obtain ⟨rfl, rfl, rfl⟩ := heq
      exact .appendEntries hr
  | appendEntriesResp T ok m =>
      simp only [receive, Option.bind_eq_bind, Option.bind_eq_some_iff] at h
      obtain ⟨⟨nd₁, o⟩, hr, heq⟩ := h
      simp only [Option.some.injEq, Prod.mk.injEq] at heq
      obtain ⟨rfl, rfl, rfl⟩ := heq
      exact .appendEntriesResp hr

/-! ## Client requests -/

theorem proposeRegion_cases {c : Command} {r : Option LogEntry}
    (h : proposeRegion nd c = some (nd', r)) :
    (nd.state ≠ .leader ∧ nd' = nd ∧ r = none) ∨
    (nd.state = .leader ∧ ∃ last e, nd.log.getLast? = some last ∧
      e = { term := nd.currentTerm, index := last.index + 1, command := c } ∧
      nd' = { nd with log := nd.log ++ [e] } ∧ r = some e) := by
  unfold proposeRegion at h
  split at h
  · rename_i hs
    simp only [Option.some.injEq, Prod.mk.injEq] at h
    exact Or.inl ⟨hs, h.1.symm, h.2.symm⟩
  · rename_i hs
    simp only [Option.bind_eq_bind, Option.bind_eq_some_iff] at h
    obtain ⟨last, hlast, heq⟩ := h
    simp only [Option.some.injEq, Prod.mk.injEq] at heq
    exact Or.inr ⟨by simpa using hs, last, _, hlast, rfl, heq.1.symm, heq.2.symm⟩

end CrossMachine.Raft
