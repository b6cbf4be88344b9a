import CrossMachine.Lib.Instances
import CrossMachine.Raft.Cluster

/-!
# One vote a term

`becomeFollower` clears `votedFor_` also when the term stays the same. The only caller
that can do so is `handleAppendEntries`, on a candidate that meets the leader of its
own term, and the candidate may then vote again in that term. Election safety
survives, since the term already has its winner; that a node votes for one candidate
in a term does not. It does hold in every run in which no candidate meets the leader
of its term.
-/

namespace CrossMachine.Raft

open Lib

variable {n : Nat}

/-- The node votes at most once in a term. -/
def SingleVote (es : List (Event n)) : Prop :=
  ∀ (v : Fin n) (T : Nat) (c c' : Fin n),
    Event.granted v T c ∈ es → Event.granted v T c' ∈ es → c = c'

/-- An `AppendEntries` frame of the node's own term finds the node a follower. -/
def Frame.FindsFollower (nd : RaftNode n) : Frame n → Prop
  | .appendEntries T _ _ _ _ _ => T = nd.currentTerm → nd.state = .follower
  | _ => True

instance (nd : RaftNode n) : (f : Frame n) → Decidable (f.FindsFollower nd)
  | .appendEntries T _ _ _ _ _ =>
      inferInstanceAs (Decidable (T = nd.currentTerm → nd.state = .follower))
  | .requestVote .. => isTrue trivial
  | .requestVoteResp .. => isTrue trivial
  | .appendEntriesResp .. => isTrue trivial

/-- No candidate handles a frame of the leader of its term. -/
def MeetsAsFollower (σ : Cluster n) : Action n → Prop
  | .recv s p => ∀ f ∈ (σ.chan p s).head?, f.FindsFollower (σ.node s)
  | _ => True

instance (σ : Cluster n) : (a : Action n) → Decidable (MeetsAsFollower σ a)
  | .recv s p => inferInstanceAs (Decidable (∀ f ∈ (σ.chan p s).head?, f.FindsFollower (σ.node s)))
  | .tick .. => isTrue trivial
  | .run .. => isTrue trivial
  | .propose .. => isTrue trivial
  | .finish .. => isTrue trivial
  | .lose .. => isTrue trivial

/-- The term does not go back, and within a term a vote given is not forgotten. -/
def VoteKept (nd nd' : RaftNode n) : Prop :=
  nd.currentTerm ≤ nd'.currentTerm ∧
    (nd'.currentTerm = nd.currentTerm → ∀ c, nd.votedFor = some c → nd'.votedFor = some c)

theorem VoteKept.refl (nd : RaftNode n) : VoteKept nd nd := ⟨Nat.le_refl _, fun _ _ h => h⟩

/-- In a later term the votes of this one do not matter. -/
theorem VoteKept.of_lt {nd nd' : RaftNode n} (h : nd.currentTerm < nd'.currentTerm) :
    VoteKept nd nd' :=
  ⟨Nat.le_of_lt h, fun heq => absurd heq (Nat.ne_of_gt h)⟩

/-- Nothing that votes depend on has changed. -/
theorem VoteKept.of_eq {nd nd' : RaftNode n} (hT : nd'.currentTerm = nd.currentTerm)
    (hv : nd'.votedFor = nd.votedFor) : VoteKept nd nd' :=
  ⟨Nat.le_of_eq hT.symm, fun _ c h => by rw [hv]; exact h⟩

theorem VoteKept.trans {nd nd' nd'' : RaftNode n} (h : VoteKept nd nd') (h' : VoteKept nd' nd'') :
    VoteKept nd nd'' := by
  refine ⟨Nat.le_trans h.1 h'.1, fun heq c hc => ?_⟩
  have h₁ := h.1
  have h₂ := h'.1
  exact h'.2 (by omega) c (h.2 (by omega) c hc)

theorem voteKept_meetTerm (nd : RaftNode n) (T : Nat) : VoteKept nd (meetTerm nd T) := by
  unfold meetTerm
  split
  · rename_i hlt
    exact .of_lt hlt
  · exact .refl nd

theorem voteKept_meetLeader {nd : RaftNode n} {T : Nat} (l : Fin n) (hT : nd.currentTerm ≤ T)
    (hrole : T = nd.currentTerm → nd.state = .follower) : VoteKept nd (meetLeader nd T l) := by
  unfold meetLeader
  split
  · rename_i hcase
    rcases Nat.lt_or_eq_of_le hT with hlt | heq
    · exact .of_lt hlt
    · rcases hcase with hlt | hne
      · exact .of_lt hlt
      · exact absurd (hrole heq.symm) hne
  · exact .of_eq rfl rfl

theorem voteKept_drain {nd nd' : RaftNode n} {out : List LogEntry}
    (h : drain nd = some (nd', out)) : VoteKept nd nd' := by
  obtain ⟨rfl, _⟩ := drain_eq h
  exact .of_eq rfl rfl

/-- A handler keeps the vote, and what it grants is then the vote. -/
theorem receive_vote {s p : Fin n} {f : Frame n} {nd nd' : RaftNode n} {out : List LogEntry}
    {reply : Option (Frame n)}
    (hmeet : f.FindsFollower nd) (h : receive s nd p f = some (nd', out, reply)) :
    VoteKept nd nd' ∧ ∀ {v T c}, Event.granted v T c ∈ Cluster.voteEvent s f reply →
      v = s ∧ T = nd'.currentTerm ∧ nd'.votedFor = some c := by
  cases receives_of_receive h with
  | requestVote hr =>
      rename_i T li lt c r
      have hkeep := voteKept_meetTerm nd T
      rcases handleRequestVote_cases hr with ⟨rfl, rfl⟩ | ⟨hT, hfree, _, rfl, rfl⟩
      · exact ⟨hkeep, fun hev => by simp [Cluster.voteEvent] at hev⟩
      · refine ⟨hkeep.trans ⟨Nat.le_refl _, fun _ c' hc' => ?_⟩, fun hev => ?_⟩
        · -- it had voted for nobody, or for this candidate
          rcases hfree with hnone | hsame
          · rw [hnone] at hc'; exact absurd hc' (by simp)
          · rw [hsame] at hc'; exact hc'
        · simp only [Cluster.voteEvent, List.mem_singleton, Event.granted.injEq] at hev
          obtain ⟨rfl, rfl, rfl⟩ := hev
          exact ⟨rfl, hT, rfl⟩
  | requestVoteResp hr =>
      refine ⟨?_, fun hev => by simp [Cluster.voteEvent] at hev⟩
      rcases handleRequestVoteResponse_cases hr with
        ⟨hlt, rfl⟩ | ⟨_, rfl⟩ | ⟨_, _, _, rfl | ⟨_, hl⟩⟩
      · exact .of_lt hlt
      · exact .refl _
      · exact .of_eq rfl rfl
      · obtain ⟨last, _, rfl⟩ := becomeLeader_eq hl
        exact .of_eq rfl rfl
  | appendEntries hr =>
      rename_i T pi pt lc l es r
      refine ⟨?_, fun hev => by simp [Cluster.voteEvent] at hev⟩
      rcases handleAppendEntries_cases hr with
        ⟨_, rfl, _⟩ | ⟨hT, _, hdrain, _⟩ | ⟨hT, _, nd₂, hacc, hdrain, _⟩
      · exact .refl _
      · exact (voteKept_meetLeader l hT hmeet).trans (voteKept_drain hdrain)
      · refine (voteKept_meetLeader l hT hmeet).trans (.trans ?_ (voteKept_drain hdrain))
        rcases acceptEntries_eq hacc with ⟨_, _, _, rfl⟩ | ⟨_, rfl⟩
        · exact .of_eq rfl rfl
        · exact .of_eq rfl rfl
  | appendEntriesResp hr =>
      refine ⟨?_, fun hev => by simp [Cluster.voteEvent] at hev⟩
      rcases handleAppendEntriesResponse_cases hr with
        ⟨hlt, rfl, _⟩ | ⟨_, rfl, _⟩ | ⟨_, _, _, nd₂, hadv, hdrain⟩ | ⟨_, _, _, _, _, rfl⟩
      · exact .of_lt hlt
      · exact .refl _
      · refine .trans ?_ (voteKept_drain hdrain)
        rcases advanceCommitIndex_cases hadv with rfl | ⟨_, _, _, _, _, _, rfl⟩
        · exact .of_eq rfl rfl
        · exact .of_eq rfl rfl
      · exact .of_eq rfl rfl

/-- A step keeps every node's vote, and what it grants is then the voter's vote. -/
theorem step_vote {σ σ' : Cluster n} {a : Action n} {ev : List (Event n)}
    (hok : MeetsAsFollower σ a) (hstep : σ.step a = some (σ', ev)) :
    (∀ v, VoteKept (σ.node v) (σ'.node v)) ∧ ∀ {v T c}, Event.granted v T c ∈ ev →
      T = (σ'.node v).currentTerm ∧ (σ'.node v).votedFor = some c := by
  -- a change of the state of `s` alone
  have hset : ∀ {s : Fin n} {nd : RaftNode n}, VoteKept (σ.node s) nd →
      ∀ v, VoteKept (σ.node v) ((σ.setNode s nd).node v) := by
    intro s nd hkeep v
    by_cases hvs : v = s
    · subst hvs; rw [Cluster.setNode_self]; exact hkeep
    · rw [Cluster.setNode_ne _ _ hvs]; exact .refl _
  cases happens_of_step hstep with
  | elect ht hs =>
      rename_i s θ nd out ts
      have hnd : nd.currentTerm = (σ.node s).currentTerm + 1 ∧ nd.votedFor = some s := by
        obtain ⟨last, _, ⟨_, hlead, _⟩ | ⟨_, rfl, _⟩⟩ := startElection_cases hs
        · obtain ⟨_, _, rfl⟩ := becomeLeader_eq hlead
          exact ⟨rfl, rfl⟩
        · exact ⟨rfl, rfl⟩
      rw [Cluster.setTasks_node]
      refine ⟨hset (.of_lt (by omega)), fun hev => ?_⟩
      simp only [List.mem_singleton, Event.granted.injEq] at hev
      obtain ⟨rfl, rfl, rfl⟩ := hev
      rw [Cluster.setNode_self]
      exact ⟨rfl, hnd.2⟩
  | handle hidle hchan hr =>
      rename_i s p f rest nd out reply
      have hmeet : f.FindsFollower (σ.node s) := hok f (by rw [hchan]; rfl)
      obtain ⟨hkeep, hgrant⟩ := receive_vote hmeet hr
      rw [Cluster.setReceiver_node]
      refine ⟨hset hkeep, fun hev => ?_⟩
      rcases List.mem_append.mp hev with h | h
      · obtain ⟨_, _, heq⟩ := List.mem_map.mp h
        exact absurd heq (by simp)
      · obtain ⟨rfl, hT, hv⟩ := hgrant h
        rw [Cluster.setNode_self]
        exact ⟨hT, hv⟩
  | accept hp =>
      rw [Cluster.setCalls_node]
      refine ⟨hset ?_, fun hev => by simp at hev⟩
      rcases proposeRegion_cases hp with ⟨_, rfl, _⟩ | ⟨_, _, _, _, _, rfl, _⟩
      · exact .refl _
      · exact .of_eq rfl rfl
  | write => rw [Cluster.setTasks_node]; exact ⟨fun _ => .refl _, fun hev => by simp at hev⟩
  | skip => rw [Cluster.setTasks_node]; exact ⟨fun _ => .refl _, fun hev => by simp at hev⟩
  | prepare => rw [Cluster.setTasks_node]; exact ⟨fun _ => .refl _, fun hev => by simp at hev⟩
  | callback => rw [Cluster.setTasks_node]; exact ⟨fun _ => .refl _, fun hev => by simp at hev⟩
  | heartbeat => exact ⟨fun _ => .refl _, fun hev => by simp at hev⟩
  | timeout => exact ⟨fun _ => .refl _, fun hev => by simp at hev⟩
  | idle => exact ⟨fun _ => .refl _, fun hev => by simp at hev⟩
  | reject => exact ⟨fun _ => .refl _, fun hev => by simp at hev⟩
  | finish => exact ⟨fun _ => .refl _, fun hev => by simp at hev⟩
  | lose => exact ⟨fun _ => .refl _, fun hev => by simp at hev⟩

/-- Votes are on record with the voter for as long as it stays in the term. -/
structure BallotInv (es : List (Event n)) (σ : Cluster n) : Prop where
  held : ∀ {v T c}, Event.granted v T c ∈ es →
    T ≤ (σ.node v).currentTerm ∧ ((σ.node v).currentTerm = T → (σ.node v).votedFor = some c)
  single : SingleVote es

theorem ballotInv_init : BallotInv [] (initCluster n) where
  held := by intro v T c h; simp at h
  single := by intro v T c c' h; simp at h

theorem ballotInv_step {σ σ' : Cluster n} {a : Action n} {es ev : List (Event n)}
    (h : BallotInv es σ) (hok : MeetsAsFollower σ a) (hstep : σ.step a = some (σ', ev)) :
    BallotInv (es ++ ev) σ' := by
  obtain ⟨hkeep, hgrant⟩ := step_vote hok hstep
  have held : ∀ {v T c}, Event.granted v T c ∈ es ++ ev →
      T ≤ (σ'.node v).currentTerm ∧ ((σ'.node v).currentTerm = T →
        (σ'.node v).votedFor = some c) := by
    intro v T c hmem
    rcases List.mem_append.mp hmem with hold | hnew
    · obtain ⟨hle, hvote⟩ := h.held hold
      have hle' := (hkeep v).1
      refine ⟨Nat.le_trans hle hle', fun heq => ?_⟩
      exact (hkeep v).2 (by omega) c (hvote (by omega))
    · obtain ⟨hT, hvote⟩ := hgrant hnew
      exact ⟨Nat.le_of_eq hT, fun _ => hvote⟩
  refine ⟨held, fun v T c c' hc hc' => ?_⟩
  -- a vote given in this step is the one `votedFor_` now holds, and so are the earlier ones
  have hnow : ∀ {c₁ c₂}, Event.granted v T c₁ ∈ ev → Event.granted v T c₂ ∈ es ++ ev →
      c₁ = c₂ := by
    intro c₁ c₂ h₁ h₂
    obtain ⟨hT, hvote⟩ := hgrant h₁
    have hvote' := (held h₂).2 hT.symm
    rw [hvote] at hvote'
    exact Option.some.inj hvote'
  rcases List.mem_append.mp hc with hold | hnew
  · rcases List.mem_append.mp hc' with hold' | hnew'
    · exact h.single v T c c' hold hold'
    · exact (hnow hnew' hc).symm
  · exact hnow hnew hc'

/-- **A node votes for one candidate in a term**, in every run in which no candidate
handles a frame of the leader of its own term. -/
theorem single_vote {σ : Cluster n} {es : List (Event n)}
    (hrun : Run Cluster.step MeetsAsFollower (initCluster n) es σ) : SingleVote es := by
  have hinv : BallotInv es σ :=
    hrun.invariant ballotInv_init fun h hok hstep => ballotInv_step h hok hstep
  exact hinv.single

/-- Node 0 of five votes for itself, and asks nobody; nodes 1 and 2 stand in the same term,
and nodes 3 and 4 make node 1 the leader. -/
def threeStand : List (Action 5) :=
  [.tick 0 true, .run 0 .ticker,
    .tick 1 true, .run 1 .ticker, .run 1 .ticker, .run 1 .ticker, .run 1 .ticker, .run 1 .ticker,
    .tick 2 true, .run 2 .ticker, .run 2 .ticker,
    .recv 3 1, .run 3 (.receiver 1), .recv 4 1, .run 4 (.receiver 1), .recv 1 3, .recv 1 4]

theorem single_vote_five : ∃ (σ : Cluster 5) (es : List (Event 5)),
    Run Cluster.step MeetsAsFollower (initCluster 5) es σ ∧ Event.granted 3 1 1 ∈ es ∧
      Event.granted 0 1 0 ∈ es ∧ SingleVote es := by
  have hplay : Leads Cluster.step MeetsAsFollower (initCluster 5) threeStand fun _ es =>
      Event.granted 3 1 1 ∈ es ∧ Event.granted 0 1 0 ∈ es := by
    decide +kernel
  obtain ⟨σ, es, hrun, h₃, h₀⟩ := hplay.run
  exact ⟨σ, es, hrun, h₃, h₀, single_vote hrun⟩

/-- A heartbeat of node 1 then makes node 0 forget its vote, and the request of node 2, which
was still on its way, gets another. -/
def votesTwice : List (Action 5) :=
  threeStand ++ ([.tick 1 false, .run 1 .ticker, .run 1 .ticker, .recv 0 1, .run 0 (.receiver 1),
    .recv 0 1, .run 0 (.receiver 1), .recv 0 2] : List (Action 5))

theorem votes_twice : ∃ (σ : Cluster 5) (es : List (Event 5)), Reaches es σ ∧
    Event.granted 0 1 0 ∈ es ∧ Event.granted 0 1 2 ∈ es ∧ ¬ SingleVote es := by
  have hplay : Leads Cluster.step Any (initCluster 5) votesTwice fun _ es =>
      Event.granted 0 1 0 ∈ es ∧ Event.granted 0 1 2 ∈ es := by
    decide +kernel
  obtain ⟨σ, es, hσ, h₁, h₂⟩ := hplay.run
  exact ⟨σ, es, hσ, h₁, h₂, fun h => absurd (h 0 1 0 2 h₁ h₂) (by decide)⟩

end CrossMachine.Raft
