import Mathlib.Tactic.SplitIfs
import CrossMachine.Raft.Handlers
import CrossMachine.Raft.World

/-!
# Election safety

`becomeFollower` clears `votedFor_` even when the term does not change, so a node
may vote twice in one term, and `handleRequestVoteResponse` counts replies without
asking who sent them. The usual argument (one vote a node and term) is therefore
not available. What holds instead:

* A vote is given up only by a candidate that meets an `AppendEntries` of its own
  term, and such a frame exists only once the term has a winner. So *until* there
  is a winner, votes are single (`openUnique`, `openHeld`).
* The voters that made the winner were followers when they voted, or the winner
  itself; none of them ever meets the reset again in that term (`electors`).
* A vote request is sent once to each peer, and one frame answers it. Request and
  grant are one ballot, which is in flight or counted, never both (`ballots`,
  `spent`), so the count of replies is a count of voters.
-/

namespace CrossMachine.Raft

open Lib

variable {n : Nat}

/-- A ballot of `v` for `c` in term `T`: the request on its way out, or the grant
on its way back. -/
def Packet.isBallot (T : Nat) (c v : Fin n) : Packet n → Bool
  | ⟨src, dst, .requestVote t _ _ _⟩ => decide (src = c ∧ dst = v ∧ t = T)
  | ⟨src, dst, .requestVoteResp t true⟩ => decide (src = v ∧ dst = c ∧ t = T)
  | _ => false

/-- How many ballots of `v` for `c` in term `T` are in flight. -/
def World.ballots (w : World n) (T : Nat) (c v : Fin n) : Nat :=
  w.net.countP fun pkt => pkt.isBallot T c v = true

structure VoteInv (w : World n) : Prop where
  /-- Candidates and leaders have voted for themselves. -/
  selfVote : ∀ s, (w.node s).state ≠ .follower → (w.node s).votedFor = some s
  /-- Nobody sends to itself. -/
  distinct : ∀ pkt ∈ w.net, pkt.src ≠ pkt.dst
  /-- A vote request names its sender and a term the sender has reached. -/
  asks : ∀ {p q c T li lt}, (⟨p, q, .requestVote T c li lt⟩ : Packet n) ∈ w.net →
    c = p ∧ T ≤ (w.node p).currentTerm
  /-- A grant in flight is a vote. -/
  grants : ∀ {v c T}, (⟨v, c, .requestVoteResp T true⟩ : Packet n) ∈ w.net → w.hist.voted T v c
  /-- Only the winner of a term sends entries in it. -/
  appends : ∀ {p q l T pi pt lc es},
    (⟨p, q, .appendEntries T l pi pt lc es⟩ : Packet n) ∈ w.net → w.hist.winner T = some p
  /-- Voter and candidate have reached the term of the vote. -/
  votedTerm : ∀ {T v c}, w.hist.voted T v c →
    T ≤ (w.node v).currentTerm ∧ T ≤ (w.node c).currentTerm
  /-- A leader has won its term. -/
  leads : ∀ {s}, (w.node s).state = .leader →
    w.hist.winner (w.node s).currentTerm = some s
  /-- A winner leads for as long as it stays in the term. -/
  winnerTerm : ∀ {T s}, w.hist.winner T = some s →
    T ≤ (w.node s).currentTerm ∧ ((w.node s).currentTerm = T → (w.node s).state = .leader)
  /-- While a term has no winner, a voter has voted for one candidate. -/
  openUnique : ∀ {T v c c'}, w.hist.winner T = none → w.hist.voted T v c →
    w.hist.voted T v c' → c = c'
  /-- While a term has no winner, `votedFor_` still names that candidate. -/
  openHeld : ∀ {T v c}, w.hist.winner T = none → w.hist.voted T v c →
    (w.node v).currentTerm = T → (w.node v).votedFor = some c
  /-- The winner's electors are a majority that voted for it and for nobody else. -/
  electors : ∀ {T l}, w.hist.winner T = some l →
    Majority (w.hist.electors T) ∧ ∀ v ∈ w.hist.electors T, w.hist.voted T v l ∧
      (∀ c, w.hist.voted T v c → c = l) ∧
      ((w.node v).currentTerm = T → (w.node v).votedFor = some l)
  /-- A candidate's count is the number of its counted voters. -/
  counted : ∀ {s}, (w.node s).state = .candidate →
    (∀ v ∈ w.hist.counted s, w.hist.voted (w.node s).currentTerm v s) ∧
      (w.node s).votesGranted = (w.hist.counted s).card
  /-- No ballot is doubled. -/
  ballots : ∀ T c v, w.ballots T c v ≤ 1
  /-- A counted ballot is no longer in flight. -/
  spent : ∀ {c v}, (w.node c).state = .candidate → v ∈ w.hist.counted c →
    w.ballots (w.node c).currentTerm c v = 0

theorem voteInv_init : VoteInv (initWorld n) where
  selfVote := by intro s h; exact absurd rfl h
  distinct := by intro pkt h; simp [initWorld] at h
  asks := by intro p q c T li lt h; simp [initWorld] at h
  grants := by intro v c T h; simp [initWorld] at h
  appends := by intro p q l T pi pt lc es h; simp [initWorld] at h
  votedTerm := by intro T v c h; exact absurd h (by simp [initWorld, initHistory])
  leads := by intro s h; simp [initWorld] at h
  winnerTerm := by intro T s h; simp [initWorld, initHistory] at h
  openUnique := by intro T v c c' _ h; exact absurd h (by simp [initWorld, initHistory])
  openHeld := by intro T v c _ h; exact absurd h (by simp [initWorld, initHistory])
  electors := by intro T l h; simp [initWorld, initHistory] at h
  counted := by intro s h; simp [initWorld] at h
  ballots := by intro T c v; simp [World.ballots, initWorld]
  spent := by intro c v h; simp [initWorld] at h

/-! ## Moves of one node -/

variable {w : World n} {s : Fin n} {nd : RaftNode n} {T : Nat} {pkt : Packet n}

/-- A change at `s` alone keeps the invariant when it keeps what `s` owes it. -/
theorem VoteInv.setNode (h : VoteInv w) (hterm : (w.node s).currentTerm ≤ nd.currentTerm)
    (hself : nd.state ≠ .follower → nd.votedFor = some s)
    (hlead : nd.state = .leader → w.hist.winner nd.currentTerm = some s)
    (hwin : ∀ T, w.hist.winner T = some s → nd.currentTerm = T → nd.state = .leader)
    (hheld : ∀ T c, w.hist.winner T = none → w.hist.voted T s c → nd.currentTerm = T →
      nd.votedFor = some c)
    (helect : ∀ T l, w.hist.winner T = some l → s ∈ w.hist.electors T → nd.currentTerm = T →
      nd.votedFor = some l) (hcand : nd.state = .candidate → (w.node s).state = .candidate ∧
      nd.currentTerm = (w.node s).currentTerm ∧ nd.votesGranted = (w.node s).votesGranted) :
    VoteInv (w.setNode s nd) := by
  have hmono : ∀ i, (w.node i).currentTerm ≤ ((w.setNode s nd).node i).currentTerm := by
    intro i
    by_cases his : i = s
    · subst his; rw [World.setNode_self]; exact hterm
    · rw [World.setNode_ne _ _ his]
  refine
    { selfVote := ?_, distinct := h.distinct, asks := ?_, grants := h.grants,
      appends := h.appends, votedTerm := ?_, leads := ?_, winnerTerm := ?_,
      openUnique := h.openUnique, openHeld := ?_, electors := ?_, counted := ?_,
      ballots := h.ballots, spent := ?_ }
  · intro i hi
    by_cases his : i = s
    · subst his; rw [World.setNode_self] at hi ⊢; exact hself hi
    · rw [World.setNode_ne _ _ his] at hi ⊢; exact h.selfVote i hi
  · intro p q c T li lt hmem
    exact ⟨(h.asks hmem).1, Nat.le_trans (h.asks hmem).2 (hmono p)⟩
  · intro T v c hv
    exact ⟨Nat.le_trans (h.votedTerm hv).1 (hmono v), Nat.le_trans (h.votedTerm hv).2 (hmono c)⟩
  · intro i hi
    by_cases his : i = s
    · subst his; rw [World.setNode_self] at hi ⊢; exact hlead hi
    · rw [World.setNode_ne _ _ his] at hi ⊢; exact h.leads hi
  · intro T i hi
    refine ⟨Nat.le_trans (h.winnerTerm hi).1 (hmono i), ?_⟩
    by_cases his : i = s
    · subst his; rw [World.setNode_self]; exact hwin T hi
    · rw [World.setNode_ne _ _ his]; exact (h.winnerTerm hi).2
  · intro T v c hopen hv
    by_cases hvs : v = s
    · subst hvs; rw [World.setNode_self]; exact hheld T c hopen hv
    · rw [World.setNode_ne _ _ hvs]; exact h.openHeld hopen hv
  · intro T l hl
    refine ⟨(h.electors hl).1, fun v hv => ?_⟩
    obtain ⟨hvl, honly, hfor⟩ := (h.electors hl).2 v hv
    refine ⟨hvl, honly, ?_⟩
    by_cases hvs : v = s
    · subst hvs; rw [World.setNode_self]; exact helect T l hl hv
    · rw [World.setNode_ne _ _ hvs]; exact hfor
  · intro i hi
    by_cases his : i = s
    · subst his
      rw [World.setNode_self] at hi ⊢
      obtain ⟨hold, ht, hg⟩ := hcand hi
      rw [ht, hg]; exact h.counted hold
    · rw [World.setNode_ne _ _ his] at hi ⊢; exact h.counted hi
  · intro c v hc hv
    by_cases hcs : c = s
    · subst hcs
      rw [World.setNode_self] at hc ⊢
      obtain ⟨hold, ht, _⟩ := hcand hc
      rw [ht]; exact h.spent hold hv
    · rw [World.setNode_ne _ _ hcs] at hc ⊢; exact h.spent hc hv

/-- A change that leaves role, term and vote alone is harmless. -/
theorem VoteInv.setNode_quiet (h : VoteInv w) (hstate : nd.state = (w.node s).state)
    (hterm : nd.currentTerm = (w.node s).currentTerm) (hvote : nd.votedFor = (w.node s).votedFor)
    (hcount : nd.votesGranted = (w.node s).votesGranted) : VoteInv (w.setNode s nd) := by
  refine h.setNode (Nat.le_of_eq hterm.symm) ?_ ?_ ?_ ?_ ?_ ?_
  · intro hs; rw [hvote]; exact h.selfVote s (hstate ▸ hs)
  · intro hs; rw [hterm]; exact h.leads (hstate ▸ hs)
  · intro T hT ht; rw [hstate]; exact (h.winnerTerm hT).2 (hterm ▸ ht)
  · intro T c hopen hv ht; rw [hvote]; exact h.openHeld hopen hv (hterm ▸ ht)
  · intro T l hl hs ht; rw [hvote]; exact ((h.electors hl).2 s hs).2.2 (hterm ▸ ht)
  · intro hs; exact ⟨hstate ▸ hs, hterm, hcount⟩

/-- The history that the log arguments keep does not matter here. -/
theorem VoteInv.setHist (h : VoteInv w) {hist : History n} (hwin : hist.winner = w.hist.winner)
    (hvoted : hist.voted = w.hist.voted) (helect : hist.electors = w.hist.electors)
    (hcounted : hist.counted = w.hist.counted) : VoteInv { w with hist := hist } := by
  cases hist
  dsimp only at hwin hvoted helect hcounted
  subst hwin; subst hvoted; subst helect; subst hcounted
  exact ⟨h.selfVote, h.distinct, h.asks, h.grants, h.appends, h.votedTerm, h.leads,
    h.winnerTerm, h.openUnique, h.openHeld, h.electors, h.counted, h.ballots, h.spent⟩

theorem voteInv_bump (h : VoteInv w) (hT : (w.node s).currentTerm < T) :
    VoteInv (w.setNode s (becomeFollower (w.node s) T)) := by
  refine h.setNode (Nat.le_of_lt hT) ?_ ?_ ?_ ?_ ?_ ?_
  · intro hs; exact absurd rfl hs
  · intro hs; exact RaftState.noConfusion hs
  · intro T' hT' heq
    have := (h.winnerTerm hT').1
    have : T = T' := heq
    omega
  · intro T' c _ hv heq
    have := (h.votedTerm hv).1
    have : T = T' := heq
    omega
  · intro T' l hl hs heq
    have := (h.votedTerm ((h.electors hl).2 s hs).1).1
    have : T = T' := heq
    omega
  · intro hs; exact RaftState.noConfusion hs

/-- Giving the vote up is harmless: the term has a winner, `s` is not it, and the
winner's electors voted for somebody other than themselves. -/
theorem voteInv_stepDown (h : VoteInv w) {p l : Fin n} {pi pt lc : Nat} {es : List (Nat × Command)}
    (hmem : (⟨p, s, .appendEntries T l pi pt lc es⟩ : Packet n) ∈ w.net)
    (hT : (w.node s).currentTerm = T) (hrole : (w.node s).state ≠ .follower) :
    VoteInv (w.setNode s (becomeFollower (w.node s) T)) := by
  have hwin : w.hist.winner T = some p := h.appends hmem
  have hps : p ≠ s := h.distinct _ hmem
  refine h.setNode (Nat.le_of_eq hT) ?_ ?_ ?_ ?_ ?_ ?_
  · intro hs; exact absurd rfl hs
  · intro hs; exact RaftState.noConfusion hs
  · intro T' hT' heq
    have hTT : T = T' := heq
    subst hTT
    rw [hwin] at hT'
    exact absurd (Option.some.inj hT') hps
  · intro T' c hopen _ heq
    have hTT : T = T' := heq
    subst hTT
    rw [hwin] at hopen
    exact absurd hopen (by simp)
  · intro T' l' hl hs heq
    have hTT : T = T' := heq
    subst hTT
    have hfor := ((h.electors hl).2 s hs).2.2 hT
    rw [h.selfVote s hrole, ← hl, hwin] at hfor
    exact absurd (Option.some.inj hfor).symm hps
  · intro hs; exact RaftState.noConfusion hs

/-! ## Moves of the network -/

/-- A frame whose arrival in the bag needs no vote behind it. -/
def Packet.Sound (w : World n) : Packet n → Prop
  | ⟨_, _, .requestVote ..⟩ => False
  | ⟨_, _, .requestVoteResp _ granted⟩ => granted = false
  | ⟨src, _, .appendEntries T ..⟩ => w.hist.winner T = some src
  | ⟨_, _, .appendEntriesResp ..⟩ => True

theorem Packet.Sound.not_ballot (h : pkt.Sound w) (T : Nat) (c v : Fin n) :
    pkt.isBallot T c v = false := by
  obtain ⟨src, dst, f⟩ := pkt
  cases f with
  | requestVote => exact h.elim
  | requestVoteResp t g =>
      have hg : g = false := h
      subst hg; rfl
  | appendEntries => rfl
  | appendEntriesResp => rfl

theorem VoteInv.setNet (h : VoteInv w) {net : Multiset (Packet n)}
    (hpkt : ∀ pkt ∈ net, pkt ∈ w.net ∨ (pkt.src ≠ pkt.dst ∧ pkt.Sound w))
    (hcount : ∀ T c v, net.countP (fun pkt => pkt.isBallot T c v = true) ≤ w.ballots T c v) :
    VoteInv { w with net := net } := by
  refine { h with
    distinct := ?_, asks := ?_, grants := ?_, appends := ?_, ballots := ?_, spent := ?_ }
  · intro pkt hmem
    rcases hpkt pkt hmem with hold | ⟨hne, _⟩
    · exact h.distinct pkt hold
    · exact hne
  · intro p q c T li lt hmem
    rcases hpkt _ hmem with hold | ⟨_, hs⟩
    · exact h.asks hold
    · exact hs.elim
  · intro v c T hmem
    rcases hpkt _ hmem with hold | ⟨_, hs⟩
    · exact h.grants hold
    · exact Bool.noConfusion hs
  · intro p q l T pi pt lc es hmem
    rcases hpkt _ hmem with hold | ⟨_, hs⟩
    · exact h.appends hold
    · exact hs
  · intro T c v
    exact Nat.le_trans (hcount T c v) (h.ballots T c v)
  · intro c v hc hv
    exact Nat.le_zero.mp (Nat.le_trans (hcount _ c v) (Nat.le_of_eq (h.spent hc hv)))

theorem voteInv_lose (h : VoteInv w) {net : Multiset (Packet n)} (hle : net ≤ w.net) :
    VoteInv { w with net := net } :=
  h.setNet (fun _ hmem => Or.inl (Multiset.mem_of_le hle hmem))
    (fun _ _ _ => Multiset.countP_le_of_le _ hle)

/-- Sending a frame that carries no vote. -/
theorem VoteInv.cons (h : VoteInv w) (hne : pkt.src ≠ pkt.dst) (hs : pkt.Sound w) :
    VoteInv { w with net := pkt ::ₘ w.net } := by
  refine h.setNet ?_ ?_
  · intro pkt' hmem
    rcases Multiset.mem_cons.mp hmem with rfl | hold
    · exact Or.inr ⟨hne, hs⟩
    · exact Or.inl hold
  · intro T c v
    rw [Multiset.countP_cons_of_neg _ (by rw [hs.not_ballot]; simp)]
    exact Nat.le_refl _

/-! ## Candidacies -/

/-- No ballot of a term its candidate has not reached is in flight. -/
theorem VoteInv.fresh (h : VoteInv w) {c : Fin n} (v : Fin n) (hT : (w.node c).currentTerm < T) :
    w.ballots T c v = 0 := by
  rw [World.ballots, Multiset.countP_eq_zero]
  rintro ⟨src, dst, f⟩ hmem hb
  cases f with
  | requestVote t c' li lt =>
      simp only [Packet.isBallot, decide_eq_true_eq] at hb
      obtain ⟨rfl, rfl, rfl⟩ := hb
      have := (h.asks hmem).2
      omega
  | requestVoteResp t g =>
      cases g with
      | false => simp [Packet.isBallot] at hb
      | true =>
          simp only [Packet.isBallot, decide_eq_true_eq] at hb
          obtain ⟨rfl, rfl, rfl⟩ := hb
          have := (h.votedTerm (h.grants hmem)).2
          omega
  | appendEntries => simp [Packet.isBallot] at hb
  | appendEntriesResp => simp [Packet.isBallot] at hb

/-- A candidacy sends each peer one ballot, and only ballots of its own. -/
theorem countP_ballotsOf (s : Fin n) (T₀ : Nat) (last : LogEntry) (T : Nat) (c v : Fin n) :
    (World.ballotsOf s T₀ last).countP (fun pkt => pkt.isBallot T c v = true) =
      if s = c ∧ T₀ = T then (peers s).count v else 0 := by
  rw [World.ballotsOf, Multiset.coe_countP, List.countP_map]
  split
  · rename_i hcT
    obtain ⟨rfl, rfl⟩ := hcT
    rw [List.count]
    congr 1
    funext p
    simp [Packet.isBallot, Function.comp, beq_eq_decide]
  · rename_i hcT
    rw [List.countP_eq_zero]
    intro p _ hb
    simp only [Function.comp, Packet.isBallot, decide_eq_true_eq] at hb
    exact hcT ⟨hb.1, hb.2.2⟩

theorem mem_ballotsOf {last : LogEntry} (h : pkt ∈ World.ballotsOf s T last) :
    ∃ p, p ≠ s ∧ pkt = ⟨s, p, .requestVote T s last.index last.term⟩ := by
  rw [World.ballotsOf, Multiset.mem_coe, List.mem_map] at h
  obtain ⟨p, hp, rfl⟩ := h
  exact ⟨p, mem_peers.mp hp, rfl⟩

theorem voteInv_elect (h : VoteInv w) (last : LogEntry) (candLog : Nat → Fin n → List LogEntry) :
    VoteInv
      { node := Function.update w.node s (becomeCandidate s (w.node s))
        net := World.ballotsOf s ((w.node s).currentTerm + 1) last + w.net
        hist := { w.hist with
          voted := fun T v c => w.hist.voted T v c ∨
            (T = (w.node s).currentTerm + 1 ∧ v = s ∧ c = s)
          candLog := candLog
          counted := Function.update w.hist.counted s {s} } } := by
  -- the new term is above everything the history knows of `s`
  have hnew : ∀ {c}, ¬ w.hist.voted ((w.node s).currentTerm + 1) s c := by
    intro c hv
    have := (h.votedTerm hv).1
    omega
  have hnode : ∀ i, i ≠ s →
      Function.update w.node s (becomeCandidate s (w.node s)) i = w.node i :=
    fun i hi => Function.update_of_ne hi ..
  have hmono : ∀ i, (w.node i).currentTerm ≤
      (Function.update w.node s (becomeCandidate s (w.node s)) i).currentTerm := by
    intro i
    by_cases his : i = s
    · subst his; rw [Function.update_self]; exact Nat.le_succ _
    · rw [hnode i his]
  constructor <;> dsimp only
  case selfVote =>
    intro i hi
    by_cases his : i = s
    · subst his; rw [Function.update_self]; rfl
    · rw [hnode i his] at hi ⊢; exact h.selfVote i hi
  case distinct =>
    intro pkt hmem
    rcases Multiset.mem_add.mp hmem with hb | hold
    · obtain ⟨p, hp, rfl⟩ := mem_ballotsOf hb
      exact hp.symm
    · exact h.distinct pkt hold
  case asks =>
    intro p q c T li lt hmem
    rcases Multiset.mem_add.mp hmem with hb | hold
    · obtain ⟨q', _, heq⟩ := mem_ballotsOf hb
      simp only [Packet.mk.injEq, Frame.requestVote.injEq] at heq
      obtain ⟨rfl, _, rfl, rfl, _⟩ := heq
      refine ⟨rfl, ?_⟩
      rw [Function.update_self]; exact Nat.le_refl _
    · exact ⟨(h.asks hold).1, Nat.le_trans (h.asks hold).2 (hmono p)⟩
  case grants =>
    intro v c T hmem
    rcases Multiset.mem_add.mp hmem with hb | hold
    · obtain ⟨_, _, heq⟩ := mem_ballotsOf hb
      simp at heq
    · exact Or.inl (h.grants hold)
  case appends =>
    intro p q l T pi pt lc es hmem
    rcases Multiset.mem_add.mp hmem with hb | hold
    · obtain ⟨_, _, heq⟩ := mem_ballotsOf hb
      simp at heq
    · exact h.appends hold
  case votedTerm =>
    rintro T v c (hv | ⟨rfl, rfl, rfl⟩)
    · exact ⟨Nat.le_trans (h.votedTerm hv).1 (hmono v), Nat.le_trans (h.votedTerm hv).2 (hmono c)⟩
    · rw [Function.update_self]; exact ⟨Nat.le_refl _, Nat.le_refl _⟩
  case leads =>
    intro i hi
    by_cases his : i = s
    · subst his; rw [Function.update_self] at hi; exact RaftState.noConfusion hi
    · rw [hnode i his] at hi ⊢; exact h.leads hi
  case winnerTerm =>
    intro T i hi
    refine ⟨Nat.le_trans (h.winnerTerm hi).1 (hmono i), ?_⟩
    by_cases his : i = s
    · subst his
      rw [Function.update_self]
      intro heq
      have h1 := (h.winnerTerm hi).1
      have h2 : (w.node i).currentTerm + 1 = T := heq
      omega
    · rw [hnode i his]; exact (h.winnerTerm hi).2
  case openUnique =>
    -- one old vote and the new one cannot be of the same term
    rintro T v c c' hopen (h₁ | ⟨rfl, rfl, rfl⟩) (h₂ | ⟨hT, hv, hc⟩)
    · exact h.openUnique hopen h₁ h₂
    · subst hT; subst hv; exact absurd h₁ hnew
    · exact absurd h₂ hnew
    · exact hc.symm
  case openHeld =>
    rintro T v c hopen hv hterm
    by_cases hvs : v = s
    · subst hvs
      rw [Function.update_self] at hterm ⊢
      rcases hv with hv | ⟨_, _, rfl⟩
      · exact absurd hv (hterm ▸ hnew)
      · rfl
    · rw [hnode v hvs] at hterm ⊢
      rcases hv with hv | ⟨_, hv', _⟩
      · exact h.openHeld hopen hv hterm
      · exact absurd hv' hvs
  case electors =>
    intro T l hl
    refine ⟨(h.electors hl).1, fun v hv => ?_⟩
    obtain ⟨hvl, honly, hfor⟩ := (h.electors hl).2 v hv
    refine ⟨Or.inl hvl, ?_, ?_⟩
    · rintro c (hc | ⟨rfl, rfl, _⟩)
      · exact honly c hc
      · exact absurd hvl hnew
    · by_cases hvs : v = s
      · subst hvs
        rw [Function.update_self]
        intro hterm
        exact absurd hvl (hterm ▸ hnew)
      · rw [hnode v hvs]; exact hfor
  case counted =>
    intro i hi
    by_cases his : i = s
    · subst his
      rw [Function.update_self, Function.update_self]
      refine ⟨?_, by rw [Finset.card_singleton]; rfl⟩
      intro v hv
      exact Or.inr ⟨rfl, Finset.mem_singleton.mp hv, rfl⟩
    · rw [hnode i his] at hi ⊢
      rw [Function.update_of_ne his]
      exact ⟨fun v hv => Or.inl ((h.counted hi).1 v hv), (h.counted hi).2⟩
  case ballots =>
    intro T c v
    rw [World.ballots, Multiset.countP_add, countP_ballotsOf]
    -- in the new term there were none; in every other one there are no new ones
    split
    · rename_i hcT
      obtain ⟨rfl, rfl⟩ := hcT
      have h0 := h.fresh v (c := s) (Nat.lt_succ_self _)
      rw [World.ballots] at h0
      rw [h0]
      exact List.nodup_iff_count_le_one.mp (peers_nodup s) v
    · rw [Nat.zero_add]; exact h.ballots T c v
  case spent =>
    intro c v hc hv
    rw [World.ballots, Multiset.countP_add, countP_ballotsOf]
    by_cases hcs : c = s
    · subst hcs
      rw [Function.update_self] at hv ⊢
      rw [Finset.mem_singleton.mp hv, if_pos ⟨rfl, rfl⟩,
        List.count_eq_zero_of_not_mem (fun hm => mem_peers.mp hm rfl), Nat.zero_add]
      exact h.fresh c (Nat.lt_succ_self _)
    · rw [hnode c hcs] at hc ⊢
      rw [Function.update_of_ne hcs] at hv
      rw [if_neg (fun hq => hcs hq.1.symm), Nat.zero_add]
      exact h.spent hc hv

/-! ## Votes -/

/-- A vote keeps its term single, or goes to the winner again: `votedFor_` decides. -/
theorem voteInv_grant (h : VoteInv w) {c : Fin n} {li lt : Nat} {rest : Multiset (Packet n)}
    (hnet : w.net = ⟨c, s, .requestVote T c li lt⟩ ::ₘ rest) (hT : (w.node s).currentTerm = T)
    (hfree : (w.node s).votedFor = none ∨ (w.node s).votedFor = some c) :
    VoteInv
      { node := Function.update w.node s { w.node s with votedFor := some c }
        net := ⟨s, c, .requestVoteResp T true⟩ ::ₘ rest
        hist := { w.hist with
          voted := fun T' v' c' => w.hist.voted T' v' c' ∨ (T' = T ∧ v' = s ∧ c' = c) } } := by
  have hask : (⟨c, s, .requestVote T c li lt⟩ : Packet n) ∈ w.net := by
    rw [hnet]; exact Multiset.mem_cons_self _ _
  have hcs : c ≠ s := h.distinct _ hask
  have hrest : ∀ {pkt}, pkt ∈ rest → pkt ∈ w.net := by
    intro pkt hmem; rw [hnet]; exact Multiset.mem_cons_of_mem hmem
  -- a candidate or leader has voted for itself, so it cannot be granting
  have hrole : (w.node s).state = .follower := by
    by_contra hne
    rw [h.selfVote s hne] at hfree
    rcases hfree with hq | hq
    · exact absurd hq (by simp)
    · exact hcs (Option.some.inj hq).symm
  have hsame : ∀ {c'}, (w.node s).votedFor = some c' → c' = c := by
    intro c' hc'
    rcases hfree with hq | hq
    · rw [hc'] at hq; exact absurd hq (by simp)
    · rw [hc'] at hq; exact Option.some.inj hq
  have hnode : ∀ i, i ≠ s →
      Function.update w.node s { w.node s with votedFor := some c } i = w.node i :=
    fun i hi => Function.update_of_ne hi ..
  have hterm : ∀ i, (Function.update w.node s { w.node s with votedFor := some c } i).currentTerm
      = (w.node i).currentTerm := by
    intro i
    by_cases his : i = s
    · subst his; rw [Function.update_self]
    · rw [hnode i his]
  have hstate : ∀ i, (Function.update w.node s { w.node s with votedFor := some c } i).state
      = (w.node i).state := by
    intro i
    by_cases his : i = s
    · subst his; rw [Function.update_self]
    · rw [hnode i his]
  -- request and grant are the same ballot
  have hballot : ∀ T' c' v',
      (⟨s, c, .requestVoteResp T true⟩ ::ₘ rest : Multiset (Packet n)).countP
        (fun pkt => pkt.isBallot T' c' v' = true) = w.ballots T' c' v' := by
    intro T' c' v'
    rw [World.ballots, hnet, Multiset.countP_cons, Multiset.countP_cons]
    congr 1
    simp only [Packet.isBallot, decide_eq_true_eq]
    congr 1
    exact propext ⟨fun ⟨a, b, d⟩ => ⟨b, a, d⟩, fun ⟨a, b, d⟩ => ⟨b, a, d⟩⟩
  constructor <;> dsimp only
  case selfVote =>
    intro i hi
    rw [hstate] at hi
    by_cases his : i = s
    · subst his; exact absurd hrole hi
    · rw [hnode i his]; exact h.selfVote i hi
  case distinct =>
    intro pkt hmem
    rcases Multiset.mem_cons.mp hmem with rfl | hold
    · exact hcs.symm
    · exact h.distinct pkt (hrest hold)
  case asks =>
    intro p q c' T' li' lt' hmem
    rw [hterm]
    rcases Multiset.mem_cons.mp hmem with heq | hold
    · simp at heq
    · exact h.asks (hrest hold)
  case grants =>
    intro v c' T' hmem
    rcases Multiset.mem_cons.mp hmem with heq | hold
    · simp only [Packet.mk.injEq, Frame.requestVoteResp.injEq, and_true] at heq
      exact Or.inr ⟨heq.2.2, heq.1, heq.2.1⟩
    · exact Or.inl (h.grants (hrest hold))
  case appends =>
    intro p q l T' pi pt lc es hmem
    rcases Multiset.mem_cons.mp hmem with heq | hold
    · simp at heq
    · exact h.appends (hrest hold)
  case votedTerm =>
    rintro T' v c' (hv | ⟨rfl, rfl, rfl⟩)
    · rw [hterm, hterm]; exact h.votedTerm hv
    · rw [hterm, hterm]; exact ⟨Nat.le_of_eq hT.symm, (h.asks hask).2⟩
  case leads =>
    intro i hi
    rw [hstate] at hi
    rw [hterm]; exact h.leads hi
  case winnerTerm =>
    intro T' i hi
    rw [hterm, hstate]; exact h.winnerTerm hi
  case openUnique =>
    -- `votedFor_` still holds an old vote of an open term, so the new one repeats it
    rintro T' v c₁ c₂ hopen (h₁ | ⟨rfl, rfl, rfl⟩) (h₂ | ⟨hT', hv, hc⟩)
    · exact h.openUnique hopen h₁ h₂
    · subst hT'; subst hv; subst hc; exact hsame (h.openHeld hopen h₁ hT)
    · exact (hsame (h.openHeld hopen h₂ hT)).symm
    · exact hc.symm
  case openHeld =>
    rintro T' v c' hopen hv ht
    rw [hterm] at ht
    by_cases hvs : v = s
    · subst hvs
      rw [Function.update_self]
      rcases hv with hv | ⟨_, _, rfl⟩
      · rw [hsame (h.openHeld hopen hv ht)]
      · rfl
    · rw [hnode v hvs]
      rcases hv with hv | ⟨_, hv', _⟩
      · exact h.openHeld hopen hv ht
      · exact absurd hv' hvs
  case electors =>
    intro T' l hl
    refine ⟨(h.electors hl).1, fun v hv => ?_⟩
    obtain ⟨hvl, honly, hfor⟩ := (h.electors hl).2 v hv
    refine ⟨Or.inl hvl, ?_, ?_⟩
    · rintro c' (hc | ⟨rfl, rfl, rfl⟩)
      · exact honly c' hc
      · exact (hsame (hfor hT)).symm
    · rw [hterm]
      intro ht
      by_cases hvs : v = s
      · subst hvs; rw [Function.update_self, hsame (hfor ht)]
      · rw [hnode v hvs]; exact hfor ht
  case counted =>
    -- the voter is a follower and counts nothing
    intro i hi
    rw [hstate] at hi
    have his : i ≠ s := by
      intro heq; subst heq; rw [hrole] at hi; exact RaftState.noConfusion hi
    rw [hnode i his]
    exact ⟨fun v hv => Or.inl ((h.counted hi).1 v hv), (h.counted hi).2⟩
  case ballots =>
    intro T' c' v'
    rw [World.ballots, hballot]; exact h.ballots T' c' v'
  case spent =>
    intro c' v hc hv
    rw [hstate] at hc
    rw [World.ballots, hterm, hballot]; exact h.spent hc hv

/-- Counting removes the ballot, and the voter was not counted before. -/
theorem voteInv_count (h : VoteInv w) {v : Fin n} {rest : Multiset (Packet n)}
    (hnet : w.net = ⟨v, s, .requestVoteResp T true⟩ ::ₘ rest)
    (hrole : (w.node s).state = .candidate) (hT : (w.node s).currentTerm = T)
    {node : Fin n → RaftNode n}
    (hself : node s = { w.node s with votesGranted := (w.node s).votesGranted + 1 })
    (hother : ∀ i, i ≠ s → node i = w.node i) :
    VoteInv
      { node := node
        net := rest
        hist := { w.hist with
          counted := Function.update w.hist.counted s (insert v (w.hist.counted s)) } } := by
  have hgrant : (⟨v, s, .requestVoteResp T true⟩ : Packet n) ∈ w.net := by
    rw [hnet]; exact Multiset.mem_cons_self _ _
  have hle : rest ≤ w.net := by rw [hnet]; exact Multiset.le_cons_self _ _
  have hone : rest.countP (fun pkt => pkt.isBallot T s v = true) + 1 = w.ballots T s v := by
    rw [World.ballots, hnet, Multiset.countP_cons_of_pos]
    simp [Packet.isBallot]
  have hfresh : v ∉ w.hist.counted s := by
    intro hv
    have := h.spent hrole hv
    rw [hT] at this
    omega
  have hlost := voteInv_lose h hle
  have hsame : ∀ i, (node i).state = (w.node i).state ∧
      (node i).currentTerm = (w.node i).currentTerm ∧
      (node i).votedFor = (w.node i).votedFor := by
    intro i
    by_cases his : i = s
    · subst his; rw [hself]; exact ⟨rfl, rfl, rfl⟩
    · rw [hother i his]; exact ⟨rfl, rfl, rfl⟩
  constructor <;> dsimp only <;> try simp only [(hsame _).1, (hsame _).2.1, (hsame _).2.2]
  case selfVote => exact hlost.selfVote
  case distinct => exact hlost.distinct
  case asks => exact hlost.asks
  case grants => exact hlost.grants
  case appends => exact hlost.appends
  case votedTerm => exact hlost.votedTerm
  case leads => exact hlost.leads
  case winnerTerm => exact hlost.winnerTerm
  case openUnique => exact hlost.openUnique
  case openHeld => exact hlost.openHeld
  case electors => exact hlost.electors
  case ballots => exact hlost.ballots
  case counted =>
    intro i hi
    by_cases his : i = s
    · subst his
      rw [hself, Function.update_self, Finset.card_insert_of_notMem hfresh]
      refine ⟨fun v' hv' => ?_, ?_⟩
      · rcases Finset.mem_insert.mp hv' with rfl | hold
        · rw [hT]; exact h.grants hgrant
        · exact (h.counted hi).1 v' hold
      · rw [(h.counted hi).2]
    · rw [hother i his, Function.update_of_ne his]; exact h.counted hi
  case spent =>
    intro c v' hc hv'
    by_cases hcs : c = s
    · subst hcs
      rw [Function.update_self] at hv'
      rcases Finset.mem_insert.mp hv' with rfl | hold
      · have hle := h.ballots T c v'
        show rest.countP (fun pkt => pkt.isBallot (w.node c).currentTerm c v' = true) = 0
        rw [hT]
        omega
      · exact hlost.spent hc hold
    · rw [Function.update_of_ne hcs] at hv'; exact hlost.spent hc hv'

/-- A second winner would share an elector with the first. -/
theorem VoteInv.open_of_majority (h : VoteInv w) (hrole : (w.node s).state = .candidate)
    (hmaj : n < (w.node s).votesGranted * 2) :
    Majority (w.hist.counted s) ∧ w.hist.winner (w.node s).currentTerm = none := by
  obtain ⟨hvoted, hcard⟩ := h.counted hrole
  have hQ : Majority (w.hist.counted s) := by
    rw [Majority, Fintype.card_fin, ← hcard]; omega
  refine ⟨hQ, ?_⟩
  cases hl : w.hist.winner (w.node s).currentTerm with
  | none => rfl
  | some l =>
      exfalso
      obtain ⟨v, hv, hv'⟩ := (h.electors hl).1.inter hQ
      have hsl : s = l := ((h.electors hl).2 v hv).2.1 s (hvoted v hv')
      subst hsl
      rw [(h.winnerTerm hl).2 rfl] at hrole
      exact RaftState.noConfusion hrole

theorem voteInv_win (h : VoteInv w) (hrole : (w.node s).state = .candidate)
    (hmaj : n < (w.node s).votesGranted * 2) (hstate : nd.state = .leader)
    (hterm : nd.currentTerm = (w.node s).currentTerm) (hvote : nd.votedFor = (w.node s).votedFor)
    {node : Fin n → RaftNode n} (hself : node s = nd) (hother : ∀ i, i ≠ s → node i = w.node i)
    (leaderLog : Nat → List LogEntry) (acked : Nat → Fin n → Nat) :
    VoteInv
      { node := node
        net := w.net
        hist := { w.hist with
          winner := Function.update w.hist.winner (w.node s).currentTerm (some s)
          leaderLog := leaderLog
          acked := acked
          electors := Function.update w.hist.electors (w.node s).currentTerm
            (w.hist.counted s) } } := by
  obtain ⟨hQ, hopen⟩ := h.open_of_majority hrole hmaj
  obtain ⟨hvoted, _⟩ := h.counted hrole
  have hterms : ∀ i, (node i).currentTerm = (w.node i).currentTerm ∧
      (node i).votedFor = (w.node i).votedFor := by
    intro i
    by_cases his : i = s
    · subst his; rw [hself]; exact ⟨hterm, hvote⟩
    · rw [hother i his]; exact ⟨rfl, rfl⟩
  have hcand : ∀ i, (node i).state = .candidate → i ≠ s := by
    rintro i hi rfl
    rw [hself, hstate] at hi
    exact RaftState.noConfusion hi
  -- winners recorded before keep their term
  have hwin : ∀ {T l}, w.hist.winner T = some l →
      Function.update w.hist.winner (w.node s).currentTerm (some s) T = some l := by
    intro T l hl
    rw [Function.update_of_ne]
    · exact hl
    · rintro rfl; rw [hopen] at hl; exact absurd hl (by simp)
  constructor <;> dsimp only <;> try simp only [(hterms _).1, (hterms _).2]
  case selfVote =>
    intro i hi
    refine h.selfVote i ?_
    by_cases his : i = s
    · subst his; rw [hrole]; exact fun hq => RaftState.noConfusion hq
    · rwa [hother i his] at hi
  case distinct => exact h.distinct
  case asks => exact h.asks
  case grants => exact h.grants
  case appends => intro p q l T pi pt lc es hmem; exact hwin (h.appends hmem)
  case votedTerm => exact h.votedTerm
  case leads =>
    intro i hi
    by_cases his : i = s
    · subst his; rw [Function.update_self]
    · rw [hother i his] at hi; exact hwin (h.leads hi)
  case winnerTerm =>
    intro T i hi
    by_cases hTs : T = (w.node s).currentTerm
    · subst hTs
      rw [Function.update_self] at hi
      obtain rfl := Option.some.inj hi
      rw [hself]
      exact ⟨Nat.le_refl _, fun _ => hstate⟩
    · rw [Function.update_of_ne hTs] at hi
      obtain ⟨hle, hlead⟩ := h.winnerTerm hi
      refine ⟨hle, fun heq => ?_⟩
      by_cases his : i = s
      · subst his; exact absurd heq.symm hTs
      · rw [hother i his]; exact hlead heq
  case openUnique =>
    intro T v c c' ho
    by_cases hTs : T = (w.node s).currentTerm
    · subst hTs; rw [Function.update_self] at ho; exact absurd ho (by simp)
    · rw [Function.update_of_ne hTs] at ho; exact h.openUnique ho
  case openHeld =>
    intro T v c ho
    by_cases hTs : T = (w.node s).currentTerm
    · subst hTs; rw [Function.update_self] at ho; exact absurd ho (by simp)
    · rw [Function.update_of_ne hTs] at ho; exact h.openHeld ho
  case electors =>
    intro T l hl
    by_cases hTs : T = (w.node s).currentTerm
    · subst hTs
      rw [Function.update_self] at hl ⊢
      obtain rfl := Option.some.inj hl
      -- until this moment the term was open, where each voter has one candidate
      refine ⟨hQ, fun v hv => ⟨hvoted v hv, ?_, ?_⟩⟩
      · intro c hc; exact h.openUnique hopen hc (hvoted v hv)
      · intro ht; exact h.openHeld hopen (hvoted v hv) ht
    · rw [Function.update_of_ne hTs] at hl ⊢; exact h.electors hl
  case counted =>
    intro i hi
    have his := hcand i hi
    rw [hother i his] at hi ⊢
    exact h.counted hi
  case ballots => exact h.ballots
  case spent => intro c v hc hv; rw [hother c (hcand c hc)] at hc; exact h.spent hc hv

/-! ## Every move -/

theorem voteInv_move {w' : World n} (h : VoteInv w) (hm : Move w w') : VoteInv w' := by
  cases hm with
  | lose hle => exact voteInv_lose h hle
  | refuse hpq hf =>
      rename_i p q f
      refine h.cons hpq ?_
      cases f with
      | requestVote => exact hf
      | requestVoteResp => exact hf
      | appendEntries => exact hf.elim
      | appendEntriesResp => trivial
  | bump hT => exact voteInv_bump h hT
  | stepDown hmem hT hrole => exact voteInv_stepDown h hmem hT hrole
  | follow => exact h.setNode_quiet rfl rfl rfl rfl
  | backoff => exact h.setNode_quiet rfl rfl rfl rfl
  | elect => exact voteInv_elect h _ _
  | grant hnet hT hfree => exact voteInv_grant h hnet hT hfree
  | count hnet hrole hT =>
      exact voteInv_count h hnet hrole hT (Function.update_self ..)
        (fun i hi => Function.update_of_ne hi ..)
  | win hrole hmaj hnd =>
      obtain ⟨last, _, rfl⟩ := becomeLeader_eq hnd
      refine voteInv_win h hrole hmaj ?_ ?_ ?_ (Function.update_self ..)
        (fun i hi => Function.update_of_ne hi ..) _ _ <;> rfl
  | append =>
      rename_i s e _ _ _
      have hnode : VoteInv (w.setNode s { w.node s with log := (w.node s).log ++ [e] }) :=
        h.setNode_quiet rfl rfl rfl rfl
      exact hnode.setHist rfl rfl rfl rfl
  | send hsq hlead hprev => exact h.cons hsq (h.leads hlead)
  | accept hmem hT hrole hprev =>
      rename_i s p _ T pi _ lc es
      have hps : p ≠ s := h.distinct _ hmem
      have hnode : VoteInv (w.setNode s { w.node s with
          log := mergeLog (w.node s).log (w.hist.payloadLog T pi es.length)
          commitIndex := max (w.node s).commitIndex lc
          lastApplied := max (w.node s).commitIndex lc }) :=
        h.setNode_quiet rfl rfl rfl rfl
      refine VoteInv.setHist (hnode.cons ?_ ?_) rfl rfl rfl rfl
      · exact hps.symm
      · trivial
  | confirm => exact h.setNode_quiet rfl rfl rfl rfl
  | commit => exact h.setNode_quiet rfl rfl rfl rfl

end CrossMachine.Raft
