import CrossMachine.Raft.Completeness

/-!
# Committed prefixes

A node's log up to `commitIndex_` is part of a chosen prefix, and so is what an
`AppendEntries` frame announces as committed. The clamp in `handleAppendEntries`
goes to the end of the follower's log rather than to the last new entry, which
would be wrong for a payload that stops short of the leader's commit index; no
payload does, because a leader always sends everything it has.

Chosen prefixes belong to every later winner, so merging a payload never touches
them: `commit_stable` is the reason `commitIndex_` never decreases and no entry at
or below it is ever replaced.
-/

namespace CrossMachine.Raft

open Lib

variable {n : Nat}

/-- Up to index `k`, `L` is part of a prefix chosen in a term up to `B`. -/
def History.Committed (h : History n) (B : Nat) (L : List LogEntry) (k : Nat) : Prop :=
  k < L.length ∧ (k = 0 ∨ ∃ U m, U ≤ B ∧ h.Chosen U m ∧ L.take (k + 1) <+: h.upTo U m)

theorem History.Chosen.mono {h h' : History n} {U m : Nat} (hc : h.Chosen U m)
    (hx : h.Extends h') (hack : ∀ T p, h.acked T p ≤ h'.acked T p) : h'.Chosen U m := by
  obtain ⟨h0, ho, Q, hQ, hall⟩ := hc
  exact ⟨h0, ho.mono hx, Q, hQ, fun p hp => Nat.le_trans (hall p hp) (hack U p)⟩

variable {k T : Nat} {w w' : World n} {s : Fin n}

theorem History.Committed.mono {h h' : History n} {B B' : Nat} {L L' : List LogEntry}
    (hc : h.Committed B L k) (hx : h.Extends h') (hack : ∀ T p, h.acked T p ≤ h'.acked T p)
    (hB : B ≤ B') (hL : L.take (k + 1) <+: L') : h'.Committed B' L' k := by
  obtain ⟨hk, hcase⟩ := hc
  have hlen : (L.take (k + 1)).length = k + 1 := by rw [List.length_take]; omega
  have hk' : k < L'.length := by
    have := hL.length_le
    omega
  refine ⟨hk', ?_⟩
  rcases hcase with h0 | ⟨U, m, hU, hch, hp⟩
  · exact Or.inl h0
  · refine Or.inr ⟨U, m, Nat.le_trans hU hB, hch.mono hx hack, ?_⟩
    rw [History.upTo_eq hx hch.2.1.lt, prefix_take_eq hL (by omega), List.take_take, Nat.min_self]
    exact hp

/-- Confirmations are never withdrawn. -/
theorem acked_mono (hv : VoteInv w) (hl : LogInv w) (ha : AckInv w) (hm : Move w w') (T : Nat)
    (p : Fin n) : w.hist.acked T p ≤ w'.hist.acked T p := by
  cases hm with
  | win hrole hmaj hnd =>
      rename_i s nd
      dsimp only
      by_cases hTp : T = (w.node s).currentTerm ∧ p = s
      · obtain ⟨rfl, rfl⟩ := hTp
        obtain ⟨_, hopen⟩ := hv.open_of_majority hrole hmaj
        rw [ha.none_open hl hopen (hl.candBound hrole).1]
        exact Nat.zero_le _
      · rw [set₂_ne _ _ hTp]
  | append hlead hterm hidx =>
      rename_i s e
      dsimp only
      by_cases hTp : T = (w.node s).currentTerm ∧ p = s
      · obtain ⟨rfl, rfl⟩ := hTp
        have := ha.winner (hv.leads hlead)
        rw [hl.leads hlead] at this
        rw [set₂_self]; omega
      · rw [set₂_ne _ _ hTp]
  | accept hmem hT hrole hprev =>
      rename_i s _ _ T' _ _ _ _
      dsimp only
      by_cases hTp : T = T' ∧ p = s
      · obtain ⟨rfl, rfl⟩ := hTp; rw [set₂_self]; exact Nat.le_max_left _ _
      · rw [set₂_ne _ _ hTp]
  | lose => exact Nat.le_refl _
  | refuse => exact Nat.le_refl _
  | bump => exact Nat.le_refl _
  | stepDown => exact Nat.le_refl _
  | follow => exact Nat.le_refl _
  | backoff => exact Nat.le_refl _
  | elect => exact Nat.le_refl _
  | grant => exact Nat.le_refl _
  | count => exact Nat.le_refl _
  | send => exact Nat.le_refl _
  | confirm => exact Nat.le_refl _
  | commit => exact Nat.le_refl _

structure CommitInv (w : World n) : Prop where
  nodes : ∀ s, w.hist.Committed (w.node s).currentTerm (w.node s).log (w.node s).commitIndex
  frames : ∀ {p q l T pi pt lc es},
    (⟨p, q, .appendEntries T l pi pt lc es⟩ : Packet n) ∈ w.net →
    w.hist.Committed T (w.hist.payloadLog T pi es.length) lc
  /-- Everything committed is drained in the same region. -/
  applied : ∀ s, (w.node s).lastApplied = (w.node s).commitIndex

theorem commitInv_init : CommitInv (initWorld n) where
  nodes := by intro s; exact ⟨Nat.zero_lt_one, Or.inl rfl⟩
  frames := by intro p q l T pi pt lc es h; simp [initWorld] at h
  applied := by intro s; rfl

/-- Two committed prefixes of one cluster lie on one line: each is a prefix of the
log of any winner at or above both. -/
theorem History.Committed.prefix_leaderLog (hv : VoteInv w) (he : ElectInv w.hist) {B : Nat}
    {L : List LogEntry} (hc : w.hist.Committed B L k) (hk : k ≠ 0) (hT : w.hist.winner T ≠ none)
    (hBT : B ≤ T) : L.take (k + 1) <+: w.hist.leaderLog T := by
  obtain ⟨_, h0 | ⟨U, m, hU, hch, hp⟩⟩ := hc
  · exact absurd h0 hk
  · exact hp.trans (chosen_prefix_le hv he hch hT (Nat.le_trans hU hBT))

/-- A payload spares the committed prefix of the node that merges it. -/
theorem committed_mergeLog (hv : VoteInv w) (hl : LogInv w) (he : ElectInv w.hist)
    (hc : CommitInv w) {p l : Fin n} {pi pt lc : Nat} {es : List (Nat × Command)}
    (hmem : (⟨p, s, .appendEntries T l pi pt lc es⟩ : Packet n) ∈ w.net)
    (hT : (w.node s).currentTerm ≤ T) :
    (w.node s).log.take ((w.node s).commitIndex + 1) <+:
      mergeLog (w.node s).log (w.hist.payloadLog T pi es.length) := by
  obtain ⟨hgood, hpre, _⟩ := hl.payload hv hmem
  have hwon : w.hist.winner T ≠ none := by rw [hv.appends hmem]; simp
  by_cases hk : (w.node s).commitIndex = 0
  · -- the sentinel is in every good log
    have hm := (hl.logs s).mergeLog_good hgood
    have hsame : (w.node s).log.take 1 = (mergeLog (w.node s).log
        (w.hist.payloadLog T pi es.length)).take 1 :=
      (hl.logs s).matching hm (hl.logs s).head hm.head rfl
    rw [hk, hsame]; exact List.take_prefix _ _
  · exact prefix_mergeLog (List.take_prefix _ _)
      ((hc.nodes s).prefix_leaderLog hv he hk hwon hT) hpre

/-- What `advanceCommitIndex` counts is the size of a set of nodes. -/
theorem majority_of_replicaCount {nd : RaftNode n} (hk : 0 < k)
    (hself : (nd.peerState s).matchIndex = 0) (hmaj : n < replicaCount nd k * 2) :
    Majority (insert s (Finset.univ.filter fun p => k ≤ (nd.peerState p).matchIndex)) := by
  have hslot : s ∉ Finset.univ.filter fun p => k ≤ (nd.peerState p).matchIndex := by
    rw [Finset.mem_filter, hself]; omega
  have hcount : (List.finRange n).countP (fun p => decide (k ≤ (nd.peerState p).matchIndex)) =
      (Finset.univ.filter fun p => k ≤ (nd.peerState p).matchIndex).card := by
    rw [List.countP_eq_length_filter,
      ← List.toFinset_card_of_nodup ((List.nodup_finRange n).filter _)]
    congr 1
    ext p; simp
  rw [replicaCount, hcount] at hmaj
  rw [Majority, Fintype.card_fin, Finset.card_insert_of_notMem hslot]
  omega

/-- The quorum of `advanceCommitIndex` is a majority that has confirmed the index. -/
theorem chosen_of_replicaCount (hv : VoteInv w) (hl : LogInv w) (ha : AckInv w) {e : LogEntry}
    (hlead : (w.node s).state = .leader) (hk : 0 < k) (he : (w.node s).log[k]? = some e)
    (hterm : e.term = (w.node s).currentTerm) (hmaj : n < replicaCount (w.node s) k * 2) :
    w.hist.Chosen (w.node s).currentTerm k := by
  have hlog := hl.leads hlead
  have hlt := lt_length_of_getElem? he
  refine ⟨hk, ⟨e, by rw [hlog]; exact he, hterm⟩,
    insert s (Finset.univ.filter fun p => k ≤ ((w.node s).peerState p).matchIndex), ?_, ?_⟩
  · exact majority_of_replicaCount hk (ha.selfSlot hlead) hmaj
  · intro p hp
    rcases Finset.mem_insert.mp hp with rfl | hp
    · have := ha.winner (hv.leads hlead)
      rw [hlog] at this
      omega
    · exact Nat.le_trans (Finset.mem_filter.mp hp).2 (ha.matched hlead p).1

/-! ## Every move -/

/-- **Committed entries stay.** A move never lowers a term or a commit index, and
leaves every entry at or below the commit index where it is. -/
theorem commit_stable (hv : VoteInv w) (hl : LogInv w) (he : ElectInv w.hist) (hc : CommitInv w)
    (hm : Move w w') (i : Fin n) :
    (w.node i).currentTerm ≤ (w'.node i).currentTerm ∧
      (w.node i).commitIndex ≤ (w'.node i).commitIndex ∧
      (w.node i).log.take ((w.node i).commitIndex + 1) <+: (w'.node i).log := by
  -- a move at `s` that keeps the log
  have hset : ∀ {s : Fin n} {nd : RaftNode n}, (w.node s).currentTerm ≤ nd.currentTerm →
      (w.node s).commitIndex ≤ nd.commitIndex →
      (w.node s).log.take ((w.node s).commitIndex + 1) <+: nd.log →
      (w.node i).currentTerm ≤ (Function.update w.node s nd i).currentTerm ∧
      (w.node i).commitIndex ≤ (Function.update w.node s nd i).commitIndex ∧
      (w.node i).log.take ((w.node i).commitIndex + 1) <+: (Function.update w.node s nd i).log := by
    intro s nd h1 h2 h3
    by_cases his : i = s
    · subst his; rw [Function.update_self]; exact ⟨h1, h2, h3⟩
    · rw [Function.update_of_ne his]; exact ⟨Nat.le_refl _, Nat.le_refl _, List.take_prefix _ _⟩
  cases hm with
  | lose => exact ⟨Nat.le_refl _, Nat.le_refl _, List.take_prefix _ _⟩
  | refuse => exact ⟨Nat.le_refl _, Nat.le_refl _, List.take_prefix _ _⟩
  | bump hT => exact hset (Nat.le_of_lt hT) (Nat.le_refl _) (List.take_prefix _ _)
  | stepDown _ hT => exact hset (Nat.le_of_eq hT) (Nat.le_refl _) (List.take_prefix _ _)
  | follow => exact hset (Nat.le_refl _) (Nat.le_refl _) (List.take_prefix _ _)
  | backoff => exact hset (Nat.le_refl _) (Nat.le_refl _) (List.take_prefix _ _)
  | elect => exact hset (Nat.le_succ _) (Nat.le_refl _) (List.take_prefix _ _)
  | grant => exact hset (Nat.le_refl _) (Nat.le_refl _) (List.take_prefix _ _)
  | count => exact hset (Nat.le_refl _) (Nat.le_refl _) (List.take_prefix _ _)
  | win hrole hmaj hnd =>
      obtain ⟨last, _, rfl⟩ := becomeLeader_eq hnd
      exact hset (Nat.le_refl _) (Nat.le_refl _) (List.take_prefix _ _)
  | append =>
      exact hset (Nat.le_refl _) (Nat.le_refl _)
        ((List.take_prefix _ _).trans (List.prefix_append _ _))
  | send => exact ⟨Nat.le_refl _, Nat.le_refl _, List.take_prefix _ _⟩
  | accept hmem hT =>
      exact hset (Nat.le_refl _) (Nat.le_max_left _ _)
        (committed_mergeLog hv hl he hc hmem (Nat.le_of_eq hT))
  | confirm => exact hset (Nat.le_refl _) (Nat.le_refl _) (List.take_prefix _ _)
  | commit _ hk => exact hset (Nat.le_refl _) (Nat.le_of_lt hk) (List.take_prefix _ _)

theorem commitInv_nodes (hv : VoteInv w) (hl : LogInv w) (ha : AckInv w) (he : ElectInv w.hist)
    (hc : CommitInv w) (hm : Move w w') (i : Fin n) :
    w'.hist.Committed (w'.node i).currentTerm (w'.node i).log (w'.node i).commitIndex := by
  have hx := move_extends hv hl hm
  have hack := acked_mono hv hl ha hm
  obtain ⟨hterm, hraise, hpre⟩ := commit_stable hv hl he hc hm i
  -- the old commit index stays committed; two moves raise it
  have hold := (hc.nodes i).mono hx hack hterm hpre
  have hset : ∀ {s : Fin n} {nd : RaftNode n}, w'.node = Function.update w.node s nd →
      nd.commitIndex = (w.node s).commitIndex →
      (w'.node i).commitIndex = (w.node i).commitIndex := by
    intro s nd hnode hci
    rw [hnode]
    by_cases his : i = s
    · subst his; rw [Function.update_self]; exact hci
    · rw [Function.update_of_ne his]
  cases hm with
  | accept hmem hT hrole hprev =>
      rename_i s p l T pi pt lc es
      dsimp only at hold ⊢
      by_cases his : i = s
      · subst his
        rw [Function.update_self] at hold ⊢
        rcases Nat.le_total lc (w.node i).commitIndex with hle | hle
        · rw [Nat.max_eq_left hle]; exact hold
        · rw [Nat.max_eq_right hle]
          exact (hc.frames hmem).mono hx hack (Nat.le_of_eq hT.symm)
            ((List.take_prefix _ _).trans (payload_prefix_mergeLog _ _))
      · rw [Function.update_of_ne his] at hold ⊢; exact hold
  | commit hlead hk he' hterm' hmaj =>
      rename_i s k e
      by_cases his : i = s
      · subst his
        rw [World.setNode_self]
        have hch := chosen_of_replicaCount hv hl ha hlead (by omega) he' hterm' hmaj
        refine ⟨lt_length_of_getElem? he', Or.inr ⟨_, k, Nat.le_refl _, hch, ?_⟩⟩
        rw [History.upTo]
        show _ <+: (w.hist.leaderLog _).take _
        rw [hl.leads hlead]
      · rw [World.setNode_ne _ _ his] at hold ⊢; exact hold
  | win hrole hmaj hnd =>
      rename_i s nd
      obtain ⟨last, _, rfl⟩ := becomeLeader_eq hnd
      rw [hset (s := s) rfl rfl]; exact hold
  | lose => exact hold
  | refuse => exact hold
  | send => exact hold
  | bump => rw [hset rfl rfl]; exact hold
  | stepDown => rw [hset rfl rfl]; exact hold
  | follow => rw [hset rfl rfl]; exact hold
  | backoff => rw [hset rfl rfl]; exact hold
  | elect => rw [hset rfl rfl]; exact hold
  | grant => rw [hset rfl rfl]; exact hold
  | count => rw [hset rfl rfl]; exact hold
  | append => rw [hset rfl rfl]; exact hold
  | confirm => rw [hset rfl rfl]; exact hold

theorem commitInv_frames (hv : VoteInv w) (hl : LogInv w) (ha : AckInv w) (hc : CommitInv w)
    (hm : Move w w') {p q l : Fin n} {pi pt lc : Nat} {es : List (Nat × Command)}
    (hmem : (⟨p, q, .appendEntries T l pi pt lc es⟩ : Packet n) ∈ w'.net) :
    w'.hist.Committed T (w'.hist.payloadLog T pi es.length) lc := by
  have hx := move_extends hv hl hm
  have hack := acked_mono hv hl ha hm
  have hold : (⟨p, q, .appendEntries T l pi pt lc es⟩ : Packet n) ∈ w.net →
      w'.hist.Committed T (w'.hist.payloadLog T pi es.length) lc := by
    intro hmem'
    refine (hc.frames hmem').mono hx hack (Nat.le_refl _) ?_
    refine (List.take_prefix _ _).trans ?_
    have hlen := (hl.frames _ hmem').1
    rw [History.payloadLog, History.payloadLog, prefix_take_eq (hx.grows T) hlen]
  cases hm with
  | lose hle => exact hold (Multiset.mem_of_le hle hmem)
  | refuse hpq hf =>
      rcases Multiset.mem_cons.mp hmem with heq | hmem'
      · cases heq; exact hf.elim
      · exact hold hmem'
  | elect =>
      rcases Multiset.mem_add.mp hmem with hb | hmem'
      · obtain ⟨_, _, heq⟩ := mem_ballotsOf hb
        simp at heq
      · exact hold hmem'
  | grant hnet =>
      rcases Multiset.mem_cons.mp hmem with heq | hmem'
      · simp at heq
      · exact hold (by rw [hnet]; exact Multiset.mem_cons_of_mem hmem')
  | count hnet => exact hold (by rw [hnet]; exact Multiset.mem_cons_of_mem hmem)
  | send hsq hlead hprev =>
      rename_i s q' prev pi'
      rcases Multiset.mem_cons.mp hmem with heq | hmem'
      · -- the payload spells out the leader's whole log
        simp only [Packet.mk.injEq, Frame.appendEntries.injEq] at heq
        obtain ⟨hp, _, hT, _, hpi, _, hlc, hes⟩ := heq
        subst hp; subst hT; subst hpi; subst hlc; subst hes
        have hlt := lt_length_of_getElem? hprev
        have hall : w.hist.payloadLog (w.node p).currentTerm pi
            (((w.node p).log.drop (pi + 1)).map fun e => (e.term, e.command)).length
              = (w.node p).log := by
          rw [History.payloadLog, hl.leads hlead, List.take_of_length_le]
          rw [List.length_map, List.length_drop]; omega
        show w.hist.Committed _ _ _
        rw [hall]; exact hc.nodes p
      · exact hold hmem'
  | accept hmem₀ =>
      rcases Multiset.mem_cons.mp hmem with heq | hmem'
      · simp at heq
      · exact hold hmem'
  | win => exact hold hmem
  | append => exact hold hmem
  | bump => exact hold hmem
  | stepDown => exact hold hmem
  | follow => exact hold hmem
  | backoff => exact hold hmem
  | confirm => exact hold hmem
  | commit => exact hold hmem

theorem commitInv_applied (hc : CommitInv w) (hm : Move w w') (i : Fin n) :
    (w'.node i).lastApplied = (w'.node i).commitIndex := by
  have hset : ∀ {s : Fin n} {nd : RaftNode n}, nd.lastApplied = nd.commitIndex →
      (Function.update w.node s nd i).lastApplied
        = (Function.update w.node s nd i).commitIndex := by
    intro s nd hnd
    by_cases his : i = s
    · subst his; rw [Function.update_self]; exact hnd
    · rw [Function.update_of_ne his]; exact hc.applied i
  cases hm with
  | win hrole hmaj hnd =>
      obtain ⟨last, _, rfl⟩ := becomeLeader_eq hnd
      exact hset (hc.applied _)
  | accept => exact hset rfl
  | commit => exact hset rfl
  | lose => exact hc.applied i
  | refuse => exact hc.applied i
  | send => exact hc.applied i
  | bump => exact hset (hc.applied _)
  | stepDown => exact hset (hc.applied _)
  | follow => exact hset (hc.applied _)
  | backoff => exact hset (hc.applied _)
  | elect => exact hset (hc.applied _)
  | grant => exact hset (hc.applied _)
  | count => exact hset (hc.applied _)
  | append => exact hset (hc.applied _)
  | confirm => exact hset (hc.applied _)

/-! ## The whole invariant -/

structure Inv (w : World n) : Prop where
  vote : VoteInv w
  log : LogInv w
  ack : AckInv w
  elect : ElectInv w.hist
  commit : CommitInv w

/-- A term in which something was chosen has a winner. -/
theorem History.Chosen.won (hl : LogInv w) {U m : Nat} (hc : w.hist.Chosen U m) :
    w.hist.winner U ≠ none := by
  obtain ⟨h0, ho, _⟩ := hc
  intro hopen
  have hlt := ho.lt
  rw [hl.unwon hopen] at hlt
  split at hlt
  · rw [List.length_singleton] at hlt; omega
  · exact absurd hlt (by simp)

/-- **Committed prefixes agree.** Of two chosen prefixes, the one of the later term
continues the other. -/
theorem Inv.agree (h : Inv w) {t : Fin n} {i : Nat} (hs : i ≤ (w.node s).commitIndex)
    (ht : i ≤ (w.node t).commitIndex) : (w.node s).log[i]? = (w.node t).log[i]? := by
  by_cases h0 : i = 0
  · subst h0; rw [(h.log.logs s).head, (h.log.logs t).head]
  · obtain ⟨_, h0' | ⟨U, m, _, hc, hp⟩⟩ := h.commit.nodes s
    · omega
    obtain ⟨_, h0' | ⟨U', m', _, hc', hp'⟩⟩ := h.commit.nodes t
    · omega
    -- both prefixes are prefixes of the log of the later of the two leaders
    obtain ⟨K, hK, hK'⟩ : ∃ K, w.hist.upTo U m <+: K ∧ w.hist.upTo U' m' <+: K := by
      rcases Nat.le_total U U' with hle | hle
      · exact ⟨_, chosen_prefix_le h.vote h.elect hc (hc'.won h.log) hle, List.take_prefix _ _⟩
      · exact ⟨_, List.take_prefix _ _, chosen_prefix_le h.vote h.elect hc' (hc.won h.log) hle⟩
    have hsame := prefix_take_eq (hp.trans hK) (k := i + 1) (by
      rw [List.length_take]; have := (h.commit.nodes s).1; omega)
    have hsame' := prefix_take_eq (hp'.trans hK') (k := i + 1) (by
      rw [List.length_take]; have := (h.commit.nodes t).1; omega)
    rw [hsame, List.take_take, List.take_take, Nat.min_eq_left (by omega),
      Nat.min_eq_left (by omega)] at hsame'
    have := congrArg (·[i]?) hsame'
    simpa only [List.getElem?_take_of_succ] using this

theorem inv_init : Inv (initWorld n) :=
  ⟨voteInv_init, logInv_init, ackInv_init, electInv_init, commitInv_init⟩

/-- **Every move keeps the invariant.** -/
theorem inv_move (h : Inv w) (hm : Move w w') : Inv w' where
  vote := voteInv_move h.vote hm
  log := logInv_move h.vote h.log hm
  ack := ackInv_move h.vote h.log h.ack hm
  elect := electInv_move h.vote h.log h.ack h.elect hm
  commit :=
    { nodes := commitInv_nodes h.vote h.log h.ack h.elect h.commit hm
      frames := commitInv_frames h.vote h.log h.ack h.commit hm
      applied := commitInv_applied h.commit hm }

/-- What any number of moves keeps: the invariant, the history, the committed entries. -/
theorem inv_moves (h : Inv w) (hm : Moves w w') :
    Inv w' ∧ w.hist.Extends w'.hist ∧ (∀ T p, w.hist.acked T p ≤ w'.hist.acked T p) ∧
      ∀ i, (w.node i).currentTerm ≤ (w'.node i).currentTerm ∧
        (w.node i).commitIndex ≤ (w'.node i).commitIndex ∧
        (w.node i).log.take ((w.node i).commitIndex + 1) <+: (w'.node i).log := by
  induction hm with
  | refl =>
      exact ⟨h, History.Extends.refl _, fun _ _ => Nat.le_refl _,
        fun i => ⟨Nat.le_refl _, Nat.le_refl _, List.take_prefix _ _⟩⟩
  | tail _ hm ih =>
      rename_i w₁ w₂
      obtain ⟨h₁, hx, hack, hst⟩ := ih
      have hs := commit_stable h₁.vote h₁.log h₁.elect h₁.commit hm
      refine ⟨inv_move h₁ hm, hx.trans (move_extends h₁.vote h₁.log hm),
        fun T p => Nat.le_trans (hack T p) (acked_mono h₁.vote h₁.log h₁.ack hm T p), fun i => ?_⟩
      refine ⟨Nat.le_trans (hst i).1 (hs i).1, Nat.le_trans (hst i).2.1 (hs i).2.1, ?_⟩
      refine List.IsPrefix.trans ?_ (hs i).2.2
      rw [List.prefix_take_iff]
      refine ⟨(hst i).2.2, ?_⟩
      have := (hst i).2.1
      rw [List.length_take]
      omega

end CrossMachine.Raft
