import CrossMachine.Lib.Instances
import CrossMachine.Raft.Safety

/-!
# What is drained, and what is delivered

A node drains the entries it has just committed under the lock, and passes them to
`onCommit_` after it has released it. The first is part of the state machine: what a
node has drained is its log from index 1 to `lastApplied_`, entry by entry, and any
two nodes agree. The second is a matter of which thread gets there first.
-/

namespace CrossMachine.Raft

open Lib

variable {n : Nat}

/-- The entries that `s` drained, in order. -/
def drainedBy (s : Fin n) (es : List (Event n)) : List LogEntry :=
  es.filterMap fun
    | .drained t e => if t = s then some e else none
    | _ => none

/-- The entries that `onCommit_` of `s` was invoked with, in order. -/
def deliveredBy (s : Fin n) (es : List (Event n)) : List LogEntry :=
  es.filterMap fun
    | .onCommit t e => if t = s then some e else none
    | _ => none

variable {s p : Fin n} {es ev : List (Event n)} {e : LogEntry} {σ σ' : Cluster n}

theorem mem_drainedBy : e ∈ drainedBy s es ↔ Event.drained s e ∈ es := by
  rw [drainedBy, List.mem_filterMap]
  constructor
  · intro ⟨ev, hev, heq⟩
    cases ev with
    | drained t e' =>
        dsimp only at heq
        split at heq
        · rename_i hts
          rw [← hts, ← Option.some.inj heq]; exact hev
        · exact absurd heq (by simp)
    | granted => exact absurd heq (by simp)
    | onCommit => exact absurd heq (by simp)
    | returned => exact absurd heq (by simp)
  · intro h
    exact ⟨_, h, by simp⟩

theorem drainedBy_append (s : Fin n) (es es' : List (Event n)) :
    drainedBy s (es ++ es') = drainedBy s es ++ drainedBy s es' := List.filterMap_append

theorem deliveredBy_append (s : Fin n) (es es' : List (Event n)) :
    deliveredBy s (es ++ es') = deliveredBy s es ++ deliveredBy s es' := List.filterMap_append

theorem voteEvent_quiet (s t : Fin n) (f : Frame n) (reply : Option (Frame n)) :
    drainedBy t (Cluster.voteEvent s f reply) = [] ∧
      deliveredBy t (Cluster.voteEvent s f reply) = [] := by
  unfold Cluster.voteEvent
  split <;> exact ⟨rfl, rfl⟩

theorem drainedBy_map (s t : Fin n) (out : List LogEntry) :
    drainedBy t (out.map (Event.drained s)) = if s = t then out else [] := by
  rw [drainedBy, List.filterMap_map]
  split
  · rename_i hst
    subst hst
    simp
  · rename_i hst
    rw [List.filterMap_eq_nil_iff]
    intro e _
    simp [hst]

theorem deliveredBy_drained (s t : Fin n) (out : List LogEntry) :
    deliveredBy t (out.map (Event.drained s)) = [] := by
  rw [deliveredBy, List.filterMap_map, List.filterMap_eq_nil_iff]
  intro e _
  rfl

/-! ## Draining -/

/-- The entries of a log in the places from `a + 1` to `b`. -/
def between (log : List LogEntry) (a b : Nat) : List LogEntry := (log.take (b + 1)).drop (a + 1)

theorem between_self (log : List LogEntry) (a : Nat) : between log a a = [] := by
  rw [between, List.drop_eq_nil_iff, List.length_take]
  exact Nat.min_le_left _ _

theorem drain_between {nd nd' : RaftNode n} {out : List LogEntry}
    (h : drain nd = some (nd', out)) : out = between nd'.log nd.lastApplied nd'.lastApplied := by
  obtain ⟨rfl, rfl, _⟩ := drain_eq h
  rw [between, List.drop_take]
  congr 1
  dsimp only
  omega

/-- A handler drains what its `lastApplied_` moves past. -/
theorem receive_drained {f : Frame n} {nd nd' : RaftNode n} {out : List LogEntry}
    {reply : Option (Frame n)} (h : receive s nd p f = some (nd', out, reply)) :
    out = between nd'.log nd.lastApplied nd'.lastApplied := by
  -- a handler that drains nothing leaves `lastApplied_` alone
  have hnone : nd'.lastApplied = nd.lastApplied → out = [] →
      out = between nd'.log nd.lastApplied nd'.lastApplied := by
    intro hla hout
    rw [hla, between_self, hout]
  cases receives_of_receive h with
  | requestVote hr =>
      rename_i T li lt c r
      have hmeet : (meetTerm nd T).lastApplied = nd.lastApplied := by
        unfold meetTerm; split <;> rfl
      rcases handleRequestVote_cases hr with ⟨rfl, _⟩ | ⟨_, _, _, rfl, _⟩
      · exact hnone hmeet rfl
      · exact hnone hmeet rfl
  | requestVoteResp hr =>
      rcases handleRequestVoteResponse_cases hr with ⟨_, rfl⟩ | ⟨_, rfl⟩ | ⟨_, _, _, rfl | ⟨_, hl⟩⟩
      · exact hnone rfl rfl
      · exact hnone rfl rfl
      · exact hnone rfl rfl
      · obtain ⟨last, _, rfl⟩ := becomeLeader_eq hl
        exact hnone rfl rfl
  | appendEntries hr =>
      rename_i T pi pt lc l es r
      rcases handleAppendEntries_cases hr with
        ⟨_, rfl, rfl, _⟩ | ⟨hT, _, hdrain, _⟩ | ⟨hT, _, nd₂, hacc, hdrain, _⟩
      · exact hnone rfl rfl
      · rw [drain_between hdrain, (meetLeader_fields hT).2.2.2.2]
      · have hla : nd₂.lastApplied = (meetLeader nd T l).lastApplied := by
          rcases acceptEntries_eq hacc with ⟨_, _, _, rfl⟩ | ⟨_, rfl⟩ <;> rfl
        rw [drain_between hdrain, hla, (meetLeader_fields hT).2.2.2.2]
  | appendEntriesResp hr =>
      rcases handleAppendEntriesResponse_cases hr with
        ⟨_, rfl, rfl⟩ | ⟨_, rfl, rfl⟩ | ⟨_, _, _, nd₂, hadv, hdrain⟩ | ⟨_, _, _, _, rfl, rfl⟩
      · exact hnone rfl rfl
      · exact hnone rfl rfl
      · have hla : nd₂.lastApplied = nd.lastApplied := by
          rcases advanceCommitIndex_cases hadv with rfl | ⟨_, _, _, _, _, _, rfl⟩ <;> rfl
        rw [drain_between hdrain, hla]
      · exact hnone rfl rfl

/-- What a step drains on `i` is what its `lastApplied_` moves past. -/
theorem step_drained {a : Action n} (hstep : σ.step a = some (σ', ev)) (i : Fin n) :
    drainedBy i ev = between (σ'.node i).log (σ.node i).lastApplied (σ'.node i).lastApplied := by
  -- steps that see nothing and keep `lastApplied_`
  have hquiet : ∀ {nd : RaftNode n}, nd.lastApplied = (σ.node i).lastApplied →
      [] = between nd.log (σ.node i).lastApplied nd.lastApplied := by
    intro nd hla
    rw [hla, between_self]
  cases happens_of_step hstep with
  | heartbeat => exact hquiet rfl
  | timeout => exact hquiet rfl
  | idle => exact hquiet rfl
  | write => rw [Cluster.setTasks_node]; exact hquiet rfl
  | skip => rw [Cluster.setTasks_node]; exact hquiet rfl
  | prepare => rw [Cluster.setTasks_node]; exact hquiet rfl
  | elect ht hs =>
      rename_i s θ nd out ts
      rw [Cluster.setTasks_node]
      by_cases his : i = s
      · subst his
        rw [Cluster.setNode_self]
        refine hquiet ?_
        obtain ⟨last, _, ⟨_, hlead, _⟩ | ⟨_, rfl, _⟩⟩ := startElection_cases hs
        · obtain ⟨_, _, rfl⟩ := becomeLeader_eq hlead
          rfl
        · rfl
      · rw [Cluster.setNode_ne _ _ his]; exact hquiet rfl
  | callback => rw [Cluster.setTasks_node]; exact hquiet rfl
  | handle hidle hchan hr =>
      rename_i s p f rest nd out reply
      rw [Cluster.setReceiver_node, drainedBy_append, (voteEvent_quiet s i f reply).1,
        List.append_nil, drainedBy_map]
      by_cases his : s = i
      · subst his
        rw [Cluster.setNode_self, if_pos rfl]; exact receive_drained hr
      · rw [Cluster.setNode_ne _ _ (Ne.symm his), if_neg his]; exact hquiet rfl
  | reject => exact hquiet rfl
  | accept hp =>
      rename_i s c nd e
      rw [Cluster.setCalls_node]
      by_cases his : i = s
      · subst his
        rw [Cluster.setNode_self]
        refine hquiet ?_
        rcases proposeRegion_cases hp with ⟨_, rfl, _⟩ | ⟨_, _, _, _, _, rfl, _⟩ <;> rfl
      · rw [Cluster.setNode_ne _ _ his]; exact hquiet rfl
  | finish => exact hquiet rfl
  | lose => exact hquiet rfl

/-- Everything committed is drained before the lock is released. -/
theorem lastApplied_eq (hσ : Reaches es σ) (s : Fin n) :
    (σ.node s).lastApplied = (σ.node s).commitIndex := by
  obtain ⟨w, hw⟩ := reaches_sim hσ
  rw [← hw.node]; exact hw.inv.commit.applied s

theorem commitIndex_lt (hσ : Reaches es σ) (s : Fin n) :
    (σ.node s).commitIndex < (σ.node s).log.length := by
  obtain ⟨w, hw⟩ := reaches_sim hσ
  rw [← hw.node]; exact (hw.inv.commit.nodes s).1

/-- Ranges of a log compose, when the log below the seam is the same. -/
theorem between_append {L L' : List LogEntry} {a b c : Nat} (hab : a ≤ b) (hbc : b ≤ c)
    (hL : b < L.length) (hp : L.take (b + 1) <+: L') :
    between L a b ++ between L' b c = between L' a c := by
  have hlen : (L.take (b + 1)).length = b + 1 := by rw [List.length_take]; omega
  have hsame : L'.take (b + 1) = L.take (b + 1) := by
    rw [prefix_take_eq hp (Nat.le_of_eq hlen.symm), List.take_take, Nat.min_self]
  have hsplit : L'.take (c + 1) = L'.take (b + 1) ++ (L'.take (c + 1)).drop (b + 1) := by
    conv_lhs => rw [← List.take_append_drop (b + 1) (L'.take (c + 1))]
    rw [List.take_take, Nat.min_eq_left (by omega)]
  rw [between, between, between]
  conv_rhs => rw [hsplit, hsame, List.drop_append_of_le_length (by omega)]

/-- **A node has drained its log up to `lastApplied_`**, every entry once and in order. -/
theorem drainedBy_eq (hσ : Reaches es σ) (s : Fin n) :
    drainedBy s es = between (σ.node s).log 0 (σ.node s).lastApplied := by
  induction hσ with
  | refl => rfl
  | tail hσ hok hstep ih =>
      rename_i es ev σ σ' a
      have hσ' : Reaches (es ++ ev) σ' := .tail hσ hok hstep
      obtain ⟨_, hci, hp⟩ := run_stable hσ (.tail .refl trivial hstep) s
      rw [drainedBy_append, ih, step_drained hstep]
      rw [lastApplied_eq hσ, lastApplied_eq hσ']
      exact between_append (Nat.zero_le _) hci (commitIndex_lt hσ s) hp

theorem mem_between {L : List LogEntry} {k : Nat} :
    e ∈ between L 0 k ↔ ∃ i, 1 ≤ i ∧ i ≤ k ∧ L[i]? = some e := by
  rw [between, List.mem_iff_getElem?]
  constructor
  · intro ⟨j, hj⟩
    rw [List.getElem?_drop] at hj
    have hlt := lt_length_of_getElem? hj
    rw [List.length_take] at hlt
    rw [List.getElem?_take_of_lt (by omega)] at hj
    exact ⟨0 + 1 + j, by omega, by omega, hj⟩
  · intro ⟨i, hpos, hle, hi⟩
    refine ⟨i - 1, ?_⟩
    rw [List.getElem?_drop, List.getElem?_take_of_lt (by omega),
      show 0 + 1 + (i - 1) = i by omega, hi]

/-- What is drained is committed, and sits in the log under its index. -/
theorem drained_iff (hσ : Reaches es σ) : Event.drained s e ∈ es ↔
      1 ≤ e.index ∧ e.index ≤ (σ.node s).commitIndex ∧ (σ.node s).log[e.index]? = some e := by
  rw [← mem_drainedBy, drainedBy_eq hσ, mem_between, lastApplied_eq hσ]
  constructor
  · intro ⟨i, hpos, hle, hi⟩
    obtain rfl := (log_entry hσ hi)
    exact ⟨hpos, hle, hi⟩
  · intro ⟨hpos, hle, hi⟩
    exact ⟨_, hpos, hle, hi⟩

/-- **State-machine safety.** The indices a node has drained are those up to its
`lastApplied_`; two nodes that have drained an index drained the same entry; and what
is at or below a node's commit index stays in its log for the rest of the run. -/
theorem state_machine_safety {σ : Cluster n} {es : List (Event n)} (hσ : Reaches es σ) :
    (∀ (s : Fin n) (i : Nat), (∃ e, Event.drained s e ∈ es ∧ e.index = i) ↔
      1 ≤ i ∧ i ≤ (σ.node s).lastApplied) ∧
    (∀ (s t : Fin n) (e e' : LogEntry), Event.drained s e ∈ es → Event.drained t e' ∈ es →
      e.index = e'.index → e.term = e'.term ∧ e.command = e'.command) ∧
    ∀ (σ' : Cluster n) (es' : List (Event n)), Run Cluster.step Any σ es' σ' →
      ∀ (s : Fin n) (i : Nat), i ≤ (σ.node s).commitIndex →
        ∃ e, (σ.node s).log[i]? = some e ∧ (σ'.node s).log[i]? = some e := by
  refine ⟨?_, ?_, ?_⟩
  · intro s i
    rw [lastApplied_eq hσ]
    constructor
    · intro ⟨e, he, hi⟩
      obtain ⟨hpos, hle, _⟩ := (drained_iff hσ).mp he
      exact ⟨hi ▸ hpos, hi ▸ hle⟩
    · intro ⟨hpos, hle⟩
      have hget := List.getElem?_eq_getElem (Nat.lt_of_le_of_lt hle (commitIndex_lt hσ s))
      have hidx := log_entry hσ hget
      refine ⟨_, (drained_iff hσ).mpr ?_, hidx⟩
      rw [hidx]; exact ⟨hpos, hle, hget⟩
  · intro s t e e' he he' hi
    obtain ⟨_, hle, hget⟩ := (drained_iff hσ).mp he
    obtain ⟨_, hle', hget'⟩ := (drained_iff hσ).mp he'
    rw [hi] at hle hget
    rw [committed_agree hσ hle hle', hget'] at hget
    obtain rfl := Option.some.inj hget
    exact ⟨rfl, rfl⟩
  · intro σ' es' hrun s i hi
    have hlt := Nat.lt_of_le_of_lt hi (commitIndex_lt hσ s)
    refine ⟨_, List.getElem?_eq_getElem hlt, ?_⟩
    refine prefix_getElem? (run_stable hσ hrun s).2.2 ?_
    rw [List.getElem?_take_of_lt (by omega), List.getElem?_eq_getElem hlt]

/-- Node 0 commits, and a heartbeat tells node 1. -/
def commitFirst : List (Action 3) :=
  replicateFirst ++ ([.recv 0 1, .tick 0 false, .run 0 .ticker, .run 0 .ticker, .recv 1 0] :
    List (Action 3))

theorem state_machine_safety_three : ∃ (σ : Cluster 3) (es : List (Event 3)) (e e' : LogEntry),
    Reaches es σ ∧ Event.drained 0 e ∈ es ∧ Event.drained 1 e' ∈ es ∧ e.index = e'.index ∧
      e.term = e'.term ∧ e.command = e'.command := by
  have hplay : Leads Cluster.step Any (initCluster 3) commitFirst fun _ es =>
      Event.drained 0 { term := 1, index := 1, command := [7] } ∈ es ∧
        Event.drained 1 { term := 1, index := 1, command := [7] } ∈ es := by
    decide +kernel
  obtain ⟨σ, es, hσ, h₀, h₁⟩ := hplay.run
  exact ⟨σ, es, _, _, hσ, h₀, h₁, rfl, (state_machine_safety hσ).2.1 0 1 _ _ h₀ h₁ rfl⟩

/-! ## What `propose` promises -/

/-- `e` is the entry committed at its index: `s` has drained it, and whoever drains that
index drains `e`. -/
def CommittedAs (es : List (Event n)) (s : Fin n) (e : LogEntry) : Prop :=
  Event.drained s e ∈ es ∧
    ∀ (t : Fin n) (x : LogEntry), Event.drained t x ∈ es → x.index = e.index → x = e

/-- When a `propose` call returns true, its node still has an entry of the term of the
call at the index of the call. -/
def KeepsEntry (σ : Cluster n) : Action n → Prop
  | .finish s k => ∀ c ∈ (σ.calls s)[k]?, c.entry.index ≤ (σ.node s).commitIndex →
      ((σ.node s).log[c.entry.index]?).map LogEntry.term = some c.entry.term
  | _ => True

instance (σ : Cluster n) : (a : Action n) → Decidable (KeepsEntry σ a)
  | .finish s k => inferInstanceAs (Decidable (∀ c ∈ (σ.calls s)[k]?,
      c.entry.index ≤ (σ.node s).commitIndex →
        ((σ.node s).log[c.entry.index]?).map LogEntry.term = some c.entry.term))
  | .tick .. => isTrue trivial
  | .run .. => isTrue trivial
  | .recv .. => isTrue trivial
  | .propose .. => isTrue trivial
  | .lose .. => isTrue trivial

/-- Draining an entry once settles its index. -/
theorem committedAs_of_drained (hσ : Reaches es σ) (he : Event.drained s e ∈ es) :
    CommittedAs es s e := by
  refine ⟨he, fun t x hx hi => ?_⟩
  obtain ⟨_, hle, hget⟩ := (drained_iff hσ).mp he
  obtain ⟨_, hle', hget'⟩ := (drained_iff hσ).mp hx
  rw [hi] at hle' hget'
  rw [committed_agree hσ hle' hle, hget] at hget'
  exact (Option.some.inj hget').symm

/-- At the moment a call is about to return true: its entry is the committed one if and
only if the node's log has an entry of the call's term in its place. -/
theorem committedAs_iff (hσ : Reaches es σ) {c : ProposeCall n} (hc : c ∈ σ.calls s)
    (htrue : c.entry.index ≤ (σ.node s).commitIndex) :
    CommittedAs es s c.entry ↔
      ((σ.node s).log[c.entry.index]?).map LogEntry.term = some c.entry.term := by
  constructor
  · intro h
    obtain ⟨_, _, hget⟩ := (drained_iff hσ).mp h.1
    rw [hget]; rfl
  · intro h
    obtain ⟨x, hx, hterm⟩ := Option.map_eq_some_iff.mp h
    refine committedAs_of_drained hσ ((drained_iff hσ).mpr ?_)
    -- the log up to `x` is that of the leader of its term, and so is the entry of the call
    obtain ⟨w, hw⟩ := reaches_sim hσ
    obtain ⟨hpos, he⟩ := hw.calls hc
    have hx' := hx
    rw [← hw.node] at hx'
    have hp := ((hw.inv.log.logs s).entry hx').2
    have hend : ((w.node s).log.take (c.entry.index + 1))[c.entry.index]? = some x := by
      rw [List.getElem?_take_of_succ]; exact hx'
    have hsame := prefix_getElem? hp hend
    rw [hterm, he] at hsame
    rw [← Option.some.inj hsame] at hx
    exact ⟨hpos, htrue, hx⟩

/-- **A call that returns true has committed its entry**, in every run in which the entries
of the calls that return true are still in place. -/
theorem propose_committed {σ : Cluster n} {es : List (Event n)}
    (hrun : Run Cluster.step KeepsEntry (initCluster n) es σ) {s : Fin n} {e : LogEntry}
    (hret : Event.returned s e true ∈ es) : CommittedAs es s e := by
  refine committedAs_of_drained hrun.any ?_
  induction hrun with
  | refl => simp at hret
  | tail hrun hok hstep ih =>
      rename_i es ev σ σ' a
      rcases List.mem_append.mp hret with hold | hnew
      · exact List.mem_append_left _ (ih hold)
      · refine List.mem_append_left _ ?_
        cases happens_of_step hstep with
        | finish hc =>
            rename_i s' k e'
            simp only [List.mem_singleton, Event.returned.injEq] at hnew
            obtain ⟨rfl, rfl, htrue⟩ := hnew
            have hle := of_decide_eq_true htrue.symm
            have hkeep := hok _ hc hle
            exact ((committedAs_iff hrun.any (List.mem_of_getElem? hc) hle).mpr hkeep).1
        | handle hidle hchan hr =>
            rcases List.mem_append.mp hnew with h | h
            · obtain ⟨_, _, heq⟩ := List.mem_map.mp h
              exact absurd heq (by simp)
            · unfold Cluster.voteEvent at h
              split at h <;> simp at h
        | elect => simp at hnew
        | callback => simp at hnew
        | heartbeat => simp at hnew
        | timeout => simp at hnew
        | idle => simp at hnew
        | write => simp at hnew
        | skip => simp at hnew
        | prepare => simp at hnew
        | reject => simp at hnew
        | accept => simp at hnew
        | lose => simp at hnew

theorem propose_committed_three : ∃ (σ : Cluster 3) (es : List (Event 3)),
    Run Cluster.step KeepsEntry (initCluster 3) es σ ∧
      Event.returned 0 { term := 1, index := 1, command := [7] } true ∈ es ∧
      CommittedAs es 0 { term := 1, index := 1, command := [7] } := by
  have hplay : Leads Cluster.step KeepsEntry (initCluster 3)
      (replicateFirst ++ ([.recv 0 1, .run 0 (.client 0), .run 0 (.client 0), .finish 0 0] :
        List (Action 3)))
        fun _ es => Event.returned 0 { term := 1, index := 1, command := [7] } true ∈ es := by
    decide +kernel
  obtain ⟨σ, es, hrun, hret⟩ := hplay.run
  exact ⟨σ, es, hrun, hret, propose_committed hrun hret⟩

/-- Node 0 appends a command in term 1 and loses its lead to node 1, which commits a
command of its own in the same place; the call on node 0 then returns. -/
def overwritten : List (Action 3) :=
  electFirst ++ ([.propose 0 [1]] : List (Action 3)) ++ electSecond ++
    ([.propose 1 [2], .run 1 (.client 0), .run 1 (.client 0), .run 1 (.client 0),
      .run 1 (.client 0), .recv 2 1, .run 2 (.receiver 1), .recv 1 2,
      .tick 1 false, .run 1 .ticker, .run 1 .ticker,
      .recv 0 1, .run 0 (.receiver 1), .recv 0 1, .run 0 (.receiver 1), .recv 0 1,
      .run 0 (.client 0), .run 0 (.client 0), .finish 0 0] : List (Action 3))

theorem propose_overwritten : ∃ (σ : Cluster 3) (es : List (Event 3)), Reaches es σ ∧
    Event.returned 0 { term := 1, index := 1, command := [1] } true ∈ es ∧
      Event.drained 0 { term := 2, index := 1, command := [2] } ∈ es ∧
      ¬ CommittedAs es 0 { term := 1, index := 1, command := [1] } := by
  have hplay : Leads Cluster.step Any (initCluster 3) overwritten fun _ es =>
      Event.returned 0 { term := 1, index := 1, command := [1] } true ∈ es ∧
        Event.drained 0 { term := 2, index := 1, command := [2] } ∈ es := by
    decide +kernel
  obtain ⟨σ, es, hσ, hret, hdrained⟩ := hplay.run
  refine ⟨σ, es, hσ, hret, hdrained, fun h => ?_⟩
  exact absurd (h.2 0 _ hdrained rfl) (by decide)

/-! ## The order of the callbacks -/

/-- The entries a thread has still to pass to `onCommit_`. -/
def pendingCommits (ts : List (Task n)) : List LogEntry :=
  ts.filterMap fun
    | .onCommit e => some e
    | _ => none

/-- What the thread of `s` for `p` has drained and not yet delivered. -/
def Cluster.backlog (σ : Cluster n) (s p : Fin n) : List LogEntry := pendingCommits (σ.receiver s p)

/-- `onCommit_` of `s` was invoked with the indices 1, 2, 3, … in this order. -/
def InOrder (s : Fin n) (es : List (Event n)) : Prop :=
  (deliveredBy s es).map LogEntry.index = List.range' 1 (deliveredBy s es).length

/-- No node has two threads that hold entries they have drained and not yet delivered. -/
def OneBacklog (σ : Cluster n) (_ : Action n) : Prop :=
  ∀ s p q : Fin n, p ≠ q → σ.backlog s p = [] ∨ σ.backlog s q = []

instance (σ : Cluster n) (a : Action n) : Decidable (OneBacklog σ a) :=
  inferInstanceAs (Decidable (∀ s p q : Fin n, p ≠ q → σ.backlog s p = [] ∨ σ.backlog s q = []))

theorem pendingCommits_append (ts us : List (Task n)) :
    pendingCommits (ts ++ us) = pendingCommits ts ++ pendingCommits us := List.filterMap_append

theorem pendingCommits_onCommit (out : List LogEntry) :
    pendingCommits (out.map (Task.onCommit (n := n))) = out := by
  rw [pendingCommits, List.filterMap_map]
  simp

/-- The threads of `s` seen as deliverers: only receiver threads hold entries, all that was
drained is delivered or held by the one thread that holds any, and what is delivered is
what was drained first. -/
structure DeliveryInv (s : Fin n) (es : List (Event n)) (σ : Cluster n) : Prop where
  ticker : pendingCommits (σ.ticker s) = []
  client : ∀ c ∈ σ.calls s, pendingCommits c.tasks = []
  sole : ∀ p, (∀ q, q ≠ p → σ.backlog s q = []) →
    deliveredBy s es ++ σ.backlog s p = drainedBy s es
  delivered : deliveredBy s es <+: drainedBy s es

theorem deliveryInv_init (s : Fin n) : DeliveryInv s [] (initCluster n) where
  ticker := rfl
  client := by intro c h; simp [initCluster] at h
  sole := by intro p _; rfl
  delivered := List.prefix_rfl

/-- A step that drains and delivers nothing on `s` and keeps what its threads hold. -/
theorem DeliveryInv.quiet (h : DeliveryInv s es σ) (hdel : deliveredBy s ev = [])
    (hdr : drainedBy s ev = []) (hback : ∀ p, σ'.backlog s p = σ.backlog s p)
    (hticker : pendingCommits (σ'.ticker s) = [])
    (hclient : ∀ c ∈ σ'.calls s, pendingCommits c.tasks = []) :
    DeliveryInv s (es ++ ev) σ' where
  ticker := hticker
  client := hclient
  sole := by
    intro p hp
    rw [deliveredBy_append, drainedBy_append, hdel, hdr, List.append_nil, List.append_nil, hback]
    exact h.sole p fun q hq => by rw [← hback]; exact hp q hq
  delivered := by
    rw [deliveredBy_append, drainedBy_append, hdel, hdr, List.append_nil, List.append_nil]
    exact h.delivered

/-- Only receiver threads deliver. -/
theorem DeliveryInv.receiver_of_pending (h : DeliveryInv s es σ) {θ : Thread n}
    (hne : pendingCommits (σ.tasks s θ) ≠ []) : ∃ p, θ = .receiver p := by
  cases θ with
  | ticker => exact absurd h.ticker hne
  | receiver p => exact ⟨p, rfl⟩
  | client k =>
      exfalso
      cases hk : (σ.calls s)[k]? with
      | none => exact hne (by simp [Cluster.tasks, hk, pendingCommits])
      | some c =>
          refine hne ?_
          have := h.client c (List.mem_of_getElem? hk)
          simpa [Cluster.tasks, hk] using this

/-- What the threads of another node do. -/
theorem DeliveryInv.setTasks_ne {t : Fin n} (h : DeliveryInv s es σ) (hdel : deliveredBy s ev = [])
    (hdr : drainedBy s ev = []) (hst : s ≠ t) (θ : Thread n) (us : List (Task n)) :
    DeliveryInv s (es ++ ev) (σ.setTasks t us θ) := by
  cases θ with
  | ticker =>
      refine h.quiet hdel hdr (fun _ => rfl) ?_ h.client
      rw [Cluster.setTasks, Cluster.setTicker_ne _ _ hst]; exact h.ticker
  | receiver p =>
      refine h.quiet hdel hdr (fun q => ?_) h.ticker h.client
      rw [Cluster.setTasks, Cluster.backlog, Cluster.setReceiver_ne _ _ (fun hc => hst hc.1)]; rfl
  | client k =>
      refine h.quiet hdel hdr (fun _ => rfl) h.ticker ?_
      rw [Cluster.setTasks, Cluster.setCalls_ne _ _ hst]; exact h.client

/-- A thread that exchanges tasks without touching the entries it holds. -/
theorem DeliveryInv.setTasks {t : Fin n} (h : DeliveryInv s es σ) (hdel : deliveredBy s ev = [])
    (hdr : drainedBy s ev = []) {θ : Thread n} {us : List (Task n)}
    (hus : pendingCommits us = pendingCommits (σ.tasks t θ)) :
    DeliveryInv s (es ++ ev) (σ.setTasks t us θ) := by
  by_cases hst : s = t
  · subst hst
    cases θ with
    | ticker =>
        refine h.quiet hdel hdr (fun _ => rfl) ?_ h.client
        rw [Cluster.setTasks, Cluster.setTicker_self, hus]; exact h.ticker
    | receiver p =>
        refine h.quiet hdel hdr (fun q => ?_) h.ticker h.client
        rw [Cluster.setTasks, Cluster.backlog]
        by_cases hq : q = p
        · subst hq; rw [Cluster.setReceiver_self, hus]; rfl
        · rw [Cluster.setReceiver_ne _ _ (fun hc => hq hc.2)]; rfl
    | client k =>
        refine h.quiet hdel hdr (fun _ => rfl) h.ticker ?_
        intro c hc
        rw [Cluster.setTasks, Cluster.setCalls_self] at hc
        rcases (mem_modify_tasks hc).2 with hold | hnew
        · exact h.client c hold
        · rw [hnew, hus]
          by_contra hne
          obtain ⟨p, hp⟩ := h.receiver_of_pending hne
          exact absurd hp (by simp)
  · exact h.setTasks_ne hdel hdr hst θ us

/-- The receiver thread for `p` delivers the first entry it holds. -/
theorem DeliveryInv.deliver (h : DeliveryInv s es σ) {ts : List (Task n)}
    (ht : σ.receiver s p = .onCommit e :: ts) (hone : ∀ q, q ≠ p → σ.backlog s q = []) :
    DeliveryInv s (es ++ [.onCommit s e]) (σ.setReceiver s p ts) := by
  have hdel : deliveredBy s (es ++ [.onCommit s e]) = deliveredBy s es ++ [e] := by
    rw [deliveredBy_append]; simp [deliveredBy]
  have hdr : drainedBy s (es ++ [.onCommit s e]) = drainedBy s es := by
    rw [drainedBy_append]; simp [drainedBy]
  have hold : σ.backlog s p = e :: pendingCommits ts := by
    rw [Cluster.backlog, ht]; rfl
  have hsole := h.sole p hone
  rw [hold] at hsole
  refine ⟨h.ticker, h.client, ?_, ?_⟩
  · intro q hq
    rw [hdel, hdr, ← hsole, List.append_assoc]
    congr 1
    rw [List.singleton_append, Cluster.backlog]
    congr 1
    by_cases hqp : q = p
    · subst hqp; rw [Cluster.setReceiver_self]
    · -- another thread can be the only one left only when this one is done
      have hdone := hq p (Ne.symm hqp)
      rw [Cluster.backlog, Cluster.setReceiver_self] at hdone
      rw [hdone, Cluster.setReceiver_ne _ _ (fun hc => hqp hc.2)]
      exact hone q hqp
  · rw [hdel, hdr, ← hsole]
    exact ⟨pendingCommits ts, by simp⟩

/-- The receiver thread for `p` drains `out`. -/
theorem DeliveryInv.drain (h : DeliveryInv s es σ) (out : List LogEntry)
    (hidle : σ.backlog s p = []) (hdel : deliveredBy s ev = []) (hdr : drainedBy s ev = out)
    (hback : σ'.backlog s p = out) (hother : ∀ q, q ≠ p → σ'.backlog s q = σ.backlog s q)
    (hticker : σ'.ticker s = σ.ticker s) (hcalls : σ'.calls s = σ.calls s) :
    DeliveryInv s (es ++ ev) σ' := by
  refine ⟨by rw [hticker]; exact h.ticker, by rw [hcalls]; exact h.client, ?_, ?_⟩
  · intro q hq
    rw [deliveredBy_append, drainedBy_append, hdel, hdr, List.append_nil]
    by_cases hqp : q = p
    · subst hqp
      have hsole := h.sole q fun r hr => by rw [← hother r hr]; exact hq r hr
      rw [hidle, List.append_nil] at hsole
      rw [hback, hsole]
    · -- if `q` is the only thread with entries, nothing was drained
      have hnone : out = [] := by rw [← hback]; exact hq p (Ne.symm hqp)
      rw [hnone, List.append_nil, hother q hqp]
      refine h.sole q fun r hr => ?_
      by_cases hrp : r = p
      · subst hrp; exact hidle
      · rw [← hother r hrp]; exact hq r hr
  · rw [deliveredBy_append, drainedBy_append, hdel, hdr, List.append_nil]
    exact h.delivered.trans (List.prefix_append _ _)

theorem deliveryInv_step {a : Action n} (h : DeliveryInv s es σ) (hone : OneBacklog σ a)
    (hstep : σ.step a = some (σ', ev)) : DeliveryInv s (es ++ ev) σ' := by
  cases happens_of_step hstep with
  | heartbeat hidle =>
      rename_i t x
      exact h.setTasks (θ := .ticker) rfl rfl (by
        rw [Cluster.tasks, hidle, pendingCommits, List.filterMap_map, List.filterMap_eq_nil_iff.mpr]
        · rfl
        · intro q _; rfl)
  | timeout hidle =>
      exact h.setTasks (θ := .ticker) rfl rfl (by rw [Cluster.tasks, hidle]; rfl)
  | idle => rw [List.append_nil]; exact h
  | write ht =>
      rename_i t q θ f ts
      have h' : DeliveryInv s es (σ.setChan t q (σ.chan t q ++ [f])) := ⟨h.1, h.2, h.3, h.4⟩
      have ht' : (σ.setChan t q (σ.chan t q ++ [f])).tasks t θ = .sendFrame q f :: ts := by
        cases θ <;> exact ht
      exact h'.setTasks rfl rfl (by rw [ht']; rfl)
  | skip ht => exact h.setTasks rfl rfl (by rw [ht]; rfl)
  | prepare ht => exact h.setTasks rfl rfl (by rw [ht]; rfl)
  | elect ht =>
      rename_i t θ nd out ts hs
      have h' : DeliveryInv s es (σ.setNode t nd) := ⟨h.1, h.2, h.3, h.4⟩
      have ht' : (σ.setNode t nd).tasks t θ = .startElection :: ts := by cases θ <;> exact ht
      refine h'.setTasks rfl rfl ?_
      rw [ht', pendingCommits_append]
      -- frames to send are not commits
      refine (congrArg (· ++ pendingCommits ts) ?_).trans (List.nil_append _)
      rw [pendingCommits, List.filterMap_map, List.filterMap_eq_nil_iff]
      intro q _; rfl
  | callback ht =>
      rename_i t θ e ts
      by_cases hst : s = t
      · -- the thread has an entry to deliver, so by assumption no other has
        subst hst
        obtain ⟨p, rfl⟩ := h.receiver_of_pending (by rw [ht]; simp [pendingCommits])
        have hheld : σ.backlog s p ≠ [] := by
          rw [Cluster.backlog, show σ.receiver s p = _ from ht]; simp [pendingCommits]
        exact h.deliver ht fun q hq => (hone s q p hq).resolve_right hheld
      · refine h.setTasks_ne ?_ rfl hst θ ts
        simp [deliveredBy, Ne.symm hst]
  | handle hidle hchan hr =>
      rename_i t p f rest nd out reply
      obtain ⟨hvdr, hvdel⟩ := voteEvent_quiet t s f reply
      have hdel : deliveredBy s (out.map (Event.drained t) ++ Cluster.voteEvent t f reply)
          = [] := by
        rw [deliveredBy_append, deliveredBy_drained, hvdel]; rfl
      by_cases hst : s = t
      · subst hst
        have hback : pendingCommits
            (out.map Task.onCommit ++ (reply.map (Task.sendFrame p)).toList) = out := by
          rw [pendingCommits_append, pendingCommits_onCommit]
          cases reply <;> simp [pendingCommits]
        refine h.drain (p := p) out (by rw [Cluster.backlog, hidle]; rfl) hdel ?_ ?_ ?_ rfl rfl
        · rw [drainedBy_append, hvdr, drainedBy_map, if_pos rfl, List.append_nil]
        · rw [Cluster.backlog, Cluster.setReceiver_self]; exact hback
        · intro q hq
          rw [Cluster.backlog, Cluster.setReceiver_ne _ _ (fun hc => hq hc.2)]; rfl
      · refine h.quiet hdel ?_ (fun q => ?_) h.ticker h.client
        · rw [drainedBy_append, hvdr, drainedBy_map, if_neg (Ne.symm hst)]; rfl
        · rw [Cluster.backlog, Cluster.setReceiver_ne _ _ (fun hc => hst hc.1)]; rfl
  | reject => rw [List.append_nil]; exact h
  | accept hp =>
      rename_i t c nd e
      refine h.quiet rfl rfl (fun _ => rfl) h.ticker ?_
      intro c' hc'
      by_cases hst : s = t
      · subst hst
        rw [Cluster.setCalls_self] at hc'
        rcases List.mem_append.mp hc' with hold | hnew
        · exact h.client c' hold
        · rw [List.mem_singleton.mp hnew, pendingCommits, List.filterMap_map,
            List.filterMap_eq_nil_iff]
          intro q _; rfl
      · rw [Cluster.setCalls_ne _ _ hst] at hc'; exact h.client c' hc'
  | finish hc =>
      rename_i t k e
      refine h.quiet rfl rfl (fun _ => rfl) h.ticker ?_
      intro c' hc'
      by_cases hst : s = t
      · subst hst
        rw [Cluster.setCalls_self] at hc'
        exact h.client c' (List.mem_of_mem_eraseIdx hc')
      · rw [Cluster.setCalls_ne _ _ hst] at hc'; exact h.client c' hc'
  | lose => rw [List.append_nil]; exact ⟨h.1, h.2, h.3, h.4⟩

/-- The indices of a range of a log are consecutive. -/
theorem map_index_between (hσ : Reaches es σ) (s : Fin n) {k : Nat}
    (hk : k < (σ.node s).log.length) :
    (between (σ.node s).log 0 k).map LogEntry.index = List.range' 1 k := by
  refine List.ext_getElem? fun j => ?_
  rw [List.getElem?_map, between, List.getElem?_drop]
  by_cases hj : j < k
  · have hlt : 0 + 1 + j < (σ.node s).log.length := by omega
    rw [List.getElem?_take_of_lt (by omega), List.getElem?_eq_getElem hlt,
      List.getElem?_range' hj, Option.map_some, log_entry hσ (List.getElem?_eq_getElem hlt)]
    congr 1
    omega
  · rw [List.getElem?_eq_none (by rw [List.length_take]; omega),
      List.getElem?_eq_none (by rw [List.length_range']; omega)]
    rfl

/-- **Callbacks come in order**, in every run in which no node ever has two threads with
entries to deliver. -/
theorem onCommit_in_order {σ : Cluster n} {es : List (Event n)}
    (hrun : Run Cluster.step OneBacklog (initCluster n) es σ) (s : Fin n) : InOrder s es := by
  have hinv : DeliveryInv s es σ :=
    hrun.invariant (deliveryInv_init s) fun h hok hstep => deliveryInv_step h hok hstep
  obtain ⟨rest, hrest⟩ := hinv.delivered
  have hindex : (drainedBy s es).map LogEntry.index
      = List.range' 1 (σ.node s).lastApplied := by
    rw [drainedBy_eq hrun.any]
    refine map_index_between hrun.any s ?_
    rw [lastApplied_eq hrun.any]; exact commitIndex_lt hrun.any s
  -- a prefix of what is drained has a prefix of its indices
  have hlen := congrArg List.length hindex
  rw [List.length_map, List.length_range'] at hlen
  have htake := congrArg (List.take (deliveredBy s es).length) hindex
  rw [← hrest, List.map_append, List.take_left' (List.length_map _)] at htake
  have hle := hinv.delivered.length_le
  rw [InOrder, htake, List.take_range'_of_length_ge (by omega)]

/-- Two commands, committed by node 0 and delivered by the thread that committed them. -/
def deliverInTurn : List (Action 3) :=
  replicateFirst ++ ([.recv 0 1, .run 0 (.receiver 1), .run 0 (.client 0), .run 0 (.client 0),
    .propose 0 [8], .run 0 (.client 1), .run 0 (.client 1), .recv 1 0, .run 1 (.receiver 0),
    .run 1 (.receiver 0), .recv 0 1, .run 0 (.receiver 1)] : List (Action 3))

theorem onCommit_in_order_three : ∃ (σ : Cluster 3) (es : List (Event 3)),
    Run Cluster.step OneBacklog (initCluster 3) es σ ∧
      (deliveredBy 0 es).length = 2 ∧ InOrder 0 es := by
  have hplay : Leads Cluster.step OneBacklog (initCluster 3) deliverInTurn fun _ es =>
      (deliveredBy 0 es).length = 2 := by
    decide +kernel
  obtain ⟨σ, es, hrun, hlen⟩ := hplay.run
  exact ⟨σ, es, hrun, hlen, onCommit_in_order hrun 0⟩

/-- Two confirmations let two threads of node 0 commit one entry each; the second thread is
the first to reach `onCommit_`. -/
def deliverSwapped : List (Action 3) :=
  electFirst ++ ([.propose 0 [1], .run 0 (.client 0), .run 0 (.client 0), .propose 0 [2],
    .run 0 (.client 1), .run 0 (.client 1), .run 0 (.client 1), .run 0 (.client 1),
    .recv 1 0, .run 1 (.receiver 0), .recv 2 0, .run 2 (.receiver 0), .recv 2 0,
    .run 2 (.receiver 0), .recv 0 1, .recv 0 2, .recv 0 2, .run 0 (.receiver 2),
    .run 0 (.receiver 1)] : List (Action 3))

theorem onCommit_swapped : ∃ (σ : Cluster 3) (es : List (Event 3)), Reaches es σ ∧
    (deliveredBy 0 es).map LogEntry.index = [2, 1] ∧ ¬ InOrder 0 es := by
  have hplay : Leads Cluster.step Any (initCluster 3) deliverSwapped fun _ es =>
      (deliveredBy 0 es).map LogEntry.index = [2, 1] := by
    decide +kernel
  obtain ⟨σ, es, hσ, hswap⟩ := hplay.run
  refine ⟨σ, es, hσ, hswap, fun h => ?_⟩
  have hlen := congrArg List.length hswap
  rw [List.length_map] at hlen
  rw [InOrder, hswap, hlen] at h
  exact absurd h (by decide)

end CrossMachine.Raft
