import CrossMachine.Lib.Prefix
import CrossMachine.Raft.Election

/-!
# Log matching

Every log that ever exists, on a node or spelled out by a frame, agrees with the
history: up to an entry of term `T` it *is* the log of the leader of `T`. That is
`GoodLog`, and log matching is its corollary: two logs with entries of one term at
one index are both, up to there, the same leader's log.

Indices are part of the agreement. The wire carries none, and a receiver that
numbers the entries from `prevLogIndex` gets back the positions they were sent
from (`decodeEntries_drop`).
-/

namespace CrossMachine.Raft

open Lib

variable {n : Nat}

/-- A log that the history accounts for. -/
structure GoodLog (h : History n) (L : List LogEntry) : Prop where
  /-- The sentinel is in place. -/
  head : L[0]? = some sentinel
  /-- Every entry knows its position, and up to it the log is its leader's. -/
  entry : ∀ {i e}, L[i]? = some e → e.index = i ∧ L.take (i + 1) <+: h.leaderLog e.term

/-- The logs of the leaders only grow. -/
def History.Grows (h h' : History n) : Prop := ∀ T, h.leaderLog T <+: h'.leaderLog T

variable {e : LogEntry} {w : World n} {s : Fin n} {nd : RaftNode n} {hist : History n} {pi lc : Nat}

namespace GoodLog

variable {h h' : History n} {L M : List LogEntry}

theorem length_pos (hL : GoodLog h L) : 0 < L.length := lt_length_of_getElem? hL.head

theorem ne_nil (hL : GoodLog h L) : L ≠ [] := List.length_pos_iff.mp hL.length_pos

theorem mono (hL : GoodLog h L) (hg : h.Grows h') : GoodLog h' L :=
  ⟨hL.head, fun he => ⟨(hL.entry he).1, (hL.entry he).2.trans (hg _)⟩⟩

/-- What a good log starts with is a good log. -/
theorem restrict (hL : GoodLog h L) (hM : M <+: L) (hne : M ≠ []) : GoodLog h M := by
  have hpos : 0 < M.length := List.length_pos_iff.mpr hne
  have hhead : M[0]? = some sentinel := by
    rw [← hL.head, List.getElem?_eq_getElem hpos,
      List.getElem?_eq_getElem (Nat.lt_of_lt_of_le hpos hM.length_le), hM.getElem hpos]
  refine ⟨hhead, fun {i e} he => ?_⟩
  have hlt := lt_length_of_getElem? he
  refine ⟨(hL.entry (prefix_getElem? hM he)).1, ?_⟩
  rw [← prefix_take_eq hM hlt]
  exact (hL.entry (prefix_getElem? hM he)).2

/-- The last entry carries the length. -/
theorem last (hL : GoodLog h L) (he : L.getLast? = some e) : e.index + 1 = L.length := by
  rw [List.getLast?_eq_getElem?] at he
  have := hL.length_pos
  have := (hL.entry he).1
  omega

theorem exists_last (hL : GoodLog h L) : ∃ e, L.getLast? = some e :=
  ⟨_, List.getLast?_eq_some_getLast hL.ne_nil⟩

/-- A log ending in term `T` is a prefix of the log of the leader of `T`. -/
theorem prefix_last (hL : GoodLog h L) (he : L.getLast? = some e) : L <+: h.leaderLog e.term := by
  rw [List.getLast?_eq_getElem?] at he
  have hpos := hL.length_pos
  have hp := (hL.entry he).2
  rwa [Nat.sub_add_cancel hpos, List.take_length] at hp

variable {i : Nat} {e' : LogEntry}

/-- **Log matching**, for any two logs the history accounts for. -/
theorem matching (hL : GoodLog h L) (hM : GoodLog h M) (he : L[i]? = some e) (he' : M[i]? = some e')
    (hterm : e.term = e'.term) : L.take (i + 1) = M.take (i + 1) := by
  have h₁ := (hL.entry he).2
  have h₂ := (hM.entry he').2
  rw [← hterm] at h₂
  have hlen : (L.take (i + 1)).length = (M.take (i + 1)).length := by
    rw [length_take_of_getElem? he, length_take_of_getElem? he']
  exact (List.prefix_of_prefix_length_le h₁ h₂ (Nat.le_of_eq hlen)).eq_of_length hlen

theorem entry_eq (hL : GoodLog h L) (hM : GoodLog h M) (he : L[i]? = some e) (he' : M[i]? = some e')
    (hterm : e.term = e'.term) : e = e' := by
  have hm := congrArg (·[i]?) (hL.matching hM he he' hterm)
  simp only [List.getElem?_take_of_succ, he, he'] at hm
  exact Option.some.inj hm

/-- Terms never decrease along a log, when leaders' logs are bounded by their term. -/
theorem term_mono (hL : GoodLog h L) (hb : ∀ T, ∀ e ∈ h.leaderLog T, e.term ≤ T) {j : Nat}
    (he : L[i]? = some e) (he' : L[j]? = some e') (hij : i ≤ j) : e.term ≤ e'.term := by
  refine hb e'.term e ?_
  have hmem : e ∈ L.take (j + 1) := by
    refine List.mem_of_getElem? (i := i) ?_
    rw [List.getElem?_take_of_lt (by omega)]; exact he
  exact (hL.entry he').2.mem hmem

theorem mergeLog_good (hL : GoodLog h L) (hM : GoodLog h M) : GoodLog h (mergeLog L M) := by
  unfold mergeLog; split
  · exact hL
  · exact hM

end GoodLog

/-! ## Payloads -/

/-- Merging a payload keeps every prefix that fits the payload's leader. -/
theorem prefix_mergeLog {P L M K : List LogEntry} (hP : P <+: L) (hPK : P <+: K) (hMK : M <+: K) :
    P <+: mergeLog L M := by
  unfold mergeLog; split
  · exact hP
  · rename_i hML
    rcases List.prefix_or_prefix_of_prefix hPK hMK with h | h
    · exact h
    · exact absurd (h.trans hP) hML

theorem payload_prefix_mergeLog (L M : List LogEntry) : M <+: mergeLog L M := by
  unfold mergeLog; split
  · assumption
  · exact List.prefix_rfl

/-- Numbering what was sent from `prevLogIndex` on restores it. -/
theorem decodeEntries_drop {L : List LogEntry}
    (hidx : ∀ {i : Nat} {e : LogEntry}, L[i]? = some e → e.index = i)
    (k : Nat) : decodeEntries k ((L.drop (k + 1)).map fun e => (e.term, e.command))
      = L.drop (k + 1) := by
  generalize hd : L.drop (k + 1) = D
  induction D generalizing k with
  | nil => rfl
  | cons e D ih =>
      have he : L[k + 1]? = some e := by
        have := congrArg (·[0]?) hd
        simpa using this
      have htail : L.drop (k + 1 + 1) = D := by
        have := congrArg List.tail hd
        simpa [List.tail_drop] using this
      rw [List.map_cons, decodeEntries, ih (k + 1) htail]
      congr 1
      rw [← hidx he]

theorem decodeEntries_length (k : Nat) (es : List (Nat × Command)) :
    (decodeEntries k es).length = es.length := by
  induction es generalizing k with
  | nil => rfl
  | cons p es ih => rw [decodeEntries, List.length_cons, List.length_cons, ih]

/-- The loop of `handleAppendEntries`, against a payload that agrees with the log
below `idx` and wherever the two hold the same term: the log stays as it is if the
payload adds nothing, and becomes the payload's log otherwise. -/
theorem appendLoop_eq {L M : List LogEntry}
    (hagree : ∀ {i : Nat} {e e' : LogEntry}, L[i]? = some e → M[i]? = some e' →
      e.term = e'.term → e = e') :
    ∀ {idx : Nat}, L.take idx = M.take idx → idx ≤ L.length →
      appendLoop L idx (M.drop idx) = mergeLog L M := by
  intro idx
  generalize hd : M.drop idx = D
  induction D generalizing L idx with
  | nil =>
      intro htake hidx
      have hlen : M.length ≤ idx := List.drop_eq_nil_iff.mp hd
      have hML : M <+: L := by
        rw [← List.take_of_length_le hlen, ← htake]; exact List.take_prefix _ _
      rw [appendLoop, mergeLog, if_pos hML]
  | cons e D ih =>
      intro htake hidx
      have heM : M[idx]? = some e := by
        have := congrArg (·[0]?) hd
        simpa using this
      have htail : M.drop (idx + 1) = D := by
        have := congrArg List.tail hd
        simpa [List.tail_drop] using this
      have hMtake : M.take (idx + 1) = M.take idx ++ [e] := by
        rw [List.take_add_one, heM]; rfl
      -- the log that ends with `e` is what the payload starts with
      have hnew : ∀ {L' : List LogEntry}, L' = M.take (idx + 1) →
          appendLoop L' (idx + 1) D = mergeLog L' M := by
        intro L' hL'
        refine ih ?_ htail ?_ ?_
        · intro i a b ha hb _
          rw [hL'] at ha
          have := prefix_getElem? (List.take_prefix _ _) ha
          rw [this] at hb
          exact Option.some.inj hb
        · rw [hL', List.take_take, Nat.min_self]
        · rw [hL', length_take_of_getElem? heM]
      rw [appendLoop]
      cases hL : L[idx]? with
      | some old =>
          dsimp only
          by_cases hterm : old.term = e.term
          · rw [if_neg (by simp [hterm])]
            have hold := hagree hL heM hterm
            refine ih hagree htail ?_ (lt_length_of_getElem? hL)
            rw [hMtake, List.take_add_one, hL, htake, hold]; rfl
          · rw [if_pos hterm, hnew (by rw [hMtake, htake])]
            have hML : ¬ M <+: L := by
              intro hp
              have := prefix_getElem? hp heM
              rw [hL] at this
              exact hterm (by rw [Option.some.inj this])
            rw [mergeLog, mergeLog, if_neg hML, htake, ← hMtake]
            split
            · rename_i hp
              exact (hp.eq_of_length_le (List.take_prefix _ _).length_le).symm
            · rfl
      | none =>
          dsimp only
          have hlen : L.length = idx := by
            have := List.getElem?_eq_none_iff.mp hL
            omega
          have hLM : L = M.take idx := by
            rw [← htake, List.take_of_length_le (Nat.le_of_eq hlen)]
          rw [hnew (by rw [hMtake, ← hLM])]
          have hML : ¬ M <+: L := by
            intro hp
            have h₁ := hp.length_le
            have h₂ := lt_length_of_getElem? heM
            omega
          rw [mergeLog, mergeLog, if_neg hML, hLM, ← hMtake]
          split
          · rename_i hp
            exact (hp.eq_of_length_le (List.take_prefix _ _).length_le).symm
          · rfl

/-! ## The invariant -/

/-- What a frame in flight says about logs is what the history says. -/
def Packet.LogOK (h : History n) : Packet n → Prop
  | ⟨_, _, .appendEntries T _ pi pt _ es⟩ =>
      pi + 1 + es.length ≤ (h.leaderLog T).length ∧
      (∃ prev, (h.leaderLog T)[pi]? = some prev ∧ prev.term = pt) ∧
      decodeEntries pi es = (h.payloadLog T pi es.length).drop (pi + 1)
  | ⟨p, _, .requestVote T _ li lt⟩ =>
      ∃ e, (h.candLog T p).getLast? = some e ∧ e.index = li ∧ e.term = lt
  | _ => True

structure LogInv (w : World n) : Prop where
  /-- Every node's log is good, -/
  logs : ∀ s, GoodLog w.hist (w.node s).log
  /-- and holds no entry of a term the node has not reached. -/
  bound : ∀ s, ∀ e ∈ (w.node s).log, e.term ≤ (w.node s).currentTerm
  /-- A leader's log is on record. -/
  leads : ∀ {s}, (w.node s).state = .leader →
    w.hist.leaderLog (w.node s).currentTerm = (w.node s).log
  won : ∀ {T l}, w.hist.winner T = some l → GoodLog w.hist (w.hist.leaderLog T)
  wonBound : ∀ T, ∀ e ∈ w.hist.leaderLog T, e.term ≤ T
  unwon : ∀ {T}, w.hist.winner T = none → w.hist.leaderLog T = if T = 0 then [sentinel] else []
  frames : ∀ pkt ∈ w.net, pkt.LogOK w.hist
  /-- A candidate still has the log it asked with. -/
  candidates : ∀ {s}, (w.node s).state = .candidate →
    w.hist.candLog (w.node s).currentTerm s = (w.node s).log
  candGood : ∀ {T c}, w.hist.candLog T c ≠ [] → GoodLog w.hist (w.hist.candLog T c) ∧
    ∀ e ∈ w.hist.candLog T c, e.term < T

theorem logInv_init : LogInv (initWorld n) where
  logs := by
    intro s
    refine ⟨rfl, ?_⟩
    intro i e he
    cases i with
    | zero => cases he; exact ⟨rfl, List.prefix_rfl⟩
    | succ i => simp [initWorld] at he
  bound := by
    intro s e he
    simp only [initWorld, List.mem_singleton] at he
    subst he; exact Nat.le_refl _
  leads := by intro s h; simp [initWorld] at h
  won := by intro T l h; simp [initWorld, initHistory] at h
  wonBound := by
    intro T e he
    simp only [initWorld, initHistory] at he
    split at he
    · rw [List.mem_singleton.mp he]; exact Nat.zero_le _
    · simp at he
  unwon := by intro T _; rfl
  frames := by intro pkt h; simp [initWorld] at h
  candidates := by intro s h; simp [initWorld] at h
  candGood := by intro T c h; exact absurd rfl h

/-- The candidate's log ends below its term; in particular the term is positive. -/
theorem LogInv.candBound (h : LogInv w) (hs : (w.node s).state = .candidate) :
    0 < (w.node s).currentTerm ∧ ∀ e ∈ (w.node s).log, e.term < (w.node s).currentTerm := by
  have hne : w.hist.candLog (w.node s).currentTerm s ≠ [] := by
    rw [h.candidates hs]; exact (h.logs s).ne_nil
  have hlt := (h.candGood hne).2
  rw [h.candidates hs] at hlt
  exact ⟨hlt sentinel (List.mem_of_getElem? (h.logs s).head), hlt⟩

/-- A change at `s` that keeps its log. -/
theorem LogInv.setNode (h : LogInv w) (hlog : nd.log = (w.node s).log)
    (hterm : (w.node s).currentTerm ≤ nd.currentTerm)
    (hrole : nd.state ≠ .follower → nd.state = (w.node s).state ∧
      nd.currentTerm = (w.node s).currentTerm) : LogInv (w.setNode s nd) := by
  refine { h with logs := ?_, bound := ?_, leads := ?_, candidates := ?_ }
  · intro i
    by_cases his : i = s
    · subst his; rw [World.setNode_self, hlog]; exact h.logs i
    · rw [World.setNode_ne _ _ his]; exact h.logs i
  · intro i e he
    by_cases his : i = s
    · subst his
      rw [World.setNode_self, hlog] at he
      rw [World.setNode_self]
      exact Nat.le_trans (h.bound i e he) hterm
    · rw [World.setNode_ne _ _ his] at he ⊢; exact h.bound i e he
  · intro i hi
    by_cases his : i = s
    · subst his
      rw [World.setNode_self] at hi ⊢
      obtain ⟨hst, ht⟩ := hrole (by rw [hi]; exact fun hq => RaftState.noConfusion hq)
      rw [hlog, ht]; exact h.leads (hst ▸ hi)
    · rw [World.setNode_ne _ _ his] at hi ⊢; exact h.leads hi
  · intro i hi
    by_cases his : i = s
    · subst his
      rw [World.setNode_self] at hi ⊢
      obtain ⟨hst, ht⟩ := hrole (by rw [hi]; exact fun hq => RaftState.noConfusion hq)
      rw [hlog, ht]; exact h.candidates (hst ▸ hi)
    · rw [World.setNode_ne _ _ his] at hi ⊢; exact h.candidates hi

theorem LogInv.setNet (h : LogInv w) {net : Multiset (Packet n)}
    (hpkt : ∀ pkt ∈ net, pkt ∈ w.net ∨ pkt.LogOK w.hist) : LogInv { w with net := net } := by
  refine { h with frames := ?_ }
  intro pkt hmem
  rcases hpkt pkt hmem with hold | hok
  · exact h.frames pkt hold
  · exact hok

theorem LogInv.cons (h : LogInv w) {pkt : Packet n} (hok : pkt.LogOK w.hist) :
    LogInv { w with net := pkt ::ₘ w.net } := by
  refine h.setNet ?_
  intro pkt' hmem
  rcases Multiset.mem_cons.mp hmem with rfl | hold
  · exact Or.inr hok
  · exact Or.inl hold

/-- The history of votes and confirmations does not matter here. -/
theorem LogInv.setHist (h : LogInv w) (hwin : hist.winner = w.hist.winner)
    (hlog : hist.leaderLog = w.hist.leaderLog) (hcand : hist.candLog = w.hist.candLog) :
    LogInv { w with hist := hist } := by
  have hgood : ∀ {L}, GoodLog w.hist L → GoodLog hist L := by
    intro L hL
    exact hL.mono (fun T => by rw [hlog])
  constructor <;> dsimp only
  case logs => exact fun s => hgood (h.logs s)
  case bound => exact h.bound
  case leads => rw [hlog]; exact h.leads
  case won => rw [hwin, hlog]; exact fun hl => hgood (h.won hl)
  case wonBound => rw [hlog]; exact h.wonBound
  case unwon => rw [hwin, hlog]; exact h.unwon
  case frames =>
    intro pkt hmem
    have hok := h.frames pkt hmem
    obtain ⟨p, q, f⟩ := pkt
    cases f with
    | requestVote => simp only [Packet.LogOK, hcand] at hok ⊢; exact hok
    | appendEntries =>
        simp only [Packet.LogOK, History.payloadLog, hlog] at hok ⊢; exact hok
    | requestVoteResp => trivial
    | appendEntriesResp => trivial
  case candidates => rw [hcand]; exact h.candidates
  case candGood => rw [hcand]; exact fun hne => ⟨hgood (h.candGood hne).1, (h.candGood hne).2⟩

/-- What a frame says survives the growth of the leaders' logs. -/
theorem Packet.LogOK.mono {hist' : History n} {pkt : Packet n} (h : pkt.LogOK hist)
    (hg : hist.Grows hist') (hcand : ∀ T li lt c, pkt.frame = .requestVote T c li lt →
      hist'.candLog T pkt.src = hist.candLog T pkt.src) : pkt.LogOK hist' := by
  obtain ⟨p, q, f⟩ := pkt
  cases f with
  | requestVote T c li lt =>
      obtain ⟨e, he, h1, h2⟩ := h
      refine ⟨e, ?_, h1, h2⟩
      have hq : hist'.candLog T p = hist.candLog T p := hcand T li lt c rfl
      rw [hq]; exact he
  | appendEntries T l pi pt lc es =>
      obtain ⟨hlen, ⟨prev, hprev, hpt⟩, hdec⟩ := h
      refine ⟨Nat.le_trans hlen (hg T).length_le, ⟨prev, prefix_getElem? (hg T) hprev, hpt⟩, ?_⟩
      rw [History.payloadLog] at hdec ⊢
      rw [prefix_take_eq (hg T) hlen]; exact hdec
  | requestVoteResp => trivial
  | appendEntriesResp => trivial

theorem logInv_elect (hv : VoteInv w) (h : LogInv w) {last : LogEntry}
    (hlast : (w.node s).log.getLast? = some last) (voted : Nat → Fin n → Fin n → Prop)
    (counted : Fin n → Finset (Fin n)) :
    LogInv
      { node := Function.update w.node s (becomeCandidate s (w.node s))
        net := World.ballotsOf s ((w.node s).currentTerm + 1) last + w.net
        hist := { w.hist with
          voted := voted
          candLog := set₂ w.hist.candLog ((w.node s).currentTerm + 1) s (w.node s).log
          counted := counted } } := by
  have hgood : ∀ {L}, GoodLog w.hist L → GoodLog { w.hist with
      voted := voted
      candLog := set₂ w.hist.candLog ((w.node s).currentTerm + 1) s (w.node s).log
      counted := counted } L := fun hL => hL.mono (fun _ => List.prefix_rfl)
  have hnode : ∀ i, i ≠ s →
      Function.update w.node s (becomeCandidate s (w.node s)) i = w.node i :=
    fun i hi => Function.update_of_ne hi ..
  constructor <;> dsimp only
  case logs =>
    intro i
    by_cases his : i = s
    · subst his; rw [Function.update_self]; exact hgood (h.logs i)
    · rw [hnode i his]; exact hgood (h.logs i)
  case bound =>
    intro i e he
    by_cases his : i = s
    · subst his
      rw [Function.update_self] at he ⊢
      exact Nat.le_succ_of_le (h.bound i e he)
    · rw [hnode i his] at he ⊢; exact h.bound i e he
  case leads =>
    intro i hi
    by_cases his : i = s
    · subst his; rw [Function.update_self] at hi; exact RaftState.noConfusion hi
    · rw [hnode i his] at hi ⊢; exact h.leads hi
  case won => exact fun hl => hgood (h.won hl)
  case wonBound => exact h.wonBound
  case unwon => exact h.unwon
  case frames =>
    intro pkt hmem
    rcases Multiset.mem_add.mp hmem with hb | hold
    · obtain ⟨p, _, rfl⟩ := mem_ballotsOf hb
      refine ⟨last, ?_, rfl, rfl⟩
      simp only [set₂, and_self, if_true]
      exact hlast
    · refine (h.frames pkt hold).mono (fun _ => List.prefix_rfl) ?_
      rintro T li lt c hf
      -- an older request cannot be of the term just opened
      obtain ⟨p, q, f⟩ := pkt
      dsimp only at hf
      subst hf
      have hle := (hv.asks hold).2
      simp only [set₂]
      rw [if_neg]
      rintro ⟨hT, hp⟩
      subst hp
      omega
  case candidates =>
    intro i hi
    by_cases his : i = s
    · subst his
      rw [Function.update_self]
      simp only [set₂, becomeCandidate, and_self, if_true]
    · rw [hnode i his] at hi ⊢
      simp only [set₂]
      rw [if_neg (fun hq => his hq.2)]
      exact h.candidates hi
  case candGood =>
    intro T c
    simp only [set₂]
    split
    · rename_i hTc
      intro _
      refine ⟨hgood (h.logs s), ?_⟩
      intro e he
      have := h.bound s e he
      omega
    · exact fun hne => ⟨hgood (h.candGood hne).1, (h.candGood hne).2⟩

/-- Logs of leaders grow, in the term of `s` alone. -/
theorem grows_update {L : List LogEntry} (hL : w.hist.leaderLog (w.node s).currentTerm <+: L)
    (hlog : hist.leaderLog = Function.update w.hist.leaderLog (w.node s).currentTerm L) :
    w.hist.Grows hist := by
  intro T
  rw [hlog]
  by_cases hT : T = (w.node s).currentTerm
  · subst hT; rw [Function.update_self]; exact hL
  · rw [Function.update_of_ne hT]

theorem logInv_win (hv : VoteInv w) (h : LogInv w) (hrole : (w.node s).state = .candidate)
    (hmaj : n < (w.node s).votesGranted * 2) (hstate : nd.state = .leader)
    (hterm : nd.currentTerm = (w.node s).currentTerm) (hlog : nd.log = (w.node s).log)
    (acked : Nat → Fin n → Nat) (electors : Nat → Finset (Fin n)) :
    LogInv
      { node := Function.update w.node s nd
        net := w.net
        hist := { w.hist with
          winner := Function.update w.hist.winner (w.node s).currentTerm (some s)
          leaderLog := Function.update w.hist.leaderLog (w.node s).currentTerm (w.node s).log
          acked := acked
          electors := electors } } := by
  obtain ⟨_, hopen⟩ := hv.open_of_majority hrole hmaj
  obtain ⟨hpos, hbelow⟩ := h.candBound hrole
  have hempty : w.hist.leaderLog (w.node s).currentTerm = [] := by
    rw [h.unwon hopen, if_neg (by omega)]
  generalize hhist : ({ w.hist with
      winner := Function.update w.hist.winner (w.node s).currentTerm (some s)
      leaderLog := Function.update w.hist.leaderLog (w.node s).currentTerm (w.node s).log
      acked := acked
      electors := electors } : History n) = hist
  have hll : hist.leaderLog =
      Function.update w.hist.leaderLog (w.node s).currentTerm (w.node s).log := by
    rw [← hhist]
  have hcl : hist.candLog = w.hist.candLog := by rw [← hhist]
  have hwn : hist.winner = Function.update w.hist.winner (w.node s).currentTerm (some s) := by
    rw [← hhist]
  have hg : w.hist.Grows hist := grows_update (by rw [hempty]; exact List.nil_prefix) hll
  have hnode : ∀ i, i ≠ s → Function.update w.node s nd i = w.node i :=
    fun i hi => Function.update_of_ne hi ..
  constructor <;> dsimp only
  case logs =>
    intro i
    by_cases his : i = s
    · subst his; rw [Function.update_self, hlog]; exact (h.logs i).mono hg
    · rw [hnode i his]; exact (h.logs i).mono hg
  case bound =>
    intro i e he
    by_cases his : i = s
    · subst his
      rw [Function.update_self, hlog] at he
      rw [Function.update_self, hterm]; exact h.bound i e he
    · rw [hnode i his] at he ⊢; exact h.bound i e he
  case leads =>
    intro i hi
    by_cases his : i = s
    · subst his; rw [hll, Function.update_self, hterm, Function.update_self, hlog]
    · rw [hnode i his] at hi ⊢
      rw [hll, Function.update_of_ne, h.leads hi]
      -- another leader's term has been won, this one was open
      intro heq
      have := hv.leads hi
      rw [heq, hopen] at this
      exact absurd this (by simp)
  case won =>
    intro T l hl
    rw [hwn] at hl
    rw [hll]
    by_cases hT : T = (w.node s).currentTerm
    · subst hT; rw [Function.update_self]; exact (h.logs s).mono hg
    · rw [Function.update_of_ne hT] at hl ⊢; exact (h.won hl).mono hg
  case wonBound =>
    intro T e he
    rw [hll] at he
    by_cases hT : T = (w.node s).currentTerm
    · subst hT; rw [Function.update_self] at he; exact Nat.le_of_lt (hbelow e he)
    · rw [Function.update_of_ne hT] at he; exact h.wonBound T e he
  case unwon =>
    intro T hT'
    rw [hwn] at hT'
    rw [hll]
    by_cases hT : T = (w.node s).currentTerm
    · subst hT; rw [Function.update_self] at hT'; exact absurd hT' (by simp)
    · rw [Function.update_of_ne hT] at hT' ⊢; exact h.unwon hT'
  case frames =>
    intro pkt hmem
    exact (h.frames pkt hmem).mono hg (fun _ _ _ _ _ => by rw [hcl])
  case candidates =>
    intro i hi
    rw [hcl]
    by_cases his : i = s
    · subst his; rw [Function.update_self, hstate] at hi; exact RaftState.noConfusion hi
    · rw [hnode i his] at hi ⊢; exact h.candidates hi
  case candGood =>
    rw [hcl]
    exact fun hne => ⟨(h.candGood hne).1.mono hg, (h.candGood hne).2⟩

theorem logInv_append (hv : VoteInv w) (h : LogInv w) (hlead : (w.node s).state = .leader)
    (hterm : e.term = (w.node s).currentTerm) (hidx : e.index = (w.node s).log.length)
    (acked : Nat → Fin n → Nat) :
    LogInv
      { node := Function.update w.node s { w.node s with log := (w.node s).log ++ [e] }
        net := w.net
        hist := { w.hist with
          leaderLog := Function.update w.hist.leaderLog (w.node s).currentTerm
            ((w.node s).log ++ [e])
          acked := acked } } := by
  generalize hhist : ({ w.hist with
      leaderLog := Function.update w.hist.leaderLog (w.node s).currentTerm
        ((w.node s).log ++ [e])
      acked := acked } : History n) = hist
  have hll : hist.leaderLog = Function.update w.hist.leaderLog (w.node s).currentTerm
      ((w.node s).log ++ [e]) := by rw [← hhist]
  have hcl : hist.candLog = w.hist.candLog := by rw [← hhist]
  have hwn : hist.winner = w.hist.winner := by rw [← hhist]
  have hg : w.hist.Grows hist :=
    grows_update (by rw [h.leads hlead]; exact List.prefix_append _ _) hll
  -- the extended log is the leader's own, and the new entry ends it
  have hnew : GoodLog hist ((w.node s).log ++ [e]) := by
    have hold := (h.logs s).mono hg
    refine ⟨prefix_getElem? (List.prefix_append _ _) hold.head, ?_⟩
    intro i e' he'
    rcases getElem?_snoc he' with ⟨hi, he'⟩ | ⟨rfl, rfl⟩
    · rw [List.take_append_of_le_length hi]
      exact hold.entry he'
    · refine ⟨hidx, ?_⟩
      rw [hll, hterm, Function.update_self]
      exact List.take_prefix _ _
  have hnode : ∀ i, i ≠ s →
      Function.update w.node s { w.node s with log := (w.node s).log ++ [e] } i = w.node i :=
    fun i hi => Function.update_of_ne hi ..
  constructor <;> dsimp only
  case logs =>
    intro i
    by_cases his : i = s
    · subst his; rw [Function.update_self]; exact hnew
    · rw [hnode i his]; exact (h.logs i).mono hg
  case bound =>
    intro i e' he'
    by_cases his : i = s
    · subst his
      rw [Function.update_self] at he' ⊢
      rcases List.mem_append.mp he' with hold | he'
      · exact h.bound i e' hold
      · rw [List.mem_singleton.mp he', hterm]
    · rw [hnode i his] at he' ⊢; exact h.bound i e' he'
  case leads =>
    intro i hi
    by_cases his : i = s
    · subst his; rw [hll, Function.update_self, Function.update_self]
    · rw [hnode i his] at hi ⊢
      rw [hll, Function.update_of_ne, h.leads hi]
      -- two leaders of one term would be one node
      intro heq
      have h₁ := hv.leads hi
      rw [heq, hv.leads hlead] at h₁
      exact his (Option.some.inj h₁).symm
  case won =>
    intro T l hl
    rw [hwn] at hl
    rw [hll]
    by_cases hT : T = (w.node s).currentTerm
    · subst hT; rw [Function.update_self]; exact hnew
    · rw [Function.update_of_ne hT]; exact (h.won hl).mono hg
  case wonBound =>
    intro T e' he'
    rw [hll] at he'
    by_cases hT : T = (w.node s).currentTerm
    · subst hT
      rw [Function.update_self] at he'
      rcases List.mem_append.mp he' with hold | he'
      · exact h.bound s e' hold
      · rw [List.mem_singleton.mp he', hterm]
    · rw [Function.update_of_ne hT] at he'; exact h.wonBound T e' he'
  case unwon =>
    intro T hT'
    rw [hwn] at hT'
    rw [hll, Function.update_of_ne, h.unwon hT']
    intro hT
    rw [hT, hv.leads hlead] at hT'
    exact absurd hT' (by simp)
  case frames =>
    intro pkt hmem
    exact (h.frames pkt hmem).mono hg (fun _ _ _ _ _ => by rw [hcl])
  case candidates =>
    intro i hi
    rw [hcl]
    by_cases his : i = s
    · subst his
      rw [Function.update_self] at hi
      have hi' : (w.node i).state = .candidate := hi
      rw [hlead] at hi'
      exact RaftState.noConfusion hi'
    · rw [hnode i his] at hi ⊢; exact h.candidates hi
  case candGood =>
    rw [hcl]
    exact fun hne => ⟨(h.candGood hne).1.mono hg, (h.candGood hne).2⟩

/-- What a payload spells out is a good log, a prefix of its leader's. -/
theorem LogInv.payload (hv : VoteInv w) (h : LogInv w) {p l : Fin n} {T pt : Nat}
    {es : List (Nat × Command)}
    (hmem : (⟨p, s, .appendEntries T l pi pt lc es⟩ : Packet n) ∈ w.net) :
    GoodLog w.hist (w.hist.payloadLog T pi es.length) ∧
      w.hist.payloadLog T pi es.length <+: w.hist.leaderLog T ∧
      (w.hist.payloadLog T pi es.length).length = pi + 1 + es.length := by
  obtain ⟨hlen, _⟩ := h.frames _ hmem
  have hpre : w.hist.payloadLog T pi es.length <+: w.hist.leaderLog T := List.take_prefix _ _
  have hl : (w.hist.payloadLog T pi es.length).length = pi + 1 + es.length := by
    rw [History.payloadLog, List.length_take, Nat.min_eq_left hlen]
  refine ⟨(h.won (hv.appends hmem)).restrict hpre ?_, hpre, hl⟩
  rw [← List.length_pos_iff]; omega

theorem logInv_accept (hv : VoteInv w) (h : LogInv w) {p l : Fin n} {T pt : Nat}
    {es : List (Nat × Command)} (hmem : (⟨p, s, .appendEntries T l pi pt lc es⟩ : Packet n) ∈ w.net)
    (hT : (w.node s).currentTerm = T) (hrole : (w.node s).state = .follower)
    (hlog : nd.log = mergeLog (w.node s).log (w.hist.payloadLog T pi es.length))
    (hterm : nd.currentTerm = (w.node s).currentTerm) (hst : nd.state = (w.node s).state) :
    LogInv (w.setNode s nd) := by
  obtain ⟨hgood, hpre, _⟩ := h.payload hv hmem
  refine { h with logs := ?_, bound := ?_, leads := ?_, candidates := ?_ }
  · intro i
    by_cases his : i = s
    · subst his; rw [World.setNode_self, hlog]; exact (h.logs i).mergeLog_good hgood
    · rw [World.setNode_ne _ _ his]; exact h.logs i
  · intro i e he
    by_cases his : i = s
    · subst his
      rw [World.setNode_self, hlog] at he
      rw [World.setNode_self, hterm]
      unfold mergeLog at he
      split at he
      · exact h.bound i e he
      · rw [hT]; exact h.wonBound T e (hpre.mem he)
    · rw [World.setNode_ne _ _ his] at he ⊢; exact h.bound i e he
  · intro i hi
    by_cases his : i = s
    · subst his; rw [World.setNode_self, hst, hrole] at hi; exact RaftState.noConfusion hi
    · rw [World.setNode_ne _ _ his] at hi ⊢; exact h.leads hi
  · intro i hi
    by_cases his : i = s
    · subst his; rw [World.setNode_self, hst, hrole] at hi; exact RaftState.noConfusion hi
    · rw [World.setNode_ne _ _ his] at hi ⊢; exact h.candidates hi

theorem logInv_send (h : LogInv w) {q : Fin n} {prev : LogEntry}
    (hlead : (w.node s).state = .leader) (hprev : (w.node s).log[pi]? = some prev) :
    (⟨s, q, .appendEntries (w.node s).currentTerm s pi prev.term lc
      (((w.node s).log.drop (pi + 1)).map fun e => (e.term, e.command))⟩ : Packet n).LogOK
        w.hist := by
  have hlt := lt_length_of_getElem? hprev
  have hlen : pi + 1 + (((w.node s).log.drop (pi + 1)).map
      fun e => (e.term, e.command)).length = (w.node s).log.length := by
    rw [List.length_map, List.length_drop]; omega
  refine ⟨?_, ⟨prev, ?_, rfl⟩, ?_⟩
  · rw [h.leads hlead, hlen]
  · rw [h.leads hlead]; exact hprev
  · rw [History.payloadLog, h.leads hlead, hlen, List.take_length,
      decodeEntries_drop (fun he => ((h.logs s).entry he).1)]

theorem logInv_move {w' : World n} (hv : VoteInv w) (h : LogInv w) (hm : Move w w') :
    LogInv w' := by
  cases hm with
  | lose hle => exact h.setNet (fun pkt hmem => Or.inl (Multiset.mem_of_le hle hmem))
  | refuse hpq hf =>
      rename_i p q f
      refine h.cons ?_
      cases f with
      | requestVote => exact hf.elim
      | requestVoteResp => trivial
      | appendEntries => exact hf.elim
      | appendEntriesResp => trivial
  | bump hT => exact h.setNode rfl (Nat.le_of_lt hT) (fun hs => absurd rfl hs)
  | stepDown hmem hT hrole => exact h.setNode rfl (Nat.le_of_eq hT) (fun hs => absurd rfl hs)
  | follow => exact h.setNode rfl (Nat.le_refl _) (fun _ => ⟨rfl, rfl⟩)
  | backoff => exact h.setNode rfl (Nat.le_refl _) (fun _ => ⟨rfl, rfl⟩)
  | elect hlast => exact logInv_elect hv h hlast _ _
  | grant hnet hT hfree =>
      rename_i s c T _ _ _ rest _ _
      have hnode : LogInv (w.setNode s { w.node s with votedFor := some c }) :=
        h.setNode rfl (Nat.le_refl _) (fun _ => ⟨rfl, rfl⟩)
      refine LogInv.setHist (hnode.setNet fun pkt hmem => ?_) rfl rfl rfl
      rcases Multiset.mem_cons.mp hmem with rfl | hold
      · exact Or.inr trivial
      · left
        show pkt ∈ w.net
        rw [hnet]; exact Multiset.mem_cons_of_mem hold
  | count hnet hrole hT =>
      rename_i s v T rest
      have hnode : LogInv (w.setNode s
          { w.node s with votesGranted := (w.node s).votesGranted + 1 }) :=
        h.setNode rfl (Nat.le_refl _) (fun _ => ⟨rfl, rfl⟩)
      refine LogInv.setHist (hnode.setNet fun pkt hmem => Or.inl ?_) rfl rfl rfl
      show pkt ∈ w.net
      rw [hnet]; exact Multiset.mem_cons_of_mem hmem
  | win hrole hmaj hnd =>
      obtain ⟨last, _, rfl⟩ := becomeLeader_eq hnd
      refine logInv_win hv h hrole hmaj ?_ ?_ ?_ _ _ <;> rfl
  | append hlead hterm hidx => exact logInv_append hv h hlead hterm hidx _
  | send hsq hlead hprev => exact h.cons (logInv_send h hlead hprev)
  | accept hmem hT hrole hprev =>
      rename_i s p _ T pi _ lc es
      have hnode : LogInv (w.setNode s { w.node s with
          log := mergeLog (w.node s).log (w.hist.payloadLog T pi es.length)
          commitIndex := max (w.node s).commitIndex lc
          lastApplied := max (w.node s).commitIndex lc }) :=
        logInv_accept hv h hmem hT hrole rfl rfl rfl
      refine LogInv.setHist (hnode.cons ?_) rfl rfl rfl
      trivial
  | confirm => exact h.setNode rfl (Nat.le_refl _) (fun _ => ⟨rfl, rfl⟩)
  | commit => exact h.setNode rfl (Nat.le_refl _) (fun _ => ⟨rfl, rfl⟩)

end CrossMachine.Raft
