import CrossMachine.Raft.Logs

/-!
# What a confirmation is worth

A follower that confirms index `m` in term `T` holds the leader's log up to `m` at
that moment. Later leaders may make it truncate again, but only a leader of a later
term whose own log *lacks* that prefix can. `Kept` is that alternative, and it is
what the confirmation is worth from then on: the prefix is still there, or a later
winner lacks it. Leader completeness will show that the second case never arises
for what a majority has confirmed.
-/

namespace CrossMachine.Raft

open Lib

variable {n : Nat}

/-- The log of the leader of `T` up to index `m`. -/
def History.upTo (h : History n) (T m : Nat) : List LogEntry := (h.leaderLog T).take (m + 1)

/-- Index `m` of that log holds an entry of term `T` itself. -/
def History.Own (h : History n) (T m : Nat) : Prop :=
  ∃ e, (h.leaderLog T)[m]? = some e ∧ e.term = T

/-- Term `W` was won by a node whose log does not start with that prefix. -/
def History.Lacks (h : History n) (T m W : Nat) : Prop :=
  h.winner W ≠ none ∧ ¬ h.upTo T m <+: h.leaderLog W

/-- `L` starts with the prefix, or a winner between `T` and `B` lacks it. -/
def History.Kept (h : History n) (L : List LogEntry) (B T m : Nat) : Prop :=
  h.upTo T m <+: L ∨ ∃ W, T < W ∧ W < B ∧ h.Lacks T m W

/-- The history goes on: winners stay, and a winner's log grows by entries of its term. -/
structure History.Extends (h h' : History n) : Prop where
  winner : ∀ {T l}, h.winner T = some l → h'.winner T = some l
  grows : h.Grows h'
  own : ∀ {T}, h.winner T ≠ none → ∀ {i e}, (h.leaderLog T).length ≤ i →
    (h'.leaderLog T)[i]? = some e → e.term = T

namespace History

variable {h h' h'' : History n} {T m W B B' : Nat} {L L' : List LogEntry}

theorem Extends.refl (h : History n) : h.Extends h where
  winner := fun hl => hl
  grows := fun _ => List.prefix_rfl
  own := by
    intro T _ i e hi he
    exact absurd (lt_length_of_getElem? he) (by omega)

theorem Extends.trans (h₁ : h.Extends h') (h₂ : h'.Extends h'') : h.Extends h'' where
  winner := fun hl => h₂.winner (h₁.winner hl)
  grows := fun T => (h₁.grows T).trans (h₂.grows T)
  own := by
    intro T hT i e hi he
    obtain ⟨l, hl⟩ := Option.ne_none_iff_exists'.mp hT
    by_cases hlt : i < (h'.leaderLog T).length
    · refine h₁.own hT hi ?_
      have := prefix_getElem? (h₂.grows T) (List.getElem?_eq_getElem hlt)
      rw [he] at this
      rw [List.getElem?_eq_getElem hlt, Option.some.inj this]
    · exact h₂.own (by rw [h₁.winner hl]; simp) (by omega) he

theorem Own.lt (ho : h.Own T m) : m < (h.leaderLog T).length := by
  obtain ⟨e, he, _⟩ := ho
  exact lt_length_of_getElem? he

theorem Own.mono (ho : h.Own T m) (hx : h.Extends h') : h'.Own T m := by
  obtain ⟨e, he, ht⟩ := ho
  exact ⟨e, prefix_getElem? (hx.grows T) he, ht⟩

theorem upTo_eq (hx : h.Extends h') (hm : m < (h.leaderLog T).length) :
    h'.upTo T m = h.upTo T m :=
  prefix_take_eq (hx.grows T) hm

/-- Whether a log position is a leader's own does not change with time. -/
theorem Own.of_mono (hx : h.Extends h') (hm : m < (h.leaderLog T).length) (ho : h'.Own T m) :
    h.Own T m := by
  obtain ⟨e, he, ht⟩ := ho
  have := prefix_getElem? (hx.grows T) (List.getElem?_eq_getElem hm)
  rw [he] at this
  exact ⟨_, List.getElem?_eq_getElem hm, by rw [← Option.some.inj this]; exact ht⟩

/-- A winner that lacks a prefix never acquires it: it only appends entries of its
own, later, term. -/
theorem Lacks.mono (hl : h.Lacks T m W) (hTW : T < W) (ho : h.Own T m) (hx : h.Extends h') :
    h'.Lacks T m W := by
  obtain ⟨hW, hnot⟩ := hl
  obtain ⟨l, hwin⟩ := Option.ne_none_iff_exists'.mp hW
  refine ⟨by rw [hx.winner hwin]; simp, ?_⟩
  rw [upTo_eq hx ho.lt]
  intro hp
  obtain ⟨e, he, ht⟩ := ho
  have hend : (h.upTo T m)[m]? = some e := by
    rw [upTo, List.getElem?_take_of_succ]; exact he
  rcases List.prefix_or_prefix_of_prefix hp (hx.grows W) with hp' | hp'
  · exact hnot hp'
  · have hshort : (h.leaderLog W).length ≤ m := by
      by_contra hlt
      refine hnot (List.prefix_of_prefix_length_le hp (hx.grows W) ?_)
      rw [upTo, List.length_take]; omega
    have := hx.own hW hshort (prefix_getElem? hp hend)
    omega

theorem Kept.mono (hk : h.Kept L B T m) (ho : h.Own T m) (hx : h.Extends h') (hL : L <+: L')
    (hB : B ≤ B') : h'.Kept L' B' T m := by
  rcases hk with hp | ⟨W, hTW, hWB, hlack⟩
  · left
    rw [upTo_eq hx ho.lt]; exact hp.trans hL
  · exact Or.inr ⟨W, hTW, Nat.lt_of_lt_of_le hWB hB, hlack.mono hTW ho hx⟩

end History

variable {w : World n} {s : Fin n} {nd : RaftNode n} {hist : History n}

/-- **Every move extends the history.** -/
theorem move_extends {w' : World n} (hv : VoteInv w) (hl : LogInv w) (hm : Move w w') :
    w.hist.Extends w'.hist := by
  cases hm with
  | win hrole hmaj hnd =>
      rename_i s nd
      obtain ⟨_, hopen⟩ := hv.open_of_majority hrole hmaj
      have hpos := (hl.candBound hrole).1
      refine ⟨?_, ?_, ?_⟩ <;> dsimp only
      · intro T l hT
        rw [Function.update_of_ne]
        · exact hT
        · rintro rfl; rw [hopen] at hT; exact absurd hT (by simp)
      · refine grows_update ?_ rfl
        rw [hl.unwon hopen, if_neg (by omega)]; exact List.nil_prefix
      · intro T hT i e hi he
        rw [Function.update_of_ne (by rintro rfl; exact hT hopen)] at he
        exact absurd (lt_length_of_getElem? he) (by omega)
  | append hlead hterm hidx =>
      rename_i s e
      refine ⟨fun hT => hT, grows_update ?_ rfl, ?_⟩
      · rw [hl.leads hlead]; exact List.prefix_append _ _
      · intro T hT i e' hi he'
        dsimp only at he'
        by_cases hTs : T = (w.node s).currentTerm
        · subst hTs
          rw [hl.leads hlead] at hi
          rw [Function.update_self] at he'
          obtain ⟨hlt, -⟩ | ⟨-, rfl⟩ := getElem?_snoc he'
          · omega
          · exact hterm
        · rw [Function.update_of_ne hTs] at he'
          exact absurd (lt_length_of_getElem? he') (by omega)
  | elect => exact ⟨fun hT => hT, fun _ => List.prefix_rfl, (History.Extends.refl _).own⟩
  | grant => exact ⟨fun hT => hT, fun _ => List.prefix_rfl, (History.Extends.refl _).own⟩
  | count => exact ⟨fun hT => hT, fun _ => List.prefix_rfl, (History.Extends.refl _).own⟩
  | accept => exact ⟨fun hT => hT, fun _ => List.prefix_rfl, (History.Extends.refl _).own⟩
  | lose => exact History.Extends.refl _
  | refuse => exact History.Extends.refl _
  | bump => exact History.Extends.refl _
  | stepDown => exact History.Extends.refl _
  | follow => exact History.Extends.refl _
  | backoff => exact History.Extends.refl _
  | send => exact History.Extends.refl _
  | confirm => exact History.Extends.refl _
  | commit => exact History.Extends.refl _

/-! ## The invariant -/

structure AckInv (w : World n) : Prop where
  /-- A confirmation is of a term the node has reached, within the leader's log. -/
  reach : ∀ {T p}, 0 < w.hist.acked T p →
    T ≤ (w.node p).currentTerm ∧ w.hist.acked T p < (w.hist.leaderLog T).length
  /-- The leader itself stands behind its whole log. -/
  winner : ∀ {T l}, w.hist.winner T = some l →
    w.hist.acked T l + 1 = (w.hist.leaderLog T).length
  kept : ∀ {T p m}, 0 < m → m ≤ w.hist.acked T p → w.hist.Own T m →
    w.hist.Kept (w.node p).log ((w.node p).currentTerm + 1) T m
  /-- A confirmation in flight goes to the winner and is on record. -/
  replies : ∀ {p q T m}, (⟨q, p, .appendEntriesResp T true m⟩ : Packet n) ∈ w.net →
    w.hist.winner T = some p ∧ m ≤ w.hist.acked T q
  /-- What a leader believes of its peers is on record, and in range. -/
  matched : ∀ {s}, (w.node s).state = .leader → ∀ p,
    ((w.node s).peerState p).matchIndex ≤ w.hist.acked (w.node s).currentTerm p ∧
      1 ≤ ((w.node s).peerState p).nextIndex ∧
      ((w.node s).peerState p).nextIndex ≤ (w.node s).log.length
  /-- The leader's slot for itself is never used. -/
  selfSlot : ∀ {s}, (w.node s).state = .leader → ((w.node s).peerState s).matchIndex = 0

theorem ackInv_init : AckInv (initWorld n) where
  reach := by intro T p h; exact absurd h (by simp [initWorld, initHistory])
  winner := by intro T l h; simp [initWorld, initHistory] at h
  kept := by
    intro T p m h0 hm
    simp only [initWorld, initHistory] at hm
    omega
  replies := by intro p q T m h; simp [initWorld] at h
  matched := by intro s h; simp [initWorld] at h
  selfSlot := by intro s h; simp [initWorld] at h

/-- A change at `s` that keeps its log, and its view of the peers while it leads. -/
theorem AckInv.setNode (h : AckInv w) (hlog : nd.log = (w.node s).log)
    (hterm : (w.node s).currentTerm ≤ nd.currentTerm)
    (hmatch : nd.state = .leader → ∀ p, (nd.peerState p).matchIndex ≤
        w.hist.acked nd.currentTerm p ∧ 1 ≤ (nd.peerState p).nextIndex ∧
        (nd.peerState p).nextIndex ≤ nd.log.length)
    (hself : nd.state = .leader → (nd.peerState s).matchIndex = 0) : AckInv (w.setNode s nd) := by
  refine { h with reach := ?_, kept := ?_, matched := ?_, selfSlot := ?_ }
  · intro T p hp
    refine ⟨Nat.le_trans (h.reach hp).1 ?_, (h.reach hp).2⟩
    by_cases hps : p = s
    · subst hps; rw [World.setNode_self]; exact hterm
    · rw [World.setNode_ne _ _ hps]
  · intro T p m h0 hm ho
    have hk := h.kept h0 hm ho
    by_cases hps : p = s
    · subst hps
      rw [World.setNode_self, hlog]
      exact hk.mono ho (History.Extends.refl _) List.prefix_rfl (by omega)
    · rw [World.setNode_ne _ _ hps]; exact hk
  · intro i hi
    by_cases his : i = s
    · subst his; rw [World.setNode_self] at hi ⊢; exact hmatch hi
    · rw [World.setNode_ne _ _ his] at hi ⊢; exact h.matched hi
  · intro i hi
    by_cases his : i = s
    · subst his; rw [World.setNode_self] at hi ⊢; exact hself hi
    · rw [World.setNode_ne _ _ his] at hi ⊢; exact h.selfSlot hi

/-- A change at `s` that touches neither the log nor the peers. -/
theorem AckInv.setNode_quiet (h : AckInv w) (hlog : nd.log = (w.node s).log)
    (hterm : nd.currentTerm = (w.node s).currentTerm) (hstate : nd.state = (w.node s).state)
    (hpeer : nd.peerState = (w.node s).peerState) : AckInv (w.setNode s nd) := by
  refine h.setNode hlog (Nat.le_of_eq hterm.symm) ?_ ?_
  · intro hs p
    rw [hpeer, hterm, hlog]; exact h.matched (hstate ▸ hs) p
  · intro hs
    rw [hpeer]; exact h.selfSlot (hstate ▸ hs)

theorem AckInv.setNet (h : AckInv w) {net : Multiset (Packet n)}
    (hpkt : ∀ {p q T m}, (⟨q, p, .appendEntriesResp T true m⟩ : Packet n) ∈ net →
      (⟨q, p, .appendEntriesResp T true m⟩ : Packet n) ∈ w.net) : AckInv { w with net := net } :=
  { h with replies := fun hmem => h.replies (hpkt hmem) }

/-- Votes do not matter here. -/
theorem AckInv.setHist (h : AckInv w) (hwin : hist.winner = w.hist.winner)
    (hlog : hist.leaderLog = w.hist.leaderLog) (hack : hist.acked = w.hist.acked) :
    AckInv { w with hist := hist } := by
  cases hist
  dsimp only at hwin hlog hack
  subst hwin; subst hlog; subst hack
  exact ⟨h.reach, h.winner, h.kept, h.replies, h.matched, h.selfSlot⟩

/-- Nothing is confirmed in a term that has no winner. -/
theorem AckInv.none_open (hl : LogInv w) (h : AckInv w) {T : Nat} (hopen : w.hist.winner T = none)
    (hpos : 0 < T) (p : Fin n) : w.hist.acked T p = 0 := by
  by_contra hne
  have hlt := (h.reach (Nat.pos_of_ne_zero hne)).2
  rw [hl.unwon hopen, if_neg (by omega)] at hlt
  exact absurd hlt (by simp)

/-- A new leader stands behind the log it was elected with, and nobody has confirmed
anything in its term yet. -/
theorem ackInv_win (hv : VoteInv w) (hl : LogInv w) (h : AckInv w)
    (hrole : (w.node s).state = .candidate) (hmaj : n < (w.node s).votesGranted * 2)
    (hnd : becomeLeader s (w.node s) = some nd) (hx : w.hist.Extends hist)
    (hwin : hist.winner = Function.update w.hist.winner (w.node s).currentTerm (some s))
    (hlog : hist.leaderLog =
      Function.update w.hist.leaderLog (w.node s).currentTerm (w.node s).log)
    (hack : hist.acked = set₂ w.hist.acked (w.node s).currentTerm s ((w.node s).log.length - 1)) :
    AckInv { node := Function.update w.node s nd, net := w.net, hist := hist } := by
  obtain ⟨_, hopen⟩ := hv.open_of_majority hrole hmaj
  obtain ⟨hpos, hbelow⟩ := hl.candBound hrole
  obtain ⟨last, hlast, rfl⟩ := becomeLeader_eq hnd
  have hlen := (hl.logs s).last hlast
  have hnone := h.none_open hl hopen hpos
  generalize hnd' : ({ w.node s with
    state := .leader
    leaderId := some s
    peerState := fun _ => { nextIndex := last.index + 1, matchIndex := 0 } } : RaftNode n) = nd'
  have hterm' : nd'.currentTerm = (w.node s).currentTerm := by rw [← hnd']
  have hlog' : nd'.log = (w.node s).log := by rw [← hnd']
  have hpeer' : ∀ p, nd'.peerState p = { nextIndex := last.index + 1, matchIndex := 0 } := by
    intro p; rw [← hnd']
  have hother : ∀ i, i ≠ s → Function.update w.node s nd' i = w.node i :=
    fun i hi => Function.update_of_ne hi ..
  have hsame : ∀ i, (Function.update w.node s nd' i).currentTerm = (w.node i).currentTerm ∧
      (Function.update w.node s nd' i).log = (w.node i).log := by
    intro i
    by_cases his : i = s
    · subst his; rw [Function.update_self]; exact ⟨hterm', hlog'⟩
    · rw [hother i his]; exact ⟨rfl, rfl⟩
  constructor <;> dsimp only <;> try simp only [(hsame _).1, (hsame _).2]
  case reach =>
    intro T p hp
    rw [hack] at hp ⊢
    by_cases hTp : T = (w.node s).currentTerm ∧ p = s
    · obtain ⟨rfl, rfl⟩ := hTp
      rw [set₂_self, hlog, Function.update_self]
      exact ⟨Nat.le_refl _, by omega⟩
    · rw [set₂_ne _ _ hTp] at hp ⊢
      exact ⟨(h.reach hp).1, Nat.lt_of_lt_of_le (h.reach hp).2 (hx.grows T).length_le⟩
  case winner =>
    intro T l hT
    rw [hwin] at hT
    rw [hack, hlog]
    by_cases hTs : T = (w.node s).currentTerm
    · subst hTs
      rw [Function.update_self] at hT ⊢
      obtain rfl := Option.some.inj hT
      rw [set₂_self]; omega
    · rw [Function.update_of_ne hTs] at hT ⊢
      rw [set₂_ne _ _ (fun hq => hTs hq.1)]; exact h.winner hT
  case kept =>
    intro T p m h0 hm ho
    rw [hack] at hm
    by_cases hTs : T = (w.node s).currentTerm
    · exfalso
      subst hTs
      by_cases hps : p = s
      · -- the log of a new leader holds no entry of its own term
        obtain ⟨e, he, ht⟩ := ho
        rw [hlog, Function.update_self] at he
        have := hbelow e (List.mem_of_getElem? he)
        omega
      · rw [set₂_ne _ _ (fun hq => hps hq.2), hnone p] at hm; omega
    · rw [set₂_ne _ _ (fun hq => hTs hq.1)] at hm
      have hlt := (h.reach (Nat.lt_of_lt_of_le h0 hm)).2
      have ho' := History.Own.of_mono hx (Nat.lt_of_le_of_lt hm hlt) ho
      exact (h.kept h0 hm ho').mono ho' hx List.prefix_rfl (Nat.le_refl _)
  case replies =>
    intro p q T m hmem
    obtain ⟨hT, hm⟩ := h.replies hmem
    refine ⟨hx.winner hT, ?_⟩
    rw [hack, set₂_ne]
    · exact hm
    · rintro ⟨rfl, _⟩; rw [hopen] at hT; exact absurd hT (by simp)
  case matched =>
    intro i hi p
    by_cases his : i = s
    · subst his
      rw [Function.update_self, hpeer']
      exact ⟨Nat.zero_le _, by simp, by simp; omega⟩
    · rw [hother i his] at hi ⊢
      rw [hack, set₂_ne]
      · exact h.matched hi p
      · rintro ⟨hT, _⟩
        have := hv.leads hi
        rw [hT, hopen] at this
        exact absurd this (by simp)
  case selfSlot =>
    intro i hi
    by_cases his : i = s
    · subst his; rw [Function.update_self, hpeer']
    · rw [hother i his] at hi ⊢; exact h.selfSlot hi

theorem ackInv_append (hv : VoteInv w) (hl : LogInv w) (h : AckInv w) {e : LogEntry}
    (hlead : (w.node s).state = .leader) (hnd : nd = { w.node s with log := (w.node s).log ++ [e] })
    (hx : w.hist.Extends hist) (hwin : hist.winner = w.hist.winner)
    (hlog : hist.leaderLog = Function.update w.hist.leaderLog (w.node s).currentTerm
      ((w.node s).log ++ [e]))
    (hack : hist.acked = set₂ w.hist.acked (w.node s).currentTerm s (w.node s).log.length) :
    AckInv { node := Function.update w.node s nd, net := w.net, hist := hist } := by
  have hwon := hv.leads hlead
  have hsack := h.winner hwon
  rw [hl.leads hlead] at hsack
  have hother : ∀ i, i ≠ s → Function.update w.node s nd i = w.node i :=
    fun i hi => Function.update_of_ne hi ..
  have hsame : ∀ i, (Function.update w.node s nd i).currentTerm = (w.node i).currentTerm ∧
      (Function.update w.node s nd i).state = (w.node i).state ∧
      (Function.update w.node s nd i).peerState = (w.node i).peerState ∧
      (w.node i).log <+: (Function.update w.node s nd i).log := by
    intro i
    by_cases his : i = s
    · subst his
      rw [Function.update_self, hnd]
      exact ⟨rfl, rfl, rfl, List.prefix_append _ _⟩
    · rw [hother i his]; exact ⟨rfl, rfl, rfl, List.prefix_rfl⟩
  have hgrow : ∀ T p, w.hist.acked T p ≤ hist.acked T p := by
    intro T p
    rw [hack]
    by_cases hTp : T = (w.node s).currentTerm ∧ p = s
    · obtain ⟨rfl, rfl⟩ := hTp; rw [set₂_self]; omega
    · rw [set₂_ne _ _ hTp]
  constructor <;> dsimp only <;> try simp only [(hsame _).1, (hsame _).2.1, (hsame _).2.2.1]
  case reach =>
    intro T p hp
    rw [hack] at hp ⊢
    by_cases hTp : T = (w.node s).currentTerm ∧ p = s
    · obtain ⟨rfl, rfl⟩ := hTp
      rw [set₂_self, hlog, Function.update_self, List.length_append, List.length_singleton]
      exact ⟨Nat.le_refl _, Nat.lt_succ_self _⟩
    · rw [set₂_ne _ _ hTp] at hp ⊢
      exact ⟨(h.reach hp).1, Nat.lt_of_lt_of_le (h.reach hp).2 (hx.grows T).length_le⟩
  case winner =>
    intro T l hT
    rw [hwin] at hT
    rw [hack, hlog]
    by_cases hTs : T = (w.node s).currentTerm
    · subst hTs
      rw [hwon] at hT
      obtain rfl := Option.some.inj hT
      rw [Function.update_self, set₂_self, List.length_append, List.length_singleton]
    · rw [Function.update_of_ne hTs, set₂_ne _ _ (fun hq => hTs hq.1)]; exact h.winner hT
  case kept =>
    intro T p m h0 hm ho
    by_cases hTp : T = (w.node s).currentTerm ∧ p = s
    · -- the leader's own log is its log on record
      obtain ⟨rfl, rfl⟩ := hTp
      left
      rw [Function.update_self, hnd, History.upTo, hlog, Function.update_self]
      exact List.take_prefix _ _
    · rw [hack, set₂_ne _ _ hTp] at hm
      have hlt := (h.reach (Nat.lt_of_lt_of_le h0 hm)).2
      have ho' := History.Own.of_mono hx (Nat.lt_of_le_of_lt hm hlt) ho
      exact (h.kept h0 hm ho').mono ho' hx (hsame p).2.2.2 (Nat.le_refl _)
  case replies =>
    intro p q T m hmem
    obtain ⟨hT, hm⟩ := h.replies hmem
    exact ⟨hx.winner hT, Nat.le_trans hm (hgrow T q)⟩
  case matched =>
    intro i hi p
    obtain ⟨hm, h1, h2⟩ := h.matched hi p
    exact ⟨Nat.le_trans hm (hgrow _ p), h1, Nat.le_trans h2 (hsame i).2.2.2.length_le⟩
  case selfSlot => exact h.selfSlot

/-- Accepting a payload confirms it. What was confirmed before stays, or the sender
is a winner that lacks it. -/
theorem ackInv_accept (hv : VoteInv w) (hl : LogInv w) (h : AckInv w) {p l : Fin n}
    {T pi pt lc : Nat} {es : List (Nat × Command)}
    (hmem : (⟨p, s, .appendEntries T l pi pt lc es⟩ : Packet n) ∈ w.net)
    (hT : (w.node s).currentTerm = T) (hrole : (w.node s).state = .follower)
    (hlog : nd.log = mergeLog (w.node s).log (w.hist.payloadLog T pi es.length))
    (hterm : nd.currentTerm = (w.node s).currentTerm) (hst : nd.state = (w.node s).state)
    (hwin : hist.winner = w.hist.winner) (hll : hist.leaderLog = w.hist.leaderLog)
    (hack : hist.acked = set₂ w.hist.acked T s (max (w.hist.acked T s) (pi + es.length))) :
    AckInv { node := Function.update w.node s nd
             net := ⟨s, p, .appendEntriesResp T true (pi + es.length)⟩ ::ₘ w.net
             hist := hist } := by
  have hwon := hv.appends hmem
  have hps : p ≠ s := hv.distinct _ hmem
  obtain ⟨hgood, hpre, hlenM⟩ := hl.payload hv hmem
  have hMlen := hpre.length_le
  have hupTo : ∀ T' m, hist.upTo T' m = w.hist.upTo T' m := by
    intro T' m; rw [History.upTo, History.upTo, hll]
  have hx : w.hist.Extends hist := by
    refine ⟨?_, ?_, ?_⟩
    · rw [hwin]; exact fun hq => hq
    · intro T'; rw [hll]
    · rw [hll]; exact (History.Extends.refl _).own
  have hother : ∀ i, i ≠ s → Function.update w.node s nd i = w.node i :=
    fun i hi => Function.update_of_ne hi ..
  have hsame : ∀ i, (Function.update w.node s nd i).currentTerm = (w.node i).currentTerm ∧
      (Function.update w.node s nd i).state = (w.node i).state := by
    intro i
    by_cases his : i = s
    · subst his; rw [Function.update_self]; exact ⟨hterm, hst⟩
    · rw [hother i his]; exact ⟨rfl, rfl⟩
  have hgrow : ∀ T' p', w.hist.acked T' p' ≤ hist.acked T' p' := by
    intro T' p'
    rw [hack]
    by_cases hTp : T' = T ∧ p' = s
    · obtain ⟨rfl, rfl⟩ := hTp; rw [set₂_self]; exact Nat.le_max_left _ _
    · rw [set₂_ne _ _ hTp]
  have hlead : ∀ i, (w.node i).state = .leader → i ≠ s := by
    rintro i hi rfl
    rw [hrole] at hi
    exact RaftState.noConfusion hi
  constructor <;> dsimp only <;> try simp only [(hsame _).1, (hsame _).2]
  case reach =>
    intro T' p' hp'
    rw [hll]
    by_cases hTp : T' = T ∧ p' = s
    · obtain ⟨rfl, rfl⟩ := hTp
      refine ⟨Nat.le_of_eq hT.symm, ?_⟩
      rw [hack, set₂_self]
      rcases Nat.eq_zero_or_pos (w.hist.acked T' p') with h0 | h0
      · omega
      · have := (h.reach h0).2; omega
    · rw [hack, set₂_ne _ _ hTp] at hp' ⊢; exact h.reach hp'
  case winner =>
    intro T' l' hl'
    rw [hwin] at hl'
    rw [hack, hll, set₂_ne]
    · exact h.winner hl'
    · rintro ⟨rfl, rfl⟩; rw [hwon] at hl'; exact hps (Option.some.inj hl')
  case kept =>
    intro T' p' m h0 hm ho
    have ho' : w.hist.Own T' m := by
      obtain ⟨e, he, ht⟩ := ho
      rw [hll] at he; exact ⟨e, he, ht⟩
    -- a prefix of the sender's log that was there is still there
    have hstay : w.hist.upTo T' m <+: (w.node s).log → w.hist.upTo T' m <+: w.hist.leaderLog T →
        hist.upTo T' m <+: nd.log := by
      intro h₁ h₂
      rw [hupTo, hlog]; exact prefix_mergeLog h₁ h₂ hpre
    by_cases hps' : p' = s
    · subst hps'
      rw [Function.update_self]
      by_cases hTT : T' = T
      · subst hTT
        left
        rw [hack, set₂_self] at hm
        -- the confirmation covers the payload, or is older than it
        by_cases hnew : m ≤ pi + es.length
        · rw [hupTo, hlog]
          refine List.IsPrefix.trans ?_ (payload_prefix_mergeLog _ _)
          exact List.take_prefix_take_left (by omega)
        · have hold : m ≤ w.hist.acked T' p' := by omega
          rcases h.kept h0 hold ho' with hp | ⟨W, hW₁, hW₂, _⟩
          · exact hstay hp (List.take_prefix _ _)
          · omega
      · rw [hack, set₂_ne _ _ (fun hq => hTT hq.1)] at hm
        have hle := (h.reach (Nat.lt_of_lt_of_le h0 hm)).1
        rcases h.kept h0 hm ho' with hp | ⟨W, hW₁, hW₂, hlack⟩
        · -- a sender that lacks the prefix is the excuse for its loss
          by_cases hfit : w.hist.upTo T' m <+: w.hist.leaderLog T
          · exact Or.inl (hstay hp hfit)
          · refine Or.inr ⟨T, by omega, by omega, ?_, ?_⟩
            · rw [hwin, hwon]; simp
            · rw [hupTo, hll]; exact hfit
        · exact Or.inr ⟨W, hW₁, hW₂, hlack.mono hW₁ ho' hx⟩
    · rw [hack, set₂_ne _ _ (fun hq => hps' hq.2)] at hm
      rw [hother p' hps']
      exact (h.kept h0 hm ho').mono ho' hx List.prefix_rfl (Nat.le_refl _)
  case replies =>
    intro p' q T' m hmem'
    rcases Multiset.mem_cons.mp hmem' with heq | hold
    · simp only [Packet.mk.injEq, Frame.appendEntriesResp.injEq, true_and] at heq
      obtain ⟨rfl, rfl, rfl, rfl⟩ := heq
      rw [hwin, hack, set₂_self]
      exact ⟨hwon, Nat.le_max_right _ _⟩
    · obtain ⟨hw, hm⟩ := h.replies hold
      exact ⟨hx.winner hw, Nat.le_trans hm (hgrow T' q)⟩
  case matched =>
    intro i hi p'
    obtain ⟨hm, h1, h2⟩ := h.matched hi p'
    rw [hother i (hlead i hi)]
    exact ⟨Nat.le_trans hm (hgrow _ p'), h1, h2⟩
  case selfSlot =>
    intro i hi
    rw [hother i (hlead i hi)]; exact h.selfSlot hi

theorem ackInv_confirm (hv : VoteInv w) (hl : LogInv w) (h : AckInv w) {p : Fin n} {T m : Nat}
    (hmem : (⟨p, s, .appendEntriesResp T true m⟩ : Packet n) ∈ w.net)
    (hlead : (w.node s).state = .leader) (hT : (w.node s).currentTerm = T) :
    AckInv (w.setNode s (setPeer (w.node s) p
      { nextIndex := m + 1, matchIndex := max ((w.node s).peerState p).matchIndex m })) := by
  have hps : p ≠ s := hv.distinct _ hmem
  obtain ⟨_, hack⟩ := h.replies hmem
  have hlt : m < (w.node s).log.length := by
    rcases Nat.eq_zero_or_pos m with h0 | h0
    · have := (hl.logs s).length_pos; omega
    · have := (h.reach (Nat.lt_of_lt_of_le h0 hack)).2
      rw [← hT, hl.leads hlead] at this
      rw [← hT] at hack
      omega
  refine h.setNode rfl (Nat.le_refl _) ?_ ?_
  · intro _ q
    have hq := h.matched hlead q
    by_cases hqp : q = p
    · subst hqp
      simp only [setPeer, Function.update_self]
      rw [hT] at hq ⊢
      exact ⟨Nat.max_le.mpr ⟨hq.1, hack⟩, Nat.le_add_left _ _, hlt⟩
    · simp only [setPeer, Function.update_of_ne hqp]
      exact hq
  · intro _
    simp only [setPeer, Function.update_of_ne hps.symm]
    exact h.selfSlot hlead

theorem ackInv_move {w' : World n} (hv : VoteInv w) (hl : LogInv w) (h : AckInv w)
    (hm : Move w w') : AckInv w' := by
  have hx := move_extends hv hl hm
  cases hm with
  | lose hle => exact h.setNet (fun hmem => Multiset.mem_of_le hle hmem)
  | refuse hpq hf =>
      refine h.setNet (fun hmem => ?_)
      rcases Multiset.mem_cons.mp hmem with heq | hold
      · cases heq; exact Bool.noConfusion hf
      · exact hold
  | bump hT =>
      exact h.setNode rfl (Nat.le_of_lt hT) (fun hs => RaftState.noConfusion hs)
        (fun hs => RaftState.noConfusion hs)
  | stepDown hmem hT hrole =>
      exact h.setNode rfl (Nat.le_of_eq hT) (fun hs => RaftState.noConfusion hs)
        (fun hs => RaftState.noConfusion hs)
  | follow => exact h.setNode_quiet rfl rfl rfl rfl
  | backoff hlead hnext =>
      rename_i s p
      refine h.setNode rfl (Nat.le_refl _) ?_ ?_
      · intro _ q
        have hq := h.matched hlead q
        by_cases hqp : q = p
        · subst hqp
          simp only [setPeer, Function.update_self]
          exact ⟨hq.1, by omega, by omega⟩
        · simp only [setPeer, Function.update_of_ne hqp]
          exact hq
      · intro _
        by_cases hsp : s = p
        · subst hsp; simp only [setPeer, Function.update_self]; exact h.selfSlot hlead
        · simp only [setPeer, Function.update_of_ne hsp]; exact h.selfSlot hlead
  | elect =>
      rename_i s last hlast
      have hnode : AckInv (w.setNode s (becomeCandidate s (w.node s))) :=
        h.setNode rfl (Nat.le_succ _) (fun hs => RaftState.noConfusion hs)
          (fun hs => RaftState.noConfusion hs)
      refine AckInv.setHist (hnode.setNet ?_) rfl rfl rfl
      intro p q T m hmem
      rcases Multiset.mem_add.mp hmem with hb | hold
      · obtain ⟨_, _, heq⟩ := mem_ballotsOf hb
        simp at heq
      · exact hold
  | grant hnet hT hfree =>
      rename_i s c T _ _ _ rest _ _
      have hnode : AckInv (w.setNode s { w.node s with votedFor := some c }) :=
        h.setNode_quiet rfl rfl rfl rfl
      refine AckInv.setHist (hnode.setNet ?_) rfl rfl rfl
      intro p q T' m hmem
      rcases Multiset.mem_cons.mp hmem with heq | hold
      · simp at heq
      · show _ ∈ w.net
        rw [hnet]; exact Multiset.mem_cons_of_mem hold
  | count hnet hrole hT =>
      rename_i s v T rest
      have hnode : AckInv (w.setNode s
          { w.node s with votesGranted := (w.node s).votesGranted + 1 }) :=
        h.setNode_quiet rfl rfl rfl rfl
      refine AckInv.setHist (hnode.setNet ?_) rfl rfl rfl
      intro p q T' m hmem
      show _ ∈ w.net
      rw [hnet]; exact Multiset.mem_cons_of_mem hmem
  | win hrole hmaj hnd => exact ackInv_win hv hl h hrole hmaj hnd hx rfl rfl rfl
  | append hlead hterm hidx => exact ackInv_append hv hl h hlead rfl hx rfl rfl rfl
  | send hsq hlead hprev =>
      refine h.setNet (fun hmem => ?_)
      rcases Multiset.mem_cons.mp hmem with heq | hold
      · simp at heq
      · exact hold
  | accept hmem hT hrole hprev =>
      refine ackInv_accept hv hl h hmem hT hrole ?_ ?_ ?_ ?_ ?_ ?_ <;> rfl
  | confirm hmem hlead hT => exact ackInv_confirm hv hl h hmem hlead hT
  | commit => exact h.setNode_quiet rfl rfl rfl rfl

end CrossMachine.Raft
