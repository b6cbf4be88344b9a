import CrossMachine.Lib.Instances
import CrossMachine.Lib.Sum
import CrossMachine.Snapshot.Markers
import Mathlib.Algebra.BigOperators.Group.List.Basic
import Mathlib.Data.Fintype.BigOperators
import Mathlib.Tactic.Abel

/-!
# The cut a snapshot records

While a snapshot is under way, some nodes have recorded their state and some have not.
`cutTotal` adds up what the finished snapshot will say: the recorded state of the
former, and of the latter what they would record now; on each channel, what is
recorded, and what is still to come before the marker. This sum never changes, with
one exception: a node that records its state while one of its receiver threads holds
an amount it has not yet passed to `onTransfer_`. That amount is then in no recorded
balance and in no recorded channel.

So the snapshot conserves the total in every run in which no state is recorded in
that gap, and it need not otherwise.
-/

namespace CrossMachine.Snapshot

open Lib

variable {n : Nat} {α : Type}

/-- No state is recorded while a receiver thread of the node is between the locked region
of `handleTransfer` and its call of `onTransfer_`. -/
def QuietRecord (σ : System n α) : Action n α → Prop
  | .initiateSnapshot s => ∀ p, σ.pending s p = none
  | .recv s p => (σ.node s).snapshotting = false → (σ.chan p s).head? = some .marker →
      ∀ q, σ.pending s q = none
  | _ => True

instance [DecidableEq α] (σ : System n α) : ∀ a : Action n α, Decidable (QuietRecord σ a)
  | .initiateSnapshot s => inferInstanceAs (Decidable (∀ p, σ.pending s p = none))
  | .recv s p => inferInstanceAs (Decidable ((σ.node s).snapshotting = false →
      (σ.chan p s).head? = some .marker → ∀ q, σ.pending s q = none))
  | .transfer .. | .onTransfer .. | .finishInitiate _ | .finishPassive _ => isTrue trivial

variable [AddCommGroup α]

/-! ## What is to come on a channel -/

/-- The amounts in a channel that arrive before the marker. -/
def beforeMarker : List (WireMsg α) → α
  | [] => 0
  | .marker :: _ => 0
  | .transfer a :: ms => a + beforeMarker ms

theorem beforeMarker_append_marker (ms : List (WireMsg α)) :
    beforeMarker (ms ++ [WireMsg.marker]) = beforeMarker ms := by
  induction ms with
  | nil => rfl
  | cons m ms ih =>
      cases m with
      | marker => rfl
      | transfer a => rw [List.cons_append, beforeMarker, beforeMarker, ih]

/-- A transfer sent when no marker is in the channel arrives before the marker. -/
theorem beforeMarker_append_transfer {ms : List (WireMsg α)} (h : markers ms = 0) (a : α) :
    beforeMarker (ms ++ [WireMsg.transfer a]) = beforeMarker ms + a := by
  induction ms with
  | nil => simp [beforeMarker]
  | cons m ms ih =>
      cases m with
      | marker => rw [markers_cons_marker] at h; omega
      | transfer b =>
          rw [markers_cons_transfer] at h
          rw [List.cons_append, beforeMarker, beforeMarker, ih h, add_assoc]

/-- What is sent behind a marker arrives behind it. -/
theorem beforeMarker_append_behind {ms : List (WireMsg α)} (h : markers ms ≠ 0)
    (ms' : List (WireMsg α)) : beforeMarker (ms ++ ms') = beforeMarker ms := by
  induction ms with
  | nil => exact absurd rfl h
  | cons m ms ih =>
      cases m with
      | marker => rfl
      | transfer b =>
          rw [markers_cons_transfer] at h
          rw [List.cons_append, beforeMarker, beforeMarker, ih h]

theorem beforeMarker_broadcast (σ : System n α) (s p q : Fin n) :
    beforeMarker ((σ.broadcast s).chan p q) = beforeMarker (σ.chan p q) := by
  rw [System.broadcast_chan]
  split
  · exact beforeMarker_append_marker _
  · rfl

/-! ## The cut -/

/-- The state of `s` in the cut. Amounts that receiver threads hold belong to the state of
a node that has not recorded it yet: they will be applied. -/
def cutState (σ : System n α) (s : Fin n) : α :=
  if Taken (σ.node s) then (σ.node s).current.localState
  else σ.balance s + ∑ p, (σ.pending s p).getD 0

/-- The channel from `p` to `s` in the cut. -/
def cutChan (σ : System n α) (p s : Fin n) : α :=
  (if (σ.node s).markerSeen p = true then 0 else beforeMarker (σ.chan p s))
    + ((σ.node s).current.channelMessages p).sum

/-- What a node accounts for: its state and its incoming channels. -/
def account (σ : System n α) (s : Fin n) : α := cutState σ s + ∑ p, cutChan σ p s

def cutTotal (σ : System n α) : α := ∑ s, account σ s

/-- A node that keeps its own part and sees its channels unchanged up to the marker keeps
its account. -/
theorem account_congr {σ σ' : System n α} {t : Fin n} (hnode : σ'.node t = σ.node t)
    (hbal : σ'.balance t = σ.balance t) (hpend : σ'.pending t = σ.pending t)
    (hchan : ∀ p, beforeMarker (σ'.chan p t) = beforeMarker (σ.chan p t)) :
    account σ' t = account σ t := by
  have hstate : cutState σ' t = cutState σ t := by
    simp only [cutState, hnode, hbal, hpend]
  have hchans : ∀ p, cutChan σ' p t = cutChan σ p t := by
    intro p
    simp only [cutChan, hnode, hchan p]
  simp only [account, hstate, hchans]

theorem cutTotal_congr {σ σ' : System n α} (h : ∀ t, account σ' t = account σ t) :
    cutTotal σ' = cutTotal σ :=
  Finset.sum_congr rfl fun t _ => h t

theorem cutTotal_init (bal : Fin n → α) : cutTotal (initSystem bal) = ∑ s, bal s := by
  refine Finset.sum_congr rfl fun s _ => ?_
  have hstate : cutState (initSystem bal) s = bal s := by
    have hfresh : ¬ Taken ((initSystem bal).node s) := not_taken_newNode
    rw [cutState, if_neg hfresh]
    simp [initSystem]
  have hchans : ∀ p, cutChan (initSystem bal) p s = 0 := by
    intro p
    simp [cutChan, initSystem, newNode, beforeMarker]
  simp only [account, hstate, hchans, Finset.sum_const_zero, add_zero]

/-! ## The steps -/

/-- What a transfer by `s` carries across the cut: nothing when `s` has recorded. -/
def crossing (σ : System n α) (s : Fin n) (a : α) : α :=
  if Taken (σ.node s) then 0 else a

theorem cutState_transfer (σ : System n α) (s q t : Fin n) (a : α) :
    cutState ((σ.setBalance s (σ.balance s - a)).setChan s q (σ.chan s q ++ [WireMsg.transfer a])) t
      = cutState σ t - if t = s then crossing σ s a else 0 := by
  rw [cutState, cutState, crossing]
  show (if Taken (σ.node t) then (σ.node t).current.localState
    else Function.update σ.balance s (σ.balance s - a) t + ∑ p, (σ.pending t p).getD 0) = _
  by_cases hts : t = s
  · subst hts
    rw [if_pos rfl, Function.update_self]
    split <;> abel
  · rw [if_neg hts, Function.update_of_ne hts, sub_zero]

theorem cutChan_transfer {es : List (Event n α)} {σ : System n α} (h : MarkerInv es σ)
    {s q : Fin n} (hne : q ≠ s) (p t : Fin n) (a : α) :
    cutChan ((σ.setBalance s (σ.balance s - a)).setChan s q
        (σ.chan s q ++ [WireMsg.transfer a])) p t
      = cutChan σ p t + if t = q then (if p = s then crossing σ s a else 0) else 0 := by
  by_cases hpt : p = s ∧ t = q
  · obtain ⟨rfl, rfl⟩ := hpt
    rw [cutChan, cutChan, System.setChan_self, if_pos rfl, if_pos rfl, crossing]
    show (if (σ.node t).markerSeen p = true then 0 else beforeMarker _) + _ = _
    by_cases hseen : (σ.node t).markerSeen p = true
    · -- the sender has recorded, and its marker has arrived
      rw [if_pos hseen, if_pos hseen, if_pos (h.seen hseen).2, add_zero]
      rfl
    · rw [if_neg hseen, if_neg hseen]
      have hmarker := h.marker (Ne.symm hne)
      by_cases hs : Taken (σ.node p)
      · -- the marker is still in the channel, and the transfer behind it
        rw [if_pos ⟨hs, by simpa using hseen⟩] at hmarker
        rw [if_pos hs, beforeMarker_append_behind (by omega), add_zero]
        rfl
      · -- no marker yet: the transfer will arrive before it
        rw [if_neg fun hc => hs hc.1] at hmarker
        rw [if_neg hs, beforeMarker_append_transfer hmarker, add_right_comm]
        rfl
  · have hzero : (if t = q then (if p = s then crossing σ s a else 0) else 0) = 0 := by
      split
      · rw [if_neg fun hp => hpt ⟨hp, ‹_›⟩]
      · rfl
    rw [hzero, add_zero, cutChan, cutChan, System.setChan_ne _ _ hpt]
    rfl

/-- A transfer moves its amount from the sender's state to the channel. -/
theorem cutTotal_transfer {es : List (Event n α)} {σ : System n α} (h : MarkerInv es σ)
    {s q : Fin n} (hne : q ≠ s) (a : α) :
    cutTotal ((σ.setBalance s (σ.balance s - a)).setChan s q (σ.chan s q ++ [WireMsg.transfer a]))
      = cutTotal σ := by
  simp only [cutTotal, account, cutState_transfer, cutChan_transfer h hne,
    Finset.sum_add_distrib, Finset.sum_sub_distrib, Finset.sum_ite_eq', Finset.mem_univ, if_true]
  have hcell : ∑ t, ∑ p, (if t = q then (if p = s then crossing σ s a else 0) else 0)
      = crossing σ s a := by
    rw [Finset.sum_eq_single q]
    · simp
    · intro t _ htq
      simp [htq]
    · simp
  rw [hcell]
  abel

section Take

variable {es : List (Event n α)} {σ : System n α} {s p : Fin n} {a : α} {rest : List (WireMsg α)}

/-- Until the node records, a transfer it takes belongs to its state. -/
theorem cutState_take (hidle : σ.pending s p = none) :
    cutState (((σ.setChan p s rest).setNode s
      (handleTransfer (σ.node s) p a)).setPending s p (some a)) s
        = cutState σ s + crossing σ s a := by
  have hnode : (((σ.setChan p s rest).setNode s
      (handleTransfer (σ.node s) p a)).setPending s p (some a)).node s
        = handleTransfer (σ.node s) p a := System.setNode_self ..
  have hpend : (((σ.setChan p s rest).setNode s
      (handleTransfer (σ.node s) p a)).setPending s p (some a)).pending s
        = Function.update (σ.pending s) p (some a) := Function.update_self ..
  rw [cutState, cutState, crossing, hnode, hpend]
  by_cases hs : Taken (σ.node s)
  · rw [if_pos hs, if_pos hs, if_pos ((handleTransfer_marks ..).taken.mpr hs), add_zero]
    exact handleTransfer_localState ..
  · have hsum := sum_update_add (fun _ o => Option.getD o (0 : α)) (σ.pending s) p (some a)
    rw [hidle, Option.getD_none, add_zero, Option.getD_some] at hsum
    rw [if_neg hs, if_neg hs, if_neg fun hs' => hs ((handleTransfer_marks ..).taken.mp hs'), hsum,
      add_assoc]
    rfl

/-- On the channel it either is gone, or is recorded. -/
theorem cutChan_take (h : MarkerInv es σ) (hchan : σ.chan p s = .transfer a :: rest) (p' : Fin n) :
    cutChan (((σ.setChan p s rest).setNode s
      (handleTransfer (σ.node s) p a)).setPending s p (some a)) p' s
        = cutChan σ p' s - if p' = p then crossing σ s a else 0 := by
  have hps : p ≠ s := h.head_ne hchan
  have hnode : (((σ.setChan p s rest).setNode s
      (handleTransfer (σ.node s) p a)).setPending s p (some a)).node s
        = handleTransfer (σ.node s) p a := System.setNode_self ..
  rw [cutChan, cutChan, hnode, (handleTransfer_marks ..).markerSeen]
  show (if _ then 0 else beforeMarker ((σ.setChan p s rest).chan p' s)) + _ = _
  by_cases hpp : p' = p
  · subst hpp
    rw [System.setChan_self, hchan, beforeMarker, if_pos rfl, crossing]
    by_cases hseen : (σ.node s).markerSeen p' = true
    · have hs : Taken (σ.node s) := Or.inr ⟨p', hseen⟩
      rw [handleTransfer_ignore (Or.inr hseen), if_pos hseen, if_pos hseen, if_pos hs, sub_zero]
    · rw [if_neg hseen, if_neg hseen]
      by_cases hs : Taken (σ.node s)
      · have hsnap := h.recording hs hps (by simpa using hseen)
        rw [handleTransfer_record hsnap (by simpa using hseen), if_pos hs, List.sum_append,
          List.sum_singleton]
        abel
      · rw [handleTransfer_ignore (Or.inl hs), if_neg hs]
        abel
  · rw [System.setChan_ne _ _ fun hc => hpp hc.1, if_neg hpp, sub_zero,
      handleTransfer_channel_ne hpp]

/-- Taking a transfer off its channel leaves it in the account of the node. -/
theorem account_take (h : MarkerInv es σ) (hidle : σ.pending s p = none)
    (hchan : σ.chan p s = .transfer a :: rest) :
    account (((σ.setChan p s rest).setNode s
      (handleTransfer (σ.node s) p a)).setPending s p (some a)) s = account σ s := by
  simp only [account, cutState_take hidle, cutChan_take h hchan, Finset.sum_sub_distrib,
    Finset.sum_ite_eq', Finset.mem_univ, if_true]
  abel

end Take

/-- The node has just recorded `b`, and its channels are as they were, up to the marker. -/
theorem account_record {es : List (Event n α)} {σ σ' : System n α} (h : MarkerInv es σ)
    {s : Fin n} (hs : ¬ Taken (σ.node s)) (hquiet : ∀ p, σ.pending s p = none)
    (hsnap : (σ'.node s).snapshotting = true)
    (hcur : (σ'.node s).current
      = { localState := σ.balance s, channelMessages := fun _ => [] })
    (hchan : ∀ p, (if (σ'.node s).markerSeen p = true then 0 else beforeMarker (σ'.chan p s))
      = beforeMarker (σ.chan p s)) :
    account σ' s = account σ s := by
  have hunseen : ∀ p, ¬ (σ.node s).markerSeen p = true := fun p hp => hs (Or.inr ⟨p, hp⟩)
  have hchans : ∀ p, cutChan σ' p s = cutChan σ p s := by
    intro p
    rw [cutChan, cutChan, hchan, if_neg (hunseen p), hcur, (h.untaken hs).1 p]
  have hstate : cutState σ' s = cutState σ s := by
    have hs' : Taken (σ'.node s) := Or.inl hsnap
    rw [cutState, cutState, if_pos hs', if_neg hs, hcur]
    simp [hquiet]
  simp only [account, hstate, hchans]

theorem cutTotal_firstMarker {es : List (Event n α)} {σ : System n α} (h : MarkerInv es σ)
    {s p : Fin n} {rest : List (WireMsg α)} (hchan : σ.chan p s = .marker :: rest)
    (hfirst : (σ.node s).snapshotting = false) (hquiet : ∀ q, σ.pending s q = none) :
    cutTotal (((σ.setChan p s rest).setNode s
      (handleMarker s (σ.node s) p (σ.balance s)).1).broadcast s) = cutTotal σ := by
  obtain ⟨hps, -, hunseen, -⟩ := h.head hchan
  have hs : ¬ Taken (σ.node s) := h.not_taken hps hunseen hfirst
  have hnode : (((σ.setChan p s rest).setNode s
      (handleMarker s (σ.node s) p (σ.balance s)).1).broadcast s).node s
        = (handleMarker s (σ.node s) p (σ.balance s)).1 := System.setNode_self ..
  refine cutTotal_congr fun t => ?_
  by_cases hts : t = s
  · subst hts
    refine account_record h hs hquiet ?_ ?_ ?_
    · rw [hnode, handleMarker_first hfirst]
    · rw [hnode, handleMarker_first hfirst]
    · intro p'
      rw [hnode, handleMarker_first hfirst, beforeMarker_broadcast]
      show (if Function.update (fun _ => false) p true p' = true then 0
        else beforeMarker ((σ.setChan p t rest).chan p' t)) = _
      by_cases hpp : p' = p
      · subst hpp
        rw [Function.update_self, if_pos rfl, hchan, beforeMarker]
      · rw [Function.update_of_ne hpp, if_neg (by simp), System.setChan_ne _ _ fun hc => hpp hc.1]
  · refine account_congr (System.setNode_ne _ _ hts) rfl rfl fun p' => ?_
    rw [beforeMarker_broadcast]
    show beforeMarker ((σ.setChan p s rest).chan p' t) = _
    rw [System.setChan_ne _ _ fun hc => hts hc.2]

theorem cutTotal_laterMarker {es : List (Event n α)} {σ : System n α} (h : MarkerInv es σ)
    {s p : Fin n} {rest : List (WireMsg α)} (hchan : σ.chan p s = .marker :: rest)
    (hlater : (σ.node s).snapshotting = true) :
    cutTotal ((σ.setChan p s rest).setNode s
      (handleMarker s (σ.node s) p (σ.balance s)).1) = cutTotal σ := by
  obtain ⟨-, -, hunseen, -⟩ := h.head hchan
  have hnode : ((σ.setChan p s rest).setNode s
      (handleMarker s (σ.node s) p (σ.balance s)).1).node s
        = (handleMarker s (σ.node s) p (σ.balance s)).1 := System.setNode_self ..
  refine cutTotal_congr fun t => ?_
  by_cases hts : t = s
  · subst hts
    have hs : Taken (σ.node t) := Or.inl hlater
    have hstate : cutState ((σ.setChan p t rest).setNode t
        (handleMarker t (σ.node t) p (σ.balance t)).1) t = cutState σ t := by
      have hs' : Taken (handleMarker t (σ.node t) p (σ.balance t)).1 := by
        rw [handleMarker_later hlater hunseen]
        exact Or.inl hlater
      rw [cutState, cutState, hnode, if_pos hs', if_pos hs, handleMarker_later hlater hunseen]
    have hchans : ∀ p', cutChan ((σ.setChan p t rest).setNode t
        (handleMarker t (σ.node t) p (σ.balance t)).1) p' t = cutChan σ p' t := by
      intro p'
      rw [cutChan, cutChan, hnode, handleMarker_later hlater hunseen]
      show (if Function.update (σ.node t).markerSeen p true p' = true then 0
        else beforeMarker ((σ.setChan p t rest).chan p' t)) + _ = _
      by_cases hpp : p' = p
      · subst hpp
        rw [Function.update_self, if_pos rfl, hunseen, if_neg (by simp), hchan, beforeMarker]
      · rw [Function.update_of_ne hpp, System.setChan_ne _ _ fun hc => hpp hc.1]
    simp only [account, hstate, hchans]
  · refine account_congr (System.setNode_ne _ _ hts) rfl rfl fun p' => ?_
    show beforeMarker ((σ.setChan p s rest).chan p' t) = _
    rw [System.setChan_ne _ _ fun hc => hts hc.2]

theorem cutTotal_initiate {es : List (Event n α)} {σ : System n α} (h : MarkerInv es σ)
    (hfresh : initiations es = 0) {s : Fin n} (hquiet : ∀ q, σ.pending s q = none)
    (initiating : Fin n → Nat) :
    cutTotal { (σ.setNode s (initiateSnapshot s (σ.balance s))).broadcast s with
      initiating := initiating } = cutTotal σ := by
  have hnode : ((σ.setNode s (initiateSnapshot s (σ.balance s))).broadcast s).node s
      = initiateSnapshot s (σ.balance s) := System.setNode_self ..
  refine cutTotal_congr fun t => ?_
  by_cases hts : t = s
  · subst hts
    refine account_record h (h.fresh hfresh t) hquiet ?_ ?_ ?_
    · show (((σ.setNode t _).broadcast t).node t).snapshotting = true
      rw [hnode]; rfl
    · show (((σ.setNode t _).broadcast t).node t).current = _
      rw [hnode]; rfl
    · intro p
      show (if (((σ.setNode t _).broadcast t).node t).markerSeen p = true then 0
        else beforeMarker (((σ.setNode t _).broadcast t).chan p t)) = _
      rw [hnode, if_neg (by simp [initiateSnapshot]), beforeMarker_broadcast]
      rfl
  · exact account_congr (System.setNode_ne _ _ hts) rfl rfl fun p => beforeMarker_broadcast ..

/-- An amount is applied: to a state that is not in the cut any more, or from hand to
balance. -/
theorem cutTotal_apply {σ : System n α} {s p : Fin n} {a : α} (hpend : σ.pending s p = some a) :
    cutTotal ((σ.setBalance s (σ.balance s + a)).setPending s p none) = cutTotal σ := by
  refine cutTotal_congr fun t => ?_
  by_cases hts : t = s
  · subst hts
    have hbal : ((σ.setBalance t (σ.balance t + a)).setPending t p none).balance t
        = σ.balance t + a := Function.update_self ..
    have hpend' : ((σ.setBalance t (σ.balance t + a)).setPending t p none).pending t
        = Function.update (σ.pending t) p none := Function.update_self ..
    have hsum := sum_update_add (fun _ o => Option.getD o (0 : α)) (σ.pending t) p none
    rw [hpend, Option.getD_some, Option.getD_none, add_zero] at hsum
    have hstate : cutState ((σ.setBalance t (σ.balance t + a)).setPending t p none) t
        = cutState σ t := by
      rw [cutState, cutState, hbal, hpend', ← hsum]
      show (if Taken (σ.node t) then _ else _) = _
      split
      · rfl
      · abel
    rw [account, hstate]
    rfl
  · exact account_congr rfl (Function.update_of_ne hts ..) (Function.update_of_ne hts ..)
      fun _ => rfl

/-- A snapshot call that returns only ends a recording that is complete. -/
theorem cutTotal_finish {es : List (Event n α)} {σ σ' : System n α} (h : MarkerInv es σ)
    {s : Fin n} {nd : ChandyLamportNode n α} (hready : (σ.node s).resultReady = true)
    (hchan : σ'.chan = σ.chan) (hbal : σ'.balance = σ.balance) (hpend : σ'.pending = σ.pending)
    (hother : ∀ t, t ≠ s → σ'.node t = σ.node t) (hself : σ'.node s = nd)
    (hcur : nd.current = (σ.node s).current) (hseen : nd.markerSeen = (σ.node s).markerSeen) :
    cutTotal σ' = cutTotal σ := by
  subst hself
  obtain ⟨hsome, -⟩ := h.ready hready
  refine cutTotal_congr fun t => ?_
  by_cases hts : t = s
  · subst hts
    have hs : Taken (σ.node t) := Or.inr hsome
    have hs' : Taken (σ'.node t) := Or.inr (by rw [hseen]; exact hsome)
    have hstate : cutState σ' t = cutState σ t := by
      rw [cutState, cutState, if_pos hs', if_pos hs, hcur]
    have hchans : ∀ p, cutChan σ' p t = cutChan σ p t := by
      intro p
      rw [cutChan, cutChan, hseen, hcur, hchan]
    simp only [account, hstate, hchans]
  · exact account_congr (hother t hts) (congrFun hbal t) (congrFun hpend t) fun p => by rw [hchan]

/-- **No step changes what the cut adds up to.** -/
theorem cutTotal_step {es ev : List (Event n α)} {σ σ' : System n α} {a : Action n α}
    (h : MarkerInv es σ) (hquiet : QuietRecord σ a) (hstep : σ.step a = some (σ', ev))
    (hone : initiations (es ++ ev) ≤ 1) : cutTotal σ' = cutTotal σ := by
  cases happens_of_step hstep with
  | transfer hne => exact cutTotal_transfer h hne _
  | take hidle hchan =>
      rename_i s p a rest
      refine cutTotal_congr fun t => ?_
      by_cases hts : t = s
      · subst hts; exact account_take h hidle hchan
      · refine account_congr (System.setNode_ne _ _ hts) rfl (Function.update_of_ne hts ..) ?_
        intro p'
        show beforeMarker ((σ.setChan p s rest).chan p' t) = _
        rw [System.setChan_ne _ _ fun hc => hts hc.2]
  | firstMarker hidle hchan hfirst =>
      exact cutTotal_firstMarker h hchan hfirst (hquiet hfirst (by rw [hchan]; rfl))
  | laterMarker hidle hchan hlater => exact cutTotal_laterMarker h hchan hlater
  | apply hpend => exact cutTotal_apply hpend
  | initiate =>
      rw [initiations_append] at hone
      exact cutTotal_initiate h (Nat.eq_zero_of_le_zero (Nat.le_of_succ_le_succ hone)) hquiet _
  | finishInitiate hready =>
      exact cutTotal_finish h hready rfl rfl rfl (fun t ht => System.setNode_ne _ _ ht)
        (System.setNode_self ..) rfl rfl
  | finishPassive hready =>
      exact cutTotal_finish h hready rfl rfl rfl (fun t ht => System.setNode_ne _ _ ht)
        (System.setNode_self ..) rfl rfl

/-! ## Conservation -/

theorem run_conserves {bal : Fin n → α} {es : List (Event n α)} {σ : System n α}
    (hrun : Run System.step QuietRecord (initSystem bal) es σ) :
    initiations es ≤ 1 → MarkerInv es σ ∧ cutTotal σ = ∑ s, bal s := by
  refine Run.invariant (I := fun es σ => initiations es ≤ 1 → MarkerInv es σ ∧ cutTotal σ = _)
    (fun _ => ⟨markerInv_init bal, cutTotal_init bal⟩) ?_ hrun
  intro es ev σ σ' a hinv hquiet hstep hone
  have hbefore : initiations es ≤ 1 := by
    rw [initiations_append] at hone
    omega
  obtain ⟨hmarks, htotal⟩ := hinv hbefore
  refine ⟨markerInv_step hmarks hstep hone, ?_⟩
  rw [cutTotal_step hmarks hquiet hstep hone, htotal]

/-- What a snapshot says in total: the states it recorded and the messages in flight. -/
def recordedTotal (r : Fin n → SnapshotResult n α) : α :=
  ∑ s, (r s).localState + ∑ s, ∑ p, ((r s).channelMessages p).sum

/-- When every node has returned its part, the cut is what was returned. -/
theorem cutTotal_returned {es : List (Event n α)} {σ : System n α} (h : MarkerInv es σ)
    {r : Fin n → SnapshotResult n α} (hret : ∀ s, Event.returned s (r s) ∈ es) :
    cutTotal σ = recordedTotal r := by
  have hstate : ∀ s, cutState σ s = (r s).localState := by
    intro s
    obtain ⟨heq, hsome, -⟩ := h.returned (hret s)
    have hs : Taken (σ.node s) := Or.inr hsome
    rw [cutState, if_pos hs, heq]
  have hchans : ∀ p s, cutChan σ p s = ((r s).channelMessages p).sum := by
    intro p s
    obtain ⟨heq, -, hall⟩ := h.returned (hret s)
    rw [cutChan, heq]
    by_cases hps : p = s
    · subst hps
      rw [h.selfChan, beforeMarker, ite_self, zero_add]
    · rw [if_pos (hall p hps), zero_add]
  simp only [cutTotal, account, hstate, hchans, recordedTotal, Finset.sum_add_distrib]

/-- A snapshot taken in quiet moments records what there was to begin with. -/
theorem snapshot_conserves {bal : Fin n → α} {es : List (Event n α)} {σ : System n α}
    (hrun : Run System.step QuietRecord (initSystem bal) es σ) (hone : initiations es ≤ 1)
    {r : Fin n → SnapshotResult n α} (hret : ∀ s, Event.returned s (r s) ∈ es) :
    recordedTotal r = ∑ s, bal s := by
  obtain ⟨hmarks, htotal⟩ := run_conserves hrun hone
  rw [← htotal, cutTotal_returned hmarks hret]

/-- Node 1 sends 7 to node 0, which initiates a snapshot while it is under way. -/
def inFlightSchedule : List (Action 2 Int) :=
  [.transfer 1 0 7, .initiateSnapshot 0, .recv 0 1, .onTransfer 0 1, .recv 1 0, .recv 0 1,
    .finishInitiate 0, .finishPassive 1]

def inFlightResult : Fin 2 → SnapshotResult 2 Int
  | 0 => { localState := 100, channelMessages := Function.update (fun _ => []) 1 [7] }
  | 1 => { localState := 93, channelMessages := fun _ => [] }

theorem snapshot_conserves_inFlight : ∃ σ es,
    Run System.step QuietRecord (initSystem fun _ => 100) es σ ∧ initiations es ≤ 1 ∧
    (∀ s, Event.returned s (inFlightResult s) ∈ es) ∧ recordedTotal inFlightResult = 200 := by
  have hleads : Leads System.step QuietRecord (initSystem fun _ => (100 : Int)) inFlightSchedule
      fun _ es => initiations es ≤ 1 ∧ ∀ s, Event.returned s (inFlightResult s) ∈ es := by
    decide +kernel
  obtain ⟨σ, es, hrun, hone, hret⟩ := hleads.run
  exact ⟨σ, es, hrun, hone, hret, (snapshot_conserves hrun hone hret).trans (by decide)⟩

/-- The receiver thread of node 1 has taken the 5 that node 0 sent, and has not applied
it, when node 1 initiates the snapshot. -/
def gapSchedule : List (Action 2 Int) :=
  [.transfer 0 1 5, .recv 1 0, .initiateSnapshot 1, .onTransfer 1 0, .recv 0 1, .recv 1 0,
    .finishInitiate 1, .finishPassive 0]

def gapResult : Fin 2 → SnapshotResult 2 Int
  | 0 => { localState := 95, channelMessages := fun _ => [] }
  | 1 => { localState := 100, channelMessages := fun _ => [] }

/-- A snapshot that falls in the gap loses the amount in hand. -/
theorem snapshot_loses_transfer : ¬ ∀ (bal : Fin 2 → Int) (es : List (Event 2 Int))
    (σ : System 2 Int) (r : Fin 2 → SnapshotResult 2 Int),
    Run System.step Any (initSystem bal) es σ → initiations es ≤ 1 →
    (∀ s, Event.returned s (r s) ∈ es) → recordedTotal r = ∑ s, bal s := by
  intro hclaim
  have hleads : Leads System.step Any (initSystem fun _ => (100 : Int)) gapSchedule
      fun _ es => initiations es ≤ 1 ∧ ∀ s, Event.returned s (gapResult s) ∈ es := by
    decide +kernel
  obtain ⟨σ, es, hrun, hone, hret⟩ := hleads.run
  have htotal := hclaim _ es σ gapResult hrun hone hret
  exact absurd htotal (by decide)

end CrossMachine.Snapshot
