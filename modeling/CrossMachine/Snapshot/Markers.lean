import CrossMachine.Snapshot.Node

/-!
# The markers of one snapshot

Where the markers of a single snapshot are, at any moment: each node that has recorded
its state has sent one marker on each of its channels, and a marker is in its channel
until it is seen. From this it follows that a node records once, that it records every
channel from then on until the marker comes, and that what it returns is complete.
-/

namespace CrossMachine.Snapshot

open Lib

variable {n : Nat} {α : Type}

/-! ## Reading the parts of a state -/

variable {s p q : Fin n} {nd : ChandyLamportNode n α} {es : List (Event n α)} {σ σ' : System n α}
  {rest : List (WireMsg α)} {a : α}

namespace System

@[simp] theorem setNode_self (σ : System n α) (s : Fin n) (nd : ChandyLamportNode n α) :
    (σ.setNode s nd).node s = nd := by
  rw [setNode]; exact Function.update_self ..

theorem setNode_ne (σ : System n α) {i : Fin n} (nd : ChandyLamportNode n α) (h : i ≠ s) :
    (σ.setNode s nd).node i = σ.node i := by
  rw [setNode]; exact Function.update_of_ne h ..

@[simp] theorem setChan_self (σ : System n α) (p q : Fin n) (ms : List (WireMsg α)) :
    (σ.setChan p q ms).chan p q = ms := by
  simp [setChan]

theorem setChan_ne (σ : System n α) {p' q' : Fin n} (ms : List (WireMsg α))
    (h : ¬ (p' = p ∧ q' = q)) : (σ.setChan p q ms).chan p' q' = σ.chan p' q' := by
  rw [setChan]
  dsimp only
  by_cases hp : p' = p
  · subst hp
    rw [Function.update_self, Function.update_of_ne fun hq => h ⟨rfl, hq⟩]
  · rw [Function.update_of_ne hp]

theorem broadcast_chan (σ : System n α) (s p q : Fin n) :
    (σ.broadcast s).chan p q =
      if p = s ∧ q ≠ s then σ.chan p q ++ [WireMsg.marker] else σ.chan p q := by
  rw [broadcast]
  dsimp only
  by_cases hp : p = s
  · subst hp
    rw [Function.update_self]
    by_cases hq : q = p
    · rw [if_neg (by simpa using hq), if_neg (by simpa using hq)]
    · rw [if_pos hq, if_pos ⟨rfl, hq⟩]
  · rw [Function.update_of_ne hp, if_neg fun h => hp h.1]

end System

/-! ## Taking part in a snapshot -/

/-- The node has recorded its state for the snapshot. -/
def Taken (nd : ChandyLamportNode n α) : Prop :=
  nd.snapshotting = true ∨ ∃ p, nd.markerSeen p = true

instance (nd : ChandyLamportNode n α) : Decidable (Taken nd) :=
  inferInstanceAs (Decidable (nd.snapshotting = true ∨ ∃ p, nd.markerSeen p = true))

/-- The markers in a channel. -/
def markers (ms : List (WireMsg α)) : Nat := ms.countP fun
  | .marker => true
  | .transfer _ => false

/-- How often a snapshot was initiated. -/
def initiations (es : List (Event n α)) : Nat := es.countP fun
  | .initiated _ => true
  | .returned _ _ => false

/-- The peers whose marker is still to come. -/
def awaited (s : Fin n) (markerSeen : Fin n → Bool) : Nat :=
  (peers s).countP fun p => !markerSeen p

@[simp] theorem markers_append (ms ms' : List (WireMsg α)) :
    markers (ms ++ ms') = markers ms + markers ms' := List.countP_append

@[simp] theorem markers_cons_marker (ms : List (WireMsg α)) :
    markers (.marker :: ms) = markers ms + 1 := List.countP_cons_of_pos rfl

@[simp] theorem markers_cons_transfer (a : α) (ms : List (WireMsg α)) :
    markers (.transfer a :: ms) = markers ms := List.countP_cons_of_neg (by simp)

/-- A channel that is rewritten without moving a marker. -/
theorem markers_setChan (σ : System n α) {ms : List (WireMsg α)}
    (h : markers ms = markers (σ.chan p q)) (p' q' : Fin n) :
    markers ((σ.setChan p q ms).chan p' q') = markers (σ.chan p' q') := by
  by_cases hc : p' = p ∧ q' = q
  · obtain ⟨rfl, rfl⟩ := hc
    rw [System.setChan_self, h]
  · rw [System.setChan_ne _ _ hc]

theorem initiations_append (es es' : List (Event n α)) :
    initiations (es ++ es') = initiations es + initiations es' := List.countP_append

/-- The state of a single snapshot: who has recorded, whose marker is where. -/
structure MarkerInv (es : List (Event n α)) (σ : System n α) : Prop where
  /-- Nobody records before the snapshot is initiated. -/
  fresh : initiations es = 0 → ∀ s, ¬ Taken (σ.node s)
  selfChan : ∀ s, σ.chan s s = []
  untaken : ∀ {s}, ¬ Taken (σ.node s) → (∀ p, (σ.node s).current.channelMessages p = []) ∧
    (σ.node s).resultReady = false
  /-- Every node that has recorded has sent one marker to each peer. -/
  marker : ∀ {p s}, p ≠ s → markers (σ.chan p s) =
    if Taken (σ.node p) ∧ (σ.node s).markerSeen p = false then 1 else 0
  seen : ∀ {p s}, (σ.node s).markerSeen p = true → p ≠ s ∧ Taken (σ.node p)
  /-- A node that misses a marker is still recording. -/
  recording : ∀ {p s}, Taken (σ.node s) → p ≠ s → (σ.node s).markerSeen p = false →
    (σ.node s).snapshotting = true
  outstanding : ∀ {s}, Taken (σ.node s) →
    (σ.node s).markersOutstanding = awaited s (σ.node s).markerSeen
  ready : ∀ {s}, (σ.node s).resultReady = true → (∃ p, (σ.node s).markerSeen p = true) ∧
    ∀ p, p ≠ s → (σ.node s).markerSeen p = true
  /-- What has been returned is what is still there, and is complete. -/
  returned : ∀ {s r}, Event.returned s r ∈ es → r = (σ.node s).current ∧
    (∃ p, (σ.node s).markerSeen p = true) ∧ ∀ p, p ≠ s → (σ.node s).markerSeen p = true

theorem not_taken_newNode [Zero α] : ¬ Taken (newNode : ChandyLamportNode n α) := by
  intro h
  rcases h with h | ⟨p, h⟩
  · exact absurd h (by simp [newNode])
  · exact absurd h (by simp [newNode])

theorem markerInv_init [AddCommGroup α] (bal : Fin n → α) : MarkerInv [] (initSystem bal) where
  fresh := fun _ _ => not_taken_newNode
  selfChan := fun _ => rfl
  untaken := fun _ => ⟨fun _ => rfl, rfl⟩
  marker := by
    intro p s _
    rw [if_neg fun h => not_taken_newNode h.1]; rfl
  seen := by intro p s h; exact absurd h (by simp [initSystem, newNode])
  recording := by intro p s h; exact absurd h not_taken_newNode
  outstanding := by intro s h; exact absurd h not_taken_newNode
  ready := by intro s h; exact absurd h (by simp [initSystem, newNode])
  returned := by intro s r h; simp at h

/-- The two nodes stand alike towards markers. -/
structure SameMarks (nd nd' : ChandyLamportNode n α) : Prop where
  snapshotting : nd'.snapshotting = nd.snapshotting
  markerSeen : nd'.markerSeen = nd.markerSeen
  markersOutstanding : nd'.markersOutstanding = nd.markersOutstanding
  resultReady : nd'.resultReady = nd.resultReady

theorem SameMarks.taken {nd' : ChandyLamportNode n α} (h : SameMarks nd nd') :
    Taken nd' ↔ Taken nd := by
  rw [Taken, Taken, h.snapshotting, h.markerSeen]

/-- A step that moves no marker, and records nothing on a node that is not recording. -/
theorem MarkerInv.quiet (h : MarkerInv es σ) (hself : ∀ s, σ'.chan s s = [])
    (hchan : ∀ p s, p ≠ s → markers (σ'.chan p s) = markers (σ.chan p s))
    (hnode : ∀ s, SameMarks (σ.node s) (σ'.node s))
    (hcur : ∀ s, (¬ Taken (σ.node s) ∨ ∀ p, p ≠ s → (σ.node s).markerSeen p = true) →
      (σ'.node s).current = (σ.node s).current) :
    MarkerInv es σ' where
  fresh := fun h0 s hs => h.fresh h0 s ((hnode s).taken.mp hs)
  selfChan := hself
  untaken := by
    intro s hs
    rw [(hnode s).taken] at hs
    rw [hcur s (Or.inl hs), (hnode s).resultReady]
    exact h.untaken hs
  marker := by
    intro p s hps
    rw [hchan p s hps, h.marker hps]
    simp only [(hnode p).taken, (hnode s).markerSeen]
  seen := by
    intro p s hseen
    rw [(hnode s).markerSeen] at hseen
    rw [(hnode p).taken]
    exact h.seen hseen
  recording := by
    intro p s hs hps hseen
    rw [(hnode s).taken] at hs
    rw [(hnode s).markerSeen] at hseen
    rw [(hnode s).snapshotting]
    exact h.recording hs hps hseen
  outstanding := by
    intro s hs
    rw [(hnode s).taken] at hs
    rw [(hnode s).markersOutstanding, (hnode s).markerSeen]
    exact h.outstanding hs
  ready := by
    intro s hs
    rw [(hnode s).resultReady] at hs
    rw [(hnode s).markerSeen]
    exact h.ready hs
  returned := by
    intro s r hr
    obtain ⟨rfl, hsome, hall⟩ := h.returned hr
    rw [hcur s (Or.inr hall), (hnode s).markerSeen]
    exact ⟨rfl, hsome, hall⟩

/-! Counting the markers still to come. -/

theorem awaited_none (s : Fin n) : awaited s (fun _ => false) = (peers s).length := by
  rw [awaited, List.countP_eq_length]
  intro p _
  rfl

theorem awaited_eq_zero {markerSeen : Fin n → Bool} (h : awaited s markerSeen = 0) (hp : p ≠ s) :
    markerSeen p = true := by
  rw [awaited, List.countP_eq_zero] at h
  simpa using h p (mem_peers.mpr hp)

/-- One more marker has arrived. -/
theorem awaited_mark {markerSeen : Fin n → Bool} (hp : p ≠ s) (hunseen : markerSeen p = false) :
    awaited s (Function.update markerSeen p true) + 1 = awaited s markerSeen := by
  have hperm := List.perm_cons_erase (mem_peers.mpr hp)
  have hrest : ((peers s).erase p).countP (fun q => !Function.update markerSeen p true q)
      = ((peers s).erase p).countP fun q => !markerSeen q := by
    refine List.countP_congr fun q hq => ?_
    have hqp : q ≠ p := ((peers_nodup s).mem_erase_iff.mp hq).1
    rw [Function.update_of_ne hqp]
  rw [awaited, awaited, hperm.countP_eq, hperm.countP_eq, List.countP_cons, List.countP_cons, hrest,
    hunseen, Function.update_self]
  rfl

theorem MarkerInv.head_ne (h : MarkerInv es σ) {m : WireMsg α} (hchan : σ.chan p s = m :: rest) :
    p ≠ s := by
  intro heq
  rw [heq, h.selfChan] at hchan
  exact absurd hchan (by simp)

/-- A marker at the head of a channel comes from another node, which has recorded, and it
is the first to arrive on that channel. -/
theorem MarkerInv.head (h : MarkerInv es σ) (hchan : σ.chan p s = .marker :: rest) :
    p ≠ s ∧ Taken (σ.node p) ∧ (σ.node s).markerSeen p = false ∧ markers rest = 0 := by
  have hps : p ≠ s := h.head_ne hchan
  have hcount := h.marker hps
  rw [hchan, markers_cons_marker] at hcount
  split at hcount
  · rename_i hcase
    exact ⟨hps, hcase.1, hcase.2, by omega⟩
  · omega

/-- A node that misses a marker and is not recording has not started. -/
theorem MarkerInv.not_taken (h : MarkerInv es σ) (hps : p ≠ s)
    (hunseen : (σ.node s).markerSeen p = false) (hidle : (σ.node s).snapshotting = false) :
    ¬ Taken (σ.node s) := by
  intro ht
  have hsnap := h.recording ht hps hunseen
  rw [hidle] at hsnap
  exact absurd hsnap (by simp)

/-- The state a node is in after its first marker. -/
theorem handleMarker_first {b : α} (h : nd.snapshotting = false) : (handleMarker s nd p b).1 =
      { snapshotting := true
        current := { localState := b, channelMessages := fun _ => [] }
        markerSeen := Function.update (fun _ => false) p true
        markersOutstanding := (peers s).length - 1
        resultReady := nd.resultReady || decide (((peers s).length : Int) - 1 = 0) } := by
  rw [handleMarker, if_pos h]

theorem handleMarker_later {b : α} (h : nd.snapshotting = true) (hseen : nd.markerSeen p = false) :
    (handleMarker s nd p b).1 = { nd with
      markerSeen := Function.update nd.markerSeen p true
      markersOutstanding := nd.markersOutstanding - 1
      resultReady := nd.resultReady || decide (nd.markersOutstanding - 1 = 0) } := by
  rw [handleMarker, if_neg (by rw [h]; simp), if_pos hseen]

/-- A node that has recorded sends its markers, and nothing else about markers changes: the
common part of taking part in a snapshot as its initiator or on a first marker. -/
theorem MarkerInv.record {es' : List (Event n α)} (h : MarkerInv es σ) (hs : ¬ Taken (σ.node s))
    (hinit : initiations es' ≠ 0) (hnew : (σ'.node s).snapshotting = true)
    (hother : ∀ t, t ≠ s → σ'.node t = σ.node t) (hself : ∀ t, σ'.chan t t = [])
    (hsend : ∀ q, q ≠ s → σ'.chan s q = σ.chan s q ++ [WireMsg.marker])
    (hchan : ∀ {p q}, p ≠ s → p ≠ q → markers (σ'.chan p q) =
      if Taken (σ.node p) ∧ (σ'.node q).markerSeen p = false then 1 else 0)
    (hseen : ∀ p, (σ'.node s).markerSeen p = true → p ≠ s ∧ Taken (σ.node p))
    (hout : (σ'.node s).markersOutstanding = awaited s (σ'.node s).markerSeen)
    (hready : (σ'.node s).resultReady = true → (∃ p, (σ'.node s).markerSeen p = true) ∧
      ∀ p, p ≠ s → (σ'.node s).markerSeen p = true)
    (hret : ∀ {t r}, Event.returned t r ∈ es' → Event.returned t r ∈ es) : MarkerInv es' σ' := by
  have htaken : ∀ {t}, Taken (σ.node t) → Taken (σ'.node t) := by
    intro t ht
    have hts : t ≠ s := by rintro rfl; exact hs ht
    rw [hother t hts]; exact ht
  constructor
  case fresh => exact fun h0 => absurd h0 hinit
  case selfChan => exact hself
  case untaken =>
    intro t ht
    have hts : t ≠ s := by rintro rfl; exact ht (Or.inl hnew)
    rw [hother t hts] at ht ⊢
    exact h.untaken ht
  case marker =>
    intro p q hpq
    by_cases hp : p = s
    · subst hp
      -- the marker just sent is the only one, and has not been seen
      have hunseen : (σ.node q).markerSeen p = false := by
        by_contra hne
        exact hs (h.seen (by simpa using hne)).2
      rw [hsend q (Ne.symm hpq), markers_append, h.marker hpq, if_neg fun hc => hs hc.1,
        hother q (Ne.symm hpq), if_pos ⟨Or.inl hnew, hunseen⟩]
      rfl
    · rw [hchan hp hpq, hother p hp]
  case seen =>
    intro p t hpt
    by_cases hts : t = s
    · subst hts
      exact ⟨(hseen p hpt).1, htaken (hseen p hpt).2⟩
    · rw [hother t hts] at hpt
      exact ⟨(h.seen hpt).1, htaken (h.seen hpt).2⟩
  case recording =>
    intro p t ht hpt hpseen
    by_cases hts : t = s
    · subst hts; exact hnew
    · rw [hother t hts] at ht hpseen ⊢
      exact h.recording ht hpt hpseen
  case outstanding =>
    intro t ht
    by_cases hts : t = s
    · subst hts; exact hout
    · rw [hother t hts] at ht ⊢
      exact h.outstanding ht
  case ready =>
    intro t ht
    by_cases hts : t = s
    · subst hts; exact hready ht
    · rw [hother t hts] at ht ⊢
      exact h.ready ht
  case returned =>
    intro t r hr
    obtain ⟨heq, ⟨p, hp⟩, hall⟩ := h.returned (hret hr)
    have hts : t ≠ s := by rintro rfl; exact hs (Or.inr ⟨p, hp⟩)
    rw [hother t hts]
    exact ⟨heq, ⟨p, hp⟩, hall⟩

theorem markerInv_firstMarker (h : MarkerInv es σ) (hchan : σ.chan p s = .marker :: rest)
    (hfirst : (σ.node s).snapshotting = false) :
    MarkerInv es (((σ.setChan p s rest).setNode s
      (handleMarker s (σ.node s) p (σ.balance s)).1).broadcast s) := by
  obtain ⟨hps, hp, hunseen, hrest⟩ := h.head hchan
  have hs : ¬ Taken (σ.node s) := h.not_taken hps hunseen hfirst
  have hnode : (((σ.setChan p s rest).setNode s
      (handleMarker s (σ.node s) p (σ.balance s)).1).broadcast s).node s
        = (handleMarker s (σ.node s) p (σ.balance s)).1 := System.setNode_self ..
  have hother : ∀ t, t ≠ s → (((σ.setChan p s rest).setNode s
      (handleMarker s (σ.node s) p (σ.balance s)).1).broadcast s).node t = σ.node t :=
    fun t ht => System.setNode_ne _ _ ht
  have hnewSeen : (handleMarker s (σ.node s) p (σ.balance s)).1.markerSeen
      = Function.update (fun _ => false) p true := by rw [handleMarker_first hfirst]
  have hawait : ((peers s).length : Int) - 1
      = awaited s (Function.update (fun _ => false) p true) := by
    have hmark : awaited s (Function.update (fun _ => false) p true) + 1
        = awaited s fun _ => false := awaited_mark hps rfl
    rw [awaited_none] at hmark
    omega
  refine h.record hs ?_ ?_ hother ?_ ?_ ?_ ?_ ?_ ?_ (fun hr => hr)
  · exact fun h0 => h.fresh h0 p hp
  · rw [hnode, handleMarker_first hfirst]
  · intro t
    rw [System.broadcast_chan, if_neg fun hc => hc.2 hc.1]
    show (σ.setChan p s rest).chan t t = []
    rw [System.setChan_ne _ _ fun hc => hps (hc.1.symm.trans hc.2)]
    exact h.selfChan t
  · intro q hq
    rw [System.broadcast_chan, if_pos ⟨rfl, hq⟩]
    show (σ.setChan p s rest).chan s q ++ _ = _
    rw [System.setChan_ne _ _ fun hc => hq hc.2]
  · intro p' q hp' hpq
    rw [System.broadcast_chan, if_neg fun hc => hp' hc.1]
    show markers ((σ.setChan p s rest).chan p' q) = _
    by_cases hq : q = s
    · subst hq
      rw [hnode, hnewSeen]
      by_cases hpp : p' = p
      · subst hpp
        rw [System.setChan_self, hrest, Function.update_self, if_neg (by simp)]
      · rw [System.setChan_ne _ _ fun hc => hpp hc.1, h.marker hpq, Function.update_of_ne hpp]
        have : (σ.node q).markerSeen p' = false := by
          by_contra hne
          exact hs (Or.inr ⟨p', by simpa using hne⟩)
        rw [this]
    · rw [System.setChan_ne _ _ fun hc => hq hc.2, h.marker hpq, hother q hq]
  · intro p' hseen
    rw [hnode, hnewSeen] at hseen
    by_cases hpp : p' = p
    · subst hpp; exact ⟨hps, hp⟩
    · rw [Function.update_of_ne hpp] at hseen
      exact absurd hseen (by simp)
  · rw [hnode, hnewSeen, ← hawait, handleMarker_first hfirst]
  · intro hready
    rw [hnode] at hready ⊢
    rw [handleMarker_first hfirst, (h.untaken hs).2] at hready
    simp only [Bool.false_or, decide_eq_true_eq] at hready
    rw [hnewSeen]
    refine ⟨⟨p, Function.update_self ..⟩, fun q hq => awaited_eq_zero (s := s) ?_ hq⟩
    omega

theorem markerInv_laterMarker (h : MarkerInv es σ) (hchan : σ.chan p s = .marker :: rest)
    (hlater : (σ.node s).snapshotting = true) :
    MarkerInv es ((σ.setChan p s rest).setNode s
      (handleMarker s (σ.node s) p (σ.balance s)).1) := by
  obtain ⟨hps, hp, hunseen, hrest⟩ := h.head hchan
  have hs : Taken (σ.node s) := Or.inl hlater
  rw [handleMarker_later hlater hunseen]
  have htaken : ∀ t, Taken (((σ.setChan p s rest).setNode s { σ.node s with
      markerSeen := Function.update (σ.node s).markerSeen p true
      markersOutstanding := (σ.node s).markersOutstanding - 1
      resultReady := (σ.node s).resultReady ||
        decide ((σ.node s).markersOutstanding - 1 = 0) }).node t) ↔ Taken (σ.node t) := by
    intro t
    by_cases hts : t = s
    · subst hts
      rw [System.setNode_self]
      exact ⟨fun _ => hs, fun _ => Or.inl hlater⟩
    · rw [System.setNode_ne _ _ hts]; rfl
  have hmark := awaited_mark hps hunseen
  have hout := h.outstanding hs
  constructor
  case fresh =>
    exact fun h0 => absurd hs (h.fresh h0 s)
  case selfChan =>
    intro t
    show (σ.setChan p s rest).chan t t = []
    rw [System.setChan_ne _ _ fun hc => hps (hc.1.symm.trans hc.2)]
    exact h.selfChan t
  case untaken =>
    intro t ht
    rw [htaken] at ht
    rw [System.setNode_ne _ _ (show t ≠ s by rintro rfl; exact ht hs)]
    exact h.untaken ht
  case marker =>
    intro p' q hpq
    show markers ((σ.setChan p s rest).chan p' q) = _
    simp only [htaken]
    by_cases hq : q = s
    · subst hq
      rw [System.setNode_self]
      dsimp only
      by_cases hpp : p' = p
      · subst hpp
        rw [System.setChan_self, hrest]
        simp
      · rw [System.setChan_ne _ _ fun hc => hpp hc.1, h.marker hpq]
        simp only [Function.update_of_ne hpp]
    · rw [System.setChan_ne _ _ fun hc => hq hc.2, h.marker hpq]
      simp only [System.setNode_ne _ _ hq]
      rfl
  case seen =>
    intro p' t hseen
    rw [htaken]
    by_cases hts : t = s
    · subst hts
      rw [System.setNode_self] at hseen
      dsimp only at hseen
      by_cases hpp : p' = p
      · subst hpp; exact ⟨hps, hp⟩
      · rw [Function.update_of_ne hpp] at hseen; exact h.seen hseen
    · rw [System.setNode_ne _ _ hts] at hseen; exact h.seen hseen
  case recording =>
    intro p' t ht hpt hpseen
    rw [htaken] at ht
    by_cases hts : t = s
    · subst hts; rw [System.setNode_self]; exact hlater
    · rw [System.setNode_ne _ _ hts] at hpseen ⊢
      exact h.recording ht hpt hpseen
  case outstanding =>
    intro t ht
    rw [htaken] at ht
    by_cases hts : t = s
    · subst hts
      rw [System.setNode_self]
      dsimp only
      omega
    · rw [System.setNode_ne _ _ hts]; exact h.outstanding ht
  case ready =>
    intro t ht
    by_cases hts : t = s
    · subst hts
      rw [System.setNode_self] at ht ⊢
      -- a result that was ready before would have this marker already
      rcases Bool.or_eq_true_iff.mp ht with hold | hzero
      · rw [(h.ready hold).2 p hps] at hunseen
        exact absurd hunseen (by simp)
      · have hzero' := of_decide_eq_true hzero
        refine ⟨⟨p, Function.update_self ..⟩, fun q hq => awaited_eq_zero (s := t) ?_ hq⟩
        dsimp only
        omega
    · rw [System.setNode_ne _ _ hts] at ht ⊢; exact h.ready ht
  case returned =>
    intro t r hr
    obtain ⟨heq, hsome, hall⟩ := h.returned hr
    have hts : t ≠ s := by
      rintro rfl
      rw [hall p hps] at hunseen
      exact absurd hunseen (by simp)
    rw [System.setNode_ne _ _ hts]
    exact ⟨heq, hsome, hall⟩

theorem markerInv_initiate (h : MarkerInv es σ) (hfresh : initiations es = 0) (s : Fin n) :
    MarkerInv (es ++ [Event.initiated s])
      { (σ.setNode s (initiateSnapshot s (σ.balance s))).broadcast s with
        initiating := Function.update σ.initiating s (σ.initiating s + 1) } := by
  have hnode : ((σ.setNode s (initiateSnapshot s (σ.balance s))).broadcast s).node s
      = initiateSnapshot s (σ.balance s) := System.setNode_self ..
  have hother : ∀ t, t ≠ s →
      ((σ.setNode s (initiateSnapshot s (σ.balance s))).broadcast s).node t = σ.node t :=
    fun t ht => System.setNode_ne _ _ ht
  -- before the snapshot there are no markers anywhere
  have hunseen : ∀ p q, (σ.node q).markerSeen p = false := by
    intro p q
    by_contra hne
    exact h.fresh hfresh q (Or.inr ⟨p, by simpa using hne⟩)
  refine h.record (h.fresh hfresh s) ?_ ?_ hother ?_ ?_ ?_ ?_ ?_ ?_ ?_
  · rw [initiations_append]
    exact Nat.succ_ne_zero _
  · show (((σ.setNode s _).broadcast s).node s).snapshotting = true
    rw [hnode]; rfl
  · intro t
    show ((σ.setNode s _).broadcast s).chan t t = []
    rw [System.broadcast_chan, if_neg fun hc => hc.2 hc.1]
    exact h.selfChan t
  · intro q hq
    show ((σ.setNode s _).broadcast s).chan s q = _
    rw [System.broadcast_chan, if_pos ⟨rfl, hq⟩]
    rfl
  · intro p q hp hpq
    show markers (((σ.setNode s _).broadcast s).chan p q) = _
    rw [System.broadcast_chan, if_neg fun hc => hp hc.1, if_neg fun hc => h.fresh hfresh p hc.1]
    show markers (σ.chan p q) = 0
    rw [h.marker hpq, if_neg fun hc => h.fresh hfresh p hc.1]
  · intro p hseen
    change (((σ.setNode s _).broadcast s).node s).markerSeen p = true at hseen
    rw [hnode] at hseen
    exact absurd hseen (by simp [initiateSnapshot])
  · show (((σ.setNode s _).broadcast s).node s).markersOutstanding
      = awaited s (((σ.setNode s _).broadcast s).node s).markerSeen
    rw [hnode]
    show ((peers s).length : Int) = awaited s fun _ => false
    rw [awaited_none]
  · intro hready
    change (((σ.setNode s _).broadcast s).node s).resultReady = true at hready
    rw [hnode] at hready
    exact absurd hready (by simp [initiateSnapshot])
  · intro t r hr
    simpa using hr

/-- A snapshot call returns: it stops the recording, when there is nothing left to record. -/
theorem MarkerInv.finish (h : MarkerInv es σ) (hready : (σ.node s).resultReady = true)
    (hchan : σ'.chan = σ.chan) (hother : ∀ t, t ≠ s → σ'.node t = σ.node t) (hself : σ'.node s = nd)
    (hcur : nd.current = (σ.node s).current) (hseen : nd.markerSeen = (σ.node s).markerSeen)
    (hout : nd.markersOutstanding = (σ.node s).markersOutstanding) :
    MarkerInv (es ++ [Event.returned s (σ.node s).current]) σ' := by
  subst hself
  obtain ⟨hsome, hall⟩ := h.ready hready
  have hs : Taken (σ.node s) := Or.inr hsome
  have hs' : Taken (σ'.node s) := Or.inr (by rw [hseen]; exact hsome)
  have htaken : ∀ t, Taken (σ'.node t) ↔ Taken (σ.node t) := by
    intro t
    by_cases hts : t = s
    · subst hts; exact ⟨fun _ => hs, fun _ => hs'⟩
    · rw [hother t hts]
  have hmarks : ∀ t, (σ'.node t).markerSeen = (σ.node t).markerSeen := by
    intro t
    by_cases hts : t = s
    · subst hts; exact hseen
    · rw [hother t hts]
  have hcurs : ∀ t, (σ'.node t).current = (σ.node t).current := by
    intro t
    by_cases hts : t = s
    · subst hts; exact hcur
    · rw [hother t hts]
  have hinit : initiations (es ++ [Event.returned s (σ.node s).current]) = initiations es :=
    initiations_append ..
  constructor
  case fresh =>
    intro h0
    rw [hinit] at h0
    exact absurd hs (h.fresh h0 s)
  case selfChan =>
    rw [hchan]; exact h.selfChan
  case untaken =>
    intro t ht
    rw [htaken] at ht
    rw [hother t (by rintro rfl; exact ht hs)]
    exact h.untaken ht
  case marker =>
    intro p q hpq
    rw [hchan, h.marker hpq]
    simp only [htaken, hmarks]
  case seen =>
    intro p t hpt
    rw [hmarks] at hpt
    rw [htaken]
    exact h.seen hpt
  case recording =>
    -- `s` has stopped recording, but it misses no marker
    intro p t ht hpt hpseen
    rw [htaken] at ht
    rw [hmarks] at hpseen
    have hts : t ≠ s := by
      rintro rfl
      rw [hall p hpt] at hpseen
      exact absurd hpseen (by simp)
    rw [hother t hts]
    exact h.recording ht hpt hpseen
  case outstanding =>
    intro t ht
    rw [htaken] at ht
    rw [hmarks]
    by_cases hts : t = s
    · subst hts; rw [hout]; exact h.outstanding ht
    · rw [hother t hts]; exact h.outstanding ht
  case ready =>
    intro t ht
    rw [hmarks]
    by_cases hts : t = s
    · subst hts; exact ⟨hsome, hall⟩
    · rw [hother t hts] at ht; exact h.ready ht
  case returned =>
    intro t r hr
    rw [hcurs, hmarks]
    rcases List.mem_append.mp hr with hold | hnew
    · exact h.returned hold
    · simp only [List.mem_singleton, Event.returned.injEq] at hnew
      obtain ⟨rfl, rfl⟩ := hnew
      exact ⟨rfl, hsome, hall⟩

/-- What `handleTransfer` writes: a recording, and only on a channel it still records. -/
theorem handleTransfer_marks (nd : ChandyLamportNode n α) (p : Fin n) (a : α) :
    SameMarks nd (handleTransfer nd p a) := by
  unfold handleTransfer
  split
  · exact ⟨rfl, rfl, rfl, rfl⟩
  · exact ⟨rfl, rfl, rfl, rfl⟩

theorem handleTransfer_localState (nd : ChandyLamportNode n α) (p : Fin n) (a : α) :
    (handleTransfer nd p a).current.localState = nd.current.localState := by
  unfold handleTransfer
  split
  · rfl
  · rfl

theorem handleTransfer_channel_ne (h : q ≠ p) :
    (handleTransfer nd p a).current.channelMessages q = nd.current.channelMessages q := by
  unfold handleTransfer
  split
  · exact Function.update_of_ne h ..
  · rfl

theorem handleTransfer_record (hsnap : nd.snapshotting = true) (hseen : nd.markerSeen p = false) :
    (handleTransfer nd p a).current.channelMessages p = nd.current.channelMessages p ++ [a] := by
  rw [handleTransfer, if_pos (by rw [hsnap, hseen]; rfl)]
  exact Function.update_self ..

theorem handleTransfer_ignore (h : ¬ Taken nd ∨ nd.markerSeen p = true) :
    handleTransfer nd p a = nd := by
  rw [handleTransfer, if_neg]
  intro hc
  obtain ⟨hsnap, hunseen⟩ := (Bool.and_eq_true_iff).mp hc
  rcases h with hs | hseen
  · exact hs (Or.inl hsnap)
  · rw [hseen] at hunseen
    exact absurd hunseen (by simp)

theorem markerInv_take (h : MarkerInv es σ) (hchan : σ.chan p s = .transfer a :: rest) :
    MarkerInv es (((σ.setChan p s rest).setNode s
      (handleTransfer (σ.node s) p a)).setPending s p (some a)) := by
  have hps : p ≠ s := h.head_ne hchan
  refine h.quiet ?_ ?_ ?_ ?_
  · intro t
    show (σ.setChan p s rest).chan t t = []
    rw [System.setChan_ne _ _ fun hc => hps (hc.1.symm.trans hc.2)]
    exact h.selfChan t
  · exact fun p' q _ => markers_setChan σ (by rw [hchan, markers_cons_transfer]) p' q
  · intro t
    show SameMarks _ (((σ.setChan p s rest).setNode s _).node t)
    by_cases hts : t = s
    · subst hts; rw [System.setNode_self]; exact handleTransfer_marks ..
    · rw [System.setNode_ne _ _ hts]; exact ⟨rfl, rfl, rfl, rfl⟩
  · intro t ht
    show (((σ.setChan p s rest).setNode s _).node t).current = _
    by_cases hts : t = s
    · subst hts
      rw [System.setNode_self, handleTransfer_ignore (ht.imp_right fun hall => hall p hps)]
    · rw [System.setNode_ne _ _ hts]; rfl

theorem markerInv_transfer [AddCommGroup α] (h : MarkerInv es σ) (hne : q ≠ s) (a b : α) :
    MarkerInv es ((σ.setBalance s b).setChan s q (σ.chan s q ++ [WireMsg.transfer a])) := by
  refine h.quiet ?_ ?_ (fun t => ⟨rfl, rfl, rfl, rfl⟩) (fun t _ => rfl)
  · intro t
    rw [System.setChan_ne _ _ fun hc => hne (hc.2.symm.trans hc.1)]
    exact h.selfChan t
  · exact fun p' q' _ => markers_setChan _ (markers_append ..) p' q'

/-- Every step of a run with one initiation. -/
theorem markerInv_step [AddCommGroup α] {ev : List (Event n α)} {a : Action n α}
    (h : MarkerInv es σ) (hstep : σ.step a = some (σ', ev)) (hone : initiations (es ++ ev) ≤ 1) :
    MarkerInv (es ++ ev) σ' := by
  cases happens_of_step hstep with
  | transfer hne => rw [List.append_nil]; exact markerInv_transfer h hne _ _
  | take hidle hchan => rw [List.append_nil]; exact markerInv_take h hchan
  | firstMarker hidle hchan hfirst =>
      rw [List.append_nil]
      exact markerInv_firstMarker h hchan hfirst
  | laterMarker hidle hchan hlater =>
      rw [List.append_nil]
      exact markerInv_laterMarker h hchan hlater
  | apply hpend =>
      rw [List.append_nil]
      exact h.quiet h.selfChan (fun _ _ _ => rfl) (fun _ => ⟨rfl, rfl, rfl, rfl⟩) fun _ _ => rfl
  | initiate =>
      rw [initiations_append] at hone
      exact markerInv_initiate h (Nat.eq_zero_of_le_zero (Nat.le_of_succ_le_succ hone)) _
  | finishInitiate hready =>
      exact h.finish hready rfl (fun t ht => System.setNode_ne _ _ ht)
        (System.setNode_self ..) rfl rfl rfl
  | finishPassive hready =>
      exact h.finish hready rfl (fun t ht => System.setNode_ne _ _ ht)
        (System.setNode_self ..) rfl rfl rfl

end CrossMachine.Snapshot
