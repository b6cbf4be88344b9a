import CrossMachine.Lib.Instances
import CrossMachine.Snapshot.Markers
import Mathlib.Algebra.Order.Ring.Int

/-!
# Snapshot after snapshot

The same nodes take one snapshot after another. `Rounds` keeps, beside the system, what
each node wrote down during each snapshot and what its calls returned, so that a result
can be compared with the snapshot it is returned for.

A new snapshot starts only when the last one is complete on every node, and a node makes
one call for each: `initiateSnapshot` on the initiator, `waitForPassiveSnapshot` on the
others. This much the callers promise (`InTurn`). It is not enough: `initiateSnapshot`
leaves `resultReady_` set when it returns, so the next `waitForPassiveSnapshot` on that
node does not wait. `AwaitsMarkers` excludes just these returns, and without them every
call returns what was recorded for it.
-/

namespace CrossMachine.Snapshot

open Lib

variable {n : Nat} {α : Type}

/-! ## What is written down -/

/-- A write to `current_`. -/
inductive Recording (n : Nat) (α : Type) where
  | state (localState : α)
  | message (fromPeer : Fin n) (amount : α)

/-- The write a step makes, and the node that makes it. -/
def recording (σ : System n α) : Action n α → Option (Fin n × Recording n α)
  | .initiateSnapshot s => some (s, .state (σ.balance s))
  | .recv s p =>
      match σ.chan p s with
      | .marker :: _ =>
          if (σ.node s).snapshotting = false then some (s, .state (σ.balance s)) else none
      | .transfer amount :: _ =>
          if (σ.node s).snapshotting && !(σ.node s).markerSeen p then some (s, .message p amount)
          else none
      | [] => none
  | _ => none

def SnapshotResult.write (r : SnapshotResult n α) : Recording n α → SnapshotResult n α
  | .state b => { r with localState := b }
  | .message p a =>
      { r with channelMessages := Function.update r.channelMessages p (r.channelMessages p ++ [a]) }

/-- A result nothing has been written into. -/
def blank [Zero α] : SnapshotResult n α := { localState := 0, channelMessages := fun _ => [] }

/-- The system, and what is known about its snapshots. They are counted from 0. -/
structure Rounds (n : Nat) (α : Type) where
  sys : System n α
  /-- How many snapshots have been initiated. -/
  round : Nat
  /-- `recorded s k`: what `s` wrote down during snapshot `k`. -/
  recorded : Fin n → Nat → SnapshotResult n α
  /-- What the calls on a node returned, the first call first. -/
  results : Fin n → List (SnapshotResult n α)

def initRounds [Zero α] (balance : Fin n → α) : Rounds n α where
  sys := initSystem balance
  round := 0
  recorded := fun _ _ => blank
  results := fun _ => []

/-- Enter a write of snapshot `k` into the table. -/
def note (recorded : Fin n → Nat → SnapshotResult n α) (k : Nat) :
    Option (Fin n × Recording n α) → Fin n → Nat → SnapshotResult n α
  | none => recorded
  | some (s, w) => Function.update recorded s
      (Function.update (recorded s) k ((recorded s k).write w))

/-- What `s` returns in these events. -/
def returnedBy (s : Fin n) (es : List (Event n α)) : List (SnapshotResult n α) :=
  es.filterMap fun
    | .returned t r => if t = s then some r else none
    | .initiated _ => none

def Rounds.step [AddCommGroup α] (ρ : Rounds n α) (a : Action n α) :
    Option (Rounds n α × List (Event n α)) := do
  let (σ, ev) ← ρ.sys.step a
  -- what the initiator writes belongs to the snapshot it starts
  let round := ρ.round + initiations ev
  some ({ sys := σ
          round := round
          recorded := note ρ.recorded (round - 1) (recording ρ.sys a)
          results := fun s => ρ.results s ++ returnedBy s ev }, ev)

/-! ## The conditions -/

/-- Snapshots come one after another, and the initiator makes no second call. -/
def InTurn (ρ : Rounds n α) : Action n α → Prop
  | .initiateSnapshot _ => ∀ t, (ρ.results t).length = ρ.round
  | .finishPassive s => ρ.sys.initiating s = 0
  | _ => True

/-- `waitForPassiveSnapshot` does not return unless the node is recording and has seen every
marker. -/
def AwaitsMarkers (ρ : Rounds n α) : Action n α → Prop
  | .finishPassive s =>
      (ρ.sys.node s).snapshotting = true ∧ (ρ.sys.node s).markersOutstanding = 0
  | _ => True

/-- The `k`-th result a node returns is what it recorded during snapshot `k`. -/
def ResultsRecorded (ρ : Rounds n α) : Prop :=
  ∀ (s : Fin n) (k : Nat) (r : SnapshotResult n α), (ρ.results s)[k]? = some r → r = ρ.recorded s k

instance (ρ : Rounds n α) : ∀ a : Action n α, Decidable (InTurn ρ a)
  | .initiateSnapshot _ => inferInstanceAs (Decidable (∀ t, (ρ.results t).length = ρ.round))
  | .finishPassive s => inferInstanceAs (Decidable (ρ.sys.initiating s = 0))
  | .transfer .. | .recv .. | .onTransfer .. | .finishInitiate _ => isTrue trivial

instance (ρ : Rounds n α) : ∀ a : Action n α, Decidable (AwaitsMarkers ρ a)
  | .finishPassive s => inferInstanceAs (Decidable ((ρ.sys.node s).snapshotting = true ∧
      (ρ.sys.node s).markersOutstanding = 0))
  | .initiateSnapshot _ | .transfer .. | .recv .. | .onTransfer .. | .finishInitiate _ =>
      isTrue trivial

/-! ## Where a node stands in the current snapshot -/

/-- The node has returned its result. -/
def Returned (ρ : Rounds n α) (s : Fin n) : Prop := (ρ.results s).length = ρ.round

/-- The node has recorded its state. -/
def TookPart (ρ : Rounds n α) (s : Fin n) : Prop :=
  (ρ.sys.node s).snapshotting = true ∨ Returned ρ s

/-- The node has had the marker of `p`. -/
def HasMarker (ρ : Rounds n α) (s p : Fin n) : Prop :=
  Returned ρ s ∨ ((ρ.sys.node s).snapshotting = true ∧ (ρ.sys.node s).markerSeen p = true)

instance (ρ : Rounds n α) (s : Fin n) : Decidable (TookPart ρ s) :=
  inferInstanceAs (Decidable (_ ∨ _ = _))

instance (ρ : Rounds n α) (s p : Fin n) : Decidable (HasMarker ρ s p) :=
  inferInstanceAs (Decidable (_ = _ ∨ _))

structure RoundInv (ρ : Rounds n α) : Prop where
  /-- A node is at most one result behind. -/
  lag : ∀ s, ¬ Returned ρ s → (ρ.results s).length + 1 = ρ.round
  idle : ∀ {s}, Returned ρ s → (ρ.sys.node s).snapshotting = false
  /-- A node returns when every other has recorded. -/
  complete : ∀ {s}, Returned ρ s → ∀ p, TookPart ρ p
  selfChan : ∀ s, ρ.sys.chan s s = []
  marker : ∀ {p s}, p ≠ s → markers (ρ.sys.chan p s) =
    if TookPart ρ p ∧ ¬ HasMarker ρ s p then 1 else 0
  seen : ∀ {s p}, (ρ.sys.node s).snapshotting = true → (ρ.sys.node s).markerSeen p = true →
    p ≠ s ∧ TookPart ρ p
  outstanding : ∀ {s}, (ρ.sys.node s).snapshotting = true →
    (ρ.sys.node s).markersOutstanding = awaited s (ρ.sys.node s).markerSeen
  single : ∀ s, ρ.sys.initiating s ≤ 1
  /-- The flag is right while an `initiateSnapshot` waits for it. -/
  initiator : ∀ {s}, 0 < ρ.sys.initiating s → (ρ.sys.node s).snapshotting = true ∧
    ((ρ.sys.node s).resultReady = true → awaited s (ρ.sys.node s).markerSeen = 0)

/-- What is in `current_`, in the table and in the results. -/
structure NotesInv [Zero α] (ρ : Rounds n α) : Prop where
  current : ∀ {s}, (ρ.sys.node s).snapshotting = true →
    (ρ.sys.node s).current = ρ.recorded s (ρ.round - 1)
  blank : ∀ {s k}, (ρ.results s).length ≤ k →
    ¬ ((ρ.sys.node s).snapshotting = true ∧ k + 1 = ρ.round) → ρ.recorded s k = blank
  results : ResultsRecorded ρ

theorem roundInv_init [AddCommGroup α] (bal : Fin n → α) : RoundInv (initRounds bal) where
  lag := fun s h => absurd rfl h
  idle := fun _ => rfl
  complete := fun _ _ => Or.inr rfl
  selfChan := fun _ => rfl
  marker := by
    intro p s _
    rw [if_neg fun h => h.2 (Or.inl rfl)]
    rfl
  seen := by intro s p h; exact absurd h (by simp [initRounds, initSystem, newNode])
  outstanding := by intro s h; exact absurd h (by simp [initRounds, initSystem, newNode])
  single := fun _ => Nat.zero_le _
  initiator := by intro s h; exact absurd h (Nat.lt_irrefl 0)

theorem notesInv_init [AddCommGroup α] (bal : Fin n → α) : NotesInv (initRounds bal) where
  current := by intro s h; exact absurd h (by simp [initRounds, initSystem, newNode])
  blank := fun _ _ => rfl
  results := by intro s k r h; simp [initRounds] at h

/-! ## Steps that move no marker -/

/-- A step that moves no marker and changes nothing a node knows about them. -/
theorem RoundInv.quiet {ρ ρ' : Rounds n α} (h : RoundInv ρ) (hround : ρ'.round = ρ.round)
    (hresults : ρ'.results = ρ.results) (hinit : ρ'.sys.initiating = ρ.sys.initiating)
    (hself : ∀ s, ρ'.sys.chan s s = [])
    (hchan : ∀ p s, p ≠ s → markers (ρ'.sys.chan p s) = markers (ρ.sys.chan p s))
    (hnode : ∀ s, SameMarks (ρ.sys.node s) (ρ'.sys.node s)) : RoundInv ρ' := by
  have hret : ∀ s, Returned ρ' s ↔ Returned ρ s := by
    intro s; rw [Returned, Returned, hresults, hround]
  have htook : ∀ s, TookPart ρ' s ↔ TookPart ρ s := by
    intro s; rw [TookPart, TookPart, hret, (hnode s).snapshotting]
  have hhas : ∀ s p, HasMarker ρ' s p ↔ HasMarker ρ s p := by
    intro s p
    rw [HasMarker, HasMarker, hret, (hnode s).snapshotting, (hnode s).markerSeen]
  constructor
  case lag => intro s hs; rw [hret] at hs; rw [hresults, hround]; exact h.lag s hs
  case idle => intro s hs; rw [hret] at hs; rw [(hnode s).snapshotting]; exact h.idle hs
  case complete => intro s hs p; rw [hret] at hs; rw [htook]; exact h.complete hs p
  case selfChan => exact hself
  case marker =>
    intro p s hps
    rw [hchan p s hps, h.marker hps]
    simp only [htook, hhas]
  case seen =>
    intro s p hs hp
    rw [(hnode s).snapshotting] at hs
    rw [(hnode s).markerSeen] at hp
    rw [htook]; exact h.seen hs hp
  case outstanding =>
    intro s hs
    rw [(hnode s).snapshotting] at hs
    rw [(hnode s).markersOutstanding, (hnode s).markerSeen]
    exact h.outstanding hs
  case single => rw [hinit]; exact h.single
  case initiator =>
    intro s hs
    rw [hinit] at hs
    rw [(hnode s).snapshotting, (hnode s).resultReady, (hnode s).markerSeen]
    exact h.initiator hs

/-! ## Steps of one node -/

variable {p s : Fin n} {rest : List (WireMsg α)} {r : SnapshotResult n α} {a : Action n α}
  {ev : List (Event n α)}

/-- A marker at the head of a channel comes from a node that has recorded, and the
receiver has not had it. -/
theorem RoundInv.head {ρ : Rounds n α} (h : RoundInv ρ) (hchan : ρ.sys.chan p s = .marker :: rest) :
    p ≠ s ∧ TookPart ρ p ∧ ¬ HasMarker ρ s p ∧ markers rest = 0 := by
  have hps : p ≠ s := by
    intro heq
    rw [heq, h.selfChan] at hchan
    exact absurd hchan (by simp)
  have hcount := h.marker hps
  rw [hchan, markers_cons_marker] at hcount
  split at hcount
  · rename_i hcase
    exact ⟨hps, hcase.1, hcase.2, by omega⟩
  · omega

/-- A node that has not had the marker of `p` has not returned. -/
theorem not_returned {ρ : Rounds n α} (h : ¬ HasMarker ρ s p) : ¬ Returned ρ s :=
  fun hret => h (Or.inl hret)

theorem RoundInv.not_returned_of_recording {ρ : Rounds n α} (h : RoundInv ρ)
    (hs : (ρ.sys.node s).snapshotting = true) : ¬ Returned ρ s := by
  intro hr
  rw [h.idle hr] at hs
  exact absurd hs (by simp)

/-- A node that has the marker of `p` knows that `p` has recorded. -/
theorem RoundInv.took_of_marker {ρ : Rounds n α} (h : RoundInv ρ) (hs : HasMarker ρ s p) :
    TookPart ρ p := by
  rcases hs with hret | ⟨hsnap, hseen⟩
  · exact h.complete hret p
  · exact (h.seen hsnap hseen).2

/-- `s` gets the marker of `p`, as its first one or as a later one. -/
theorem RoundInv.mark {ρ ρ' : Rounds n α} (h : RoundInv ρ) (hps : p ≠ s) (hp : TookPart ρ p)
    (hunseen : ¬ HasMarker ρ s p) (hround : ρ'.round = ρ.round) (hresults : ρ'.results = ρ.results)
    (hinit : ρ'.sys.initiating = ρ.sys.initiating)
    (hother : ∀ t, t ≠ s → ρ'.sys.node t = ρ.sys.node t)
    (hsnap : (ρ'.sys.node s).snapshotting = true)
    (hseen : ∀ q, (ρ'.sys.node s).markerSeen q = true ↔ q = p ∨ HasMarker ρ s q)
    (hout : (ρ'.sys.node s).markersOutstanding = awaited s (ρ'.sys.node s).markerSeen)
    (hready : 0 < ρ.sys.initiating s → (ρ'.sys.node s).resultReady = true →
      awaited s (ρ'.sys.node s).markerSeen = 0) (hself : ∀ t, ρ'.sys.chan t t = [])
    (hrecv : markers (ρ'.sys.chan p s) = 0) (hsend : ∀ q, q ≠ s → markers (ρ'.sys.chan s q) =
      markers (ρ.sys.chan s q) + if TookPart ρ s then 0 else 1)
    (hchan : ∀ {a b}, a ≠ s → ¬ (a = p ∧ b = s) → ρ'.sys.chan a b = ρ.sys.chan a b) :
    RoundInv ρ' := by
  have hret : ∀ t, Returned ρ' t ↔ Returned ρ t := by
    intro t; rw [Returned, Returned, hresults, hround]
  have hbehind := not_returned hunseen
  have htook : ∀ t, TookPart ρ' t ↔ t = s ∨ TookPart ρ t := by
    intro t
    by_cases hts : t = s
    · subst hts; exact ⟨fun _ => Or.inl rfl, fun _ => Or.inl hsnap⟩
    · rw [TookPart, TookPart, hret, hother t hts]; simp [hts]
  have hhas : ∀ t q, HasMarker ρ' t q ↔ HasMarker ρ t q ∨ (t = s ∧ q = p) := by
    intro t q
    by_cases hts : t = s
    · subst hts
      rw [HasMarker, hret, hsnap, hseen]
      simp [hbehind, or_comm]
    · rw [HasMarker, HasMarker, hret, hother t hts]; simp [hts]
  constructor
  case lag => intro t ht; rw [hret] at ht; rw [hresults, hround]; exact h.lag t ht
  case idle =>
    intro t ht
    rw [hret] at ht
    rw [hother t (by rintro rfl; exact hbehind ht)]
    exact h.idle ht
  case complete => intro t ht q; rw [hret] at ht; rw [htook]; exact Or.inr (h.complete ht q)
  case selfChan => exact hself
  case marker =>
    intro a b hab
    by_cases has : a = s
    · subst has
      rw [hsend b (Ne.symm hab), h.marker hab]
      have hba : HasMarker ρ' b a ↔ HasMarker ρ b a := by
        rw [hhas]; simp [Ne.symm hab]
      have ha : TookPart ρ' a := (htook a).mpr (Or.inl rfl)
      by_cases hold : TookPart ρ a
      · simp [hold, ha, hba]
      · -- nobody can have a marker that has not been sent
        have hno : ¬ HasMarker ρ b a := fun hb => hold (h.took_of_marker hb)
        simp [hold, ha, hba, hno]
    · by_cases hpq : a = p ∧ b = s
      · obtain ⟨rfl, rfl⟩ := hpq
        rw [hrecv, if_neg fun hc => hc.2 ((hhas b a).mpr (Or.inr ⟨rfl, rfl⟩))]
      · have hba : HasMarker ρ' b a ↔ HasMarker ρ b a := by
          rw [hhas]
          exact ⟨fun hc => hc.resolve_right fun hc' => hpq ⟨hc'.2, hc'.1⟩, Or.inl⟩
        rw [hchan has hpq, h.marker hab]
        simp only [htook a, has, false_or, hba]
  case seen =>
    intro t q ht hq
    rw [htook]
    by_cases hts : t = s
    · subst hts
      rcases (hseen q).mp hq with rfl | hold
      · exact ⟨hps, Or.inr hp⟩
      · rcases hold with hr | ⟨hs, hm⟩
        · exact absurd hr hbehind
        · exact ⟨(h.seen hs hm).1, Or.inr (h.seen hs hm).2⟩
    · rw [hother t hts] at ht hq
      exact ⟨(h.seen ht hq).1, Or.inr (h.seen ht hq).2⟩
  case outstanding =>
    intro t ht
    by_cases hts : t = s
    · subst hts; exact hout
    · rw [hother t hts] at ht ⊢; exact h.outstanding ht
  case single => rw [hinit]; exact h.single
  case initiator =>
    intro t ht
    rw [hinit] at ht
    by_cases hts : t = s
    · subst hts; exact ⟨hsnap, hready ht⟩
    · rw [hother t hts]; exact h.initiator ht

/-- `s` starts a new round when the last one is over everywhere. -/
theorem RoundInv.start {ρ ρ' : Rounds n α} (h : RoundInv ρ) {b : α} (hall : ∀ t, Returned ρ t)
    (hround : ρ'.round = ρ.round + 1) (hresults : ρ'.results = ρ.results)
    (hsys : ρ'.sys = { (ρ.sys.setNode s (initiateSnapshot s b)).broadcast s with
      initiating := Function.update ρ.sys.initiating s (ρ.sys.initiating s + 1) }) :
    RoundInv ρ' := by
  have hret : ∀ t, ¬ Returned ρ' t := by
    intro t ht
    have hold : (ρ.results t).length = ρ.round := hall t
    rw [Returned, hresults, hround] at ht
    omega
  have hquiet : ∀ t, ρ.sys.initiating t = 0 := by
    intro t
    by_contra hne
    have hsnap := (h.initiator (Nat.pos_of_ne_zero hne)).1
    rw [h.idle (hall t)] at hsnap
    exact absurd hsnap (by simp)
  have hself : ρ'.sys.node s = initiateSnapshot s b := by
    rw [hsys]; exact System.setNode_self ..
  have hother : ∀ t, t ≠ s → ρ'.sys.node t = ρ.sys.node t := by
    intro t ht; rw [hsys]; exact System.setNode_ne _ _ ht
  have hidle : ∀ t, t ≠ s → (ρ'.sys.node t).snapshotting = false := by
    intro t ht; rw [hother t ht]; exact h.idle (hall t)
  have hnot : ∀ t q, ¬ HasMarker ρ' t q := by
    intro t q ht
    rcases ht with hr | ⟨hs, hm⟩
    · exact hret t hr
    · by_cases hts : t = s
      · subst hts; rw [hself] at hm; exact absurd hm (by simp [initiateSnapshot])
      · rw [hidle t hts] at hs; exact absurd hs (by simp)
  have hchan : ∀ p q, ρ'.sys.chan p q =
      if p = s ∧ q ≠ s then ρ.sys.chan p q ++ [WireMsg.marker] else ρ.sys.chan p q := by
    intro p q; rw [hsys]; exact System.broadcast_chan ..
  constructor
  case lag =>
    intro t _
    have hold : (ρ.results t).length = ρ.round := hall t
    rw [hresults, hround, hold]
  case idle => intro t ht; exact absurd ht (hret t)
  case complete => intro t ht; exact absurd ht (hret t)
  case selfChan =>
    intro t
    rw [hchan, if_neg fun hc => hc.2 hc.1]
    exact h.selfChan t
  case marker =>
    intro p q hpq
    have hold : markers (ρ.sys.chan p q) = 0 := by
      rw [h.marker hpq, if_neg fun hc => hc.2 (Or.inl (hall q))]
    rw [hchan]
    by_cases hp : p = s
    · subst hp
      have hq : q ≠ p := Ne.symm hpq
      rw [if_pos ⟨rfl, hq⟩, markers_append, hold,
        if_pos ⟨Or.inl (by rw [hself]; rfl), hnot q p⟩]
      rfl
    · rw [if_neg fun hc => hp hc.1, hold, if_neg]
      rintro ⟨hs | hr, -⟩
      · rw [hidle p hp] at hs; exact absurd hs (by simp)
      · exact hret p hr
  case seen => intro t q ht hq; exact absurd (Or.inr ⟨ht, hq⟩) (hnot t q)
  case outstanding =>
    intro t ht
    by_cases hts : t = s
    · subst hts
      rw [hself]
      show ((peers t).length : Int) = awaited t fun _ => false
      rw [awaited_none]
    · rw [hidle t hts] at ht; exact absurd ht (by simp)
  case single =>
    intro t
    rw [hsys]
    show Function.update ρ.sys.initiating s _ t ≤ 1
    by_cases hts : t = s
    · subst hts; rw [Function.update_self, hquiet]
    · rw [Function.update_of_ne hts, hquiet]; exact Nat.zero_le _
  case initiator =>
    intro t ht
    rw [hsys] at ht
    change 0 < Function.update ρ.sys.initiating s _ t at ht
    by_cases hts : t = s
    · subst hts; rw [hself]; exact ⟨rfl, fun hr => absurd hr (by simp [initiateSnapshot])⟩
    · rw [Function.update_of_ne hts, hquiet] at ht; exact absurd ht (Nat.lt_irrefl 0)

/-- A call on `s` returns, with every marker in. -/
theorem RoundInv.finish {ρ ρ' : Rounds n α} (h : RoundInv ρ)
    (hsnap : (ρ.sys.node s).snapshotting = true) (hall : awaited s (ρ.sys.node s).markerSeen = 0)
    (hround : ρ'.round = ρ.round) (hresults : ρ'.results s = ρ.results s ++ [r])
    (hkeep : ∀ t, t ≠ s → ρ'.results t = ρ.results t) (hchan : ρ'.sys.chan = ρ.sys.chan)
    (hidle : (ρ'.sys.node s).snapshotting = false)
    (hother : ∀ t, t ≠ s → ρ'.sys.node t = ρ.sys.node t) (hinit : ρ'.sys.initiating s = 0)
    (hwait : ∀ t, t ≠ s → ρ'.sys.initiating t = ρ.sys.initiating t) : RoundInv ρ' := by
  have hbehind := h.not_returned_of_recording hsnap
  have hlag := h.lag s hbehind
  have hnow : Returned ρ' s := by
    rw [Returned, hresults, hround, List.length_append]; exact hlag
  have hret : ∀ t, t ≠ s → (Returned ρ' t ↔ Returned ρ t) := by
    intro t ht; rw [Returned, Returned, hkeep t ht, hround]
  have htook : ∀ t, TookPart ρ' t ↔ TookPart ρ t := by
    intro t
    by_cases hts : t = s
    · subst hts; exact ⟨fun _ => Or.inl hsnap, fun _ => Or.inr hnow⟩
    · rw [TookPart, TookPart, hret t hts, hother t hts]
  have hmarks : ∀ q, q ≠ s → HasMarker ρ s q :=
    fun q hq => Or.inr ⟨hsnap, awaited_eq_zero hall hq⟩
  have hhas : ∀ t q, q ≠ t → (HasMarker ρ' t q ↔ HasMarker ρ t q) := by
    intro t q hqt
    by_cases hts : t = s
    · subst hts; exact ⟨fun _ => hmarks q hqt, fun _ => Or.inl hnow⟩
    · rw [HasMarker, HasMarker, hret t hts, hother t hts]
  constructor
  case lag =>
    intro t ht
    by_cases hts : t = s
    · subst hts; exact absurd hnow ht
    · rw [hret t hts] at ht; rw [hkeep t hts, hround]; exact h.lag t ht
  case idle =>
    intro t ht
    by_cases hts : t = s
    · subst hts; exact hidle
    · rw [hret t hts] at ht; rw [hother t hts]; exact h.idle ht
  case complete =>
    intro t ht q
    rw [htook]
    by_cases hts : t = s
    · subst hts
      by_cases hq : q = t
      · subst hq; exact Or.inl hsnap
      · exact h.took_of_marker (hmarks q hq)
    · exact h.complete ((hret t hts).mp ht) q
  case selfChan => rw [hchan]; exact h.selfChan
  case marker =>
    intro p q hpq
    rw [hchan, h.marker hpq]
    simp only [htook, hhas q p hpq]
  case seen =>
    intro t q ht hq
    have hts : t ≠ s := by rintro rfl; rw [hidle] at ht; exact absurd ht (by simp)
    rw [hother t hts] at ht hq
    rw [htook]; exact h.seen ht hq
  case outstanding =>
    intro t ht
    have hts : t ≠ s := by rintro rfl; rw [hidle] at ht; exact absurd ht (by simp)
    rw [hother t hts] at ht ⊢; exact h.outstanding ht
  case single =>
    intro t
    by_cases hts : t = s
    · subst hts; rw [hinit]; exact Nat.zero_le _
    · rw [hwait t hts]; exact h.single t
  case initiator =>
    intro t ht
    have hts : t ≠ s := by rintro rfl; rw [hinit] at ht; exact absurd ht (Nat.lt_irrefl 0)
    rw [hwait t hts] at ht
    rw [hother t hts]; exact h.initiator ht

/-! ## The table -/

theorem note_self (recorded : Fin n → Nat → SnapshotResult n α) (k : Nat) (s : Fin n)
    (w : Recording n α) : note recorded k (some (s, w)) s k = (recorded s k).write w := by
  simp [note]

theorem note_ne (recorded : Fin n → Nat → SnapshotResult n α) {k k' : Nat} {t : Fin n}
    (w : Recording n α) (h : ¬ (t = s ∧ k' = k)) :
    note recorded k (some (s, w)) t k' = recorded t k' := by
  rw [note]
  by_cases hts : t = s
  · subst hts
    rw [Function.update_self, Function.update_of_ne fun hk => h ⟨rfl, hk⟩]
  · rw [Function.update_of_ne hts]

section Notes

variable [Zero α] {ρ ρ' : Rounds n α}

/-- Nothing is written and nothing returned. -/
theorem NotesInv.quiet (h : NotesInv ρ) (hround : ρ'.round = ρ.round)
    (hresults : ρ'.results = ρ.results) (hrec : ρ'.recorded = ρ.recorded)
    (hsnap : ∀ s, (ρ'.sys.node s).snapshotting = (ρ.sys.node s).snapshotting)
    (hcur : ∀ s, (ρ'.sys.node s).current = (ρ.sys.node s).current) : NotesInv ρ' where
  current := by
    intro s hs
    rw [hsnap] at hs
    rw [hcur, hrec, hround]; exact h.current hs
  blank := by
    intro s k hk hne
    rw [hresults] at hk
    rw [hsnap, hround] at hne
    rw [hrec]; exact h.blank hk hne
  results := by
    intro s k r hr
    rw [hresults] at hr
    rw [hrec]; exact h.results s k r hr

/-- `s` writes its state down. -/
theorem NotesInv.join (h : NotesInv ρ) {b : α} (hidle : (ρ.sys.node s).snapshotting = false)
    (hlen : (ρ.results s).length + 1 = ρ'.round)
    (hround : ∀ t, (ρ.sys.node t).snapshotting = true → ρ'.round = ρ.round)
    (hresults : ρ'.results = ρ.results)
    (hrec : ρ'.recorded = note ρ.recorded (ρ'.round - 1) (some (s, .state b)))
    (hsnap : (ρ'.sys.node s).snapshotting = true)
    (hcur : (ρ'.sys.node s).current = { localState := b, channelMessages := fun _ => [] })
    (hother : ∀ t, t ≠ s → ρ'.sys.node t = ρ.sys.node t) : NotesInv ρ' where
  current := by
    intro t ht
    rw [hrec]
    by_cases hts : t = s
    · subst hts
      rw [note_self, hcur, h.blank (by omega) (by simp [hidle])]
      rfl
    · rw [hother t hts] at ht ⊢
      rw [note_ne _ _ fun hc => hts hc.1, hround t ht]
      exact h.current ht
  blank := by
    intro t k hk hne
    rw [hresults] at hk
    rw [hrec]
    by_cases hts : t = s
    · subst hts
      have hk' : k + 1 ≠ ρ'.round := fun hc => hne ⟨hsnap, hc⟩
      rw [note_ne _ _ fun hc => by omega]
      exact h.blank hk (by simp [hidle])
    · rw [note_ne _ _ fun hc => hts hc.1]
      refine h.blank hk ?_
      rintro ⟨ht, hc⟩
      rw [hother t hts, hround t ht] at hne
      exact hne ⟨ht, hc⟩
  results := by
    intro t k r hr
    rw [hresults] at hr
    have hk := (List.getElem?_eq_some_iff.mp hr).1
    rw [hrec, note_ne]
    · exact h.results t k r hr
    · rintro ⟨rfl, hc⟩; omega

/-- `s` writes a message down. -/
theorem NotesInv.message (h : NotesInv ρ) {a : α} (hrecording : (ρ.sys.node s).snapshotting = true)
    (hlen : (ρ.results s).length + 1 = ρ.round) (hround : ρ'.round = ρ.round)
    (hresults : ρ'.results = ρ.results)
    (hrec : ρ'.recorded = note ρ.recorded (ρ'.round - 1) (some (s, .message p a)))
    (hsnap : ∀ t, (ρ'.sys.node t).snapshotting = (ρ.sys.node t).snapshotting)
    (hcur : (ρ'.sys.node s).current = (ρ.sys.node s).current.write (.message p a))
    (hother : ∀ t, t ≠ s → (ρ'.sys.node t).current = (ρ.sys.node t).current) : NotesInv ρ' where
  current := by
    intro t ht
    rw [hsnap] at ht
    rw [hrec, hround]
    by_cases hts : t = s
    · subst hts; rw [note_self, hcur, h.current ht]
    · rw [note_ne _ _ fun hc => hts hc.1, hother t hts]; exact h.current ht
  blank := by
    intro t k hk hne
    rw [hresults] at hk
    rw [hsnap, hround] at hne
    rw [hrec, hround, note_ne]
    · exact h.blank hk hne
    · rintro ⟨rfl, hc⟩; exact hne ⟨hrecording, by omega⟩
  results := by
    intro t k r hr
    rw [hresults] at hr
    have hk := (List.getElem?_eq_some_iff.mp hr).1
    rw [hrec, hround, note_ne]
    · exact h.results t k r hr
    · rintro ⟨rfl, hc⟩; omega

/-- `s` returns what is in `current_`. -/
theorem NotesInv.finish (h : NotesInv ρ) (hrecording : (ρ.sys.node s).snapshotting = true)
    (hlen : (ρ.results s).length + 1 = ρ.round) (hround : ρ'.round = ρ.round)
    (hresults : ρ'.results s = ρ.results s ++ [(ρ.sys.node s).current])
    (hkeep : ∀ t, t ≠ s → ρ'.results t = ρ.results t) (hrec : ρ'.recorded = ρ.recorded)
    (hidle : (ρ'.sys.node s).snapshotting = false)
    (hother : ∀ t, t ≠ s → ρ'.sys.node t = ρ.sys.node t) : NotesInv ρ' where
  current := by
    intro t ht
    have hts : t ≠ s := by rintro rfl; rw [hidle] at ht; exact absurd ht (by simp)
    rw [hother t hts] at ht ⊢
    rw [hrec, hround]; exact h.current ht
  blank := by
    intro t k hk hne
    rw [hrec]
    by_cases hts : t = s
    · subst hts
      rw [hresults, List.length_append, List.length_singleton] at hk
      exact h.blank (by omega) fun hc => by omega
    · rw [hkeep t hts] at hk
      rw [hother t hts, hround] at hne
      exact h.blank hk hne
  results := by
    intro t k r hr
    rw [hrec]
    by_cases hts : t = s
    · subst hts
      rw [hresults] at hr
      rcases Nat.lt_trichotomy k (ρ.results t).length with hlt | rfl | hgt
      · rw [List.getElem?_append_left hlt] at hr; exact h.results t k r hr
      · -- the result just returned
        rw [List.getElem?_concat_length] at hr
        rw [← Option.some.inj hr, h.current hrecording,
          show ρ.round - 1 = (ρ.results t).length by omega]
      · rw [List.getElem?_eq_none (by rw [List.length_append, List.length_singleton]; omega)] at hr
        exact absurd hr (by simp)
    · rw [hkeep t hts] at hr; exact h.results t k r hr

end Notes

/-! ## Every step -/

theorem Rounds.step_eq [AddCommGroup α] {ρ ρ' : Rounds n α} (h : ρ.step a = some (ρ', ev)) :
    ρ.sys.step a = some (ρ'.sys, ev) ∧ ρ'.round = ρ.round + initiations ev ∧
      ρ'.recorded = note ρ.recorded (ρ'.round - 1) (recording ρ.sys a) ∧
      ∀ s, ρ'.results s = ρ.results s ++ returnedBy s ev := by
  simp only [Rounds.step, Option.bind_eq_bind, Option.bind_eq_some_iff, Option.some.injEq,
    Prod.mk.injEq] at h
  obtain ⟨⟨σ, ev'⟩, hσ, rfl, rfl⟩ := h
  exact ⟨hσ, rfl, rfl, fun _ => rfl⟩

/-- A step that reports nothing leaves the count and the results. -/
theorem results_of_quiet {ρ ρ' : Rounds n α}
    (h : ∀ s, ρ'.results s = ρ.results s ++ returnedBy s []) : ρ'.results = ρ.results := by
  funext s
  rw [h s]; exact List.append_nil _

/-- A call that returns on `s` adds its result there, and nowhere else. -/
theorem returns_self {ρ ρ' : Rounds n α}
    (h : ∀ t, ρ'.results t = ρ.results t ++ returnedBy t [.returned s r]) :
    ρ'.results s = ρ.results s ++ [r] := by
  rw [h s]; simp [returnedBy]

theorem returns_ne {ρ ρ' : Rounds n α}
    (h : ∀ t, ρ'.results t = ρ.results t ++ returnedBy t [.returned s r]) {t : Fin n} (ht : t ≠ s) :
    ρ'.results t = ρ.results t := by
  rw [h t]; simp [returnedBy, Ne.symm ht]

theorem initiating_pos [AddCommGroup α] {σ σ' : System n α}
    (h : σ.step (.finishInitiate s) = some (σ', ev)) : 0 < σ.initiating s := by
  rw [System.step] at h
  split at h
  · rename_i hc; exact hc.1
  · exact absurd h (by simp)

theorem roundInv_firstMarker {ρ ρ' : Rounds n α} (h : RoundInv ρ)
    (hchan : ρ.sys.chan p s = .marker :: rest) (hfirst : (ρ.sys.node s).snapshotting = false)
    (hround : ρ'.round = ρ.round) (hresults : ρ'.results = ρ.results)
    (hsys : ρ'.sys = ((ρ.sys.setChan p s rest).setNode s
      (handleMarker s (ρ.sys.node s) p (ρ.sys.balance s)).1).broadcast s) : RoundInv ρ' := by
  obtain ⟨hps, hp, hunseen, hrest⟩ := h.head hchan
  have hnone : ∀ q, ¬ HasMarker ρ s q := by
    rintro q (hr | ⟨hs, -⟩)
    · exact not_returned hunseen hr
    · rw [hfirst] at hs; exact absurd hs (by simp)
  have hnode : ρ'.sys.node s = (handleMarker s (ρ.sys.node s) p (ρ.sys.balance s)).1 := by
    rw [hsys]; exact System.setNode_self ..
  rw [handleMarker_first hfirst] at hnode
  have hidle : ρ.sys.initiating s = 0 := by
    by_contra hne
    have hs := (h.initiator (Nat.pos_of_ne_zero hne)).1
    rw [hfirst] at hs; exact absurd hs (by simp)
  have hnew : ∀ a b, ρ'.sys.chan a b = if a = s ∧ b ≠ s then (ρ.sys.setChan p s rest).chan a b
      ++ [WireMsg.marker] else (ρ.sys.setChan p s rest).chan a b := by
    intro a b; rw [hsys, System.broadcast_chan]; rfl
  refine h.mark hps hp hunseen hround hresults (by rw [hsys]; rfl) ?_ ?_ ?_ ?_ ?_ ?_ ?_ ?_ ?_
  · intro t ht; rw [hsys]; exact System.setNode_ne _ _ ht
  · rw [hnode]
  · intro q
    rw [hnode]
    by_cases hq : q = p
    · subst hq; simp
    · simp [hq, hnone q]
  · rw [hnode]
    have hmark : awaited s (Function.update (fun _ => false) p true) + 1
        = awaited s fun _ => false := awaited_mark hps rfl
    rw [awaited_none] at hmark
    dsimp only
    omega
  · intro hpos; rw [hidle] at hpos; exact absurd hpos (Nat.lt_irrefl 0)
  · intro t
    rw [hnew, if_neg fun hc => hc.2 hc.1,
      System.setChan_ne _ _ fun hc => hps (hc.1.symm.trans hc.2)]
    exact h.selfChan t
  · rw [hnew, if_neg fun hc => hps hc.1, System.setChan_self]; exact hrest
  · intro q hq
    have hno : ¬ TookPart ρ s := by
      rintro (hs | hr)
      · rw [hfirst] at hs; exact absurd hs (by simp)
      · exact not_returned hunseen hr
    rw [hnew, if_pos ⟨rfl, hq⟩, System.setChan_ne _ _ fun hc => hq hc.2, markers_append,
      if_neg hno]
    rfl
  · intro a b ha hne
    rw [hnew, if_neg fun hc => ha hc.1, System.setChan_ne _ _ hne]

theorem roundInv_laterMarker {ρ ρ' : Rounds n α} (h : RoundInv ρ)
    (hchan : ρ.sys.chan p s = .marker :: rest) (hlater : (ρ.sys.node s).snapshotting = true)
    (hround : ρ'.round = ρ.round) (hresults : ρ'.results = ρ.results)
    (hsys : ρ'.sys = (ρ.sys.setChan p s rest).setNode s
      (handleMarker s (ρ.sys.node s) p (ρ.sys.balance s)).1) : RoundInv ρ' := by
  obtain ⟨hps, hp, hunseen, hrest⟩ := h.head hchan
  have hseen : (ρ.sys.node s).markerSeen p = false := by
    by_contra hne
    exact hunseen (Or.inr ⟨hlater, by simpa using hne⟩)
  have hbehind := not_returned hunseen
  have hnode : ρ'.sys.node s = (handleMarker s (ρ.sys.node s) p (ρ.sys.balance s)).1 := by
    rw [hsys]; exact System.setNode_self ..
  rw [handleMarker_later hlater hseen] at hnode
  have hmark := awaited_mark hps hseen
  have hout := h.outstanding hlater
  have hnew : ρ'.sys.chan = (ρ.sys.setChan p s rest).chan := by rw [hsys]; rfl
  refine h.mark hps hp hunseen hround hresults (by rw [hsys]; rfl) ?_ ?_ ?_ ?_ ?_ ?_ ?_ ?_ ?_
  · intro t ht; rw [hsys]; exact System.setNode_ne _ _ ht
  · rw [hnode]; exact hlater
  · intro q
    rw [hnode]
    by_cases hq : q = p
    · subst hq; simp
    · simp [hq, HasMarker, hbehind, hlater]
  · rw [hnode]
    dsimp only
    omega
  · intro hpos hready
    rw [hnode] at hready ⊢
    -- a flag set before would have this marker already
    rcases Bool.or_eq_true_iff.mp hready with hold | hzero
    · have := (h.initiator hpos).2 hold
      omega
    · have hzero' := of_decide_eq_true hzero
      show awaited s (Function.update (ρ.sys.node s).markerSeen p true) = 0
      omega
  · intro t
    rw [hnew, System.setChan_ne _ _ fun hc => hps (hc.1.symm.trans hc.2)]
    exact h.selfChan t
  · rw [hnew, System.setChan_self]; exact hrest
  · intro q hq
    have htook : TookPart ρ s := Or.inl hlater
    rw [hnew, System.setChan_ne _ _ fun hc => hq hc.2, if_pos htook, Nat.add_zero]
  · intro a b _ hne
    rw [hnew, System.setChan_ne _ _ hne]

theorem roundInv_step [AddCommGroup α] {ρ ρ' : Rounds n α} (h : RoundInv ρ) (hturn : InTurn ρ a)
    (hawait : AwaitsMarkers ρ a) (hstep : ρ.step a = some (ρ', ev)) : RoundInv ρ' := by
  obtain ⟨hσ, hround, -, hresults⟩ := Rounds.step_eq hstep
  have hhappens := happens_of_step hσ
  generalize hsys : ρ'.sys = σ' at hhappens
  cases hhappens with
  | transfer hne =>
      refine h.quiet hround (results_of_quiet hresults) (by rw [hsys]; rfl) ?_ ?_ ?_
      · intro t
        rw [hsys, System.setChan_ne _ _ fun hc => hne (hc.2.symm.trans hc.1)]
        exact h.selfChan t
      · intro p' q' _
        rw [hsys]
        exact markers_setChan _ (markers_append ..) p' q'
      · intro t; rw [hsys]; exact ⟨rfl, rfl, rfl, rfl⟩
  | take hidle hchan =>
      rename_i s p amount rest
      have hps : p ≠ s := by
        rintro rfl; rw [h.selfChan] at hchan; exact absurd hchan (by simp)
      refine h.quiet hround (results_of_quiet hresults) (by rw [hsys]; rfl) ?_ ?_ ?_
      · intro t
        rw [hsys]
        show (ρ.sys.setChan p s rest).chan t t = []
        rw [System.setChan_ne _ _ fun hc => hps (hc.1.symm.trans hc.2)]
        exact h.selfChan t
      · intro p' q' _
        rw [hsys]
        exact markers_setChan ρ.sys (by rw [hchan, markers_cons_transfer]) p' q'
      · intro t
        rw [hsys]
        show SameMarks _ (((ρ.sys.setChan p s rest).setNode s _).node t)
        by_cases hts : t = s
        · subst hts; rw [System.setNode_self]; exact handleTransfer_marks ..
        · rw [System.setNode_ne _ _ hts]; exact ⟨rfl, rfl, rfl, rfl⟩
  | firstMarker hidle hchan hfirst =>
      exact roundInv_firstMarker h hchan hfirst hround (results_of_quiet hresults) hsys
  | laterMarker hidle hchan hlater =>
      exact roundInv_laterMarker h hchan hlater hround (results_of_quiet hresults) hsys
  | apply hpend =>
      refine h.quiet hround (results_of_quiet hresults) (by rw [hsys]; rfl) ?_ ?_ ?_
      · intro t; rw [hsys]; exact h.selfChan t
      · intro p' q' _; rw [hsys]; rfl
      · intro t; rw [hsys]; exact ⟨rfl, rfl, rfl, rfl⟩
  | initiate =>
      refine h.start hturn hround ?_ hsys
      funext t
      rw [hresults t]; exact List.append_nil _
  | finishInitiate hready =>
      rename_i s
      have hpos := initiating_pos hσ
      obtain ⟨hsnap, hdone⟩ := h.initiator hpos
      have hone := h.single s
      refine h.finish hsnap (hdone hready) hround (returns_self hresults)
        (fun t ht => returns_ne hresults ht) (by rw [hsys]; rfl) ?_ ?_ ?_ ?_
      · rw [hsys]
        show ((ρ.sys.setNode s _).node s).snapshotting = false
        rw [System.setNode_self]; rfl
      · intro t ht; rw [hsys]; exact System.setNode_ne _ _ ht
      · rw [hsys]
        show Function.update ρ.sys.initiating s _ s = 0
        rw [Function.update_self]; omega
      · intro t ht; rw [hsys]; exact Function.update_of_ne ht ..
  | finishPassive hready =>
      rename_i s
      have hdone : awaited s (ρ.sys.node s).markerSeen = 0 := by
        have hout := h.outstanding hawait.1
        rw [hawait.2] at hout
        omega
      refine h.finish hawait.1 hdone hround (returns_self hresults)
        (fun t ht => returns_ne hresults ht) (by rw [hsys]; rfl) ?_ ?_ ?_ ?_
      · rw [hsys]
        show ((ρ.sys.setNode s _).node s).snapshotting = false
        rw [System.setNode_self]; rfl
      · intro t ht; rw [hsys]; exact System.setNode_ne _ _ ht
      · rw [hsys]; exact hturn
      · intro t ht; rw [hsys]; rfl

theorem notesInv_step [AddCommGroup α] {ρ ρ' : Rounds n α} (h : RoundInv ρ) (hnotes : NotesInv ρ)
    (hturn : InTurn ρ a) (hawait : AwaitsMarkers ρ a) (hstep : ρ.step a = some (ρ', ev)) :
    NotesInv ρ' := by
  obtain ⟨hσ, hround, hrec, hresults⟩ := Rounds.step_eq hstep
  have hhappens := happens_of_step hσ
  generalize hsys : ρ'.sys = σ' at hhappens
  cases hhappens with
  | transfer hne =>
      exact hnotes.quiet hround (results_of_quiet hresults) hrec (fun t => by rw [hsys]; rfl)
        fun t => by rw [hsys]; rfl
  | take hidle hchan =>
      rename_i s p amount rest
      have hself : ρ'.sys.node s = handleTransfer (ρ.sys.node s) p amount := by
        rw [hsys]; exact System.setNode_self ..
      have hother : ∀ t, t ≠ s → ρ'.sys.node t = ρ.sys.node t := by
        intro t ht; rw [hsys]; exact System.setNode_ne _ _ ht
      have hsnap : ∀ t, (ρ'.sys.node t).snapshotting = (ρ.sys.node t).snapshotting := by
        intro t
        by_cases hts : t = s
        · subst hts; rw [hself]; exact (handleTransfer_marks ..).snapshotting
        · rw [hother t hts]
      rw [recording, hchan] at hrec
      dsimp only at hrec
      by_cases hwrite : ((ρ.sys.node s).snapshotting && !(ρ.sys.node s).markerSeen p) = true
      · -- the message is written down
        have hon : (ρ.sys.node s).snapshotting = true := (Bool.and_eq_true_iff.mp hwrite).1
        rw [if_pos hwrite] at hrec
        refine hnotes.message hon (h.lag s (h.not_returned_of_recording hon)) hround
          (results_of_quiet hresults) hrec hsnap ?_ fun t ht => by rw [hother t ht]
        rw [hself, handleTransfer, if_pos hwrite]
        rfl
      · rw [if_neg hwrite] at hrec
        refine hnotes.quiet hround (results_of_quiet hresults) hrec hsnap fun t => ?_
        by_cases hts : t = s
        · subst hts; rw [hself, handleTransfer, if_neg hwrite]
        · rw [hother t hts]
  | firstMarker hidle hchan hfirst =>
      rename_i s p rest
      obtain ⟨-, -, hunseen, -⟩ := h.head hchan
      have hself : ρ'.sys.node s = (handleMarker s (ρ.sys.node s) p (ρ.sys.balance s)).1 := by
        rw [hsys]; exact System.setNode_self ..
      rw [handleMarker_first hfirst] at hself
      rw [recording, hchan] at hrec
      dsimp only at hrec
      rw [if_pos hfirst] at hrec
      refine hnotes.join hfirst ?_ (fun _ _ => hround) (results_of_quiet hresults) hrec
        (by rw [hself]) (by rw [hself]) fun t ht => by rw [hsys]; exact System.setNode_ne _ _ ht
      rw [hround]; exact h.lag s (not_returned hunseen)
  | laterMarker hidle hchan hlater =>
      rename_i s p rest
      obtain ⟨-, -, hunseen, -⟩ := h.head hchan
      have hseen : (ρ.sys.node s).markerSeen p = false := by
        by_contra hne
        exact hunseen (Or.inr ⟨hlater, by simpa using hne⟩)
      have hself : ρ'.sys.node s = (handleMarker s (ρ.sys.node s) p (ρ.sys.balance s)).1 := by
        rw [hsys]; exact System.setNode_self ..
      rw [handleMarker_later hlater hseen] at hself
      have hother : ∀ t, t ≠ s → ρ'.sys.node t = ρ.sys.node t := by
        intro t ht; rw [hsys]; exact System.setNode_ne _ _ ht
      rw [recording, hchan] at hrec
      dsimp only at hrec
      rw [if_neg (by rw [hlater]; simp)] at hrec
      refine hnotes.quiet hround (results_of_quiet hresults) hrec (fun t => ?_) fun t => ?_
      · by_cases hts : t = s
        · subst hts; rw [hself]
        · rw [hother t hts]
      · by_cases hts : t = s
        · subst hts; rw [hself]
        · rw [hother t hts]
  | apply hpend =>
      exact hnotes.quiet hround (results_of_quiet hresults) hrec (fun t => by rw [hsys]; rfl)
        fun t => by rw [hsys]; rfl
  | initiate =>
      rename_i s
      have hself : ρ'.sys.node s = initiateSnapshot s (ρ.sys.balance s) := by
        rw [hsys]; exact System.setNode_self ..
      have hkeep : ρ'.results = ρ.results := by
        funext t; rw [hresults t]; exact List.append_nil _
      refine hnotes.join (h.idle (hturn s)) ?_ ?_ hkeep hrec (by rw [hself]; rfl)
        (by rw [hself]; rfl) fun t ht => by rw [hsys]; exact System.setNode_ne _ _ ht
      · have hlen : (ρ.results s).length = ρ.round := hturn s
        rw [hround, hlen]; rfl
      · -- nobody is recording between two snapshots
        intro t ht
        rw [h.idle (hturn t)] at ht
        exact absurd ht (by simp)
  | finishInitiate hready =>
      rename_i s
      have hsnap := (h.initiator (initiating_pos hσ)).1
      refine hnotes.finish hsnap (h.lag s (h.not_returned_of_recording hsnap)) hround
        (returns_self hresults) (fun t ht => returns_ne hresults ht) hrec ?_ ?_
      · rw [hsys]
        show ((ρ.sys.setNode s _).node s).snapshotting = false
        rw [System.setNode_self]; rfl
      · intro t ht; rw [hsys]; exact System.setNode_ne _ _ ht
  | finishPassive hready =>
      rename_i s
      refine hnotes.finish hawait.1 (h.lag s (h.not_returned_of_recording hawait.1)) hround
        (returns_self hresults) (fun t ht => returns_ne hresults ht) hrec ?_ ?_
      · rw [hsys]
        show ((ρ.sys.setNode s _).node s).snapshotting = false
        rw [System.setNode_self]; rfl
      · intro t ht; rw [hsys]; exact System.setNode_ne _ _ ht

/-! ## Results -/

/-- In every run in which `waitForPassiveSnapshot` returns only with every marker in, each
call returns what its node recorded during the snapshot the call is for. -/
theorem results_recorded [AddCommGroup α] {bal : Fin n → α} {es : List (Event n α)}
    {ρ : Rounds n α}
    (hrun : Run Rounds.step (fun ρ a => InTurn ρ a ∧ AwaitsMarkers ρ a) (initRounds bal) es ρ) :
    ResultsRecorded ρ := by
  have hinv : RoundInv ρ ∧ NotesInv ρ := by
    refine hrun.invariant (I := fun _ ρ => RoundInv ρ ∧ NotesInv ρ)
      ⟨roundInv_init bal, notesInv_init bal⟩ ?_
    intro es ev ρ ρ' a hinv hok hstep
    exact ⟨roundInv_step hinv.1 hok.1 hok.2 hstep,
      notesInv_step hinv.1 hinv.2 hok.1 hok.2 hstep⟩
  exact hinv.2.results

/-- Node 0 initiates a snapshot and then node 1 does; in between 7 goes from 0 to 1. Node 0
has the marker of the second one when it asks for its result. -/
def twoInitiators : List (Action 2 Int) :=
  [.initiateSnapshot 0, .recv 1 0, .recv 0 1, .finishInitiate 0, .finishPassive 1,
    .transfer 0 1 7, .initiateSnapshot 1, .recv 1 0, .onTransfer 1 0, .recv 0 1, .recv 1 0,
    .finishInitiate 1, .finishPassive 0]

/-- What node 1 returns for the second one: the transfer was on its way. -/
def secondResult : SnapshotResult 2 Int :=
  { localState := 100, channelMessages := Function.update (fun _ => []) 0 [7] }

theorem results_recorded_two : ∃ (ρ : Rounds 2 Int) (es : List (Event 2 Int)),
    Run Rounds.step (fun ρ a => InTurn ρ a ∧ AwaitsMarkers ρ a) (initRounds fun _ => (100 : Int))
      es ρ ∧
    (ρ.results 0).map SnapshotResult.localState = [100, 93] ∧
    (ρ.results 1)[1]? = some secondResult ∧
    ResultsRecorded ρ := by
  have hleads : Leads Rounds.step (fun (ρ : Rounds 2 Int) a => InTurn ρ a ∧ AwaitsMarkers ρ a)
      (initRounds fun _ => (100 : Int)) twoInitiators fun ρ _ =>
        (ρ.results 0).map SnapshotResult.localState = [100, 93] ∧
        (ρ.results 1)[1]? = some secondResult := by
    decide +kernel
  obtain ⟨ρ, es, hrun, h₀, h₁⟩ := hleads.run
  exact ⟨ρ, es, hrun, h₀, h₁, results_recorded hrun⟩

/-- The same, but node 0 asks for its result before the second marker is there. -/
def staleSchedule : List (Action 2 Int) :=
  [.initiateSnapshot 0, .recv 1 0, .recv 0 1, .finishInitiate 0, .finishPassive 1,
    .transfer 0 1 7, .initiateSnapshot 1, .finishPassive 0, .recv 0 1]

/-- A node that initiated the last snapshot returns its old result again. -/
theorem result_stale : ¬ ∀ (bal : Fin 2 → Int) (es : List (Event 2 Int)) (ρ : Rounds 2 Int),
    Run Rounds.step InTurn (initRounds bal) es ρ → ResultsRecorded ρ := by
  intro hclaim
  have hleads : Leads Rounds.step InTurn (initRounds fun _ => (100 : Int)) staleSchedule
      fun ρ _ => ((ρ.results 0)[1]?).map SnapshotResult.localState = some 100 ∧
        (ρ.recorded 0 1).localState = 93 := by
    decide +kernel
  obtain ⟨ρ, es, hrun, hres, hrec⟩ := hleads.run
  obtain ⟨r, hr, hstate⟩ := Option.map_eq_some_iff.mp hres
  rw [hclaim _ es ρ hrun 0 1 r hr, hrec] at hstate
  exact absurd hstate (by decide)

end CrossMachine.Snapshot
