import CrossMachine.Lib.Instances
import CrossMachine.Queue.Mpmc

/-!
# What a refusal says

`push` and `pop` return false after one look at one slot. What they conclude from it is about
all slots. A producer that has won a position and rests holds back the `pop` that is next,
whatever has been pushed behind it; a consumer that rests, or such a producer, holds back the
`push` that comes around to its slot, however many slots are free behind it.

So the answer is right where nobody rests (`Settled`): where the look that leads to a refusal
does not meet a position that is won and not finished. `empty_iff` and `full_iff` say that of
the moment of the look this is all there is to it.
-/

namespace CrossMachine.Queue.Mpmc

open Lib Event

variable {τ α : Type*}

/-- Every item whose `push` had completed has been taken. -/
def Drained (es : List (Event α)) : Prop := ∀ p v, pushed p v ∈ es → taken p ∈ es

/-- The items whose `push` had completed and that nobody had taken. -/
def waiting (es : List (Event α)) : Set Nat := {p | (∃ v, pushed p v ∈ es) ∧ taken p ∉ es}

section Claim

variable [DecidableEq τ]

/-- Where `pop` returns false, there was an instant of the call at which nothing was there. The
call begins at `s₁` and is not over before `s₃`. -/
def EmptyReports (N : Nat) (ok : State τ α → Action τ α → Prop) : Prop :=
  ∀ t es₀ s₀ s₁ es₁ s₂ s₃ weak, Run (step N) ok init es₀ s₀ →
    step N s₀ (.pop t) = some (s₁, []) →
    Run (step N) (fun s a => ok s a ∧ s.pc t ≠ .idle) s₁ es₁ s₂ → ok s₂ (.run t weak) →
    step N s₂ (.run t weak) = some (s₃, [.empty]) →
    ∃ es, es <+: es₁ ∧ Drained (es₀ ++ es)

/-- Where `push` returns false, there was an instant of the call at which `N` items were there. -/
def FullReports (N : Nat) (ok : State τ α → Action τ α → Prop) : Prop :=
  ∀ t v es₀ s₀ s₁ es₁ s₂ s₃ weak, Run (step N) ok init es₀ s₀ →
    step N s₀ (.push t v) = some (s₁, []) →
    Run (step N) (fun s a => ok s a ∧ s.pc t ≠ .idle) s₁ es₁ s₂ → ok s₂ (.run t weak) →
    step N s₂ (.run t weak) = some (s₃, [.full]) →
    ∃ es, es <+: es₁ ∧ (waiting (es₀ ++ es)).ncard = N

end Claim

/-- No look that leads to a refusal meets a position that is won and not finished: that of
`pop` no unfinished `push` with a finished one behind it, that of `push` no unfinished `push`,
and no unfinished `pop` in the slot it looks at. -/
def Settled (N : Nat) (s : State τ α) : Action τ α → Prop
  | .run t _ =>
      match s.pc t with
      | .popSeq pos => s.seq N pos < pos + 1 →
          (∀ u, (s.pc u).pushing ≠ some pos) ∨ ∀ p, pos < p → s.seq N p ≠ p + 1
      | .pushSeq _ pos => s.seq N pos < pos →
          (∀ u p, (s.pc u).pushing = some p → pos ≤ p) ∧ ∀ u, (s.pc u).popping ≠ some (pos - N)
      | _ => True
  | _ => True

/-! ## Positions that are not finished -/

/-- The position whose slot a producer looks at. -/
@[simp] def Pc.pushLooks : Pc α → Option Nat
  | .pushSeq _ pos => some pos
  | _ => none

/-- The position whose slot a consumer looks at. -/
@[simp] def Pc.popLooks : Pc α → Option Nat
  | .popSeq pos => some pos
  | _ => none

/-- Of every position that was won: where it is not finished, somebody is at it. -/
structure Progress (N : Nat) (es : List (Event α)) (s : State τ α) : Prop where
  pushLooks : ∀ t p, (s.pc t).pushLooks = some p → p ≤ s.tail
  popLooks : ∀ t p, (s.pc t).popLooks = some p → p ≤ s.head
  claimed : ∀ p, p < s.tail → s.seq N p = p → ∃ t, (s.pc t).pushing = some p
  passed : ∀ p, p < s.head → s.seq N p ≠ p
  kept : ∀ p, p < s.head → s.seq N p = p + 1 → ∃ t, (s.pc t).popping = some p
  pushed : ∀ p v, pushed p v ∈ es → p < s.tail ∧ s.seq N p ≠ p
  read : ∀ p v, Event.read p v ∈ es → p < s.head

theorem progress_init (N : Nat) : Progress N [] (init : State τ α) := by
  constructor <;> simp [init]

section Steps

variable [DecidableEq τ] {N : Nat} {s s' : State τ α} {t : τ} {es ev : List (Event α)}
  {a : Action τ α}

theorem Steps.le (h : Steps N s t s' ev) : s.tail ≤ s'.tail ∧ s.head ≤ s'.head := by
  cases h with
  | claim _ hp => exact ⟨by simp [hp], Nat.le_refl _⟩
  | take _ hp => exact ⟨Nat.le_refl _, by simp [hp]⟩
  | turn | write | publish | read | release => exact ⟨Nat.le_refl _, Nat.le_refl _⟩

theorem Steps.other (h : Steps N s t s' ev) {u : τ} (hu : u ≠ t) : s'.pc u = s.pc u := by
  cases h with
  | turn => exact goto_other _ t _ hu
  | claim => exact goto_other s t _ hu
  | write => exact goto_other _ t _ hu
  | publish => exact goto_other _ t _ hu
  | take => exact goto_other s t _ hu
  | read => exact goto_other _ t _ hu
  | release => exact goto_other _ t _ hu

/-- Where a thread goes to when it goes on by itself. -/
theorem goto_looks {pc : Pc α} {u : τ}
    (hpush : ∀ p, pc.pushLooks = some p → p = s.tail)
    (hpop : ∀ p, pc.popLooks = some p → p = s.head) :
    (∀ p, ((s.goto t pc).pc u).pushLooks = some p → p = s.tail ∨ (s.pc u).pushLooks = some p) ∧
      ∀ p, ((s.goto t pc).pc u).popLooks = some p → p = s.head ∨ (s.pc u).popLooks = some p := by
  by_cases hu : u = t
  · rw [hu, goto_self]
    exact ⟨fun p hp => .inl (hpush p hp), fun p hp => .inl (hpop p hp)⟩
  · rw [goto_other s t pc hu]
    exact ⟨fun p hp => .inr hp, fun p hp => .inr hp⟩

/-- A thread looks at the position that it has just read. -/
theorem step_looks (h : step N s a = some (s', ev)) {u : τ} :
    (∀ p, (s'.pc u).pushLooks = some p → p = s.tail ∨ (s.pc u).pushLooks = some p) ∧
      ∀ p, (s'.pc u).popLooks = some p → p = s.head ∨ (s.pc u).popLooks = some p := by
  cases a with
  | push t val =>
      cases hpc : s.pc t <;> simp only [step, hpc, Option.some.injEq, Prod.mk.injEq] at h
      case idle =>
        obtain ⟨rfl, rfl⟩ := h
        exact goto_looks (by simp) (by simp)
      all_goals cases h
  | pop t =>
      cases hpc : s.pc t <;> simp only [step, hpc, Option.some.injEq, Prod.mk.injEq] at h
      case idle =>
        obtain ⟨rfl, rfl⟩ := h
        exact goto_looks (by simp) (by simp)
      all_goals cases h
  | run t weak =>
      simp only [step] at h
      cases hpc : s.pc t <;> simp only [go, hpc, Option.some.injEq, Prod.mk.injEq] at h
      case idle => cases h
      case pushSeq | popSeq =>
        split at h
        · obtain ⟨rfl, rfl⟩ := Prod.mk.inj (Option.some.inj h)
          exact goto_looks (by simp) (by simp)
        · split at h
          all_goals
            obtain ⟨rfl, rfl⟩ := Prod.mk.inj (Option.some.inj h)
            exact goto_looks (by simp) (by simp)
      case pushCas | popCas =>
        split at h
        all_goals
          obtain ⟨rfl, rfl⟩ := Prod.mk.inj (Option.some.inj h)
          exact goto_looks (by simp [eq_comm]) (by simp [eq_comm])
      all_goals
        obtain ⟨rfl, rfl⟩ := h
        exact goto_looks (by simp [eq_comm]) (by simp [eq_comm])

/-- Where the slot of a position that somebody has finished was. -/
theorem not_waiting_step (hN : Admits N) (hP : Phases N s) (h : Steps N s t s' ev) {p : Nat}
    (hlt : p < s.tail) (hp : s.seq N p ≠ p) : s'.seq N p ≠ p := by
  cases h with
  | turn | claim | take | read => exact hp
  | write => rwa [goto_seq, seq_setData]
  | publish =>
      rw [goto_seq, seq_setSeq]
      split
      · rename_i hslot
        exact fun heq => ne_succ hN hslot heq.symm
      · exact hp
  | @release q v hpc =>
      rw [goto_seq, seq_setSeq]
      split
      · -- nobody has won the position of the next lap
        have := (hP.present hN (hP.popping t q (by simp [hpc])).1).2
        omega
      · exact hp

/-- Whoever was at a position still is, but for the thread that moves. -/
theorem Steps.still_at (h : Steps N s t s' ev) {position : Pc α → Option Nat} {p : Nat}
    (hold : ∃ u, position (s.pc u) = some p)
    (hmine : position (s.pc t) = some p → position (s'.pc t) = some p) :
    ∃ u, position (s'.pc u) = some p := by
  obtain ⟨u, hu⟩ := hold
  by_cases hut : u = t
  · exact ⟨t, hmine (hut ▸ hu)⟩
  · exact ⟨u, (congrArg position (h.other hut)).trans hu⟩

/-- Of a position that is won and whose slot still waits, the producer is at it. -/
theorem claimed_step (hN : Admits N) (hP : Phases N s) (hG : Progress N es s)
    (h : Steps N s t s' ev) {p : Nat} (hlt : p < s'.tail) (hp : s'.seq N p = p) :
    ∃ u, (s'.pc u).pushing = some p := by
  have hkeep : p < s.tail → s.seq N p = p → ((s.pc t).pushing = some p →
      (s'.pc t).pushing = some p) → ∃ u, (s'.pc u).pushing = some p :=
    fun hlt hseq => h.still_at (hG.claimed p hlt hseq)
  cases h with
  | turn hpush => exact hkeep hlt hp fun hmine => by rw [hpush] at hmine; cases hmine
  | @claim v q hpc hq =>
      rcases Nat.lt_succ_iff_lt_or_eq.mp hlt with hlt | rfl
      · exact hkeep (hq ▸ hlt) hp (by simp [hpc])
      · exact ⟨t, by simp [goto_self]⟩
  | write hpc =>
      rw [goto_seq, seq_setData] at hp
      exact hkeep hlt hp (by simp [hpc])
  | publish hpc =>
      rw [goto_seq, seq_setSeq] at hp
      split at hp
      · rename_i hslot
        exact absurd hp.symm (ne_succ hN hslot)
      · rename_i hslot
        refine hkeep hlt hp fun hmine => ?_
        simp only [hpc, Pc.pushing, Option.some.injEq] at hmine
        exact absurd (hmine ▸ rfl) hslot
  | take hpc => exact hkeep hlt hp (by simp [hpc])
  | read hpc => exact hkeep hlt hp (by simp [hpc])
  | @release q v hpc =>
      have := (hP.present hN (hP.popping t q (by simp [hpc])).1).2
      rw [goto_seq, seq_setSeq] at hp
      split at hp
      · have : p < s.tail := hlt
        omega
      · exact hkeep hlt hp (by simp [hpc])

/-- Of a position that is taken and whose value is still there, the consumer is at it. -/
theorem kept_step (hN : Admits N) (hP : Phases N s) (hG : Progress N es s)
    (h : Steps N s t s' ev) {p : Nat} (hlt : p < s'.head) (hp : s'.seq N p = p + 1) :
    ∃ u, (s'.pc u).popping = some p := by
  have hkeep : p < s.head → s.seq N p = p + 1 → ((s.pc t).popping = some p →
      (s'.pc t).popping = some p) → ∃ u, (s'.pc u).popping = some p :=
    fun hlt hseq => h.still_at (hG.kept p hlt hseq)
  cases h with
  | turn _ hpop => exact hkeep hlt hp fun hmine => by rw [hpop] at hmine; cases hmine
  | claim hpc => exact hkeep hlt hp (by simp [hpc])
  | write hpc =>
      rw [goto_seq, seq_setData] at hp
      exact hkeep hlt hp (by simp [hpc])
  | @publish v q hpc =>
      rw [goto_seq, seq_setSeq] at hp
      split at hp
      · -- it has not been taken, since it was not there
        obtain rfl : q = p := by omega
        exact absurd (hP.pushing t q (by simp [hpc])).1 (hG.passed q hlt)
      · exact hkeep hlt hp (by simp [hpc])
  | @take q hpc hq =>
      rcases Nat.lt_succ_iff_lt_or_eq.mp hlt with hlt | rfl
      · exact hkeep (hq ▸ hlt) hp (by simp [hpc])
      · exact ⟨t, by simp [goto_self]⟩
  | read hpc => exact hkeep hlt hp (by simp [hpc])
  | @release q v hpc =>
      rw [goto_seq, seq_setSeq] at hp
      split at hp
      · rename_i hslot
        exact absurd hp (ne_succ hN ((slot_add hN).trans hslot.symm))
      · rename_i hslot
        refine hkeep hlt hp fun hmine => ?_
        simp only [hpc, Pc.popping, Option.some.injEq] at hmine
        exact absurd (hmine ▸ rfl) hslot

theorem progress_step (hN : Admits N) (hP : Phases N s) (hG : Progress N es s)
    (hs : step N s a = some (s', ev)) (h : Steps N s t s' ev) : Progress N (es ++ ev) s' := by
  obtain ⟨htail, hhead⟩ := h.le
  constructor
  case pushLooks =>
      intro u p hp
      rcases (step_looks hs).1 p hp with rfl | hp
      · exact htail
      · exact (hG.pushLooks u p hp).trans htail
  case popLooks =>
      intro u p hp
      rcases (step_looks hs).2 p hp with rfl | hp
      · exact hhead
      · exact (hG.popLooks u p hp).trans hhead
  case claimed => exact fun p hlt hp => claimed_step hN hP hG h hlt hp
  case kept => exact fun p hlt hp => kept_step hN hP hG h hlt hp
  case passed =>
      intro p hlt
      by_cases hold : p < s.head
      · exact not_waiting_step hN hP h (hold.trans_le hP.le) (hG.passed p hold)
      · -- it has just been taken, so it was there
        cases h with
        | @take q hpc hq =>
            have hlt : p < q + 1 := hlt
            obtain rfl : q = p := by omega
            have hseq : s.seq N q = q + 1 := (hP.ready t q hpc).resolve_right hold
            rw [show ({ s.goto t (.popRead q) with head := q + 1 } : State τ α).seq N q =
              s.seq N q from rfl, hseq]
            omega
        | turn | claim | write | publish | read | release => exact absurd hlt hold
  case pushed =>
      intro p v hp
      rcases List.mem_append.mp hp with hp | hp
      · obtain ⟨hlt, hne⟩ := hG.pushed p v hp
        exact ⟨hlt.trans_le htail, not_waiting_step hN hP h hlt hne⟩
      · cases h with
        | turn _ _ _ _ _ _ hev => rcases hev with rfl | rfl | rfl <;> simp at hp
        | @publish w q hpc =>
            simp only [List.mem_singleton, Event.pushed.injEq] at hp
            obtain ⟨rfl, rfl⟩ := hp
            refine ⟨(hP.pushing t p (by simp [hpc])).2, ?_⟩
            rw [goto_seq, seq_setSeq, if_pos rfl]
            omega
        | claim | write | take | read | release => simp at hp
  case read =>
      intro p v hp
      rcases List.mem_append.mp hp with hp | hp
      · exact (hG.read p v hp).trans_le hhead
      · cases h with
        | turn _ _ _ _ _ _ hev => rcases hev with rfl | rfl | rfl <;> simp at hp
        | @read q hpc =>
            simp only [List.mem_singleton, Event.read.injEq] at hp
            rw [hp.1]
            exact (hP.popping t q (by simp [hpc])).2
        | claim | write | publish | take | release => simp at hp

end Steps

/-! ## A look that leads to a refusal -/

section Looks

variable {N : Nat} {s : State τ α} {es : List (Event α)} {pos : Nat}

theorem mem_taken_iff (hI : Inv N es s) {p : Nat} : taken p ∈ es ↔ p < s.head := by
  constructor
  · intro hp
    have hmem : p ∈ es.filterMap Event.take := List.mem_filterMap.mpr ⟨_, hp, rfl⟩
    rwa [hI.ordered.takes, List.mem_range] at hmem
  · exact hI.taken

/-- A position that was won and not taken is the one that its slot is at. -/
theorem Phases.seq_cases (hN : Admits N) (hP : Phases N s) {p : Nat} (hge : s.head ≤ p)
    (hlt : p < s.tail) (hlap : s.tail ≤ p + N) : s.seq N p = p ∨ s.seq N p = p + 1 := by
  obtain ⟨q, hslot, hle, hq⟩ := hP.phase p
  rcases Nat.lt_trichotomy q p with h | rfl | h
  · have := lap_le hN hslot.symm h
    omega
  · exact hq.imp And.left And.left
  · have := lap_le hN hslot h
    omega

/-- What `pop` sees when it returns false: nobody has stored the next position. -/
theorem Inv.empty_look (hN : Admits N) (hI : Inv N es s) (hG : Progress N es s)
    (hle : pos ≤ s.head) (hlook : s.seq N pos < pos + 1) :
    s.head = pos ∧ s.tail ≤ pos + N ∧ (s.tail = pos ∨ s.seq N pos = pos) := by
  have htail := hI.phases.le
  obtain ⟨q, hslot, hlap, hq⟩ := hI.phases.phase pos
  rcases Nat.lt_trichotomy q pos with h | rfl | h
  · -- nobody has won it
    have := lap_le hN hslot.symm h
    exact ⟨by omega, by omega, .inl (by omega)⟩
  · have hseq : s.seq N q = q := by omega
    refine ⟨?_, hlap, .inr hseq⟩
    by_contra hne
    exact hG.passed q (by omega) hseq
  · omega

/-- **When `pop` is right** at the moment of its look. -/
theorem empty_iff (hN : Admits N) (hI : Inv N es s) (hG : Progress N es s)
    (hle : pos ≤ s.head) (hlook : s.seq N pos < pos + 1) :
    Drained es ↔
      (∀ u, (s.pc u).pushing ≠ some pos) ∨ ∀ p, pos < p → s.seq N p ≠ p + 1 := by
  obtain ⟨rfl, hlap, hseq⟩ := hI.empty_look hN hG hle hlook
  constructor
  · intro hdrained
    right
    intro p hlt hp
    obtain ⟨v, -, hpushed⟩ := hI.values.there p hp
    have := (mem_taken_iff hI).mp (hdrained p v hpushed)
    omega
  · intro hor p v hp
    obtain ⟨hlt, hne⟩ := hG.pushed p v hp
    refine (mem_taken_iff hI).mpr ?_
    by_contra hge
    have hseq := hseq.resolve_left (by omega)
    have hpos : s.head ≠ p := by
      rintro rfl
      exact hne hseq
    rcases hor with hnone | hnone
    · -- the next position was won before this one
      obtain ⟨u, hu⟩ := hG.claimed s.head (by omega) hseq
      exact hnone u hu
    · rcases hI.phases.seq_cases hN (by omega) hlt (by omega) with h | h
      · exact hne h
      · exact hnone p (by omega) h

/-- What `push` sees when it returns false: the position a lap before is not free again. -/
theorem Inv.full_look (hN : Admits N) (hI : Inv N es s) (hle : pos ≤ s.tail)
    (hlook : s.seq N pos < pos) : ∃ q, pos = q + N ∧ s.tail = q + N ∧
      (s.seq N q = q ∨ s.seq N q = q + 1) := by
  obtain ⟨q, hslot, hlap, hq⟩ := hI.phases.phase pos
  have hlt : q < pos := by omega
  have hle' := lap_le hN hslot.symm hlt
  refine ⟨q, by omega, by omega, ?_⟩
  have hseq : s.seq N q = s.seq N pos := by rw [State.seq, hslot, State.seq]
  rw [hseq]
  exact hq.imp And.left And.left

/-- **When `push` is right** at the moment of its look. -/
theorem full_iff (hN : Admits N) (hI : Inv N es s) (hG : Progress N es s)
    (hle : pos ≤ s.tail) (hlook : s.seq N pos < pos) :
    (waiting es).ncard = N ↔
      (∀ u p, (s.pc u).pushing = some p → pos ≤ p) ∧
        ∀ u, (s.pc u).popping ≠ some (pos - N) := by
  obtain ⟨q, rfl, htail, hseq⟩ := hI.full_look hN hle hlook
  rw [Nat.add_sub_cancel]
  have hsub : waiting es ⊆ Set.Ico q (q + N) := by
    rintro p ⟨⟨v, hv⟩, hnot⟩
    refine ⟨?_, htail ▸ (hG.pushed p v hv).1⟩
    by_contra hlt
    obtain ⟨w, hw⟩ := hI.laps.claimed p (by omega)
    exact hnot (hI.taken (hG.read p w hw))
  have hcard : (Set.Ico q (q + N)).ncard = N := by
    rw [← Finset.coe_Ico, Set.ncard_coe_finset, Nat.card_Ico]
    omega
  have hiff : (waiting es).ncard = N ↔ waiting es = Set.Ico q (q + N) := by
    refine ⟨fun h => ?_, fun h => h ▸ hcard⟩
    exact Set.eq_of_subset_of_ncard_le hsub (by rw [h, hcard]) (Set.finite_Ico q (q + N))
  rw [hiff]
  constructor
  · intro hall
    have hfinished : ∀ p, q ≤ p → p < q + N → s.head ≤ p ∧ s.seq N p ≠ p := by
      intro p hge hlt
      obtain ⟨⟨v, hv⟩, hnot⟩ : p ∈ waiting es := hall ▸ ⟨hge, hlt⟩
      have hhead : ¬ p < s.head := fun h => hnot (hI.taken h)
      exact ⟨by omega, (hG.pushed p v hv).2⟩
    refine ⟨fun u p hu => ?_, fun u hu => ?_⟩
    · obtain ⟨hwait, hlt⟩ := hI.phases.pushing u p hu
      by_contra hlt'
      have hge := (hI.phases.waiting hN hwait).1
      exact (hfinished p (by omega) (by omega)).2 hwait
    · have hlt := (hI.phases.popping u q hu).2
      have := (hfinished q (Nat.le_refl q) (by have := hN.1; omega)).1
      omega
  · rintro ⟨hpush, hpop⟩
    refine hsub.antisymm fun p hp => ?_
    obtain ⟨hge, hlt⟩ := hp
    have hnone : ∀ p, q ≤ p → p < q + N → s.seq N p ≠ p := by
      intro p hge hlt hwait
      obtain ⟨u, hu⟩ := hG.claimed p (by omega) hwait
      have := hpush u p hu
      omega
    have hthere : s.seq N q = q + 1 :=
      hseq.resolve_left (hnone q (Nat.le_refl q) (by have := hN.1; omega))
    -- the first of them has not been taken, so none has
    have hhead : s.head ≤ q := by
      by_contra hlt'
      obtain ⟨u, hu⟩ := hG.kept q (by omega) hthere
      exact hpop u hu
    have hp := (hI.phases.seq_cases hN (by omega) (by omega) (by omega)).resolve_left
      (hnone p hge hlt)
    obtain ⟨v, -, hv⟩ := hI.values.there p hp
    exact ⟨⟨v, hv⟩, fun htaken => by have := (mem_taken_iff hI).mp htaken; omega⟩

end Looks

/-! ## Whole runs -/

section Runs

variable [DecidableEq τ] {N : Nat} {s s' : State τ α} {es : List (Event α)} {t : τ} {weak : Bool}

theorem run_progress (hN : Admits N) (h : Run (step N) Any init es s) :
    Inv N es s ∧ Progress N es s := by
  refine Run.invariant (I := fun es s => Inv N es s ∧ Progress N es s)
    ⟨inv_init hN, progress_init N⟩ ?_ h
  rintro es ev s s' a ⟨⟨hP, hO, hV, hL, hE⟩, hG⟩ _ hstep
  obtain ⟨t, ht⟩ := step_steps hstep
  exact ⟨⟨phases_step hN hP ht, ordered_step hO ht, values_step hN hP hV ht,
    laps_step hN hP hV hL ht, ends_step hP hV hE ht⟩, progress_step hN hP hG hstep ht⟩

/-- Where a refusal comes from. -/
theorem step_refuses {ev : List (Event α)} (h : step N s (.run t weak) = some (s', ev)) :
    (ev = [empty] → ∃ pos, s.pc t = .popSeq pos ∧ s.seq N pos < pos + 1) ∧
      (ev = [full] → ∃ val pos, s.pc t = .pushSeq val pos ∧ s.seq N pos < pos) := by
  simp only [step] at h
  cases hpc : s.pc t <;> simp only [go, hpc, Option.some.injEq, Prod.mk.injEq] at h
  case idle => cases h
  case pushSeq val pos =>
    split at h
    · obtain ⟨rfl, rfl⟩ := Prod.mk.inj (Option.some.inj h)
      simp
    · split at h
      · obtain ⟨rfl, rfl⟩ := Prod.mk.inj (Option.some.inj h)
        exact ⟨by simp, fun _ => ⟨val, pos, rfl, by omega⟩⟩
      · obtain ⟨rfl, rfl⟩ := Prod.mk.inj (Option.some.inj h)
        simp
  case popSeq pos =>
    split at h
    · obtain ⟨rfl, rfl⟩ := Prod.mk.inj (Option.some.inj h)
      simp
    · split at h
      · obtain ⟨rfl, rfl⟩ := Prod.mk.inj (Option.some.inj h)
        exact ⟨fun _ => ⟨pos, rfl, by omega⟩, by simp⟩
      · obtain ⟨rfl, rfl⟩ := Prod.mk.inj (Option.some.inj h)
        simp
  case pushCas | popCas =>
    split at h
    all_goals
      obtain ⟨rfl, rfl⟩ := Prod.mk.inj (Option.some.inj h)
      simp
  all_goals
    obtain ⟨rfl, rfl⟩ := h
    simp

/-- A call is a part of the run. -/
theorem run_call {ok ok' : State τ α → Action τ α → Prop} {es₀ es₁ : List (Event α)}
    {s₀ s₁ s₂ : State τ α} {a : Action τ α} (h₀ : Run (step N) ok init es₀ s₀)
    (hcall : step N s₀ a = some (s₁, [])) (h₁ : Run (step N) ok' s₁ es₁ s₂) :
    Run (step N) Any init (es₀ ++ es₁) s₂ := by
  have h := (h₀.any.tail trivial hcall).trans h₁.any
  rwa [List.append_nil] at h

/-- **Refusals are right where nobody rests.** -/
theorem mpmcQueue_reports (hN : Admits N) :
    EmptyReports N (Settled (τ := τ) (α := α) N) ∧ FullReports N (Settled (τ := τ) (α := α) N) := by
  constructor
  · intro t es₀ s₀ s₁ es₁ s₂ s₃ weak h₀ hcall h₁ hok hret
    obtain ⟨hI, hG⟩ := run_progress hN (run_call h₀ hcall h₁)
    obtain ⟨pos, hpc, hlook⟩ := (step_refuses hret).1 rfl
    simp only [Settled, hpc] at hok
    refine ⟨es₁, List.prefix_refl es₁, ?_⟩
    exact (empty_iff hN hI hG (hG.popLooks t pos (by simp [hpc])) hlook).mpr (hok hlook)
  · intro t v es₀ s₀ s₁ es₁ s₂ s₃ weak h₀ hcall h₁ hok hret
    obtain ⟨hI, hG⟩ := run_progress hN (run_call h₀ hcall h₁)
    obtain ⟨val, pos, hpc, hlook⟩ := (step_refuses hret).2 rfl
    simp only [Settled, hpc] at hok
    refine ⟨es₁, List.prefix_refl es₁, ?_⟩
    exact (full_iff hN hI hG (hG.pushLooks t pos (by simp [hpc])) hlook).mpr (hok hlook)

end Runs

theorem mpmcQueue_reports_two :
    EmptyReports 2 (Settled (τ := Fin 3) (α := Nat) 2) ∧
      FullReports 2 (Settled (τ := Fin 3) (α := Nat) 2) :=
  mpmcQueue_reports ⟨by decide, by decide⟩

/-- The call `a` of `t` takes two steps, and returns with event `e`. -/
def Refused (s₀ : State (Fin 3) Nat) (t : Fin 3) (a : Action (Fin 3) Nat) (e : Event Nat) :
    Prop :=
  (step 2 s₀ a).any (fun r₁ => decide (r₁.2 = [] ∧ Leads (step 2)
    (fun s a => Any s a ∧ s.pc t ≠ .idle) r₁.1 [.run t false] fun s₂ es₁ => es₁ = [] ∧
      (step 2 s₂ (.run t false)).any (fun r₃ => decide (r₃.2 = [e])) = true)) = true

instance (s₀ : State (Fin 3) Nat) (t : Fin 3) (a : Action (Fin 3) Nat) (e : Event Nat) :
    Decidable (Refused s₀ t a e) := inferInstanceAs (Decidable (_ = true))

theorem Refused.exists_run {s₀ : State (Fin 3) Nat} {t : Fin 3} {a : Action (Fin 3) Nat}
    {e : Event Nat} (h : Refused s₀ t a e) : ∃ s₁ s₂ s₃, step 2 s₀ a = some (s₁, []) ∧
      Run (step 2) (fun s a => Any s a ∧ s.pc t ≠ .idle) s₁ [] s₂ ∧
      step 2 s₂ (.run t false) = some (s₃, [e]) := by
  obtain ⟨⟨s₁, ev₁⟩, hcall, h⟩ := (Option.any_eq_true ..).mp h
  obtain ⟨rfl, hlead⟩ := of_decide_eq_true h
  obtain ⟨s₂, es₁, hrun, rfl, hret⟩ := hlead.run
  obtain ⟨⟨s₃, ev₃⟩, hret, h⟩ := (Option.any_eq_true ..).mp hret
  obtain rfl : ev₃ = [e] := of_decide_eq_true h
  exact ⟨s₁, s₂, s₃, hcall, hrun, hret⟩

/-- The first producer wins position 0 and rests. The second one pushes into position 1, and
then a consumer finds nothing. -/
def restingPush : List (Action (Fin 3) Nat) :=
  [Action.push 0 7] ++ List.replicate 3 (Action.run 0 false) ++
  [Action.push 1 8] ++ List.replicate 5 (Action.run 1 false)

/-- Two items are pushed. The first consumer wins position 0 and rests, the second one takes
position 1 and is done, and then a producer finds no place. -/
def restingPop : List (Action (Fin 3) Nat) :=
  [Action.push 0 7] ++ List.replicate 5 (Action.run 0 false) ++
  [Action.push 0 8] ++ List.replicate 5 (Action.run 0 false) ++
  [Action.pop 1] ++ List.replicate 3 (Action.run 1 false) ++
  [Action.pop 2] ++ List.replicate 5 (Action.run 2 false)

theorem mpmcQueue_refuses : ¬ EmptyReports 2 (Any (σ := State (Fin 3) Nat)) ∧
    ¬ FullReports 2 (Any (σ := State (Fin 3) Nat)) := by
  constructor
  · intro h
    have hlead : Leads (step 2) Any (init : State (Fin 3) Nat) restingPush fun s₀ es₀ =>
        es₀ = [claimed 0 7, claimed 1 8, wrote 1 8, pushed 1 8] ∧
          Refused s₀ 2 (.pop 2) empty := by
      decide +kernel
    obtain ⟨s₀, es₀, h₀, rfl, hrefused⟩ := hlead.run
    obtain ⟨s₁, s₂, s₃, hcall, h₁, hret⟩ := hrefused.exists_run
    obtain ⟨es, hes, hdrained⟩ := h 2 _ s₀ s₁ [] s₂ s₃ false h₀ hcall h₁ trivial hret
    rw [List.prefix_nil.mp hes] at hdrained
    exact absurd (hdrained 1 8 (by decide)) (by decide)
  · intro h
    have hlead : Leads (step 2) Any (init : State (Fin 3) Nat) restingPop fun s₀ es₀ =>
        es₀ = [claimed 0 7, wrote 0 7, pushed 0 7, claimed 1 8, wrote 1 8, pushed 1 8, taken 0,
          taken 1, .read 1 (some 8), popped 1 (some 8)] ∧ Refused s₀ 0 (.push 0 9) full := by
      decide +kernel
    obtain ⟨s₀, es₀, h₀, rfl, hrefused⟩ := hlead.run
    obtain ⟨s₁, s₂, s₃, hcall, h₁, hret⟩ := hrefused.exists_run
    obtain ⟨es, hes, hcard⟩ := h 0 9 _ s₀ s₁ [] s₂ s₃ false h₀ hcall h₁ trivial hret
    rw [List.prefix_nil.mp hes, List.append_nil, Set.ncard_eq_two] at hcard
    -- both of the items that were pushed are taken
    obtain ⟨p, p', -, heq⟩ := hcard
    have hmem : p ∈ ({p, p'} : Set Nat) := .inl rfl
    rw [← heq] at hmem
    obtain ⟨⟨v, hv⟩, hnot⟩ := hmem
    simp only [List.mem_cons, List.not_mem_nil, reduceCtorEq, Event.pushed.injEq, false_or,
      or_false] at hv
    rcases hv with ⟨rfl, -⟩ | ⟨rfl, -⟩
    all_goals exact hnot (by decide)

end CrossMachine.Queue.Mpmc
