import CrossMachine.Lib.Custody
import CrossMachine.Lib.Instances
import CrossMachine.Lib.Links
import CrossMachine.Lib.Run
import Mathlib.Algebra.Order.Ring.Int
import Mathlib.Data.List.Nodup

/-!
# The free list

`FreeList` of `freelist.h`: a stack of free slots, linked by index through `next_`, with the
top of the stack and a tag in one word. One atomic operation at a time.

`acquire` reads the top, reads the successor of the top, and exchanges the one for the other.
By the time of the exchange the slot may have been taken, used, given back and linked to
something else; the index at the top is then the same and the successor it read is not. The
tag is there to tell. It has 32 bits, so it tells if fewer than `2 ^ 32` exchanges happened
in between, which is what runs are assumed to satisfy here (`Fresh`). For that the state
counts the successful exchanges, and every thread remembers how many there were when it read
the top.
-/

namespace CrossMachine.Alloc

open Lib

variable {τ : Type*}

/-- Values of the tag. -/
def kTags : Nat := 2 ^ 32

def kNone : Nat := 2 ^ 32 - 1

structure Head where
  idx : Nat
  tag : Nat
  deriving DecidableEq, Repr

/-- What a thread does next. `seen` is the number of exchanges there had been when it read
`head_`. -/
inductive Pc where
  | idle
  /-- Before the load of `head_`. -/
  | acquireLoad
  /-- Before the load of the successor. -/
  | acquireNext (old : Head) (seen : Nat)
  /-- Before the exchange. -/
  | acquireCas (old : Head) (nxt seen : Nat)
  /-- Before the load of `head_`. -/
  | releaseLoad (idx : Nat)
  /-- Before the successor is stored. -/
  | releaseNext (idx : Nat) (old : Head) (seen : Nat)
  /-- Before the exchange. -/
  | releaseCas (idx : Nat) (old : Head) (seen : Nat)
  deriving DecidableEq, Repr

structure State (τ : Type*) where
  /-- `head_`. -/
  head : Head
  /-- `next_`. -/
  next : Nat → Nat
  pc : τ → Pc
  /-- The slots a thread has acquired. -/
  owned : τ → List Nat
  /-- How many exchanges have succeeded. -/
  cas : Nat

inductive Event (τ : Type*) where
  | acquired (t : τ) (idx : Nat)
  /-- `acquire` returns null. -/
  | exhausted (t : τ)
  | released (t : τ) (idx : Nat)
  deriving DecidableEq, Repr

section Step

variable [DecidableEq τ]

def State.goto (s : State τ) (t : τ) (pc : Pc) : State τ :=
  { s with pc := Function.update s.pc t pc }

def State.own (s : State τ) (t : τ) (slots : List Nat) : State τ :=
  { s with owned := Function.update s.owned t slots }

/-- The head of the loop of `acquire`, with a value of `head_` just read. -/
def State.look (s : State τ) (t : τ) : State τ × List (Event τ) :=
  if s.head.idx = kNone then (s.goto t .idle, [.exhausted t])
  else (s.goto t (.acquireNext s.head s.cas), [])

/-- One atomic operation of a thread. A weak exchange may fail for no reason. -/
def go (s : State τ) (t : τ) (weak : Bool) : Option (State τ × List (Event τ)) :=
  match s.pc t with
  | .idle => none
  | .acquireLoad => some (s.look t)
  | .acquireNext old seen => some (s.goto t (.acquireCas old (s.next old.idx) seen), [])
  | .acquireCas old nxt _ =>
      if s.head = old ∧ weak = false then
        some ({ (s.own t (old.idx :: s.owned t)).goto t .idle with
          head := ⟨nxt, (old.tag + 1) % kTags⟩, cas := s.cas + 1 }, [.acquired t old.idx])
      else some (s.look t)
  | .releaseLoad idx => some (s.goto t (.releaseNext idx s.head s.cas), [])
  | .releaseNext idx old seen =>
      some ({ s.goto t (.releaseCas idx old seen) with
        next := Function.update s.next idx old.idx }, [])
  | .releaseCas idx old _ =>
      if s.head = old ∧ weak = false then
        some ({ s.goto t .idle with
          head := ⟨idx, (old.tag + 1) % kTags⟩, cas := s.cas + 1 }, [.released t idx])
      else some (s.goto t (.releaseNext idx s.head s.cas), [])

inductive Action (τ : Type*) where
  | acquire (t : τ)
  | release (t : τ) (idx : Nat)
  | run (t : τ) (weak : Bool)
  /-- A thread hands one of its slots to another one. -/
  | give (t u : τ) (idx : Nat)
  deriving DecidableEq, Repr

/-- Any interleaving of the threads. A thread gives back what it owns. -/
def step (s : State τ) : Action τ → Option (State τ × List (Event τ))
  | .acquire t =>
      match s.pc t with
      | .idle => some (s.goto t .acquireLoad, [])
      | _ => none
  | .release t idx =>
      match s.pc t with
      | .idle =>
          if idx ∈ s.owned t then
            some ((s.own t ((s.owned t).erase idx)).goto t (.releaseLoad idx), [])
          else none
      | _ => none
  | .run t weak => go s t weak
  | .give t u idx =>
      if t ≠ u ∧ idx ∈ s.owned t then
        some ((s.own t ((s.owned t).erase idx)).own u (idx :: s.owned u), [])
      else none

end Step

/-- The constructor. -/
def init (capacity : Nat) : State τ :=
  { head := ⟨0, 0⟩, next := fun i => if i + 1 < capacity then i + 1 else kNone,
    pc := fun _ => .idle, owned := fun _ => [], cas := 0 }

/-- What a thread that is about to exchange `head_` has seen. -/
@[simp] def Pc.seen : Pc → Option Nat
  | .acquireCas _ _ seen => some seen
  | .releaseCas _ _ seen => some seen
  | _ => none

/-- Fewer than `2 ^ 32` exchanges have happened since the thread read `head_`. -/
def Fresh (s : State τ) : Action τ → Prop
  | .run t _ => ∀ seen ∈ (s.pc t).seen, s.cas < seen + kTags
  | _ => True

instance (s : State τ) : (a : Action τ) → Decidable (Fresh s a)
  | .run t _ => inferInstanceAs (Decidable (∀ seen ∈ (s.pc t).seen, s.cas < seen + kTags))
  | .acquire _ | .release _ _ | .give _ _ _ => isTrue trivial

/-! ## Who has which slot -/

/-- The slot a thread is about to give back. -/
@[simp] def Pc.slot : Pc → Option Nat
  | .releaseLoad idx => some idx
  | .releaseNext idx _ _ => some idx
  | .releaseCas idx _ _ => some idx
  | _ => none

/-- The slots a thread has. -/
def State.held (s : State τ) (t : τ) : List Nat := s.owned t ++ (s.pc t).slot.toList

/-- The free slots, and those of every thread. -/
def places (s : State τ) (free : List Nat) : Option τ → List Nat
  | none => free
  | some t => s.held t

/-- What has been read of `head_`. -/
structure Seen (s : State τ) (old : Head) (seen : Nat) : Prop where
  le : seen ≤ s.cas
  tag : old.tag = seen % kTags
  /-- If nothing has happened since, it is still so. -/
  same : seen = s.cas → s.head = old

/-- What a thread can rely on. -/
def PcOk (s : State τ) : Pc → Prop
  | .acquireNext old seen => Seen s old seen ∧ old.idx ≠ kNone
  | .acquireCas old nxt seen =>
      Seen s old seen ∧ old.idx ≠ kNone ∧ (seen = s.cas → nxt = s.next old.idx)
  | .releaseNext _ old seen => Seen s old seen
  | .releaseCas idx old seen => Seen s old seen ∧ s.next idx = old.idx
  | _ => True

structure Inv (capacity : Nat) (s : State τ) (free : List Nat) : Prop where
  links : Links s.next kNone s.head.idx free
  slots : Partition (places s free) (· < capacity)
  tag : s.head.tag = s.cas % kTags
  pc : ∀ t, PcOk s (s.pc t)

section Steps

variable {capacity : Nat} {s s' : State τ} {free free' : List Nat} {t : τ}

theorem Inv.seen (hI : Inv capacity s free) : Seen s s.head s.cas :=
  ⟨Nat.le_refl _, hI.tag, fun _ => rfl⟩

variable {pc : Pc} {old : Head} {u : τ} {idx : Nat}

theorem pcOk_congr (h : PcOk s pc) (hhead : s'.head = s.head) (hnext : s'.next = s.next)
    (hcas : s'.cas = s.cas) : PcOk s' pc := by
  have hseen : ∀ old seen, Seen s old seen → Seen s' old seen := by
    intro old seen hs
    exact ⟨hcas ▸ hs.le, hs.tag, fun heq => hhead.trans (hs.same (heq.trans hcas))⟩
  cases pc with
  | idle | acquireLoad | releaseLoad => trivial
  | acquireNext old seen => exact ⟨hseen _ _ h.1, h.2⟩
  | acquireCas old nxt seen =>
      refine ⟨hseen _ _ h.1, h.2.1, fun heq => ?_⟩
      rw [hnext]
      exact h.2.2 (heq.trans hcas)
  | releaseNext idx old seen => exact hseen _ _ h
  | releaseCas idx old seen => exact ⟨hseen _ _ h.1, by rw [hnext]; exact h.2⟩

/-- What a thread relies on outlives an exchange. -/
theorem pcOk_of_cas (h : PcOk s pc) (hcas : s'.cas = s.cas + 1) (hnext : s'.next = s.next) :
    PcOk s' pc := by
  have hseen : ∀ old seen, Seen s old seen → Seen s' old seen ∧ seen ≠ s'.cas := by
    intro old seen hs
    have := hs.le
    exact ⟨⟨by omega, hs.tag, fun heq => absurd heq (by omega)⟩, by omega⟩
  cases pc with
  | idle | acquireLoad | releaseLoad => trivial
  | acquireNext old seen => exact ⟨(hseen old seen h.1).1, h.2⟩
  | acquireCas old nxt seen =>
      obtain ⟨hs, hne⟩ := hseen old seen h.1
      exact ⟨hs, h.2.1, fun heq => absurd heq hne⟩
  | releaseNext idx old seen => exact (hseen old seen h).1
  | releaseCas idx old seen => exact ⟨(hseen old seen h.1).1, by rw [hnext]; exact h.2⟩

/-- A slot that is free is in nobody's hands. -/
theorem Inv.not_held (hI : Inv capacity s free) {x : Nat} (hx : x ∈ free) (u : τ) :
    x ∉ s.held u := by
  intro hu
  exact absurd ((hI.slots.once x).place none (some u) hx hu) nofun

/-- The tag tells whether anything has happened. -/
theorem seen_eq_cas (hI : Inv capacity s free) {seen : Nat} (hs : Seen s old seen)
    (hhead : s.head = old) (hfresh : s.cas < seen + kTags) : seen = s.cas := by
  have hle := hs.le
  have htag := hs.tag
  rw [← hhead, hI.tag] at htag
  unfold kTags at htag hfresh
  omega

variable [DecidableEq τ]

@[simp] theorem goto_self (pc : Pc) : (s.goto t pc).pc t = pc := by
  simp only [State.goto, Function.update_self]

theorem goto_other (h : u ≠ t) (pc : Pc) : (s.goto t pc).pc u = s.pc u := by
  simp only [State.goto, Function.update_of_ne h]

@[simp] theorem own_self (slots : List Nat) : (s.own t slots).owned t = slots := by
  simp only [State.own, Function.update_self]

theorem own_other (h : u ≠ t) (slots : List Nat) : (s.own t slots).owned u = s.owned u := by
  simp only [State.own, Function.update_of_ne h]

/-- Nobody but `t` has its slots changed by `t`. -/
theorem held_other (h : u ≠ t) (slots : List Nat) (pc : Pc) :
    ((s.own t slots).goto t pc).held u = s.held u := by
  unfold State.held
  rw [goto_other h]
  exact congrArg (· ++ _) (own_other h slots)

theorem held_self (slots : List Nat) (pc : Pc) :
    ((s.own t slots).goto t pc).held t = slots ++ pc.slot.toList := by
  unfold State.held
  rw [goto_self]
  exact congrArg (· ++ _) (own_self slots)

/-- A thread goes on with the slots it has. -/
theorem inv_turn (hI : Inv capacity s free) {slots : List Nat}
    (hslots : (slots ++ pc.slot.toList).Perm (s.held t)) (hok : PcOk s pc) :
    Inv capacity ((s.own t slots).goto t pc) free := by
  constructor
  case links => exact hI.links
  case slots =>
      refine hI.slots.perm fun k => ?_
      cases k with
      | none => exact List.Perm.refl _
      | some u =>
          change (((s.own t slots).goto t pc).held u).Perm (s.held u)
          by_cases hu : u = t
          · rw [hu, held_self]
            exact hslots
          · rw [held_other hu]
  case tag => exact hI.tag
  case pc =>
      intro u
      by_cases hu : u = t
      · rw [hu, goto_self]
        exact pcOk_congr hok rfl rfl rfl
      · rw [goto_other hu]
        exact pcOk_congr (hI.pc u) rfl rfl rfl

/-- A thread goes on. -/
theorem inv_goto (hI : Inv capacity s free) (hslot : pc.slot = (s.pc t).slot) (hok : PcOk s pc) :
    Inv capacity (s.goto t pc) free := by
  have h : Inv capacity ((s.own t (s.owned t)).goto t pc) free := inv_turn hI ?_ hok
  · have hown : s.own t (s.owned t) = s := by
      unfold State.own
      rw [Function.update_eq_self]
    rwa [hown] at h
  · unfold State.held
    rw [hslot]

/-- A thread links the slot it gives back to what it has read. -/
theorem inv_link (hI : Inv capacity s free) {seen : Nat}
    (hpc : s.pc t = .releaseNext idx old seen) :
    Inv capacity { s.goto t (.releaseCas idx old seen) with
      next := Function.update s.next idx old.idx } free := by
  have hmine : idx ∈ s.held t := by
    unfold State.held
    rw [hpc]
    simp
  have hok : Seen s old seen := by
    have := hI.pc t
    rwa [hpc] at this
  -- nobody else reads or writes the link of that slot with any effect
  have hothers : ∀ u, u ≠ t → PcOk { s.goto t (.releaseCas idx old seen) with
      next := Function.update s.next idx old.idx } (s.pc u) := by
    intro u hu
    have h := hI.pc u
    have hseen : ∀ old' seen', Seen s old' seen' → Seen { s.goto t (.releaseCas idx old seen) with
      next := Function.update s.next idx old.idx } old' seen' :=
      fun old' seen' hs => ⟨hs.le, hs.tag, hs.same⟩
    cases hu' : s.pc u with
    | idle | acquireLoad | releaseLoad => trivial
    | acquireNext old' seen' =>
        rw [hu'] at h
        exact ⟨hseen _ _ h.1, h.2⟩
    | acquireCas old' nxt seen' =>
        rw [hu'] at h
        obtain ⟨hs, hne, hnxt⟩ := h
        refine ⟨hseen _ _ hs, hne, fun heq => ?_⟩
        have hfree : old'.idx ∈ free := by
          have hlinks := hI.links
          rw [hs.same heq] at hlinks
          obtain ⟨ys, rfl, _⟩ := hlinks.exists_cons hne
          exact List.mem_cons_self ..
        have hdiff : old'.idx ≠ idx := by
          rintro rfl
          exact hI.not_held hfree t hmine
        exact (hnxt heq).trans (Function.update_of_ne hdiff _ _).symm
    | releaseNext idx' old' seen' =>
        rw [hu'] at h
        exact hseen _ _ h
    | releaseCas idx' old' seen' =>
        rw [hu'] at h
        refine ⟨hseen _ _ h.1, ?_⟩
        have hdiff : idx' ≠ idx := by
          rintro rfl
          have htheirs : idx' ∈ s.held u := by
            unfold State.held
            rw [hu']
            simp
          exact hu (Option.some.inj ((hI.slots.once idx').place _ _ htheirs hmine))
        exact (Function.update_of_ne hdiff _ _).trans h.2
  constructor
  case links =>
      refine hI.links.congr fun x hx => Function.update_of_ne ?_ _ _
      rintro rfl
      exact hI.not_held hx t hmine
  case slots =>
      refine hI.slots.perm fun k => ?_
      cases k with
      | none => exact List.Perm.refl _
      | some u =>
          change ((s.goto t (.releaseCas idx old seen)).held u).Perm (s.held u)
          unfold State.held
          by_cases hu : u = t
          · rw [hu, goto_self, hpc]
            exact List.Perm.refl _
          · rw [goto_other hu]
            exact List.Perm.refl _
  case tag => exact hI.tag
  case pc =>
      intro u
      by_cases hu : u = t
      · rw [hu]
        refine (goto_self (s := s) (t := t) _).symm ▸ ⟨⟨hok.le, hok.tag, hok.same⟩, ?_⟩
        exact Function.update_self ..
      · exact (goto_other (s := s) hu _).symm ▸ hothers u hu

/-- A thread takes the slot at the top. -/
theorem inv_take (hI : Inv capacity s free) {nxt seen : Nat}
    (hpc : s.pc t = .acquireCas old nxt seen) (hhead : s.head = old)
    (hfresh : s.cas < seen + kTags) :
    ∃ free', Inv capacity { (s.own t (old.idx :: s.owned t)).goto t .idle with
      head := ⟨nxt, (old.tag + 1) % kTags⟩, cas := s.cas + 1 } free' := by
  obtain ⟨hs, hne, hnxt⟩ : Seen s old seen ∧ old.idx ≠ kNone ∧
      (seen = s.cas → nxt = s.next old.idx) := by
    have := hI.pc t
    rwa [hpc] at this
  have hseen := seen_eq_cas hI hs hhead hfresh
  have hlinks := hI.links
  rw [hhead] at hlinks
  obtain ⟨ys, rfl, hrest⟩ := hlinks.exists_cons hne
  refine ⟨ys, ?_⟩
  constructor
  case links =>
      change Links s.next kNone nxt ys
      rw [hnxt hseen]
      exact hrest
  case slots =>
      refine hI.slots.transfer (a := none) (b := some t) nofun ?_ ?_
      · intro k hk hkt
        cases k with
        | none => exact absurd rfl hk
        | some u => exact held_other (fun h => hkt (congrArg some h)) _ _
      · intro x
        change ys.count x + (((s.own t (old.idx :: s.owned t)).goto t .idle).held t).count x =
          (old.idx :: ys).count x + (s.held t).count x
        rw [held_self]
        unfold State.held
        rw [hpc]
        simp only [Pc.slot, Option.toList_none, List.append_nil, List.count_cons]
        omega
  case tag =>
      change (old.tag + 1) % kTags = (s.cas + 1) % kTags
      rw [hs.tag, hseen, Nat.mod_add_mod]
  case pc =>
      intro u
      by_cases hu : u = t
      · rw [hu]
        exact (goto_self (s := s.own t (old.idx :: s.owned t)) (t := t) .idle).symm ▸ trivial
      · refine (goto_other (s := s.own t (old.idx :: s.owned t)) hu .idle).symm ▸ ?_
        exact pcOk_of_cas (hI.pc u) rfl rfl

/-- A thread puts its slot on top. -/
theorem inv_put (hI : Inv capacity s free) (hcap : capacity < kNone) {seen : Nat}
    (hpc : s.pc t = .releaseCas idx old seen) (hhead : s.head = old) :
    Inv capacity { s.goto t .idle with
      head := ⟨idx, (old.tag + 1) % kTags⟩, cas := s.cas + 1 } (idx :: free) := by
  obtain ⟨hs, hnext⟩ : Seen s old seen ∧ s.next idx = old.idx := by
    have := hI.pc t
    rwa [hpc] at this
  have hmine : idx ∈ s.held t := by
    unfold State.held
    rw [hpc]
    simp
  have hlt := hI.slots.inside (some t) idx hmine
  constructor
  case links =>
      change Links s.next kNone idx (idx :: free)
      refine Links.push ?_ (by omega)
      rw [hnext, ← hhead]
      exact hI.links
  case slots =>
      refine hI.slots.transfer (a := none) (b := some t) nofun ?_ ?_
      · intro k hk hkt
        cases k with
        | none => exact absurd rfl hk
        | some u =>
            have hu : u ≠ t := fun h => hkt (congrArg some h)
            exact congrArg (s.owned u ++ ·.slot.toList) (goto_other hu .idle)
      · intro x
        change (idx :: free).count x + ((s.goto t .idle).held t).count x =
          free.count x + (s.held t).count x
        unfold State.held
        rw [goto_self, hpc]
        simp only [Pc.slot, Option.toList_none, Option.toList_some, List.append_nil,
          List.count_cons, List.count_append, List.count_nil]
        change _ + (s.owned t).count x = _
        omega
  case tag =>
      change (old.tag + 1) % kTags = (s.cas + 1) % kTags
      rw [← hhead, hI.tag, Nat.mod_add_mod]
  case pc =>
      intro u
      by_cases hu : u = t
      · rw [hu]
        exact (goto_self (s := s) (t := t) .idle).symm ▸ trivial
      · refine (goto_other (s := s) hu .idle).symm ▸ ?_
        exact pcOk_of_cas (hI.pc u) rfl rfl

/-- A thread hands a slot to another one. -/
theorem inv_give (hI : Inv capacity s free) (htu : t ≠ u) (hidx : idx ∈ s.owned t) :
    Inv capacity ((s.own t ((s.owned t).erase idx)).own u (idx :: s.owned u)) free := by
  constructor
  case links => exact hI.links
  case slots =>
      refine hI.slots.transfer (a := some t) (b := some u)
        (fun h => htu (Option.some.inj h)) ?_ ?_
      · intro k hkt hku
        cases k with
        | none => rfl
        | some w =>
            have hwu : w ≠ u := fun h => hku (congrArg some h)
            have hwt : w ≠ t := fun h => hkt (congrArg some h)
            exact congrArg (· ++ _) ((own_other hwu _).trans (own_other hwt _))
      · intro x
        have ht : ((s.own t ((s.owned t).erase idx)).own u (idx :: s.owned u)).owned t =
            (s.owned t).erase idx := (own_other htu _).trans (own_self _)
        have hu : ((s.own t ((s.owned t).erase idx)).own u (idx :: s.owned u)).owned u =
            idx :: s.owned u := own_self _
        have hcount := (List.perm_cons_erase hidx).count_eq x
        rw [List.count_cons] at hcount
        change (_ ++ (s.pc t).slot.toList).count x + (_ ++ (s.pc u).slot.toList).count x =
          (s.owned t ++ _).count x + (s.owned u ++ _).count x
        rw [ht, hu]
        simp only [List.count_append, List.count_cons]
        omega
  case tag => exact hI.tag
  case pc => exact fun w => pcOk_congr (hI.pc w) rfl rfl rfl

theorem inv_look (hI : Inv capacity s free) (hslot : (s.pc t).slot = none) :
    Inv capacity (s.look t).1 free := by
  unfold State.look
  split
  · exact inv_goto hI hslot.symm trivial
  · rename_i hne
    exact inv_goto hI hslot.symm ⟨hI.seen, hne⟩

theorem go_inv (hcap : capacity < kNone) (hI : Inv capacity s free) {weak : Bool}
    (hfresh : Fresh s (.run t weak)) {ev : List (Event τ)} (h : go s t weak = some (s', ev)) :
    ∃ free', Inv capacity s' free' := by
  have hok := hI.pc t
  cases hpc : s.pc t with
  | idle => simp [go, hpc] at h
  | acquireLoad =>
      simp only [go, hpc, Option.some.injEq] at h
      have hlook : (s.look t).1 = s' := congrArg Prod.fst h
      exact ⟨free, hlook ▸ inv_look hI (by simp [hpc])⟩
  | acquireNext old seen =>
      simp only [go, hpc, Option.some.injEq, Prod.mk.injEq] at h
      obtain ⟨rfl, _⟩ := h
      rw [hpc] at hok
      exact ⟨free, inv_goto hI (by simp [hpc]) ⟨hok.1, hok.2, fun _ => rfl⟩⟩
  | acquireCas old nxt seen =>
      simp only [go, hpc] at h
      split at h
      · rename_i hcas
        simp only [Option.some.injEq, Prod.mk.injEq] at h
        obtain ⟨rfl, _⟩ := h
        exact inv_take hI hpc hcas.1 (hfresh seen (by simp [hpc]))
      · simp only [Option.some.injEq] at h
        have hlook : (s.look t).1 = s' := congrArg Prod.fst h
        exact ⟨free, hlook ▸ inv_look hI (by simp [hpc])⟩
  | releaseLoad idx =>
      simp only [go, hpc, Option.some.injEq, Prod.mk.injEq] at h
      obtain ⟨rfl, _⟩ := h
      exact ⟨free, inv_goto hI (by simp [hpc]) hI.seen⟩
  | releaseNext idx old seen =>
      simp only [go, hpc, Option.some.injEq, Prod.mk.injEq] at h
      obtain ⟨rfl, _⟩ := h
      exact ⟨free, inv_link hI hpc⟩
  | releaseCas idx old seen =>
      simp only [go, hpc] at h
      split at h
      · rename_i hcas
        simp only [Option.some.injEq, Prod.mk.injEq] at h
        obtain ⟨rfl, _⟩ := h
        exact ⟨idx :: free, inv_put hI hcap hpc hcas.1⟩
      · simp only [Option.some.injEq, Prod.mk.injEq] at h
        obtain ⟨rfl, _⟩ := h
        exact ⟨free, inv_goto hI (by simp [hpc]) hI.seen⟩

theorem step_inv (hcap : capacity < kNone) (hI : Inv capacity s free) {a : Action τ}
    (hfresh : Fresh s a) {ev : List (Event τ)} (h : step s a = some (s', ev)) :
    ∃ free', Inv capacity s' free' := by
  cases a with
  | acquire t =>
      cases hpc : s.pc t <;> simp only [step, hpc, Option.some.injEq, Prod.mk.injEq] at h
      case idle =>
        obtain ⟨rfl, _⟩ := h
        exact ⟨free, inv_goto hI (by simp [hpc]) trivial⟩
      all_goals cases h
  | release t idx =>
      cases hpc : s.pc t <;> simp only [step, hpc] at h
      case idle =>
        split at h
        · rename_i hidx
          simp only [Option.some.injEq, Prod.mk.injEq] at h
          obtain ⟨rfl, _⟩ := h
          refine ⟨free, inv_turn hI ?_ trivial⟩
          unfold State.held
          rw [hpc]
          simp only [Pc.slot, Option.toList_some, Option.toList_none, List.append_nil]
          exact (List.perm_append_singleton _ _).trans (List.perm_cons_erase hidx).symm
        · cases h
      all_goals cases h
  | run t weak => exact go_inv hcap hI hfresh h
  | give t u idx =>
      simp only [step] at h
      split at h
      · rename_i hgive
        simp only [Option.some.injEq, Prod.mk.injEq] at h
        obtain ⟨rfl, _⟩ := h
        exact ⟨free, inv_give hI hgive.1 hgive.2⟩
      · cases h

end Steps

/-! ## Whole runs -/

theorem links_range {capacity : Nat} {k m : Nat} (h : k + (m + 1) = capacity)
    (hcap : capacity < kNone) :
    Links (fun i => if i + 1 < capacity then i + 1 else kNone) kNone k (List.range' k (m + 1)) := by
  induction m generalizing k with
  | zero =>
      refine ⟨rfl, by omega, ?_⟩
      exact if_neg (by omega)
  | succ m ih =>
      refine ⟨rfl, by omega, ?_⟩
      dsimp only
      rw [if_pos (by omega)]
      exact ih (by omega)

theorem inv_init {capacity : Nat} (hpos : 0 < capacity) (hcap : capacity < kNone) :
    Inv capacity (init capacity : State τ) (List.range capacity) := by
  constructor
  case links =>
      obtain ⟨m, rfl⟩ : ∃ m, capacity = m + 1 := ⟨capacity - 1, by omega⟩
      rw [List.range_eq_range']
      exact links_range (Nat.zero_add _) hcap
  case slots =>
      constructor
      case once =>
          intro x
          refine ⟨fun k => ?_, fun k k' hk hk' => ?_⟩
          · cases k with
            | none => exact List.nodup_iff_count_le_one.mp List.nodup_range x
            | some t => exact Nat.zero_le 1
          · cases k with
            | none =>
                cases k' with
                | none => rfl
                | some t => cases hk'
            | some t => cases hk
      case inside =>
          intro k x hx
          cases k with
          | none => exact List.mem_range.mp hx
          | some t => cases hx
      case there => exact fun x hx => ⟨none, List.mem_range.mpr hx⟩
  case tag => rfl
  case pc => exact fun _ => trivial

variable [DecidableEq τ]

/-- **Every slot has one owner.** As long as no thread comes too late with its exchange, the
slots that are linked from `head_` and the slots that the threads have, or are giving back,
are all the slots there are, and none of them is in two places. -/
theorem freeList_ownership {capacity : Nat} (hpos : 0 < capacity) (hcap : capacity < kNone)
    {es : List (Event τ)} {s : State τ} (h : Run step Fresh (init capacity) es s) :
    ∃ free, Links s.next kNone s.head.idx free ∧
      Partition (places s free) (· < capacity) := by
  have hI : ∃ free, Inv capacity s free := by
    refine Run.invariant (I := fun _ s => ∃ free, Inv capacity s free)
      ⟨_, inv_init hpos hcap⟩ ?_ h
    intro _ _ s s' a hI hok hstep
    obtain ⟨free, hI⟩ := hI
    exact step_inv hcap hI hok hstep
  obtain ⟨free, hI⟩ := hI
  exact ⟨free, hI.links, hI.slots⟩

/-- The first thread has read that slot 1 comes after slot 0. The other one takes both and
gives 0 back: it is at the top again, and nothing comes after it. The exchange fails, because
of the tag, and the next one takes slot 0. -/
def reuseSchedule : List (Action (Fin 2)) :=
  [Action.acquire 0] ++ List.replicate 2 (Action.run 0 false) ++
  [Action.acquire 1] ++ List.replicate 3 (Action.run 1 false) ++
  [Action.acquire 1] ++ List.replicate 3 (Action.run 1 false) ++
  [Action.release 1 0] ++ List.replicate 3 (Action.run 1 false) ++
  List.replicate 3 (Action.run 0 false)

theorem freeList_ownership_reuse :
    ∃ (es : List (Event (Fin 2))) (s : State (Fin 2)), Run step Fresh (init 2) es s ∧
      es = [.acquired 1 0, .acquired 1 1, .released 1 0, .acquired 0 0] ∧
      ∃ free, Links s.next kNone s.head.idx free ∧ Partition (places s free) (· < 2) := by
  have h : Leads step Fresh (init 2 : State (Fin 2)) reuseSchedule fun _ es => es =
      [.acquired 1 0, .acquired 1 1, .released 1 0, .acquired 0 0] := by
    decide +kernel
  obtain ⟨s, es, hrun, hes⟩ := h.run
  exact ⟨es, s, hrun, hes, freeList_ownership (by decide) (by decide) hrun⟩

end CrossMachine.Alloc
