import CrossMachine.Lib.Instances
import CrossMachine.Reclaim.Registry
import Mathlib.Data.Fintype.Basic
import Mathlib.Data.Fintype.Pi
import Mathlib.Logic.Function.Basic

/-!
# Hazard pointers: the domain

`HazardDomain` of `hazard_ptr.h`, without its clients. Every thread has a record with two
slots in which it announces the pointers it is about to use. A retired pointer goes on one
list for all threads; `scan` takes the whole list, reads every slot of every record one
after the other, reclaims what it has not seen and gives the rest back.

A client does two things to the domain: it asks for something (`setSlot`, `retire`, `scan`,
leaving), and while the domain is at work for a thread the thread does nothing else. So a
thread has a `Local` part that belongs to the domain, and a client is built around it.

What the domain promises is about covers. A slot *covers* `x` for its thread when it has
held `x` since a moment at which `x` was not retired; when that moment is, only the client
knows. `Guarded` is the invariant: whoever is about to judge a retired pointer has seen
every slot that covers it, or has yet to look at it.

Pointers are of a type `ι` of their own, with an address: what the slots hold and what a
scan compares are addresses.
-/

namespace CrossMachine.Reclaim.Hazard

variable {τ ι π : Type*}

/-- `kHazardSlotsPerThread`. -/
abbrev kHazardSlotsPerThread : Nat := 2

/-- `kScanFactor`. -/
def kScanFactor : Nat := 2

/-- The index of a slot, `assert`ed by `set_slot`. -/
abbrev Slot := Fin kHazardSlotsPerThread

/-- `head_` with its records and `record_count_`, and `global_retire_`. -/
structure Domain (ι π : Type*) where
  reg : Registry (Slot → Option π)
  retire : List ι

/-- Where a thread is inside the domain. -/
inductive Op (ι π : Type*) where
  | idle
  /-- `tl()` in `set_slot`. -/
  | claim (c : Claim) (i : Slot) (p : Option π)
  /-- Before the store of `slots[i]`. -/
  | store (i : Slot) (p : Option π)
  /-- In `do_retire`, before the push. -/
  | push (x : ι)
  /-- Before the load of `record_count_`. -/
  | count (listSize : Nat)
  /-- In `scan`, before the list is taken. -/
  | take
  /-- Before the load of `head_`. -/
  | head (toProcess : List ι)
  /-- The first `k` records are still to be read, the last of them next, from slot `i`
  on. -/
  | collect (toProcess : List ι) (hazards : List π) (k : Nat) (i : Slot)
  | sift (toProcess : List ι) (hazards : List π) (survivors : List ι)
  | giveBack (survivors : List ι)
  deriving DecidableEq, Repr

/-- What a thread has of the domain: `tl().record`, and where it is. -/
structure Local (ι π : Type*) where
  record : Option Nat
  op : Op ι π
  deriving DecidableEq, Repr

inductive HazardEvent (ι : Type*) where
  | retired (x : ι)
  | reclaimed (x : ι)
  deriving DecidableEq, Repr

open HazardEvent

/-! ## What a client asks for -/

/-- `set_slot`. -/
def Local.setSlot (l : Local ι π) (i : Slot) (p : Option π) : Local ι π :=
  match l.record with
  | some _ => { l with op := .store i p }
  | none => { l with op := .claim .start i p }

/-- `retire`. -/
def Local.retire (l : Local ι π) (x : ι) : Local ι π := { l with op := .push x }

/-- `scan`. -/
def Local.scan (l : Local ι π) : Local ι π := { l with op := .take }

/-- `~ThreadState`. -/
def exit (D : Domain ι π) (l : Local ι π) : Domain ι π × Local ι π :=
  match l.record with
  | some r =>
      ({ D with reg := D.reg.modify r fun rec => { rec with active := false } },
        { l with record := none })
  | none => (D, l)

/-! ## What the domain does -/

/-- When the list is so long, `do_retire` scans. -/
def threshold (recordCount : Nat) : Nat :=
  let n := kScanFactor * recordCount * kHazardSlotsPerThread
  if n = 0 then 1 else n

/-- One atomic operation of the domain. Sorting the hazards and searching them is asking
whether an address is among them. -/
def run [DecidableEq π] (addr : ι → π) (D : Domain ι π) (l : Local ι π) (weak : Bool) :
    Option (Domain ι π × Local ι π × List (HazardEvent ι)) :=
  match l.op with
  | .idle => none
  | .claim c i p =>
      let D' := { D with reg := (D.reg.claim (fun _ => none) weak c).1 }
      match (D.reg.claim (fun _ => none) weak c).2 with
      | .inl c' => some (D', { l with op := .claim c' i p }, [])
      | .inr r => some (D', { l with record := some r, op := .store i p }, [])
  | .store i p =>
      match l.record with
      | some r =>
          let f := fun rec : Record (Slot → Option π) =>
            { rec with val := Function.update rec.val i p }
          some ({ D with reg := D.reg.modify r f }, { l with op := .idle }, [])
      | none => none
  | .push x =>
      some ({ D with retire := D.retire ++ [x] },
        { l with op := .count (D.retire.length + 1) }, [retired x])
  | .count listSize =>
      let op := if threshold D.reg.threadCount ≤ listSize then .take else .idle
      some (D, { l with op := op }, [])
  | .take =>
      match D.retire with
      | [] => some (D, { l with op := .idle }, [])
      | x :: xs => some ({ D with retire := [] }, { l with op := .head (x :: xs) }, [])
  | .head xs => some (D, { l with op := .collect xs [] D.reg.recs.length 0 }, [])
  | .collect xs H 0 _ => some (D, { l with op := .sift xs H [] }, [])
  | .collect xs H (k + 1) i =>
      match D.reg.recs[k]? with
      | some rec =>
          let H' := H ++ (rec.val i).toList
          let op := if i = 0 then .collect xs H' (k + 1) 1 else .collect xs H' k 0
          some (D, { l with op := op }, [])
      | none => none
  | .sift [] _ [] => some (D, { l with op := .idle }, [])
  | .sift [] _ (y :: ys) => some (D, { l with op := .giveBack (y :: ys) }, [])
  | .sift (x :: xs) H ys =>
      if addr x ∈ H then some (D, { l with op := .sift xs H (ys ++ [x]) }, [])
      else some (D, { l with op := .sift xs H ys }, [reclaimed x])
  | .giveBack ys => some ({ D with retire := D.retire ++ ys }, { l with op := .idle }, [])

/-! ## Slots -/

/-- The record a thread has, also while it is still claiming it. -/
def Local.owns (l : Local ι π) : Option Nat :=
  match l.op with
  | .claim c _ _ => c.owned
  | _ => l.record

/-- What slot `i` of a thread holds. -/
def published (D : Domain ι π) (l : Local ι π) (i : Slot) : Option π :=
  match l.owns with
  | some r => (D.reg.recs[r]?).bind fun rec => rec.val i
  | none => none

/-- The thread is about to write slot `i`. -/
def Op.writes (i : Slot) : Op ι π → Bool
  | .claim _ _ _ => true
  | .store j _ => j = i
  | _ => false

/-- Slot `i` holds `p`, or is about to. -/
def Will (D : Domain ι π) (l : Local ι π) (i : Slot) (p : Option π) : Prop :=
  match l.op with
  | .claim _ j q => j = i ∧ q = p
  | .store j q => if j = i then q = p else published D l i = p
  | _ => published D l i = p

/-- What a running `scan` has not decided about. -/
def Op.judging : Op ι π → List ι
  | .head xs => xs
  | .collect xs _ _ _ => xs
  | .sift xs _ _ => xs
  | _ => []

/-- A running `scan` has seen the address `p`, or has yet to read slot `i` of record
`r`. -/
def Op.awaits (r : Nat) (i : Slot) (p : π) : Op ι π → Prop
  | .collect _ H k j => p ∈ H ∨ r + 1 < k ∨ (r + 1 = k ∧ j ≤ i)
  | .sift _ H _ => p ∈ H
  | _ => True

/-- The retired pointers a running `scan` has in its hands. -/
def Op.held : Op ι π → List ι
  | .head xs => xs
  | .collect xs _ _ _ => xs
  | .sift xs _ ys => xs ++ ys
  | .giveBack ys => ys
  | _ => []

/-- The same, with the pointer that is just being retired. -/
def Op.carried : Op ι π → List ι
  | .push x => [x]
  | op => op.held

/-! ## What a step can do -/

theorem Slot.le_one (i : Slot) : i ≤ 1 := Fin.le_last i

variable {i : Slot} {p : Option π} {x : ι}

theorem Slot.one_le (h : i ≠ 0) : 1 ≤ i := Fin.pos_iff_ne_zero.mpr h

theorem Slot.eq_one (h : i ≠ 0) : i = 1 :=
  Fin.le_antisymm (Slot.le_one i) (Slot.one_le h)

/-- A step of the domain for one thread. -/
inductive Moves (addr : ι → π) (D : Domain ι π) (l : Local ι π) :
    Domain ι π → Local ι π → List (HazardEvent ι) → Prop where
  /-- Nothing that another thread could notice. -/
  | inside {op : Op ι π} (howns : l.owns = l.record)
      (howns' : Local.owns { l with op := op } = l.record)
      (hwrites : ∀ i, l.op.writes i = false) (hwrites' : ∀ i, op.writes i = false)
      (hcarried : op.carried.Perm l.op.carried) (hheld : op.held.Perm l.op.held)
      (hjudging : ∀ x ∈ op.judging, x ∈ l.op.judging)
      (hawaits : ∀ (r : Nat) (rec : Record (Slot → Option π)) (i : Slot) (p : π),
        D.reg.recs[r]? = some rec → rec.val i = some p → l.op.awaits r i p → op.awaits r i p) :
      Moves addr D l D { l with op := op } []
  | claim {c c' : Claim} {i : Slot} {p : Option π} {R : Registry (Slot → Option π)}
      (hop : l.op = .claim c i p) (hclaims : Claims (fun _ => none) D.reg c R (.inl c')) :
      Moves addr D l { D with reg := R } { l with op := .claim c' i p } []
  | claimed {c : Claim} {i : Slot} {p : Option π} {r : Nat} {R : Registry (Slot → Option π)}
      (hop : l.op = .claim c i p) (hclaims : Claims (fun _ => none) D.reg c R (.inr r)) :
      Moves addr D l { D with reg := R } { l with record := some r, op := .store i p } []
  | store {i : Slot} {p : Option π} {r : Nat} (hop : l.op = .store i p)
      (hrecord : l.record = some r) :
      Moves addr D l
        { D with reg := D.reg.modify r fun rec => { rec with val := Function.update rec.val i p } }
        { l with op := .idle } []
  | push {x : ι} {n : Nat} (hop : l.op = .push x) :
      Moves addr D l { D with retire := D.retire ++ [x] } { l with op := .count n } [retired x]
  | take {xs : List ι} (hop : l.op = .take) (hxs : D.retire = xs) :
      Moves addr D l { D with retire := [] } { l with op := .head xs } []
  | reclaim {x : ι} {xs ys : List ι} {H : List π} (hop : l.op = .sift (x :: xs) H ys)
      (hx : addr x ∉ H) : Moves addr D l D { l with op := .sift xs H ys } [reclaimed x]
  | giveBack {ys : List ι} (hop : l.op = .giveBack ys) :
      Moves addr D l { D with retire := D.retire ++ ys } { l with op := .idle } []

theorem Op.owns_of_writes {l : Local ι π} (h : ∀ i, l.op.writes i = false) :
    l.owns = l.record := by
  unfold Local.owns
  cases hop : l.op with
  | claim c i p =>
      have := h 0
      rw [hop] at this
      cases this
  | _ => rfl

/-- A step that only moves on. -/
theorem Moves.at {addr : ι → π} {D : Domain ι π} {l : Local ι π} {op : Op ι π}
    (hwrites : ∀ i, l.op.writes i = false) (hwrites' : ∀ i, op.writes i = false)
    (hcarried : op.carried.Perm l.op.carried) (hheld : op.held.Perm l.op.held)
    (hjudging : ∀ x ∈ op.judging, x ∈ l.op.judging)
    (hawaits : ∀ (r : Nat) (rec : Record (Slot → Option π)) (i : Slot) (p : π),
      D.reg.recs[r]? = some rec → rec.val i = some p → l.op.awaits r i p → op.awaits r i p) :
    Moves addr D l D { l with op := op } [] :=
  .inside (Op.owns_of_writes hwrites) (Op.owns_of_writes (l := { l with op := op }) hwrites')
    hwrites hwrites' hcarried hheld hjudging hawaits

theorem run_moves [DecidableEq π] {addr : ι → π} {D D' : Domain ι π} {l l' : Local ι π}
    {weak : Bool} {ev : List (HazardEvent ι)} (h : run addr D l weak = some (D', l', ev)) :
    Moves addr D l D' l' ev := by
  unfold run at h
  split at h
  · cases h
  · rename_i c i p hop
    have hc := claim_claims (fun _ => none) D.reg weak c
    split at h
    · rename_i c' ho
      cases h
      rw [ho] at hc
      exact .claim hop hc
    · rename_i r ho
      cases h
      rw [ho] at hc
      exact .claimed hop hc
  · rename_i i p hop
    split at h
    · rename_i r hrecord
      cases h
      exact .store hop hrecord
    · cases h
  · rename_i x hop
    cases h
    exact .push hop
  · rename_i n hop
    cases h
    split <;>
    · refine .at ?_ ?_ ?_ ?_ ?_ ?_ <;>
        simp [hop, Op.writes, Op.carried, Op.held, Op.judging, Op.awaits]
  · rename_i hop
    split at h
    · cases h
      refine .at ?_ ?_ ?_ ?_ ?_ ?_ <;>
        simp [hop, Op.writes, Op.carried, Op.held, Op.judging, Op.awaits]
    · rename_i x xs hxs
      cases h
      exact .take hop hxs
  · rename_i xs hop
    cases h
    refine .at ?_ ?_ ?_ ?_ ?_ ?_
    case refine_6 =>
      intro r rec i p hrec _ _
      have hlt := (List.getElem?_eq_some_iff.mp hrec).1
      rcases Nat.eq_or_lt_of_le (Nat.succ_le_of_lt hlt) with heq | hlt'
      · exact .inr (.inr ⟨heq, Fin.zero_le i⟩)
      · exact .inr (.inl hlt')
    all_goals simp [hop, Op.writes, Op.carried, Op.held, Op.judging]
  · rename_i xs H i hop
    cases h
    refine .at ?_ ?_ ?_ ?_ ?_ ?_ <;>
      simp [hop, Op.writes, Op.carried, Op.held, Op.judging, Op.awaits]
  · rename_i xs H k i hop
    split at h
    · rename_i rec hrec
      cases h
      -- the slot that has just been read is seen
      have hread : ∀ (r : Nat) (rec' : Record (Slot → Option π)) (p : π),
          D.reg.recs[r]? = some rec' → rec'.val i = some p → r + 1 = k + 1 →
          p ∈ H ++ (rec.val i).toList := by
        intro r rec' p hrec' hp hr
        have hrk : r = k := by omega
        subst hrk
        rw [hrec] at hrec'
        injection hrec' with heq
        rw [heq, hp]
        simp
      by_cases hi : i = 0
      · rw [if_pos hi]
        refine .at ?_ ?_ ?_ ?_ ?_ ?_
        case refine_6 =>
          intro r rec' j p hrec' hp hawaits
          rw [hop] at hawaits
          rcases hawaits with hin | hlt | ⟨heq, _⟩
          · exact .inl (List.mem_append_left _ hin)
          · exact .inr (.inl hlt)
          · by_cases hj : j = i
            · subst hj
              exact .inl (hread r rec' p hrec' hp heq)
            · rw [hi] at hj
              exact .inr (.inr ⟨heq, Slot.one_le hj⟩)
        all_goals simp [hop, Op.writes, Op.carried, Op.held, Op.judging]
      · rw [if_neg hi]
        refine .at ?_ ?_ ?_ ?_ ?_ ?_
        case refine_6 =>
          intro r rec' j p hrec' hp hawaits
          rw [hop] at hawaits
          rcases hawaits with hin | hlt | ⟨heq, hle⟩
          · exact .inl (List.mem_append_left _ hin)
          · rcases Nat.eq_or_lt_of_le (Nat.le_of_lt_succ hlt) with heq | hlt'
            · exact .inr (.inr ⟨heq, Fin.zero_le j⟩)
            · exact .inr (.inl hlt')
          · have hj : j = i := by
              rw [Slot.eq_one hi] at hle ⊢
              exact Fin.le_antisymm (Slot.le_one j) hle
            subst hj
            exact .inl (hread r rec' p hrec' hp heq)
        all_goals simp [hop, Op.writes, Op.carried, Op.held, Op.judging]
    · cases h
  · rename_i H hop
    cases h
    refine .at ?_ ?_ ?_ ?_ ?_ ?_ <;>
      simp [hop, Op.writes, Op.carried, Op.held, Op.judging, Op.awaits]
  · rename_i H y ys hop
    cases h
    refine .at ?_ ?_ ?_ ?_ ?_ ?_ <;>
      simp [hop, Op.writes, Op.carried, Op.held, Op.judging, Op.awaits]
  · rename_i x xs H ys hop
    split at h
    · cases h
      have hperm : (xs ++ (ys ++ [x])).Perm (x :: (xs ++ ys)) := by
        rw [← List.append_assoc]
        exact List.perm_append_singleton _ _
      refine .at ?_ ?_ ?_ ?_ ?_ ?_
      case refine_3 | refine_4 => simpa [hop, Op.carried, Op.held] using hperm
      case refine_5 =>
        intro y hy
        rw [hop]
        exact List.mem_cons_of_mem _ hy
      all_goals simp [hop, Op.writes, Op.awaits]
    · rename_i hx
      cases h
      exact .reclaim hop hx
  · rename_i ys hop
    cases h
    exact .giveBack hop

/-! ## What a step leaves alone -/

section Frame

variable {addr : ι → π} {D D' : Domain ι π} {l l' : Local ι π} {ev : List (HazardEvent ι)}

/-- A step changes no record but the thread's own. -/
theorem Moves.keeps (h : Moves addr D l D' l' ev) {q : Nat} {rec : Record (Slot → Option π)}
    (hq : l.owns ≠ some q) (hrec : D.reg.recs[q]? = some rec) :
    ∃ rec' : Record (Slot → Option π), D'.reg.recs[q]? = some rec' ∧ rec'.val = rec.val := by
  cases h with
  | claim _ hclaims => exact claims_keep hclaims hrec
  | claimed _ hclaims => exact claims_keep hclaims hrec
  | @store i p r hop hrecord =>
      have hne : r ≠ q := by
        intro heq
        subst heq
        refine hq ?_
        unfold Local.owns
        rw [hop]
        exact hrecord
      exact ⟨rec, by simp only [getElem?_modify_ne _ hne, hrec], rfl⟩
  | _ => exact ⟨rec, hrec, rfl⟩

/-- A thread that is not claiming keeps its record. -/
theorem Moves.owns_eq (h : Moves addr D l D' l' ev) (hop : ∀ c i p, l.op ≠ .claim c i p) :
    l'.owns = l.owns := by
  have howns : l.owns = l.record := by
    unfold Local.owns
    cases hl : l.op with
    | claim c i p => exact absurd hl (hop c i p)
    | _ => rfl
  cases h with
  | inside _ howns' => rw [howns, howns']
  | claim hl => exact absurd hl (hop _ _ _)
  | claimed hl => exact absurd hl (hop _ _ _)
  | _ => exact howns.symm

theorem published_eq (howns : l'.owns = l.owns)
    (hrecs : ∀ q, l.owns = some q → ∃ rec rec' : Record (Slot → Option π),
      D.reg.recs[q]? = some rec ∧ D'.reg.recs[q]? = some rec' ∧ rec'.val = rec.val) (i : Slot) :
    published D' l' i = published D l i := by
  unfold published
  rw [howns]
  cases hq : l.owns with
  | none => rfl
  | some q =>
      obtain ⟨rec, rec', hrec, hrec', hval⟩ := hrecs q hq
      simp only [hrec, hrec', Option.bind_some, hval]

theorem exists_of_published {p : π} (h : published D l i = some p) :
    ∃ (r : Nat) (rec : Record (Slot → Option π)), l.owns = some r ∧
      D.reg.recs[r]? = some rec ∧ rec.val i = some p := by
  unfold published at h
  cases hr : l.owns with
  | none =>
      rw [hr] at h
      cases h
  | some r =>
      rw [hr] at h
      obtain ⟨rec, hrec, hval⟩ := Option.bind_eq_some_iff.mp h
      exact ⟨r, rec, rfl, hrec, hval⟩

/-- Giving up a record does not touch the slots. -/
theorem published_exit (D : Domain ι π) (l m : Local ι π) (i : Slot) :
    published (exit D l).1 m i = published D m i := by
  unfold exit
  cases l.record with
  | none => rfl
  | some r =>
      unfold published
      cases m.owns with
      | none => rfl
      | some q =>
          by_cases hrq : r = q
          · subst hrq
            cases hrec : D.reg.recs[r]? with
            | none => simp [Registry.modify, hrec]
            | some rec => simp only [getElem?_modify_self hrec, hrec, Option.bind_some]
          · simp only [getElem?_modify_ne _ hrq]

/-- After the store, the slot holds what was stored and the other one what it held. -/
theorem published_store {r : Nat} {rec : Record (Slot → Option π)} (hop : l.op = .store i p)
    (hrecord : l.record = some r) (hrec : D.reg.recs[r]? = some rec) (j : Slot) :
    published
      { D with reg := D.reg.modify r fun rec => { rec with val := Function.update rec.val i p } }
      { l with op := .idle } j = if i = j then p else published D l j := by
  have howns : l.owns = some r := by
    unfold Local.owns
    rw [hop]
    exact hrecord
  have howns' : Local.owns ({ l with op := .idle } : Local ι π) = some r := hrecord
  simp only [published, howns, howns', getElem?_modify_self hrec, hrec, Option.bind_some]
  by_cases hij : i = j
  · rw [if_pos hij, hij, Function.update_self]
  · rw [if_neg hij, Function.update_of_ne (Ne.symm hij)]

theorem will_iff (h : l.op.writes i = false) : Will D l i p ↔ published D l i = p := by
  unfold Will
  cases hop : l.op with
  | claim c j q =>
      rw [hop] at h
      cases h
  | store j q =>
      rw [hop] at h
      simp only [if_neg (of_decide_eq_false h)]
  | _ => rfl

/-- What a slot is to hold stays so while the domain is at work for the thread. -/
theorem Will.run (hw : Will D l i p) (h : Moves addr D l D' l' ev)
    (hrecs : ∀ q, l.owns = some q → ∃ rec, D.reg.recs[q]? = some rec) : Will D' l' i p := by
  -- a step that does not touch the slots
  have hquiet : l'.owns = l.owns → l.op.writes i = false → l'.op.writes i = false →
      D'.reg = D.reg → Will D' l' i p := by
    intro howns hwrites hwrites' hreg
    rw [will_iff hwrites'] at ⊢
    rw [will_iff hwrites] at hw
    rw [← hw]
    refine published_eq howns (fun q hq => ?_) i
    obtain ⟨rec, hrec⟩ := hrecs q hq
    exact ⟨rec, rec, hrec, hreg ▸ hrec, rfl⟩
  cases h with
  | inside howns howns' hwrites hwrites' =>
      exact hquiet (howns'.trans howns.symm) (hwrites i) (hwrites' i) rfl
  | claim hop =>
      unfold Will at hw ⊢
      rw [hop] at hw
      exact hw
  | claimed hop =>
      unfold Will at hw ⊢
      rw [hop] at hw
      simp only [if_pos hw.1, hw.2]
  | @store j q r hop hrecord =>
      unfold Will at hw
      rw [hop] at hw
      obtain ⟨rec, hrec⟩ := hrecs r (by unfold Local.owns; rw [hop]; exact hrecord)
      rw [will_iff rfl, published_store hop hrecord hrec]
      split
      · rename_i hji
        simpa only [if_pos hji] using hw
      · rename_i hji
        simpa only [if_neg hji] using hw
  | push hop => exact hquiet (by unfold Local.owns; rw [hop]) (by rw [hop]; rfl) rfl rfl
  | take hop => exact hquiet (by unfold Local.owns; rw [hop]) (by rw [hop]; rfl) rfl rfl
  | reclaim hop => exact hquiet (by unfold Local.owns; rw [hop]) (by rw [hop]; rfl) rfl rfl
  | giveBack hop => exact hquiet (by unfold Local.owns; rw [hop]) (by rw [hop]; rfl) rfl rfl

/-- Another thread's step leaves a thread's slots alone. -/
theorem Will.other {m : Local ι π} (hw : Will D m i p) (hpub : published D' m i = published D m i) :
    Will D' m i p := by
  unfold Will at hw ⊢
  cases hop : m.op with
  | claim c j q =>
      rw [hop] at hw
      exact hw
  | store j q =>
      rw [hop] at hw
      simp only [hpub]
      exact hw
  | _ =>
      rw [hop] at hw
      simp only [hpub]
      exact hw

theorem will_setSlot (D : Domain ι π) (l : Local ι π) (i : Slot) (p : Option π) :
    Will D (l.setSlot i p) i p := by
  unfold Will Local.setSlot
  cases l.record with
  | none => exact ⟨rfl, rfl⟩
  | some r => simp

end Frame

/-! ## What covers what -/

/-- The invariant of the domain, for threads whose slots cover `cover`. -/
structure Guarded (addr : ι → π) (D : Domain ι π) (loc : τ → Local ι π)
    (cover : τ → Slot → Option ι) : Prop where
  owned : Owned D.reg (fun t => (loc t).owns) fun _ => True
  slots : ∀ t i x, cover t i = some x →
    published D (loc t) i = some (addr x) ∧ (loc t).op.writes i = false
  /-- A running `scan` has seen every slot that covers a pointer it has not decided about,
  or has yet to read it. -/
  seen : ∀ u, ∀ x ∈ (loc u).op.judging, ∀ t i r, cover t i = some x → (loc t).owns = some r →
    (loc u).op.awaits r i (addr x)

section Guarded

variable {addr : ι → π} {D D' : Domain ι π} {loc loc' : τ → Local ι π}
  {cover cover' : τ → Slot → Option ι} {t : τ} {l' : Local ι π} {ev : List (HazardEvent ι)}

theorem Guarded.exists_record (h : Guarded addr D loc cover) (u : τ) (q : Nat)
    (hq : (loc u).owns = some q) :
    ∃ rec : Record (Slot → Option π), D.reg.recs[q]? = some rec := by
  obtain ⟨rec, hrec, _⟩ := h.owned.active u q hq
  exact ⟨rec, hrec⟩

/-- A step of thread `t` does not touch the slots of another. -/
theorem Guarded.published_other (h : Guarded addr D loc cover)
    (hm : Moves addr D (loc t) D' l' ev) {u : τ} (hu : u ≠ t) (i : Slot) :
    published D' (loc u) i = published D (loc u) i := by
  refine published_eq rfl (fun q hq => ?_) i
  obtain ⟨rec, hrec⟩ := h.exists_record u q hq
  obtain ⟨rec', hrec', hval⟩ :=
    hm.keeps (fun ht => hu (h.owned.unique u t q hq ht)) hrec
  exact ⟨rec, rec', hrec, hrec', hval⟩

theorem Moves.owned [DecidableEq τ] (h : Owned D.reg (fun t => (loc t).owns) fun _ => True)
    (hm : Moves addr D (loc t) D' l' ev) (hself : loc' t = l')
    (hother : ∀ u, u ≠ t → loc' u = loc u) :
    Owned D'.reg (fun t => (loc' t).owns) fun _ => True := by
  have hupdate : ∀ u, (loc' u).owns = if u = t then l'.owns else (loc u).owns := by
    intro u
    by_cases hu : u = t
    · rw [hu, hself, if_pos rfl]
    · rw [hother u hu, if_neg hu]
  have hkeep : l'.owns = (loc t).owns →
      (∀ (r : Nat) (rec : Record (Slot → Option π)), D.reg.recs[r]? = some rec →
        ∃ rec' : Record (Slot → Option π), D'.reg.recs[r]? = some rec' ∧
          rec'.active = rec.active) → Owned D'.reg (fun t => (loc' t).owns) fun _ => True := by
    intro howns hrecs
    refine h.congr (fun u => ?_) (fun _ h => h) hrecs
    rw [hupdate]
    split
    · rename_i hu
      rw [hu, howns]
    · rfl
  have hclaims : ∀ {c i p o}, (loc t).op = .claim c i p →
      Claims (fun _ => none) D.reg c D'.reg o → l'.owns = o.elim Claim.owned some →
      Owned D'.reg (fun t => (loc' t).owns) fun _ => True := by
    intro c i p o hop hc howns
    refine h.claims (t := t) hc ?_ (fun u => ?_) (fun _ h => h) fun _ _ _ _ => trivial
    · unfold Local.owns
      rw [hop]
    · rw [hupdate, howns]
  have hsame : ∀ (r : Nat) (rec : Record (Slot → Option π)), D.reg.recs[r]? = some rec →
      ∃ rec' : Record (Slot → Option π), D.reg.recs[r]? = some rec' ∧
        rec'.active = rec.active := fun r rec hrec => ⟨rec, hrec, rfl⟩
  cases hm with
  | inside howns howns' => exact hkeep (howns'.trans howns.symm) hsame
  | claim hop hc => exact hclaims hop hc rfl
  | claimed hop hc => exact hclaims hop hc rfl
  | store hop hrecord =>
      refine hkeep ?_ fun q rec hrec => exists_getElem?_modify hrec fun _ => rfl
      unfold Local.owns
      rw [hop]
  | push hop => exact hkeep (by unfold Local.owns; rw [hop]) hsame
  | take hop => exact hkeep (by unfold Local.owns; rw [hop]) hsame
  | reclaim hop => exact hkeep (by unfold Local.owns; rw [hop]) hsame
  | giveBack hop => exact hkeep (by unfold Local.owns; rw [hop]) hsame

/-- A slot that covers something still holds it after a step of its own thread. -/
theorem Guarded.slots_self (h : Guarded addr D loc cover) (hm : Moves addr D (loc t) D' l' ev)
    (hx : cover t i = some x) : published D' l' i = some (addr x) ∧ l'.op.writes i = false := by
  obtain ⟨hpub, hwrites⟩ := h.slots t i x hx
  have hwill : Will D' l' i (some (addr x)) :=
    Will.run ((will_iff hwrites).mpr hpub) hm fun q hq => h.exists_record t q hq
  have hwrites' : l'.op.writes i = false := by
    cases hm with
    | inside _ _ _ hwrites' => exact hwrites' i
    | claim hop =>
        rw [hop] at hwrites
        cases hwrites
    | claimed hop =>
        rw [hop] at hwrites
        cases hwrites
    | _ => rfl
  exact ⟨(will_iff hwrites').mp hwill, hwrites'⟩

/-- **The domain keeps its invariant**, whatever it does. -/
theorem Guarded.run [DecidableEq τ] (h : Guarded addr D loc cover)
    (hm : Moves addr D (loc t) D' l' ev) (hself : loc' t = l')
    (hother : ∀ u, u ≠ t → loc' u = loc u) : Guarded addr D' loc' cover := by
  have howns : ∀ u i x, cover u i = some x → (loc' u).owns = (loc u).owns := by
    intro u i x hx
    by_cases hu : u = t
    · subst hu
      rw [hself]
      refine hm.owns_eq fun c j p hop => ?_
      obtain ⟨_, hwrites⟩ := h.slots u i x hx
      rw [hop] at hwrites
      cases hwrites
    · rw [hother u hu]
  constructor
  case owned => exact hm.owned h.owned hself hother
  case slots =>
      intro u i x hx
      by_cases hu : u = t
      · subst hu
        rw [hself]
        exact h.slots_self hm hx
      · rw [hother u hu, h.published_other hm hu]
        exact h.slots u i x hx
  case seen =>
      intro v x hv u i r hx hr
      rw [howns u i x hx] at hr
      by_cases hvt : v = t
      · subst hvt
        rw [hself] at hv ⊢
        obtain ⟨q, rec, hq, hrec, hval⟩ := exists_of_published (h.slots u i x hx).1
        rw [hr] at hq
        injection hq with hq
        subst hq
        cases hm with
        | inside _ _ _ _ _ _ hjudging hawaits =>
            exact hawaits r rec i _ hrec hval (h.seen v x (hjudging x hv) u i r hx hr)
        | take => trivial
        | reclaim hop =>
            have hold := h.seen v x (by rw [hop]; exact List.mem_cons_of_mem _ hv) u i r hx hr
            rw [hop] at hold
            exact hold
        | _ => cases hv
      · rw [hother v hvt] at hv ⊢
        exact h.seen v x hv u i r hx hr

/-- **Nothing that is covered is reclaimed.** -/
theorem Guarded.reclaimed (h : Guarded addr D loc cover) (hm : Moves addr D (loc t) D' l' ev)
    (hx : HazardEvent.reclaimed x ∈ ev) (u : τ) (i : Slot) : cover u i ≠ some x := by
  intro hcover
  obtain ⟨r, rec, hr, _, _⟩ := exists_of_published (h.slots u i x hcover).1
  cases hm with
  | @reclaim y xs ys H hop hy =>
      simp only [List.mem_singleton, HazardEvent.reclaimed.injEq] at hx
      subst hx
      have hseen := h.seen t x (by rw [hop]; exact List.mem_cons_self ..) u i r hcover hr
      rw [hop] at hseen
      exact hy hseen
  | push => simp at hx
  | _ => cases hx

/-- A thread asks for something. -/
theorem Guarded.ask {l : Local ι π} (h : Guarded addr D loc cover) (hself : loc' t = l)
    (hother : ∀ u, u ≠ t → loc' u = loc u) (howns : l.owns = (loc t).owns)
    (hjudging : l.op.judging = []) (hcover : ∀ u i x, cover' u i = some x → cover u i = some x)
    (hwrites : ∀ i x, cover' t i = some x → l.op.writes i = false) :
    Guarded addr D loc' cover' := by
  have howns' : ∀ u, (loc' u).owns = (loc u).owns := by
    intro u
    by_cases hu : u = t
    · rw [hu, hself, howns]
    · rw [hother u hu]
  constructor
  case owned => exact h.owned.congr howns' (fun _ h => h) fun r rec hrec => ⟨rec, hrec, rfl⟩
  case slots =>
      intro u i x hx
      obtain ⟨hpub, hw⟩ := h.slots u i x (hcover u i x hx)
      refine ⟨?_, ?_⟩
      · rw [← hpub]
        refine published_eq (howns' u) (fun q hq => ?_) i
        obtain ⟨rec, hrec⟩ := h.exists_record u q hq
        exact ⟨rec, rec, hrec, hrec, rfl⟩
      · by_cases hu : u = t
        · subst hu
          rw [hself]
          exact hwrites i x hx
        · rw [hother u hu]
          exact hw
  case seen =>
      intro v x hv u i r hx hr
      rw [howns' u] at hr
      by_cases hvt : v = t
      · rw [hvt, hself, hjudging] at hv
        cases hv
      · rw [hother v hvt] at hv ⊢
        exact h.seen v x hv u i r (hcover u i x hx) hr

/-- `set_slot` gives up what the slot covered. -/
theorem Guarded.setSlot (h : Guarded addr D loc cover) (hop : (loc t).op = .idle)
    (hself : loc' t = (loc t).setSlot i p) (hother : ∀ u, u ≠ t → loc' u = loc u)
    (hcover : ∀ u j x, cover' u j = some x → cover u j = some x) (hnone : cover' t i = none) :
    Guarded addr D loc' cover' := by
  have howns : (loc t).owns = (loc t).record := by
    unfold Local.owns
    rw [hop]
  refine h.ask hself hother ?_ ?_ hcover ?_
  · rw [howns]
    unfold Local.setSlot Local.owns
    cases hr : (loc t).record <;> simp [Claim.owned]
  · unfold Local.setSlot
    cases (loc t).record <;> rfl
  · intro j x hx
    obtain ⟨r, rec, hr, _, _⟩ := exists_of_published (h.slots t j x (hcover t j x hx)).1
    rw [howns] at hr
    unfold Local.setSlot
    rw [hr]
    refine decide_eq_false fun hij => ?_
    rw [← hij, hnone] at hx
    cases hx

/-- A thread that covers nothing gives up its record. -/
theorem Guarded.exit [DecidableEq τ] (h : Guarded addr D loc cover) (hop : (loc t).op = .idle)
    (hnone : ∀ i, cover t i = none) (hself : loc' t = (exit D (loc t)).2)
    (hother : ∀ u, u ≠ t → loc' u = loc u) :
    Guarded addr (Hazard.exit D (loc t)).1 loc' cover := by
  have howns : (loc t).owns = (loc t).record := by
    unfold Local.owns
    rw [hop]
  cases hr : (loc t).record with
  | none =>
      have hexit : Hazard.exit D (loc t) = (D, loc t) := by
        unfold Hazard.exit
        rw [hr]
      rw [hexit] at hself ⊢
      refine h.ask hself hother rfl (by rw [hop]; rfl) (fun _ _ _ hx => hx) fun i x hx => ?_
      rw [hnone i] at hx
      cases hx
  | some r =>
      have hexit : Hazard.exit D (loc t) =
          ({ D with reg := D.reg.modify r fun rec => { rec with active := false } },
            { loc t with record := none }) := by
        unfold Hazard.exit
        rw [hr]
      rw [hexit] at hself ⊢
      have hut : ∀ u i x, cover u i = some x → u ≠ t := by
        intro u i x hx hu
        rw [hu, hnone i] at hx
        cases hx
      constructor
      case owned =>
          refine h.owned.touch (t := t) (howns.trans hr) (fun u hu => by rw [hother u hu])
            (fun _ _ h => h) (.inl ?_)
          rw [hself]
          unfold Local.owns
          rw [hop]
      case slots =>
          intro u i x hx
          obtain ⟨hpub, hwrites⟩ := h.slots u i x hx
          rw [hother u (hut u i x hx)]
          have hsame := published_exit D (loc t) (loc u) i
          rw [hexit] at hsame
          exact ⟨hsame.trans hpub, hwrites⟩
      case seen =>
          intro v x hv u i q hx hq
          rw [hother u (hut u i x hx)] at hq
          by_cases hvt : v = t
          · rw [hvt, hself, hop] at hv
            cases hv
          · rw [hother v hvt] at hv ⊢
            exact h.seen v x hv u i q hx hq

/-- A slot that holds a pointer which is not retired covers it. -/
theorem Guarded.protect (h : Guarded addr D loc cover) (hwrites : (loc t).op.writes i = false)
    (hpub : published D (loc t) i = some (addr x)) (hfree : ∀ u, x ∉ (loc u).op.judging)
    (hcover : ∀ u j y, cover' u j = some y → cover u j = some y ∨ (u = t ∧ j = i ∧ y = x)) :
    Guarded addr D loc cover' := by
  constructor
  case owned => exact h.owned
  case slots =>
      intro u j y hy
      rcases hcover u j y hy with hy | ⟨rfl, rfl, rfl⟩
      · exact h.slots u j y hy
      · exact ⟨hpub, hwrites⟩
  case seen =>
      intro v y hv u j r hy hr
      rcases hcover u j y hy with hy | ⟨rfl, rfl, rfl⟩
      · exact h.seen v y hv u j r hy hr
      · exact absurd hv (hfree v)

end Guarded

/-! ## Where the retired pointers are -/

theorem Op.mem_carried_of_judging {op : Op ι π} (h : x ∈ op.judging) : x ∈ op.carried := by
  cases op with
  | sift xs H ys => exact List.mem_append_left _ h
  | head xs => exact h
  | collect xs H k i => exact h
  | _ => cases h

theorem Op.held_sublist_carried (op : Op ι π) : op.held.Sublist op.carried := by
  cases op with
  | push x => exact List.nil_sublist _
  | _ => exact List.Sublist.refl _

/-- A step reclaims nothing, or one pointer that the thread has in its hands. -/
theorem Moves.reclaims {addr : ι → π} {D D' : Domain ι π} {l l' : Local ι π}
    {ev : List (HazardEvent ι)} (h : Moves addr D l D' l' ev) :
    (∀ x, reclaimed x ∉ ev) ∨ ∃ x, ev = [reclaimed x] ∧ x ∈ l.op.carried := by
  cases h with
  | @reclaim x xs ys H hop =>
      refine .inr ⟨x, rfl, ?_⟩
      rw [hop]
      exact List.mem_append_left _ (List.mem_cons_self ..)
  | _ => exact .inl (by simp)

section Custody

variable [DecidableEq ι] {addr : ι → π} {D D' : Domain ι π} {l l' : Local ι π}
  {ev : List (HazardEvent ι)}

/-- A pointer that is retired arrives, one that is reclaimed goes, and no other is lost or
made. -/
theorem Moves.count_held (h : Moves addr D l D' l' ev) (x : ι) :
    D'.retire.count x + l'.op.held.count x + ev.count (reclaimed x) =
      D.retire.count x + l.op.held.count x + ev.count (retired x) := by
  cases h with
  | inside _ _ _ _ _ hheld => simp [hheld.count_eq]
  | claim hop => simp [hop, Op.held]
  | claimed hop => simp [hop, Op.held]
  | store hop => simp [hop, Op.held]
  | push hop => simp [hop, Op.held, List.count_append, List.count_singleton]
  | take hop hxs => simp [hop, Op.held, hxs]
  | reclaim hop =>
      simp [hop, Op.held, List.count_append, List.count_cons]
      omega
  | giveBack hop => simp [hop, Op.held, List.count_append]

/-- The same, where a pointer that is just being retired counts as there. -/
theorem Moves.count_carried (h : Moves addr D l D' l' ev) (x : ι) :
    D'.retire.count x + l'.op.carried.count x + ev.count (reclaimed x) =
      D.retire.count x + l.op.carried.count x := by
  cases h with
  | inside _ _ _ _ hcarried => simp [hcarried.count_eq]
  | claim hop => simp [hop, Op.carried, Op.held]
  | claimed hop => simp [hop, Op.carried, Op.held]
  | store hop => simp [hop, Op.carried, Op.held]
  | push hop => simp [hop, Op.carried, Op.held, List.count_append]
  | take hop hxs => simp [hop, Op.carried, Op.held, hxs]
  | reclaim hop =>
      simp [hop, Op.carried, Op.held, List.count_append, List.count_cons]
      omega
  | giveBack hop => simp [hop, Op.carried, Op.held, List.count_append]

end Custody

end CrossMachine.Reclaim.Hazard
