import Mathlib.Data.List.Basic

/-!
# The registry of thread records

`RcuDomain`, `EpochDomain` and `HazardDomain` keep the same list of thread records and
hand them out by the same function, `get_or_create_record`. A record is linked in once
and never taken out; a thread that finds a record whose `active` flag is clear takes it
over, and otherwise links in a new one at the head.

A list in the order of publication says all of this: the head is its last element, the
`next` of a record is the element before it, and a record is its position. `next` does
not change once a record is published, so following it is not a step of its own.

What differs between the three is what else a record holds (`β`), and when `active` is
set. `Owned` says what claiming rests on: the record of a thread that is `busy` is active.
-/

namespace CrossMachine.Reclaim

variable {τ β : Type*}

/-- `ThreadRecord`. -/
structure Record (β : Type*) where
  active : Bool
  val : β
  deriving DecidableEq, Repr

/-- `head_` with everything it leads to, and `thread_count_`. -/
structure Registry (β : Type*) where
  recs : List (Record β)
  threadCount : Nat
  deriving DecidableEq, Repr

/-- Where a thread is in `get_or_create_record`. -/
inductive Claim where
  /-- Before the first load of `head_`. -/
  | start
  /-- The first `k` records are still to be tried, the last of them next. -/
  | seek (k : Nat)
  /-- A record of its own is ready to be linked in, when `old` records are linked. -/
  | publish (old : Nat)
  /-- Linked in as record `r`, not yet counted. -/
  | bump (r : Nat)
  deriving DecidableEq, Repr

namespace Registry

/-- Change what record `r` holds. -/
def modify (R : Registry β) (r : Nat) (f : Record β → Record β) : Registry β :=
  { R with recs := R.recs.modify r f }

/-- One atomic operation of `get_or_create_record`, for records that start out as `fresh`.
The exchange of `head_` is a weak one and may fail for no reason. -/
def claim (fresh : β) (R : Registry β) (weak : Bool) : Claim → Registry β × (Claim ⊕ Nat)
  | .start => (R, .inl (.seek R.recs.length))
  | .seek 0 => (R, .inl (.publish R.recs.length))
  | .seek (k + 1) =>
      match R.recs[k]? with
      | some r =>
          if r.active then (R, .inl (.seek k))
          else (R.modify k fun r => { r with active := true }, .inr k)
      | none => (R, .inl (.seek k))
  | .publish old =>
      if old = R.recs.length ∧ weak = false then
        ({ R with recs := R.recs ++ [⟨true, fresh⟩] }, .inl (.bump old))
      else (R, .inl (.publish R.recs.length))
  | .bump r => ({ R with threadCount := R.threadCount + 1 }, .inr r)

end Registry

/-- The record a thread has while it is still claiming it. -/
def Claim.owned : Claim → Option Nat
  | .bump r => some r
  | _ => none

/-- What a step of `get_or_create_record` can do: look around, take over a record that
nobody uses, link in a new one, or count the one it linked in. -/
inductive Claims (fresh : β) (R : Registry β) : Claim → Registry β → Claim ⊕ Nat → Prop where
  | look {c c' : Claim} : c.owned = none → c'.owned = none → Claims fresh R c R (.inl c')
  | reuse {k : Nat} {rec : Record β} : R.recs[k]? = some rec → rec.active = false →
      Claims fresh R (.seek (k + 1)) (R.modify k fun r => { r with active := true }) (.inr k)
  | add {old : Nat} : Claims fresh R (.publish old) { R with recs := R.recs ++ [⟨true, fresh⟩] }
      (.inl (.bump R.recs.length))
  | count {r : Nat} : Claims fresh R (.bump r) { R with threadCount := R.threadCount + 1 } (.inr r)

theorem claim_claims (fresh : β) (R : Registry β) (weak : Bool) (c : Claim) :
    Claims fresh R c (R.claim fresh weak c).1 (R.claim fresh weak c).2 := by
  cases c with
  | start => exact .look rfl rfl
  | seek k =>
      cases k with
      | zero => exact .look rfl rfl
      | succ k =>
          cases hk : R.recs[k]? with
          | none =>
              simp only [Registry.claim, hk]
              exact .look rfl rfl
          | some rec =>
              cases hactive : rec.active with
              | true =>
                  simp only [Registry.claim, hk, hactive, if_true]
                  exact .look rfl rfl
              | false =>
                  simp only [Registry.claim, hk, hactive, Bool.false_eq_true, if_false]
                  exact .reuse hk hactive
  | publish old =>
      by_cases h : old = R.recs.length ∧ weak = false
      · simp only [Registry.claim, if_pos h]
        rw [h.1]
        exact .add
      · simp only [Registry.claim, if_neg h]
        exact .look rfl rfl
  | bump r => exact .count

/-! ## Reading a changed registry -/

variable {r q : Nat} {rec : Record β} {f : Record β → Record β} {fresh : β} {c : Claim}
  {o : Claim ⊕ Nat}

theorem getElem?_modify_self {R : Registry β} (h : R.recs[r]? = some rec)
    (f : Record β → Record β) : (R.modify r f).recs[r]? = some (f rec) := by
  simp [Registry.modify, h]

theorem getElem?_modify_ne (R : Registry β) (h : r ≠ q) (f : Record β → Record β) :
    (R.modify r f).recs[q]? = R.recs[q]? := by
  simp [Registry.modify, h]

theorem getElem?_of_modify {R : Registry β} (h : (R.modify r f).recs[q]? = some rec) :
    (r = q ∧ ∃ rec₀, R.recs[q]? = some rec₀ ∧ rec = f rec₀) ∨ (r ≠ q ∧ R.recs[q]? = some rec) := by
  by_cases hrq : r = q
  · subst hrq
    refine .inl ⟨rfl, ?_⟩
    simp only [Registry.modify, List.getElem?_modify, if_true, Option.map_eq_map,
      Option.map_eq_some_iff] at h
    obtain ⟨rec₀, h₀, rfl⟩ := h
    exact ⟨rec₀, h₀, rfl⟩
  · rw [getElem?_modify_ne R hrq] at h
    exact .inr ⟨hrq, h⟩

theorem exists_getElem?_modify {R : Registry β} (h : R.recs[q]? = some rec)
    (hf : ∀ rec, (f rec).active = rec.active) :
    ∃ rec' : Record β, (R.modify r f).recs[q]? = some rec' ∧ rec'.active = rec.active := by
  by_cases hq : r = q
  · subst hq
    exact ⟨f rec, getElem?_modify_self h f, hf rec⟩
  · exact ⟨rec, by rw [getElem?_modify_ne R hq, h], rfl⟩

theorem getElem?_snoc_of_some {recs : List (Record β)} (x : Record β) (h : recs[r]? = some rec) :
    (recs ++ [x])[r]? = some rec := by
  rw [List.getElem?_append_left (List.getElem?_eq_some_iff.mp h).1, h]

/-- `get_or_create_record` changes what no record holds. -/
theorem claims_val {R R' : Registry β} (h : Claims fresh R c R' o) {rec' : Record β}
    (hrec' : R'.recs[q]? = some rec') :
    (∃ rec, R.recs[q]? = some rec ∧ rec.val = rec'.val ∧
      (rec.active = rec'.active ∨ rec'.active = true)) ∨
    (R.recs.length = q ∧ rec' = ⟨true, fresh⟩) := by
  cases h with
  | look => exact .inl ⟨rec', hrec', rfl, .inl rfl⟩
  | reuse hrec hact =>
      rcases getElem?_of_modify hrec' with ⟨_, rec, hrec, heq⟩ | ⟨_, hrec⟩
      · exact .inl ⟨rec, hrec, by rw [heq], .inr (by rw [heq])⟩
      · exact .inl ⟨rec', hrec, rfl, .inl rfl⟩
  | add =>
      rcases Nat.lt_or_ge q R.recs.length with hlt | hge
      · simp only [List.getElem?_append_left hlt] at hrec'
        exact .inl ⟨rec', hrec', rfl, .inl rfl⟩
      · simp only [List.getElem?_append_right hge] at hrec'
        obtain ⟨hq, heq⟩ := List.getElem?_eq_some_iff.mp hrec'
        simp only [List.length_singleton, Nat.lt_one_iff] at hq
        exact .inr ⟨by omega, by simpa using heq.symm⟩
  | count => exact .inl ⟨rec', hrec', rfl, .inl rfl⟩

/-- No record goes away. -/
theorem claims_length {R R' : Registry β} (h : Claims fresh R c R' o) :
    R.recs.length ≤ R'.recs.length := by
  cases h with
  | look => exact Nat.le_refl _
  | reuse => simp [Registry.modify]
  | add => simp
  | count => exact Nat.le_refl _

theorem claims_keep {R R' : Registry β} (h : Claims fresh R c R' o) (hrec : R.recs[q]? = some rec) :
    ∃ rec' : Record β, R'.recs[q]? = some rec' ∧ rec'.val = rec.val := by
  have hq := (List.getElem?_eq_some_iff.mp hrec).1
  have hrec' := List.getElem?_eq_getElem (Nat.lt_of_lt_of_le hq (claims_length h))
  rcases claims_val h hrec' with ⟨rec₀, hrec₀, heq, _⟩ | ⟨hlen, _⟩
  · rw [hrec] at hrec₀
    injection hrec₀ with heq₀
    exact ⟨_, hrec', by rw [← heq, heq₀]⟩
  · omega

/-! ## Ownership -/

/-- No two threads own one record, and the records of the threads that are `busy` are
active. -/
structure Owned (R : Registry β) (own : τ → Option Nat) (busy : τ → Prop) : Prop where
  active : ∀ t r, own t = some r →
    ∃ rec : Record β, R.recs[r]? = some rec ∧ (busy t → rec.active = true)
  unique : ∀ t u r, own t = some r → own u = some r → t = u

namespace Owned

variable {R R' : Registry β} {own own' : τ → Option Nat} {busy busy' : τ → Prop}

/-- Nothing that matters to ownership has changed. -/
theorem congr (h : Owned R own busy) (hown : ∀ t, own' t = own t) (hbusy : ∀ t, busy' t → busy t)
    (hrecs : ∀ (r : Nat) (rec : Record β), R.recs[r]? = some rec →
      ∃ rec' : Record β, R'.recs[r]? = some rec' ∧ rec'.active = rec.active) :
    Owned R' own' busy' := by
  constructor
  case active =>
      intro t r ht
      obtain ⟨rec, hrec, hact⟩ := h.active t r (hown t ▸ ht)
      obtain ⟨rec', hrec', hact'⟩ := hrecs r rec hrec
      exact ⟨rec', hrec', fun hb => hact'.trans (hact (hbusy t hb))⟩
  case unique =>
      intro t u r ht hu
      exact h.unique t u r (hown t ▸ ht) (hown u ▸ hu)

/-- A record changes in something else than `active`. -/
theorem modify (h : Owned R own busy) (r : Nat) (hf : ∀ rec, (f rec).active = rec.active) :
    Owned (R.modify r f) own busy :=
  h.congr (fun _ => rfl) (fun _ hb => hb) fun _ _ hrec => exists_getElem?_modify hrec hf

variable {t : τ}

/-- A thread changes its record, or gives it up. -/
theorem touch [DecidableEq τ] (h : Owned R own busy) (ht : own t = some r)
    (hown : ∀ u, u ≠ t → own' u = own u) (hbusy : ∀ u, u ≠ t → busy' u → busy u)
    (hmine : own' t = none ∨ own' t = some r ∧ ∀ rec, busy' t → (f rec).active = true) :
    Owned (R.modify r f) own' busy' := by
  constructor
  case active =>
      intro u q hu
      by_cases hut : u = t
      · subst hut
        rcases hmine with hnone | ⟨hsome, hact⟩
        · rw [hnone] at hu
          cases hu
        · rw [hsome] at hu
          injection hu with hu
          subst hu
          obtain ⟨rec, hrec, _⟩ := h.active u r ht
          exact ⟨f rec, getElem?_modify_self hrec f, hact rec⟩
      · rw [hown u hut] at hu
        have hne : r ≠ q := by
          intro heq
          subst heq
          exact hut (h.unique u t r hu ht)
        rw [getElem?_modify_ne R hne]
        obtain ⟨rec, hrec, hact⟩ := h.active u q hu
        exact ⟨rec, hrec, fun hb => hact (hbusy u hut hb)⟩
  case unique =>
      have hback : ∀ u q, own' u = some q → own u = some q := by
        intro u q hu
        by_cases hut : u = t
        · subst hut
          rcases hmine with hnone | ⟨hsome, _⟩
          · rw [hnone] at hu
            cases hu
          · rw [ht, ← hsome, hu]
        · rw [← hown u hut, hu]
      intro u v q hu hv
      exact h.unique u v q (hback u q hu) (hback v q hv)

/-- A thread gets a record that nobody has. -/
theorem acquire [DecidableEq τ] (h : Owned R own busy) {k : Nat} (hfree : ∀ u, own u ≠ some k)
    (hown : ∀ u, own' u = if u = t then some k else own u) (hbusy : ∀ u, busy' u → busy u)
    (hk : ∃ rec : Record β, R'.recs[k]? = some rec ∧ rec.active = true)
    (hrest : ∀ r, r ≠ k → ∀ rec, R.recs[r]? = some rec → R'.recs[r]? = some rec) :
    Owned R' own' busy' := by
  constructor
  case active =>
      intro u r hu
      rw [hown] at hu
      split at hu
      · injection hu with hu
        subst hu
        obtain ⟨rec, hrec, hact⟩ := hk
        exact ⟨rec, hrec, fun _ => hact⟩
      · have hne : r ≠ k := by
          intro heq
          subst heq
          exact hfree u hu
        obtain ⟨rec, hrec, hact⟩ := h.active u r hu
        exact ⟨rec, hrest r hne rec hrec, fun hb => hact (hbusy u hb)⟩
  case unique =>
      intro u v r hu hv
      rw [hown] at hu hv
      split at hu
      · rename_i hut
        injection hu with hu
        subst hu
        split at hv
        · rename_i hvt
          rw [hut, hvt]
        · exact absurd hv (hfree v)
      · split at hv
        · injection hv with hv
          subst hv
          exact absurd hu (hfree u)
        · exact h.unique u v r hu hv

/-- **Claiming a record keeps ownership exclusive**, when whoever owns the record that is
tried is busy. -/
theorem claims [DecidableEq τ] (h : Owned R own busy) (hc : Claims fresh R c R' o)
    (ht : own t = c.owned) (hown : ∀ u, own' u = if u = t then o.elim Claim.owned some else own u)
    (hbusy : ∀ u, busy' u → busy u)
    (htried : ∀ k, c = .seek (k + 1) → ∀ u, own u = some k → busy u) : Owned R' own' busy' := by
  cases hc with
  | look hnone hnone' =>
      refine h.congr (fun u => ?_) hbusy fun r rec hrec => ⟨rec, hrec, rfl⟩
      rw [hown]
      split
      · rename_i hut
        rw [hut, ht, hnone]
        exact hnone'
      · rfl
  | @reuse k rec hrec hinactive =>
      refine h.acquire ?_ hown hbusy ⟨_, getElem?_modify_self hrec _, rfl⟩ ?_
      · -- the record of a busy thread would be active
        intro u hu
        obtain ⟨rec', hrec', hact⟩ := h.active u k hu
        have hact' := hact (htried k rfl u hu)
        rw [hrec] at hrec'
        injection hrec' with heq
        rw [← heq, hinactive] at hact'
        cases hact'
      · intro r hne rec' hrec'
        rw [getElem?_modify_ne R hne.symm, hrec']
  | add =>
      refine h.acquire ?_ hown hbusy ⟨⟨true, fresh⟩, by simp, rfl⟩ ?_
      · intro u hu
        obtain ⟨rec', hrec', _⟩ := h.active u _ hu
        rw [List.getElem?_eq_none (Nat.le_refl _)] at hrec'
        cases hrec'
      · intro r _ rec' hrec'
        exact getElem?_snoc_of_some _ hrec'
  | count =>
      refine h.congr (fun u => ?_) hbusy fun r rec hrec => ⟨rec, hrec, rfl⟩
      rw [hown]
      split
      · rename_i hut
        rw [hut, ht]
        rfl
      · rfl

end Owned

end CrossMachine.Reclaim
