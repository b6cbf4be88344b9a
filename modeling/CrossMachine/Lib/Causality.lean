import CrossMachine.Lib.Prefix
import Mathlib.Logic.Relation
import Mathlib.Order.Basic
import Mathlib.Order.Nat
import Mathlib.Order.MinMax

/-!
# Happens-before in a history

A history lists what happened at a set of processes, in the order in which it
happened. An occurrence names its process and, when it takes in a message, the
earlier occurrence that sent it. Nothing here knows what a message holds or how
causality is going to be measured.

One occurrence directly precedes a later one when both are of one process or
when the later one takes in what the earlier one sent; happens-before is the
transitive closure. A history grows at its end only, and what was before what
does not change when it does: `happensBefore_append` and
`happensBefore_snoc` are the two rules an induction over a history needs.
-/

namespace CrossMachine.Lib

variable {π : Type*}

/-- Something that happened at `proc`; `cause` is the position of the occurrence
whose message it took in. -/
structure Occurrence (π : Type*) where
  proc : π
  cause : Option Nat

/-- Position `i` directly precedes position `j`. -/
def Direct (h : List (Occurrence π)) (i j : Nat) : Prop :=
  i < j ∧ ∃ a b, h[i]? = some a ∧ h[j]? = some b ∧ (a.proc = b.proc ∨ b.cause = some i)

/-- Lamport's relation on the positions of a history. -/
def HappensBefore (h : List (Occurrence π)) : Nat → Nat → Prop :=
  Relation.TransGen (Direct h)

/-- What has happened by position `j`, itself included. -/
def CausalPast (h : List (Occurrence π)) (i j : Nat) : Prop :=
  i = j ∨ HappensBefore h i j

variable {h : List (Occurrence π)} {i j k : Nat}

theorem Direct.lt (hd : Direct h i j) : i < j := hd.1

theorem Direct.lt_length (hd : Direct h i j) : j < h.length := by
  obtain ⟨-, a, b, -, hb, -⟩ := hd
  exact (List.getElem?_eq_some_iff.mp hb).1

theorem HappensBefore.lt (hb : HappensBefore h i j) : i < j := by
  induction hb with
  | single hd => exact hd.lt
  | tail _ hd ih => exact ih.trans hd.lt

theorem HappensBefore.lt_length (hb : HappensBefore h i j) : j < h.length := by
  cases hb with
  | single hd => exact hd.lt_length
  | tail _ hd => exact hd.lt_length

theorem CausalPast.le (hp : CausalPast h i j) : i ≤ j := by
  rcases hp with rfl | hb
  · exact le_refl _
  · exact hb.lt.le

theorem CausalPast.trans_direct (hp : CausalPast h i j) (hd : Direct h j k) :
    HappensBefore h i k := by
  rcases hp with rfl | hb
  · exact .single hd
  · exact .tail hb hd

/-- The last link of a causal chain. -/
theorem happensBefore_iff :
    HappensBefore h i k ↔ ∃ j, CausalPast h i j ∧ Direct h j k := by
  constructor
  · intro hb
    cases hb with
    | single hd => exact ⟨i, .inl rfl, hd⟩
    | tail hb hd => exact ⟨_, .inr hb, hd⟩
  · rintro ⟨j, hp, hd⟩
    exact hp.trans_direct hd

/-! ## Growing a history -/

theorem direct_append (x : Occurrence π) (hj : j < h.length) :
    Direct (h ++ [x]) i j ↔ Direct h i j := by
  unfold Direct
  refine and_congr_right fun hlt => ?_
  rw [List.getElem?_append_left (hlt.trans hj), List.getElem?_append_left hj]

/-- A new occurrence changes nothing about the old ones. -/
theorem happensBefore_append (x : Occurrence π) (hj : j < h.length) :
    HappensBefore (h ++ [x]) i j ↔ HappensBefore h i j := by
  constructor
  · intro hb
    induction hb with
    | single hd => exact .single ((direct_append x hj).mp hd)
    | tail _ hd ih => exact .tail (ih (hd.lt.trans hj)) ((direct_append x hj).mp hd)
  · intro hb
    induction hb with
    | single hd => exact .single ((direct_append x hj).mpr hd)
    | tail _ hd ih => exact .tail (ih (hd.lt.trans hj)) ((direct_append x hj).mpr hd)

theorem causalPast_append (x : Occurrence π) (hj : j < h.length) :
    CausalPast (h ++ [x]) i j ↔ CausalPast h i j :=
  or_congr_right (happensBefore_append x hj)

/-- What directly precedes the occurrence just added. -/
theorem direct_snoc (x : Occurrence π) :
    Direct (h ++ [x]) i h.length ↔
      ∃ a, h[i]? = some a ∧ (a.proc = x.proc ∨ x.cause = some i) := by
  constructor
  · rintro ⟨hlt, a, b, ha, hb, hab⟩
    rw [List.getElem?_append_left hlt] at ha
    rw [List.getElem?_concat_length, Option.some.injEq] at hb
    subst hb
    exact ⟨a, ha, hab⟩
  · rintro ⟨a, ha, hab⟩
    have hlt : i < h.length := (List.getElem?_eq_some_iff.mp ha).1
    exact ⟨hlt, a, x, by rw [List.getElem?_append_left hlt, ha], List.getElem?_concat_length, hab⟩

/-- What happened before the occurrence just added: all that its process or its
message's sender had seen. -/
theorem happensBefore_snoc (x : Occurrence π) :
    HappensBefore (h ++ [x]) i h.length ↔
      ∃ j a, h[j]? = some a ∧ (a.proc = x.proc ∨ x.cause = some j) ∧ CausalPast h i j := by
  rw [happensBefore_iff]
  constructor
  · rintro ⟨j, hp, hd⟩
    rw [causalPast_append x hd.lt] at hp
    obtain ⟨a, ha, hax⟩ := (direct_snoc x).mp hd
    exact ⟨j, a, ha, hax, hp⟩
  · rintro ⟨j, a, ha, hax, hp⟩
    have hd : Direct (h ++ [x]) j h.length := (direct_snoc x).mpr ⟨a, ha, hax⟩
    exact ⟨j, (causalPast_append x hd.lt).mpr hp, hd⟩

/-- Two occurrences are never each before the other. -/
theorem HappensBefore.asymm (hb : HappensBefore h i j) : ¬ HappensBefore h j i :=
  fun hb' => Nat.lt_asymm hb.lt hb'.lt

/-! ## Stamps that measure causality -/

/-- Counters, one for each process, that measure causality in `h`: `stamp i` is
what position `i` was stamped with, `live p` what process `p` has reached. -/
structure Measures (h : List (Occurrence π)) (stamp : Nat → π → Nat) (live : π → π → Nat) :
    Prop where
  /-- An occurrence has counted itself. -/
  pos : ∀ {i a}, h[i]? = some a → 0 < stamp i a.proc
  /-- Reaching the own count of an occurrence is having it in the past. -/
  reaches : ∀ {i j a}, h[i]? = some a → j < h.length →
    (stamp i a.proc ≤ stamp j a.proc ↔ CausalPast h i j)
  /-- Stamps grow along causality. -/
  grows : ∀ {i j}, HappensBefore h i j → ∀ q, stamp i q ≤ stamp j q
  /-- A process has in its past what one of its occurrences has. -/
  live_reaches : ∀ {i a p}, h[i]? = some a →
    (stamp i a.proc ≤ live p a.proc ↔ ∃ j b, h[j]? = some b ∧ b.proc = p ∧ CausalPast h i j)
  /-- A process has reached the stamps of its occurrences. -/
  live_grows : ∀ {j b}, h[j]? = some b → ∀ q, stamp j q ≤ live b.proc q
  /-- Nobody knows more of a process than the process itself. -/
  live_own : ∀ p q, live p q ≤ live q q

variable {stamp : Nat → π → Nat} {live : π → π → Nat}

/-- Domination of stamps is causality. -/
theorem Measures.le_iff (hm : Measures h stamp live) (hi : i < h.length) (hj : j < h.length)
    (hne : i ≠ j) : (∀ q, stamp i q ≤ stamp j q) ↔ HappensBefore h i j := by
  constructor
  · intro hle
    have ha : h[i]? = some h[i] := List.getElem?_eq_getElem hi
    rcases (hm.reaches ha hj).mp (hle _) with heq | hb
    · exact absurd heq hne
    · exact hb
  · exact fun hb => hm.grows hb

/-- A stamp never runs ahead of the process it counts. -/
theorem Measures.stamp_le_own (hm : Measures h stamp live) (hj : j < h.length) (q : π) :
    stamp j q ≤ live q q :=
  (hm.live_grows (List.getElem?_eq_getElem hj) q).trans (hm.live_own _ q)

theorem measures_nil : Measures ([] : List (Occurrence π)) (fun _ _ => 0) (fun _ _ => 0) where
  pos := by simp
  reaches := by simp
  grows hb := absurd hb.lt_length (by simp)
  live_reaches := by simp
  live_grows := by simp
  live_own _ _ := le_refl _

section Snoc

variable {x : Occurrence π} {r s : π → Nat}

/-- What the next occurrence of `x.proc` merges: what the process has reached and
what it received, which is nothing or the stamp of the message's sender. -/
theorem Measures.merge_reaches (hm : Measures h stamp live)
    (hcause : ∀ m, x.cause = some m → m < h.length)
    (hr : ∀ q, r q = (x.cause.map fun m => stamp m q).getD 0)
    {a : Occurrence π} (ha : h[i]? = some a) :
    stamp i a.proc ≤ max (live x.proc a.proc) (r a.proc) ↔ HappensBefore (h ++ [x]) i h.length := by
  rw [happensBefore_snoc, le_max_iff, hm.live_reaches ha, hr]
  constructor
  · rintro (⟨j, b, hb, hbp, hp⟩ | hle)
    · exact ⟨j, b, hb, .inl hbp, hp⟩
    · cases hc : x.cause with
      | none =>
          rw [hc] at hle
          exact absurd hle (by simpa using (hm.pos ha).ne')
      | some m =>
          rw [hc] at hle
          have hlt : m < h.length := hcause m hc
          exact ⟨m, h[m], List.getElem?_eq_getElem hlt, .inr rfl, (hm.reaches ha hlt).mp hle⟩
  · rintro ⟨j, b, hb, hbp | hc, hp⟩
    · exact .inl ⟨j, b, hb, hbp, hp⟩
    · refine .inr ?_
      rw [hc]
      exact (hm.reaches ha (List.getElem?_eq_some_iff.mp hb).1).mpr hp

/-- All that the next occurrence merges stays below what its process counts. -/
theorem Measures.merge_le_own (hm : Measures h stamp live)
    (hcause : ∀ m, x.cause = some m → m < h.length)
    (hr : ∀ q, r q = (x.cause.map fun m => stamp m q).getD 0) (q : π) :
    max (live x.proc q) (r q) ≤ live q q := by
  refine max_le (hm.live_own _ q) ?_
  rw [hr]
  cases hc : x.cause with
  | none => exact Nat.zero_le _
  | some m => exact hm.stamp_le_own (hcause m hc) q

variable [DecidableEq π]

/-- The next occurrence counts itself one above all that its process had. -/
theorem Measures.stamp_own (hm : Measures h stamp live)
    (hcause : ∀ m, x.cause = some m → m < h.length)
    (hr : ∀ q, r q = (x.cause.map fun m => stamp m q).getD 0)
    (hs : ∀ q, s q = max (live x.proc q) (r q) + if q = x.proc then 1 else 0) :
    s x.proc = live x.proc x.proc + 1 := by
  have hle := hm.merge_le_own hcause hr x.proc
  rw [hs, if_pos rfl]
  omega

/-- What the next occurrence has in its past is what its stamp reaches. -/
theorem Measures.snoc_reaches (hm : Measures h stamp live)
    (hcause : ∀ m, x.cause = some m → m < h.length)
    (hr : ∀ q, r q = (x.cause.map fun m => stamp m q).getD 0)
    (hs : ∀ q, s q = max (live x.proc q) (r q) + if q = x.proc then 1 else 0)
    {a : Occurrence π} (ha : h[i]? = some a) :
    stamp i a.proc ≤ s a.proc ↔ CausalPast (h ++ [x]) i h.length := by
  have hi : i < h.length := (List.getElem?_eq_some_iff.mp ha).1
  have hpast : CausalPast (h ++ [x]) i h.length ↔ HappensBefore (h ++ [x]) i h.length :=
    ⟨fun hp => hp.resolve_left hi.ne, .inr⟩
  rw [hpast]
  by_cases hq : a.proc = x.proc
  · -- an occurrence of the same process is before the new one, and counted
    have hown := hm.stamp_own hcause hr hs
    have hle := hm.stamp_le_own hi x.proc
    rw [hq]
    exact iff_of_true (by omega) ((happensBefore_snoc x).mpr ⟨i, a, ha, .inl hq, .inl rfl⟩)
  · rw [hs, if_neg hq, Nat.add_zero]
    exact hm.merge_reaches hcause hr ha

/-- The invariant rule of a history: an occurrence that merges what its process
has reached with what it received, and counts itself, keeps the measure. -/
theorem Measures.snoc (hm : Measures h stamp live)
    (hcause : ∀ m, x.cause = some m → m < h.length)
    (hr : ∀ q, r q = (x.cause.map fun m => stamp m q).getD 0)
    (hs : ∀ q, s q = max (live x.proc q) (r q) + if q = x.proc then 1 else 0) :
    Measures (h ++ [x]) (Function.update stamp h.length s) (Function.update live x.proc s) := by
  have hown := hm.stamp_own hcause hr hs
  have hnew : Function.update stamp h.length s h.length = s := Function.update_self ..
  have hold : ∀ {j}, j < h.length → Function.update stamp h.length s j = stamp j :=
    fun hj => Function.update_of_ne hj.ne _ _
  have hlive : ∀ q, live x.proc q ≤ s q := fun q => by
    rw [hs]; exact (le_max_left _ _).trans (Nat.le_add_right _ _)
  have hrecv : ∀ q, r q ≤ s q := fun q => by
    rw [hs]; exact (le_max_right _ _).trans (Nat.le_add_right _ _)
  have hpast : ∀ {i a}, (h ++ [x])[i]? = some a →
      (Function.update stamp h.length s i a.proc ≤ s a.proc ↔
        CausalPast (h ++ [x]) i h.length) := by
    intro i a ha
    rcases getElem?_snoc ha with ⟨hi, ha⟩ | ⟨rfl, rfl⟩
    · rw [hold hi]
      exact hm.snoc_reaches hcause hr hs ha
    · rw [hnew]
      exact iff_of_true (le_refl _) (.inl rfl)
  -- the new occurrence is above all that anyone else has reached of its process
  have hfresh : ∀ {j}, j < h.length → ¬ s x.proc ≤ stamp j x.proc := fun hj => by
    have := hm.stamp_le_own hj x.proc
    omega
  refine
    { pos := ?pos, reaches := ?reaches, grows := ?grows,
      live_reaches := ?live_reaches, live_grows := ?live_grows, live_own := ?live_own }
  case pos =>
    intro i a ha
    rcases getElem?_snoc ha with ⟨hi, ha⟩ | ⟨rfl, rfl⟩
    · rw [hold hi]; exact hm.pos ha
    · rw [hnew]; omega
  case reaches =>
    intro i j a ha hj
    rcases Nat.lt_or_ge j h.length with hj' | hj'
    · rw [hold hj', causalPast_append x hj']
      rcases getElem?_snoc ha with ⟨hi, ha⟩ | ⟨rfl, rfl⟩
      · rw [hold hi]; exact hm.reaches ha hj'
      · rw [hnew]
        exact iff_of_false (hfresh hj') fun hp => absurd hp.le (by omega)
    · obtain rfl : j = h.length := by rw [List.length_append, List.length_singleton] at hj; omega
      rw [hnew]
      exact hpast ha
  case grows =>
    intro i j hb q
    rcases Nat.lt_or_ge j h.length with hj | hj
    · rw [hold hj, hold (hb.lt.trans hj)]
      exact hm.grows ((happensBefore_append x hj).mp hb) q
    · obtain rfl : j = h.length := by
        have := hb.lt_length
        rw [List.length_append, List.length_singleton] at this
        omega
      rw [hnew, hold hb.lt]
      obtain ⟨k, b, hk, hbk, hp⟩ := (happensBefore_snoc x).mp hb
      have hik : stamp i q ≤ stamp k q := by
        rcases hp with rfl | hp
        · exact le_refl _
        · exact hm.grows hp q
      refine hik.trans ?_
      rcases hbk with hproc | hc
      · exact (hm.live_grows hk q).trans (hproc ▸ hlive q)
      · refine le_trans ?_ (hrecv q)
        rw [hr, hc]
        exact le_refl _
  case live_reaches =>
    intro i a p ha
    by_cases hp : p = x.proc
    · rw [hp, Function.update_self, hpast ha]
      constructor
      · exact fun hpast => ⟨h.length, x, List.getElem?_concat_length, rfl, hpast⟩
      · rintro ⟨j, b, hb, hbp, hpast⟩
        rcases getElem?_snoc hb with ⟨hj, hb⟩ | ⟨rfl, rfl⟩
        · exact .inr (hpast.trans_direct ((direct_snoc x).mpr ⟨b, hb, .inl hbp⟩))
        · exact hpast
    · rw [Function.update_of_ne hp]
      have hothers : (∃ j b, (h ++ [x])[j]? = some b ∧ b.proc = p ∧ CausalPast (h ++ [x]) i j) ↔
          ∃ j b, h[j]? = some b ∧ b.proc = p ∧ CausalPast h i j := by
        constructor
        · rintro ⟨j, b, hb, rfl, hpast⟩
          rcases getElem?_snoc hb with ⟨hj, hb⟩ | ⟨rfl, rfl⟩
          · exact ⟨j, b, hb, rfl, (causalPast_append x hj).mp hpast⟩
          · exact absurd rfl hp
        · rintro ⟨j, b, hb, rfl, hpast⟩
          have hj : j < h.length := (List.getElem?_eq_some_iff.mp hb).1
          exact ⟨j, b, by rw [List.getElem?_append_left hj, hb], rfl,
            (causalPast_append x hj).mpr hpast⟩
      rw [hothers]
      rcases getElem?_snoc ha with ⟨hi, ha⟩ | ⟨rfl, rfl⟩
      · rw [hold hi]; exact hm.live_reaches ha
      · rw [hnew]
        refine iff_of_false ?_ ?_
        · have := hm.live_own p a.proc
          omega
        · rintro ⟨j, b, hb, -, hpast⟩
          have hj : j < h.length := (List.getElem?_eq_some_iff.mp hb).1
          exact absurd hpast.le (by omega)
  case live_grows =>
    intro j b hb q
    rcases getElem?_snoc hb with ⟨hj, hb⟩ | ⟨rfl, rfl⟩
    · rw [hold hj]
      refine (hm.live_grows hb q).trans ?_
      by_cases hp : b.proc = x.proc
      · rw [hp, Function.update_self]; exact hlive q
      · rw [Function.update_of_ne hp]
    · rw [hnew, Function.update_self]
  case live_own =>
    intro p q
    by_cases hq : q = x.proc
    · subst hq
      rw [Function.update_self]
      by_cases hp : p = x.proc
      · rw [hp, Function.update_self]
      · rw [Function.update_of_ne hp]
        exact (hm.live_own p x.proc).trans (hlive _)
    · rw [Function.update_of_ne hq]
      by_cases hp : p = x.proc
      · rw [hp, Function.update_self, hs, if_neg hq, Nat.add_zero]
        exact hm.merge_le_own hcause hr q
      · rw [Function.update_of_ne hp]
        exact hm.live_own p q

end Snoc

end CrossMachine.Lib
