import Mathlib.Data.List.Basic

/-!
# Things that are in one place

A family of lists, each the contents of one place, and a thing that must not be in two of
them at once, nor twice in one. Whoever hands things from one place to another keeps this
(`Once.transfer`), and so does whoever puts down a thing that was nowhere (`Once.put`).
-/

namespace CrossMachine.Lib

variable {κ ι : Type*} [DecidableEq ι]

/-- `x` is in at most one place, and there once. -/
structure Once (places : κ → List ι) (x : ι) : Prop where
  count_le : ∀ k, (places k).count x ≤ 1
  place : ∀ k k', x ∈ places k → x ∈ places k' → k = k'

namespace Once

variable {places places' : κ → List ι} {x : ι}

theorem of_nowhere (h : ∀ k, x ∉ places k) : Once places x := by
  constructor
  case count_le =>
      intro k
      rw [List.count_eq_zero.mpr (h k)]
      exact Nat.zero_le 1
  case place => exact fun k _ hk => absurd hk (h k)

theorem count_eq_one (h : Once places x) {k : κ} (hk : x ∈ places k) :
    (places k).count x = 1 :=
  Nat.le_antisymm (h.count_le k) (List.count_pos_iff.mpr hk)

/-- Putting down what was nowhere. -/
theorem put (h : ∀ k, x ∉ places k) {a : κ} (hrest : ∀ k, k ≠ a → places' k = places k)
    (hcount : (places' a).count x ≤ 1) : Once places' x := by
  have hnot : ∀ k, k ≠ a → x ∉ places' k := fun k hk hx => h k (hrest k hk ▸ hx)
  constructor
  case count_le =>
      intro k
      by_cases hk : k = a
      · rw [hk]
        exact hcount
      · rw [List.count_eq_zero.mpr (hnot k hk)]
        exact Nat.zero_le 1
  case place =>
      intro k k' hk hk'
      by_cases hka : k = a
      · by_cases hka' : k' = a
        · rw [hka, hka']
        · exact absurd hk' (hnot k' hka')
      · exact absurd hk (hnot k hka)

/-- Two places hold `x` at most once between them. -/
theorem count_add_le (h : Once places x) {a b : κ} (hab : a ≠ b) :
    (places a).count x + (places b).count x ≤ 1 := by
  by_cases ha : x ∈ places a
  · have hb : x ∉ places b := fun hb => hab (h.place a b ha hb)
    rw [List.count_eq_zero.mpr hb]
    exact h.count_le a
  · rw [List.count_eq_zero.mpr ha, Nat.zero_add]
    exact h.count_le b

/-- **Handing things from one place to another.** -/
theorem transfer (h : Once places x) {a b : κ} (hab : a ≠ b)
    (hrest : ∀ k, k ≠ a → k ≠ b → places' k = places k)
    (hcount : (places' a).count x + (places' b).count x ≤
      (places a).count x + (places b).count x) : Once places' x := by
  have hle := h.count_add_le hab
  -- if `x` is in one of the two now, it was in one of the two before
  have hwas : ∀ k, (k = a ∨ k = b) → x ∈ places' k → x ∈ places a ∨ x ∈ places b := by
    intro k hk hx
    have hpos := List.count_pos_iff.mpr hx
    by_contra hnot
    obtain ⟨hna, hnb⟩ := not_or.mp hnot
    rw [List.count_eq_zero.mpr hna, List.count_eq_zero.mpr hnb] at hcount
    rcases hk with hk | hk
    all_goals
      rw [hk] at hpos
      omega
  have houtside : ∀ k, k ≠ a → k ≠ b → x ∈ places' k → ∀ k', (k' = a ∨ k' = b) →
      x ∉ places' k' := by
    intro k hka hkb hk k' hk' hx
    rw [hrest k hka hkb] at hk
    rcases hwas k' hk' hx with ha | hb
    · exact hka (h.place k a hk ha)
    · exact hkb (h.place k b hk hb)
  constructor
  case count_le =>
      intro k
      by_cases hka : k = a
      · rw [hka]
        omega
      · by_cases hkb : k = b
        · rw [hkb]
          omega
        · rw [hrest k hka hkb]
          exact h.count_le k
  case place =>
      intro k k' hk hk'
      by_cases hin : k = a ∨ k = b
      · by_cases hin' : k' = a ∨ k' = b
        · -- both have it: then it would be there twice
          by_contra hne
          have h₁ := List.count_pos_iff.mpr hk
          have h₂ := List.count_pos_iff.mpr hk'
          rcases hin with rfl | rfl
          all_goals
            rcases hin' with rfl | rfl
            · first | exact hne rfl | omega
            · first | exact hne rfl | omega
        · obtain ⟨hka, hkb⟩ := not_or.mp hin'
          exact absurd hk (houtside k' hka hkb hk' k hin)
      · obtain ⟨hka, hkb⟩ := not_or.mp hin
        by_cases hin' : k' = a ∨ k' = b
        · exact absurd hk' (houtside k hka hkb hk k' hin')
        · obtain ⟨hka', hkb'⟩ := not_or.mp hin'
          rw [hrest k hka hkb] at hk
          rw [hrest k' hka' hkb'] at hk'
          exact h.place k k' hk hk'

end Once

open Classical in
/-- One if `x` is somewhere, else zero. -/
noncomputable def present (places : κ → List ι) (x : ι) : Nat :=
  if ∃ k, x ∈ places k then 1 else 0

omit [DecidableEq ι] in
theorem present_of_nowhere {places : κ → List ι} {x : ι} (h : ∀ k, x ∉ places k) :
    present places x = 0 := by
  unfold present
  rw [if_neg]
  intro hex
  obtain ⟨k, hk⟩ := hex
  exact h k hk

omit [DecidableEq ι] in
theorem exists_of_present {places : κ → List ι} {x : ι} (h : 0 < present places x) :
    ∃ k, x ∈ places k := by
  by_contra hnot
  rw [present_of_nowhere fun k hk => hnot ⟨k, hk⟩] at h
  exact Nat.lt_irrefl 0 h

open Classical in
/-- What two places have, and what is elsewhere. -/
theorem Once.present_eq {places : κ → List ι} {x : ι} (h : Once places x) {a b : κ} (hab : a ≠ b) :
    present places x = (places a).count x + (places b).count x +
      if ∃ k, k ≠ a ∧ k ≠ b ∧ x ∈ places k then 1 else 0 := by
  unfold present
  by_cases ha : x ∈ places a
  · have hb : x ∉ places b := fun hb => hab (h.place a b ha hb)
    have hout : ¬ ∃ k, k ≠ a ∧ k ≠ b ∧ x ∈ places k := by
      intro hex
      obtain ⟨k, hka, _, hk⟩ := hex
      exact hka (h.place k a hk ha)
    rw [if_pos ⟨a, ha⟩, if_neg hout, h.count_eq_one ha, List.count_eq_zero.mpr hb]
  · by_cases hb : x ∈ places b
    · have hout : ¬ ∃ k, k ≠ a ∧ k ≠ b ∧ x ∈ places k := by
        intro hex
        obtain ⟨k, _, hkb, hk⟩ := hex
        exact hkb (h.place k b hk hb)
      rw [if_pos ⟨b, hb⟩, if_neg hout, h.count_eq_one hb, List.count_eq_zero.mpr ha]
    · rw [List.count_eq_zero.mpr ha, List.count_eq_zero.mpr hb, Nat.zero_add]
      refine if_congr ?_ rfl rfl
      constructor
      · intro hex
        obtain ⟨k, hk⟩ := hex
        refine ⟨k, ?_, ?_, hk⟩
        · intro heq
          exact ha (heq ▸ hk)
        · intro heq
          exact hb (heq ▸ hk)
      · intro hex
        obtain ⟨k, _, _, hk⟩ := hex
        exact ⟨k, hk⟩

/-- When two places change, whether `x` is somewhere changes as their counts do. -/
theorem Once.present_transfer {places places' : κ → List ι} {x : ι} (h : Once places x)
    (h' : Once places' x) {a b : κ} (hab : a ≠ b)
    (hrest : ∀ k, k ≠ a → k ≠ b → places' k = places k) :
    present places' x + ((places a).count x + (places b).count x) =
      present places x + ((places' a).count x + (places' b).count x) := by
  classical
  have hout : (∃ k, k ≠ a ∧ k ≠ b ∧ x ∈ places' k) ↔ ∃ k, k ≠ a ∧ k ≠ b ∧ x ∈ places k := by
    refine exists_congr fun k => and_congr_right fun hka => and_congr_right fun hkb => ?_
    rw [hrest k hka hkb]
  rw [h.present_eq hab, h'.present_eq hab, if_congr hout rfl rfl]
  omega

omit [DecidableEq ι] in
theorem present_pos {places : κ → List ι} {x : ι} {k : κ} (h : x ∈ places k) :
    0 < present places x := by
  unfold present
  rw [if_pos ⟨k, h⟩]
  exact Nat.one_pos

/-- Everything that satisfies `P` is in exactly one place, and nothing else is anywhere. -/
structure Partition (places : κ → List ι) (P : ι → Prop) : Prop where
  once : ∀ x, Once places x
  inside : ∀ k, ∀ x ∈ places k, P x
  there : ∀ x, P x → ∃ k, x ∈ places k

/-- **Handing things from one place to another**, without losing any. -/
theorem Partition.transfer {places places' : κ → List ι} {P : ι → Prop} (h : Partition places P)
    {a b : κ} (hab : a ≠ b) (hrest : ∀ k, k ≠ a → k ≠ b → places' k = places k)
    (hcount : ∀ x, (places' a).count x + (places' b).count x =
      (places a).count x + (places b).count x) : Partition places' P := by
  have honce : ∀ x, Once places' x :=
    fun x => (h.once x).transfer hab hrest (Nat.le_of_eq (hcount x))
  have hpresent : ∀ x, present places' x = present places x := by
    intro x
    have := (h.once x).present_transfer (honce x) hab hrest
    have := hcount x
    omega
  constructor
  case once => exact honce
  case inside =>
      intro k x hx
      have hpos := present_pos hx
      rw [hpresent x] at hpos
      obtain ⟨k', hk'⟩ := exists_of_present hpos
      exact h.inside k' x hk'
  case there =>
      intro x hx
      obtain ⟨k, hk⟩ := h.there x hx
      have hpos := present_pos hk
      rw [← hpresent x] at hpos
      exact exists_of_present hpos

/-- Putting things in another order. -/
theorem Partition.perm {places places' : κ → List ι} {P : ι → Prop} (h : Partition places P)
    (hperm : ∀ k, (places' k).Perm (places k)) : Partition places' P := by
  constructor
  case once =>
      intro x
      refine ⟨fun k => ?_, fun k k' hk hk' => ?_⟩
      · rw [(hperm k).count_eq x]
        exact (h.once x).count_le k
      · exact (h.once x).place k k' ((hperm k).mem_iff.mp hk) ((hperm k').mem_iff.mp hk')
  case inside => exact fun k x hx => h.inside k x ((hperm k).mem_iff.mp hx)
  case there =>
      intro x hx
      obtain ⟨k, hk⟩ := h.there x hx
      exact ⟨k, (hperm k).mem_iff.mpr hk⟩

/-! ## Things that are held by one at a time -/

/-- No two hold the same. -/
def Sole {τ κ : Type*} (held : τ → Option κ) : Prop :=
  ∀ t u x, held t = some x → held u = some x → t = u

/-- One of them lets go, keeps what it has, or takes what nobody else holds. -/
theorem Sole.step {τ κ : Type*} {held held' : τ → Option κ} (h : Sole held) {t : τ}
    (hother : ∀ u, u ≠ t → held' u = held u)
    (hmine : ∀ x, held' t = some x → held t = some x ∨ ∀ u, u ≠ t → held u ≠ some x) :
    Sole held' := by
  -- what `t` holds now nobody else does
  have honly : ∀ u x, u ≠ t → held' t = some x → held' u ≠ some x := by
    intro u x hu hx hx'
    rw [hother u hu] at hx'
    rcases hmine x hx with hold | hnew
    · exact hu (h u t x hx' hold)
    · exact hnew u hu hx'
  intro u w x hu hw
  by_cases hut : u = t
  · by_cases hwt : w = t
    · rw [hut, hwt]
    · rw [hut] at hu
      exact absurd hw (honly w x hwt hu)
  · by_cases hwt : w = t
    · rw [hwt] at hw
      exact absurd hu (honly u x hut hw)
    · rw [hother u hut] at hu
      rw [hother w hwt] at hw
      exact h u w x hu hw

end CrossMachine.Lib
