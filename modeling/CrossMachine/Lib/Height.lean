import CrossMachine.Lib.Causality

/-!
# The longest causal chain

How many occurrences a chain of causes can have that ends with a given one. A counter for each
process that takes the larger of its own value and that of a message, plus one, counts exactly
this (`Heights.snoc`).
-/

namespace CrossMachine.Lib

variable {π : Type*}

/-- A chain of so many occurrences, each directly before the next one, that ends at `j`. -/
inductive ChainTo (h : List (Occurrence π)) : Nat → Nat → Prop where
  | single {j : Nat} (hj : j < h.length) : ChainTo h 1 j
  | tail {k i j : Nat} (hchain : ChainTo h k i) (hd : Direct h i j) : ChainTo h (k + 1) j

/-- The longest chain that ends at `j` has `k` occurrences. -/
def Height (h : List (Occurrence π)) (j k : Nat) : Prop :=
  ChainTo h k j ∧ ∀ m, ChainTo h m j → m ≤ k

variable {h : List (Occurrence π)} {i j k : Nat}

theorem Height.lt_of_happensBefore {a b : Nat} (ha : Height h i a) (hb : Height h j b)
    (hij : HappensBefore h i j) : a < b := by
  have hchain : ∃ m, a < m ∧ ChainTo h m j := by
    clear hb
    induction hij with
    | single hd => exact ⟨a + 1, Nat.lt_succ_self a, .tail ha.1 hd⟩
    | tail _ hd ih =>
        obtain ⟨m, hm, hchain⟩ := ih
        exact ⟨m + 1, hm.trans (Nat.lt_succ_self m), .tail hchain hd⟩
  obtain ⟨m, hm, hchain⟩ := hchain
  exact hm.trans_le (hb.2 m hchain)

/-! ## Growing a history -/

theorem chainTo_append (x : Occurrence π) (hj : j < h.length) :
    ChainTo (h ++ [x]) k j ↔ ChainTo h k j := by
  constructor
  · intro hc
    induction hc with
    | single _ => exact .single hj
    | tail _ hd ih => exact .tail (ih (hd.lt.trans hj)) ((direct_append x hj).mp hd)
  · intro hc
    clear hj
    induction hc with
    | single hj => exact .single (by rw [List.length_append]; omega)
    | tail _ hd ih => exact .tail ih ((direct_append x hd.lt_length).mpr hd)

theorem height_append (x : Occurrence π) (hj : j < h.length) :
    Height (h ++ [x]) j k ↔ Height h j k := by
  unfold Height
  simp only [chainTo_append x hj]

/-- Counters that measure the longest chains: `stamp i` is what position `i` was stamped with,
`live p` what process `p` has reached. -/
structure Heights (h : List (Occurrence π)) (stamp : Nat → Nat) (live : π → Nat) : Prop where
  height : ∀ j, j < h.length → Height h j (stamp j)
  /-- A process has reached the stamps of its occurrences, -/
  le_live : ∀ {j a}, h[j]? = some a → stamp j ≤ live a.proc
  /-- and one of them is the last. -/
  live_eq : ∀ p, live p = 0 ∨ ∃ j a, h[j]? = some a ∧ a.proc = p ∧ stamp j = live p

theorem heights_nil : Heights ([] : List (Occurrence π)) (fun _ => 0) (fun _ => 0) where
  height := fun _ hj => absurd hj (Nat.not_lt_zero _)
  le_live := fun hj => by simp at hj
  live_eq := fun _ => .inl rfl

/-- The counter goes one past what the process and the message have reached. -/
theorem Heights.snoc [DecidableEq π] {stamp : Nat → Nat} {live : π → Nat}
    (hm : Heights h stamp live) {x : Occurrence π} (hcause : ∀ m, x.cause = some m → m < h.length)
    {s : Nat} (hs : s = max (live x.proc) ((x.cause.map stamp).getD 0) + 1) :
    Heights (h ++ [x]) (Function.update stamp h.length s) (Function.update live x.proc s) where
  height := fun j hj => by
    rw [List.length_append, List.length_singleton] at hj
    rcases Nat.lt_succ_iff_lt_or_eq.mp hj with hlt | rfl
    · rw [Function.update_of_ne hlt.ne, height_append x hlt]
      exact hm.height j hlt
    rw [Function.update_self, hs]
    refine ⟨?_, fun m hchain => ?_⟩
    · -- the longest chain goes through whichever of the two is ahead
      rcases Nat.eq_zero_or_pos (max (live x.proc) ((x.cause.map stamp).getD 0)) with hzero | hpos
      · rw [hzero]
        exact .single (by rw [List.length_append, List.length_singleton]; omega)
      have hlast : ∃ i a, h[i]? = some a ∧ (a.proc = x.proc ∨ x.cause = some i) ∧
          stamp i = max (live x.proc) ((x.cause.map stamp).getD 0) := by
        rcases max_choice (live x.proc) ((x.cause.map stamp).getD 0) with hmax | hmax
        · rw [hmax] at hpos ⊢
          rcases hm.live_eq x.proc with hnone | ⟨i, a, ha, hproc, hi⟩
          · omega
          · exact ⟨i, a, ha, .inl hproc, hi⟩
        · rw [hmax] at hpos ⊢
          cases hc : x.cause with
          | none =>
              rw [hc] at hpos
              exact absurd hpos (Nat.lt_irrefl 0)
          | some i =>
              exact ⟨i, _, List.getElem?_eq_getElem (hcause i hc), .inr rfl, rfl⟩
      obtain ⟨i, a, ha, hax, hi⟩ := hlast
      have hlt : i < h.length := (List.getElem?_eq_some_iff.mp ha).1
      rw [← hi]
      exact .tail ((chainTo_append x hlt).mpr (hm.height i hlt).1)
        ((direct_snoc x).mpr ⟨a, ha, hax⟩)
    · cases hchain with
      | single _ => exact Nat.le_add_left 1 _
      | @tail k i _ hchain hd =>
          obtain ⟨a, ha, hax⟩ := (direct_snoc x).mp hd
          have hlt : i < h.length := (List.getElem?_eq_some_iff.mp ha).1
          have hle := (hm.height i hlt).2 k ((chainTo_append x hlt).mp hchain)
          refine Nat.succ_le_succ (hle.trans ?_)
          rcases hax with hproc | hc
          · exact (hproc ▸ hm.le_live ha).trans (le_max_left _ _)
          · rw [hc]
            exact le_max_right _ _
  le_live := fun {j a} ha => by
    rcases Nat.lt_trichotomy j h.length with hlt | rfl | hgt
    · rw [List.getElem?_append_left hlt] at ha
      have hle := hm.le_live ha
      rw [Function.update_of_ne hlt.ne, Function.update_apply]
      split
      · rename_i hproc
        rw [hproc] at hle
        omega
      · exact hle
    · rw [List.getElem?_concat_length, Option.some.injEq] at ha
      rw [← ha, Function.update_self, Function.update_self]
    · rw [List.getElem?_eq_none (by rw [List.length_append]; exact hgt)] at ha
      contradiction
  live_eq := fun p => by
    by_cases hp : p = x.proc
    · refine .inr ⟨h.length, x, List.getElem?_concat_length, hp.symm, ?_⟩
      rw [hp, Function.update_self, Function.update_self]
    · rw [Function.update_of_ne hp]
      refine (hm.live_eq p).imp_right ?_
      rintro ⟨j, a, ha, hproc, hj⟩
      have hlt : j < h.length := (List.getElem?_eq_some_iff.mp ha).1
      exact ⟨j, a, by rw [List.getElem?_append_left hlt, ha], hproc, by
        rw [Function.update_of_ne hlt.ne, hj]⟩

end CrossMachine.Lib
