import Mathlib.Data.List.Basic

/-!
# Linearizability

A history is a list of invocations and responses, each with the number of its operation. It
is linearizable to a sequential object when the operations that have returned, and perhaps
some that have not, can be put in an order in which the object gives the very results that
were returned, and in which an operation that had returned before another was invoked comes
first.

The order is built along a run (`Linearization`). An operation that changes the object is
put at the end when it takes effect. One that only looks may find out later that it has
looked: what it saw is remembered as a `Glimpse`, a place in the order where its result was
right, and when it returns it is put there. A glimpse survives whatever happens in the
meantime, since nothing is ever put before what is already in place but other such looks.
-/

namespace CrossMachine.Lib

variable {σ ο ρ : Type*}

/-- What a client sees. -/
inductive HistoryEvent (ο ρ : Type*) where
  | inv (i : Nat) (o : ο)
  | ret (i : Nat) (r : ρ)
  deriving DecidableEq, Repr

open HistoryEvent

/-- An operation with its result. -/
structure Done (ο ρ : Type*) where
  id : Nat
  op : ο
  res : ρ
  deriving DecidableEq, Repr

/-- The object goes from `s` to `s'` by the operations of a list, giving their results. -/
def Legal (spec : σ → ο → σ × ρ) : σ → List (Done ο ρ) → σ → Prop
  | s, [], s' => s = s'
  | s, d :: ds, s' => (spec s d.op).2 = d.res ∧ Legal spec (spec s d.op).1 ds s'

/-- Operation `i` has returned before operation `j` is invoked. -/
def Before (h : List (HistoryEvent ο ρ)) (i j : Nat) : Prop :=
  ∃ h₁ h₂ r o, h = h₁ ++ h₂ ∧ ret i r ∈ h₁ ∧ inv j o ∈ h₂

/-- `ds` is an order of the operations of `h` that leads the object from `s₀` to `s`. -/
structure Linearization (spec : σ → ο → σ × ρ) (s₀ : σ) (h : List (HistoryEvent ο ρ))
    (ds : List (Done ο ρ)) (s : σ) : Prop where
  legal : Legal spec s₀ ds s
  nodup : (ds.map Done.id).Nodup
  invoked : ∀ d ∈ ds, inv d.id d.op ∈ h
  /-- An operation that has returned is there, with the result it returned. -/
  returned : ∀ i r, ret i r ∈ h → ∃ o, (⟨i, o, r⟩ : Done ο ρ) ∈ ds
  ordered : ∀ ds₁ d ds₂, ds = ds₁ ++ d :: ds₂ → ∀ j, Before h j d.id → j ∈ ds₁.map Done.id

/-- The history of the operations is one of the sequential object. -/
def Linearizable (spec : σ → ο → σ × ρ) (s₀ : σ) (h : List (HistoryEvent ο ρ)) : Prop :=
  ∃ ds s, Linearization spec s₀ h ds s

/-! ## Legal lists -/

theorem legal_append {spec : σ → ο → σ × ρ} {s s' : σ} {ds es : List (Done ο ρ)} :
    Legal spec s (ds ++ es) s' ↔ ∃ s₁, Legal spec s ds s₁ ∧ Legal spec s₁ es s' := by
  induction ds generalizing s with
  | nil => simp [Legal]
  | cons d ds ih =>
      simp only [List.cons_append, Legal, ih]
      constructor
      · intro h
        obtain ⟨hres, s₁, h₁, h₂⟩ := h
        exact ⟨s₁, ⟨hres, h₁⟩, h₂⟩
      · intro h
        obtain ⟨s₁, ⟨hres, h₁⟩, h₂⟩ := h
        exact ⟨hres, s₁, h₁, h₂⟩

theorem legal_unique {spec : σ → ο → σ × ρ} {s s₁ s₂ : σ} {ds : List (Done ο ρ)}
    (h₁ : Legal spec s ds s₁) (h₂ : Legal spec s ds s₂) : s₁ = s₂ := by
  induction ds generalizing s with
  | nil => exact h₁.symm.trans h₂
  | cons d ds ih => exact ih h₁.2 h₂.2

/-! ## What comes before what -/

theorem mem_of_before_left {h : List (HistoryEvent ο ρ)} {i j : Nat} (hb : Before h i j) :
    ∃ r, ret i r ∈ h := by
  obtain ⟨h₁, h₂, r, o, rfl, hr, _⟩ := hb
  exact ⟨r, List.mem_append_left _ hr⟩

/-- One more event matters to the order only if it invokes something. -/
theorem before_snoc {h : List (HistoryEvent ο ρ)} {e : HistoryEvent ο ρ} {i j : Nat}
    (hb : Before (h ++ [e]) i j) : Before h i j ∨ ∃ o, e = inv j o := by
  obtain ⟨h₁, h₂, r, o, heq, hr, ho⟩ := hb
  rcases List.eq_nil_or_concat h₂ with rfl | ⟨h₂', e', rfl⟩
  · cases ho
  · rw [List.concat_eq_append, ← List.append_assoc] at heq
    obtain ⟨hh, he⟩ := List.append_inj' heq rfl
    injection he with he
    subst he
    rw [List.concat_eq_append, List.mem_append, List.mem_singleton] at ho
    rcases ho with ho | ho
    · exact .inl ⟨h₁, h₂', r, o, hh, hr, ho⟩
    · exact .inr ⟨o, ho.symm⟩

/-! ## Building the order along a run -/

/-- There is a place in the order where operation `i` has the result `r` and changes
nothing, after everything that had returned before it was invoked. -/
def Glimpse (spec : σ → ο → σ × ρ) (s₀ : σ) (h : List (HistoryEvent ο ρ)) (ds : List (Done ο ρ))
    (i : Nat) (o : ο) (r : ρ) : Prop :=
  ∃ ds₁ ds₂ s₁, ds = ds₁ ++ ds₂ ∧ Legal spec s₀ ds₁ s₁ ∧ spec s₁ o = (s₁, r) ∧
    ∀ j, Before h j i → j ∈ ds₁.map Done.id

section Build

variable {spec : σ → ο → σ × ρ} {s₀ s s' : σ} {h : List (HistoryEvent ο ρ)}
  {ds : List (Done ο ρ)} {i : Nat} {o : ο} {r : ρ}

theorem Linearization.nil (spec : σ → ο → σ × ρ) (s₀ : σ) : Linearization spec s₀ [] [] s₀ := by
  constructor
  case legal => exact rfl
  case nodup => exact List.nodup_nil
  case invoked =>
      intro d hd
      cases hd
  case returned =>
      intro i r hr
      cases hr
  case ordered =>
      intro ds₁ d ds₂ heq
      exact absurd heq (by simp)

theorem mem_ids_of_eq {ds₁ ds₂ : List (Done ο ρ)} {d : Done ο ρ} (heq : ds = ds₁ ++ d :: ds₂) :
    d ∈ ds := by
  rw [heq]
  exact List.mem_append_right _ (List.mem_cons_self ..)

/-- An operation is invoked. -/
theorem Linearization.invoke (hL : Linearization spec s₀ h ds s)
    (hnew : ∀ d ∈ ds, d.id ≠ i) : Linearization spec s₀ (h ++ [inv i o]) ds s := by
  constructor
  case legal => exact hL.legal
  case nodup => exact hL.nodup
  case invoked => exact fun d hd => List.mem_append_left _ (hL.invoked d hd)
  case returned =>
      intro j r hr
      rcases List.mem_append.mp hr with hr | hr
      · exact hL.returned j r hr
      · rw [List.mem_singleton] at hr
        cases hr
  case ordered =>
      intro ds₁ d ds₂ heq j hb
      rcases before_snoc hb with hb | ⟨o', he⟩
      · exact hL.ordered ds₁ d ds₂ heq j hb
      · injection he with hid
        exact absurd hid.symm (hnew d (mem_ids_of_eq heq))

/-- An operation takes effect. -/
theorem Linearization.commit (hL : Linearization spec s₀ h ds s) (hinv : inv i o ∈ h)
    (hnew : ∀ d ∈ ds, d.id ≠ i) (hspec : spec s o = (s', r)) :
    Linearization spec s₀ h (ds ++ [⟨i, o, r⟩]) s' := by
  constructor
  case legal =>
      refine legal_append.mpr ⟨s, hL.legal, ?_⟩
      simp [Legal, hspec]
  case nodup =>
      rw [List.map_append, List.nodup_append]
      refine ⟨hL.nodup, by simp, ?_⟩
      intro a ha b hb
      obtain ⟨d, hd, rfl⟩ := List.mem_map.mp ha
      simp only [List.map_cons, List.map_nil, List.mem_singleton] at hb
      rw [hb]
      exact hnew d hd
  case invoked =>
      intro d hd
      rcases List.mem_append.mp hd with hd | hd
      · exact hL.invoked d hd
      · rw [List.mem_singleton.mp hd]
        exact hinv
  case returned =>
      intro j r hr
      obtain ⟨o', hd⟩ := hL.returned j r hr
      exact ⟨o', List.mem_append_left _ hd⟩
  case ordered =>
      intro ds₁ d ds₂ heq j hb
      rcases List.eq_nil_or_concat ds₂ with rfl | ⟨ds₂', d', rfl⟩
      · obtain ⟨hds, _⟩ := List.append_inj' heq rfl
        obtain ⟨r, hr⟩ := mem_of_before_left hb
        obtain ⟨o', hd⟩ := hL.returned j r hr
        rw [← hds]
        exact List.mem_map.mpr ⟨_, hd, rfl⟩
      · rw [List.concat_eq_append, ← List.cons_append, ← List.append_assoc] at heq
        obtain ⟨hds, _⟩ := List.append_inj' heq rfl
        exact hL.ordered ds₁ d ds₂' hds j hb

/-- An operation returns. -/
theorem Linearization.respond (hL : Linearization spec s₀ h ds s)
    (hd : (⟨i, o, r⟩ : Done ο ρ) ∈ ds) : Linearization spec s₀ (h ++ [ret i r]) ds s := by
  constructor
  case legal => exact hL.legal
  case nodup => exact hL.nodup
  case invoked => exact fun d hd => List.mem_append_left _ (hL.invoked d hd)
  case returned =>
      intro j r' hr
      rcases List.mem_append.mp hr with hr | hr
      · exact hL.returned j r' hr
      · rw [List.mem_singleton] at hr
        injection hr with hj hres
        rw [hj, hres]
        exact ⟨o, hd⟩
  case ordered =>
      intro ds₁ d ds₂ heq j hb
      rcases before_snoc hb with hb | ⟨o', he⟩
      · exact hL.ordered ds₁ d ds₂ heq j hb
      · cases he

/-! ### Glimpses -/

/-- The result is right just now. -/
theorem Linearization.glimpse (hL : Linearization spec s₀ h ds s) (hspec : spec s o = (s, r)) :
    Glimpse spec s₀ h ds i o r := by
  refine ⟨ds, [], s, (List.append_nil ds).symm, hL.legal, hspec, fun j hb => ?_⟩
  obtain ⟨r, hr⟩ := mem_of_before_left hb
  obtain ⟨o', hd⟩ := hL.returned j r hr
  exact List.mem_map.mpr ⟨_, hd, rfl⟩

theorem Glimpse.event (hG : Glimpse spec s₀ h ds i o r) {e : HistoryEvent ο ρ}
    (he : ∀ o', e ≠ inv i o') : Glimpse spec s₀ (h ++ [e]) ds i o r := by
  obtain ⟨ds₁, ds₂, s₁, heq, hlegal, hspec, hb⟩ := hG
  refine ⟨ds₁, ds₂, s₁, heq, hlegal, hspec, fun j hj => ?_⟩
  rcases before_snoc hj with hj | ⟨o', ho'⟩
  · exact hb j hj
  · exact absurd ho' (he o')

theorem Glimpse.commit (hG : Glimpse spec s₀ h ds i o r) (d : Done ο ρ) :
    Glimpse spec s₀ h (ds ++ [d]) i o r := by
  obtain ⟨ds₁, ds₂, s₁, heq, hlegal, hspec, hb⟩ := hG
  exact ⟨ds₁, ds₂ ++ [d], s₁, by rw [heq, List.append_assoc], hlegal, hspec, hb⟩

/-- An operation that has looked is put where it has looked. -/
theorem Linearization.insert {ds₁ ds₂ : List (Done ο ρ)} {s₁ : σ}
    (hL : Linearization spec s₀ h (ds₁ ++ ds₂) s) (hinv : inv i o ∈ h)
    (hnew : ∀ d ∈ ds₁ ++ ds₂, d.id ≠ i) (hlegal : Legal spec s₀ ds₁ s₁)
    (hspec : spec s₁ o = (s₁, r)) (hb : ∀ j, Before h j i → j ∈ ds₁.map Done.id) :
    Linearization spec s₀ h (ds₁ ++ ⟨i, o, r⟩ :: ds₂) s := by
  have hmem : ∀ d, d ∈ ds₁ ++ ⟨i, o, r⟩ :: ds₂ ↔ d = ⟨i, o, r⟩ ∨ d ∈ ds₁ ++ ds₂ := by
    intro d
    simp only [List.mem_append, List.mem_cons]
    exact or_left_comm
  constructor
  case legal =>
      obtain ⟨s₁', h₁, h₂⟩ := legal_append.mp hL.legal
      have heq : s₁' = s₁ := legal_unique h₁ hlegal
      subst heq
      refine legal_append.mpr ⟨s₁', h₁, ?_⟩
      simp only [Legal, hspec, true_and]
      exact h₂
  case nodup =>
      have hperm : ((ds₁ ++ ⟨i, o, r⟩ :: ds₂).map Done.id).Perm
          (i :: (ds₁ ++ ds₂).map Done.id) := by
        simp only [List.map_append, List.map_cons]
        exact List.perm_middle
      refine hperm.nodup_iff.mpr (List.nodup_cons.mpr ⟨fun hin => ?_, hL.nodup⟩)
      obtain ⟨d, hd, hid⟩ := List.mem_map.mp hin
      exact hnew d hd hid
  case invoked =>
      intro d hd
      rcases (hmem d).mp hd with rfl | hd
      · exact hinv
      · exact hL.invoked d hd
  case returned =>
      intro j r' hr
      obtain ⟨o', hd⟩ := hL.returned j r' hr
      exact ⟨o', (hmem _).mpr (.inr hd)⟩
  case ordered =>
      intro es₁ d es₂ heq j hj
      rcases List.append_eq_append_iff.mp heq with ⟨xs, hes, hrest⟩ | ⟨xs, hds, hrest⟩
      · -- `d` is the operation itself or stands behind it
        cases xs with
        | nil =>
            simp only [List.nil_append, List.cons.injEq] at hrest
            rw [hes, List.append_nil]
            exact hb j (by rw [← hrest.1] at hj; exact hj)
        | cons x xs =>
            simp only [List.cons_append, List.cons.injEq] at hrest
            have hin := hL.ordered (ds₁ ++ xs) d es₂
              (by rw [hrest.2, List.append_assoc]) j hj
            rw [hes]
            simp only [List.map_append, List.map_cons, List.mem_append, List.mem_cons] at hin ⊢
            rcases hin with hin | hin
            · exact .inl hin
            · exact .inr (.inr hin)
      · -- `d` stands before it
        cases xs with
        | nil =>
            simp only [List.nil_append, List.cons.injEq] at hrest
            rw [List.append_nil] at hds
            rw [← hds]
            exact hb j (by rw [hrest.1] at hj; exact hj)
        | cons x xs =>
            simp only [List.cons_append, List.cons.injEq] at hrest
            refine hL.ordered es₁ d (xs ++ ds₂) ?_ j hj
            rw [hds, ← hrest.1]
            simp

/-- Other looks are not disturbed. -/
theorem Glimpse.insert {ds₁ ds₂ : List (Done ο ρ)} {s₁ : σ} {k : Nat} {o' : ο} {r' : ρ}
    (hG : Glimpse spec s₀ h (ds₁ ++ ds₂) k o' r') (hlegal : Legal spec s₀ ds₁ s₁)
    (hspec : spec s₁ o = (s₁, r)) :
    Glimpse spec s₀ h (ds₁ ++ ⟨i, o, r⟩ :: ds₂) k o' r' := by
  obtain ⟨es₁, es₂, s₂, heq, hlegal₂, hspec₂, hb⟩ := hG
  rcases List.append_eq_append_iff.mp heq with ⟨xs, hes, hrest⟩ | ⟨xs, hds, hrest⟩
  · -- the look is at or behind the new one
    refine ⟨ds₁ ++ ⟨i, o, r⟩ :: xs, es₂, s₂, by rw [hrest]; simp, ?_, hspec₂, fun j hj => ?_⟩
    · rw [hes] at hlegal₂
      obtain ⟨s₁', h₁, h₂⟩ := legal_append.mp hlegal₂
      have hs : s₁' = s₁ := legal_unique h₁ hlegal
      subst hs
      refine legal_append.mpr ⟨s₁', h₁, ?_⟩
      simp only [Legal, hspec, true_and]
      exact h₂
    · have hin := hb j hj
      rw [hes] at hin
      simp only [List.map_append, List.map_cons, List.mem_append, List.mem_cons] at hin ⊢
      rcases hin with hin | hin
      · exact .inl hin
      · exact .inr (.inr hin)
  · exact ⟨es₁, xs ++ ⟨i, o, r⟩ :: ds₂, s₂, by rw [hds]; simp, hlegal₂, hspec₂, hb⟩

/-- **An operation that has looked returns what it saw**: it is put where it has looked,
and neither what is there nor the other looks are disturbed. -/
theorem Linearization.look (hL : Linearization spec s₀ h ds s) (hinv : inv i o ∈ h)
    (hnew : ∀ d ∈ ds, d.id ≠ i) (hG : Glimpse spec s₀ h ds i o r) :
    ∃ ds', Linearization spec s₀ h ds' s ∧ (∀ d, d ∈ ds' ↔ d = ⟨i, o, r⟩ ∨ d ∈ ds) ∧
      ∀ k o' r', Glimpse spec s₀ h ds k o' r' → Glimpse spec s₀ h ds' k o' r' := by
  obtain ⟨ds₁, ds₂, s₁, rfl, hlegal, hspec, hb⟩ := hG
  refine ⟨ds₁ ++ ⟨i, o, r⟩ :: ds₂, hL.insert hinv hnew hlegal hspec hb, fun d => ?_,
    fun k o' r' hG' => hG'.insert hlegal hspec⟩
  simp only [List.mem_append, List.mem_cons]
  exact or_left_comm

end Build

end CrossMachine.Lib
