import CrossMachine.Lib.Instances
import CrossMachine.Lib.Run
import CrossMachine.Lib.Window
import Mathlib.Data.Multiset.AddSub

/-!
# The work-stealing deque

`ChaseLevDeque` of `chase_lev.h`, one atomic operation at a time. One thread owns the deque:
it pushes and pops at the bottom. The others steal at the top. Thieves settle who gets an
element by exchanging `top_`; the owner takes part in that only for the last one.

Two things make it delicate. The owner takes its element by lowering `bottom_` *before* it
looks at `top_`, so for a moment nobody can tell from the two counters whose the last element
is (`limit`). And a thief may hold an array that has been replaced in the meantime; what it
reads there is right as long as its exchange of `top_` goes on to succeed.

Indices are integers and do not wrap. Arrays are numbered in the order they were published
and none of them goes away, as `trash_` keeps them. The new array of `grow` is the owner's
alone until `array_` is stored, so until then it is part of what the owner remembers.
-/

namespace CrossMachine.Deque

open Lib

variable {τ α : Type*}

/-- `Array`. A cell that nothing was stored in has no value. -/
structure Arr (α : Type*) where
  cap : Nat
  data : Nat → Option α

namespace Arr

/-- The constructor. -/
def new (c : Nat) : Arr α := { cap := c, data := fun _ => none }

/-- `static_cast<std::size_t>(i) & mask`. -/
def cell (a : Arr α) (i : Int) : Nat := i.toNat &&& (a.cap - 1)

def load (a : Arr α) (i : Int) : Option α := a.data (a.cell i)

def store (a : Arr α) (i : Int) (v : Option α) : Arr α :=
  { a with data := Function.update a.data (a.cell i) v }

end Arr

/-- What the owner does next. The names of the arguments are those of the local variables. -/
inductive OwnerPc (α : Type*) where
  | idle
  /-- Before the load of `bottom_`. -/
  | pushBottom (val : α)
  /-- Before the load of `top_`. -/
  | pushTop (val : α) (b : Int)
  /-- Before the load of `array_`. -/
  | pushArray (val : α) (b t : Int)
  /-- In `grow`, at the head of the loop: before the load from the old array, or before the
  new one is published. -/
  | growLoad (val : α) (b t : Int) (old : Nat) (a : Arr α) (i : Int)
  | growStore (val : α) (b t : Int) (old : Nat) (a : Arr α) (i : Int) (v : Option α)
  /-- Before the value is stored. -/
  | pushStore (val : α) (b : Int) (a : Nat)
  /-- Before `bottom_` is stored. -/
  | pushPublish (val : α) (b : Int)
  /-- Before the load of `bottom_`. -/
  | popBottom
  /-- Before the load of `array_`. -/
  | popArray (b : Int)
  /-- Before `bottom_` is lowered. -/
  | popStore (b : Int) (a : Nat)
  /-- Before the load of `top_`. -/
  | popTop (b : Int) (a : Nat)
  /-- Before the value is loaded. -/
  | popLoad (b t : Int) (a : Nat)
  /-- The last element; before the exchange of `top_`. -/
  | popCas (b t : Int) (val : Option α)
  /-- Before `bottom_` is put back; `r` is what `pop` will return. -/
  | popRestore (b : Int) (r : Option (Option α))

/-- What a thief does next. -/
inductive ThiefPc (α : Type*) where
  | idle
  /-- Before the load of `top_`. -/
  | stealTop
  /-- Before the load of `bottom_`. -/
  | stealBottom (t : Int)
  /-- Before the load of `array_`. -/
  | stealArray (t : Int)
  /-- Before the value is loaded. -/
  | stealLoad (t : Int) (a : Nat)
  /-- Before the exchange of `top_`. -/
  | stealCas (t : Int) (val : Option α)

structure State (τ α : Type*) where
  /-- `top_`. -/
  top : Int
  /-- `bottom_`. -/
  bottom : Int
  arrays : Nat → Arr α
  /-- `array_`. -/
  array : Nat
  owner : OwnerPc α
  thief : τ → ThiefPc α

/-- What is returned, and by whom. -/
inductive Event (τ α : Type*) where
  | pushed (val : α)
  | popped (r : Option (Option α))
  | stolen (t : τ) (r : Option (Option α))
  deriving DecidableEq, Repr

open Event

def State.cur (s : State τ α) : Arr α := s.arrays s.array

/-- One atomic operation of the owner. -/
def ownerGo (s : State τ α) : Option (State τ α × List (Event τ α)) :=
  match s.owner with
  | .idle => none
  | .pushBottom val => some ({ s with owner := .pushTop val s.bottom }, [])
  | .pushTop val b => some ({ s with owner := .pushArray val b s.top }, [])
  | .pushArray val b t =>
      -- the difference is cast to an unsigned number, which makes a negative one large
      if b - t < 0 ∨ (s.cur.cap : Int) ≤ b - t then
        some ({ s with owner := .growLoad val b t s.array (.new (s.cur.cap * 2)) t }, [])
      else some ({ s with owner := .pushStore val b s.array }, [])
  | .growLoad val b t old a i =>
      if i < b then
        some ({ s with owner := .growStore val b t old a i ((s.arrays old).load i) }, [])
      else
        some ({ s with
          arrays := Function.update s.arrays (s.array + 1) a, array := s.array + 1,
          owner := .pushStore val b (s.array + 1) }, [])
  | .growStore val b t old a i v =>
      some ({ s with owner := .growLoad val b t old (a.store i v) (i + 1) }, [])
  | .pushStore val b a =>
      some ({ s with
        arrays := Function.update s.arrays a ((s.arrays a).store b (some val)),
        owner := .pushPublish val b }, [])
  | .pushPublish val b => some ({ s with bottom := b + 1, owner := .idle }, [.pushed val])
  | .popBottom => some ({ s with owner := .popArray (s.bottom - 1) }, [])
  | .popArray b => some ({ s with owner := .popStore b s.array }, [])
  | .popStore b a => some ({ s with bottom := b, owner := .popTop b a }, [])
  | .popTop b a =>
      if b < s.top then some ({ s with owner := .popRestore b none }, [])
      else some ({ s with owner := .popLoad b s.top a }, [])
  | .popLoad b t a =>
      let val := (s.arrays a).load b
      if t = b then some ({ s with owner := .popCas b t val }, [])
      else some ({ s with owner := .idle }, [.popped (some val)])
  | .popCas b t val =>
      if s.top = t then
        some ({ s with top := t + 1, owner := .popRestore b (some val) }, [])
      else some ({ s with owner := .popRestore b none }, [])
  | .popRestore b r => some ({ s with bottom := b + 1, owner := .idle }, [.popped r])

section Step

variable [DecidableEq τ]

def State.goto (s : State τ α) (t : τ) (pc : ThiefPc α) : State τ α :=
  { s with thief := Function.update s.thief t pc }

/-- One atomic operation of a thief. -/
def thiefGo (s : State τ α) (u : τ) : Option (State τ α × List (Event τ α)) :=
  match s.thief u with
  | .idle => none
  | .stealTop => some (s.goto u (.stealBottom s.top), [])
  | .stealBottom t =>
      if s.bottom ≤ t then some (s.goto u .idle, [.stolen u none])
      else some (s.goto u (.stealArray t), [])
  | .stealArray t => some (s.goto u (.stealLoad t s.array), [])
  | .stealLoad t a => some (s.goto u (.stealCas t ((s.arrays a).load t)), [])
  | .stealCas t val =>
      if s.top = t then
        some ({ s.goto u .idle with top := t + 1 }, [.stolen u (some val)])
      else some (s.goto u .idle, [.stolen u none])

/-- The owner calls `push` or `pop` or goes on, a thief calls `steal` or goes on. -/
inductive Action (τ α : Type*) where
  | push (val : α)
  | pop
  | own
  | steal (u : τ)
  | thieve (u : τ)
  deriving DecidableEq, Repr

/-- Any interleaving of the threads. -/
def step (s : State τ α) : Action τ α → Option (State τ α × List (Event τ α))
  | .push val =>
      match s.owner with
      | .idle => some ({ s with owner := .pushBottom val }, [])
      | _ => none
  | .pop =>
      match s.owner with
      | .idle => some ({ s with owner := .popBottom }, [])
      | _ => none
  | .own => ownerGo s
  | .steal u =>
      match s.thief u with
      | .idle => some (s.goto u .stealTop, [])
      | _ => none
  | .thieve u => thiefGo s u

end Step

/-- The constructor. -/
def init (initialCap : Nat) : State τ α :=
  { top := 0, bottom := 0, arrays := fun _ => .new initialCap, array := 0, owner := .idle,
    thief := fun _ => .idle }

/-! ## Cells -/

namespace Arr

variable {a : Arr α} {i j : Int} {v : Option α}

@[simp] theorem store_cap : (a.store i v).cap = a.cap := rfl

theorem load_store_self : (a.store i v).load i = v := by
  unfold load store cell
  simp only [Function.update_self]

/-- A store does not reach an index that is close. -/
theorem load_store_of_ne (hcap : PowTwo a.cap) (hi : 0 ≤ i) (hj : 0 ≤ j) (hne : j ≠ i)
    (hij : i < j + a.cap) (hji : j < i + a.cap) : (a.store i v).load j = a.load j := by
  unfold load store cell
  exact Function.update_of_ne (cell_ne hcap hj hi hne hji hij) _ _

end Arr

/-! ## What is in the deque -/

/-- One, while the element at `bottom_` may still be stolen although `bottom_` was lowered. -/
@[simp] def OwnerPc.contested : OwnerPc α → Int
  | .popTop _ _ => 1
  | .popLoad b t _ => if t = b then 1 else 0
  | .popCas _ _ _ => 1
  | .popRestore _ _ => 1
  | _ => 0

/-- The end of the deque, up to which thieves may get. -/
def State.limit (s : State τ α) : Int := s.bottom + s.owner.contested

theorem State.bottom_le_limit (s : State τ α) : s.bottom ≤ s.limit := by
  unfold State.limit
  cases s.owner with
  | popLoad b t a =>
      simp only [OwnerPc.contested]
      split <;> omega
  | _ => simp

def State.contents (s : State τ α) : List (Option α) := window s.cur.load s.top s.limit

/-- What the owner has taken out and not returned yet. -/
@[simp] def OwnerPc.hand (arrays : Nat → Arr α) : OwnerPc α → List (Option α)
  | .popLoad b t a => if t = b then [] else [(arrays a).load b]
  | .popRestore _ r => r.toList
  | _ => []

/-- Everything that was pushed and not returned. -/
def State.held (s : State τ α) : Multiset (Option α) := s.contents + s.owner.hand s.arrays

@[simp] def Event.push : Event τ α → Option (Option α)
  | .pushed val => some (some val)
  | _ => none

@[simp] def Event.result : Event τ α → Option (Option α)
  | .popped r => r
  | .stolen _ r => r
  | _ => none

def pushes (es : List (Event τ α)) : Multiset (Option α) := es.filterMap Event.push

def returns (es : List (Event τ α)) : Multiset (Option α) := es.filterMap Event.result

/-! ## The invariant -/

/-- How far `grow` is. -/
structure Copied (s : State τ α) (b t : Int) (old : Nat) (a : Arr α) (i : Int) : Prop where
  bottom : b = s.bottom
  nonneg : 0 ≤ t
  top : t ≤ s.top
  from_le : t ≤ i
  le : i ≤ b
  fits : b - t ≤ s.cur.cap
  array : old = s.array
  cap : a.cap = s.cur.cap * 2
  copied : ∀ j, t ≤ j → j < i → a.load j = s.cur.load j

/-- What the owner can rely on. -/
def OwnerOk (s : State τ α) : OwnerPc α → Prop
  | .pushTop _ b => b = s.bottom
  | .pushArray _ b t => b = s.bottom ∧ 0 ≤ t ∧ t ≤ s.top ∧ t ≤ b ∧ b - t ≤ s.cur.cap
  | .growLoad _ b t old a i => Copied s b t old a i
  | .growStore _ b t old a i v => Copied s b t old a i ∧ i < b ∧ v = s.cur.load i
  | .pushStore _ b a => b = s.bottom ∧ a = s.array ∧ b - s.top < s.cur.cap
  | .pushPublish val b => b = s.bottom ∧ s.cur.load b = some val ∧ b - s.top < s.cur.cap
  | .popArray b => b = s.bottom - 1
  | .popStore b a => b = s.bottom - 1 ∧ a = s.array
  | .popTop b a => b = s.bottom ∧ a = s.array
  | .popLoad b t a => b = s.bottom ∧ a = s.array ∧ t ≤ s.top ∧ t ≤ b
  | .popCas b t val => b = s.bottom ∧ t = b ∧ t ≤ s.top ∧ (s.top = t → val = s.cur.load b)
  | .popRestore b _ => b = s.bottom ∧ s.top = b + 1
  | _ => True

/-- What a thief can rely on: should its exchange succeed, then what it has read is what is
there. -/
def ThiefOk (s : State τ α) : ThiefPc α → Prop
  | .stealBottom t => t ≤ s.top
  | .stealArray t => t ≤ s.top ∧ (s.top = t → t < s.limit)
  | .stealLoad t a => t ≤ s.top ∧
      (s.top = t → t < s.limit ∧ a ≤ s.array ∧ (s.arrays a).load t = s.cur.load t)
  | .stealCas t val => t ≤ s.top ∧ (s.top = t → t < s.limit ∧ val = s.cur.load t)
  | _ => True

structure Inv (s : State τ α) : Prop where
  cap : PowTwo s.cur.cap
  nonneg : 0 ≤ s.top
  le : s.top ≤ s.limit
  fits : s.limit - s.top ≤ s.cur.cap
  owner : OwnerOk s s.owner
  thief : ∀ u, ThiefOk s (s.thief u)

/-- Where a step ends: nothing is lost, and nothing is there twice. -/
structure Lands (s s' : State τ α) (ev : List (Event τ α)) : Prop where
  inv : Inv s'
  balance : s'.held + returns ev = s.held + pushes ev

variable {t : Int} {val : α}

section Steps

variable {s s' : State τ α} {ev : List (Event τ α)}

variable {b : Int} {old : Nat}

theorem Copied.mono {i : Int} {a : Arr α} (h : Copied s b t old a i) (htop : s.top ≤ s'.top)
    (hbottom : s'.bottom = s.bottom) (harray : s'.array = s.array) (hcur : s'.cur = s.cur) :
    Copied s' b t old a i := by
  obtain ⟨h₁, h₂, h₃, h₄, h₅, h₆, h₇, h₈, h₉⟩ := h
  exact ⟨hbottom ▸ h₁, h₂, by omega, h₄, h₅, hcur ▸ h₆, harray ▸ h₇, hcur ▸ h₈, hcur ▸ h₉⟩

/-- The loop of `grow` goes round once. -/
theorem Copied.next (hcap : PowTwo s.cur.cap) {i : Int} {a : Arr α} (h : Copied s b t old a i)
    (hlt : i < b) : Copied s b t old (a.store i (s.cur.load i)) (i + 1) := by
  have hfrom := h.from_le
  have hfits := h.fits
  have hnonneg := h.nonneg
  refine { h with from_le := by omega, le := by omega, copied := ?_ }
  intro j hj hj'
  rcases Int.lt_or_eq_of_le (Int.le_of_lt_add_one hj') with hji | rfl
  · rw [Arr.load_store_of_ne, h.copied j hj hji]
    · rw [h.cap]
      exact hcap.double
    all_goals
      have := h.cap
      omega
  · exact Arr.load_store_self

/-- What a thief needs the others to leave alone. -/
theorem thiefOk_of {pc : ThiefPc α} (h : ThiefOk s pc) (htop : s.top ≤ s'.top)
    (hsame : s'.top = s.top → s.top < s.limit → s.top < s'.limit ∧ s.array ≤ s'.array ∧
      s'.cur.load s.top = s.cur.load s.top ∧
      ∀ a, a ≤ s.array → (s'.arrays a).load s.top = (s.arrays a).load s.top) :
    ThiefOk s' pc := by
  -- a thief whose element is gone has nothing to lose
  have hcases : ∀ t, t ≤ s.top → s'.top = t → s.top = t ∧ s'.top = s.top := by
    intro t hle heq
    constructor <;> omega
  cases pc with
  | idle | stealTop => trivial
  | stealBottom t => exact Int.le_trans h htop
  | stealArray t =>
      refine ⟨Int.le_trans h.1 htop, fun heq => ?_⟩
      obtain ⟨ht, hst⟩ := hcases t h.1 heq
      rw [← ht]
      exact (hsame hst (ht ▸ h.2 ht)).1
  | stealLoad t a =>
      refine ⟨Int.le_trans h.1 htop, fun heq => ?_⟩
      obtain ⟨ht, hst⟩ := hcases t h.1 heq
      obtain ⟨hlt, ha, hload⟩ := h.2 ht
      obtain ⟨hlt', harr, hcur, holds⟩ := hsame hst (ht ▸ hlt)
      rw [← ht] at hload ⊢
      exact ⟨hlt', by omega, by rw [holds a ha, hcur, hload]⟩
  | stealCas t val =>
      refine ⟨Int.le_trans h.1 htop, fun heq => ?_⟩
      obtain ⟨ht, hst⟩ := hcases t h.1 heq
      obtain ⟨hlt, hval⟩ := h.2 ht
      obtain ⟨hlt', harr, hcur, _⟩ := hsame hst (ht ▸ hlt)
      rw [← ht] at hval ⊢
      exact ⟨hlt', by rw [hval, hcur]⟩

/-- The owner goes on, and may have moved `bottom_`, but not the end of the deque. -/
theorem lands_owner (hI : Inv s) {pc : OwnerPc α} (hlimit : b + pc.contested = s.limit)
    (hok : OwnerOk { s with bottom := b, owner := pc } pc)
    (hhand : (pc.hand s.arrays : Multiset (Option α)) + returns ev =
      (s.owner.hand s.arrays : Multiset (Option α)) + pushes ev) :
    Lands s { s with bottom := b, owner := pc } ev := by
  have hl : State.limit { s with bottom := b, owner := pc } = s.limit := hlimit
  constructor
  case inv =>
      constructor
      case cap => exact hI.cap
      case nonneg => exact hI.nonneg
      case le => exact hl ▸ hI.le
      case fits => exact hl ▸ hI.fits
      case owner => exact hok
      case thief =>
          intro u
          refine thiefOk_of (hI.thief u) (Int.le_refl _) fun _ hlt => ?_
          exact ⟨hl ▸ hlt, Nat.le_refl _, rfl, fun _ _ => rfl⟩
  case balance =>
      unfold State.held State.contents
      rw [hl, Multiset.add_assoc, Multiset.add_assoc]
      exact congrArg _ hhand

/-- The owner changes the array, or takes another one, and what is in the deque stays. -/
theorem lands_arrays (hI : Inv s) {A : Nat → Arr α} {k : Nat} {pc : OwnerPc α}
    (hcap : PowTwo (A k).cap) (hfits : s.limit - s.top ≤ (A k).cap)
    (hcontested : pc.contested = s.owner.contested)
    (hload : ∀ i, s.top ≤ i → i < s.limit → (A k).load i = s.cur.load i)
    (hk : s.array ≤ k)
    (hold : ∀ a, a ≤ s.array → s.top < s.limit → (A a).load s.top = (s.arrays a).load s.top)
    (hok : OwnerOk { s with arrays := A, array := k, owner := pc } pc)
    (hhand : pc.hand A = s.owner.hand s.arrays) :
    Lands s { s with arrays := A, array := k, owner := pc } [] := by
  have hl : State.limit { s with arrays := A, array := k, owner := pc } = s.limit := by
    unfold State.limit
    rw [hcontested]
  constructor
  case inv =>
      constructor
      case cap => exact hcap
      case nonneg => exact hI.nonneg
      case le => exact hl ▸ hI.le
      case fits => exact hl ▸ hfits
      case owner => exact hok
      case thief =>
          intro u
          refine thiefOk_of (hI.thief u) (Int.le_refl _) fun _ hlt => ?_
          exact ⟨hl ▸ hlt, hk, hload _ (Int.le_refl _) hlt, fun a ha => hold a ha hlt⟩
  case balance =>
      have hcontents : State.contents { s with arrays := A, array := k, owner := pc } =
          s.contents := by
        unfold State.contents
        rw [hl]
        exact window_congr hload
      unfold State.held
      rw [hcontents]
      exact congrArg (fun h : List (Option α) => (s.contents : Multiset (Option α)) + h + _) hhand

/-- The new array is published. -/
theorem lands_grow (hI : Inv s) {i : Int} {a : Arr α} (hpc : s.owner = .growLoad val b t old a i)
    (hend : ¬ i < b) :
    Lands s { s with
      arrays := Function.update s.arrays (s.array + 1) a, array := s.array + 1,
      owner := .pushStore val b (s.array + 1) } [] := by
  have hok : Copied s b t old a i := by
    have := hI.owner
    rwa [hpc] at this
  have hlimit : s.limit = b := by
    rw [State.limit, hpc, hok.bottom]
    simp
  have hnew : Function.update s.arrays (s.array + 1) a (s.array + 1) = a :=
    Function.update_self ..
  have hpos := hI.cap.1
  have hfits := hok.fits
  have htop := hok.top
  refine lands_arrays hI ?_ ?_ (by simp [hpc]) ?_ (Nat.le_succ _) ?_ ?_ (by simp [hpc])
  · rw [hnew, hok.cap]
    exact hI.cap.double
  · rw [hnew, hok.cap, hlimit]
    push_cast
    omega
  · intro j hj hj'
    rw [hnew]
    exact hok.copied j (by omega) (by omega)
  · intro k hk _
    rw [Function.update_of_ne (by omega)]
  · refine ⟨hok.bottom, rfl, ?_⟩
    change b - s.top < (Function.update s.arrays (s.array + 1) a (s.array + 1)).cap
    rw [hnew, hok.cap]
    push_cast
    omega

/-- The value is stored beyond the end. -/
theorem lands_store (hI : Inv s) {a : Nat} (hpc : s.owner = .pushStore val b a) :
    Lands s { s with
      arrays := Function.update s.arrays a ((s.arrays a).store b (some val)),
      owner := .pushPublish val b } [] := by
  obtain ⟨hb, rfl, hroom⟩ : b = s.bottom ∧ a = s.array ∧ b - s.top < s.cur.cap := by
    have := hI.owner
    rwa [hpc] at this
  have hlimit : s.limit = b := by
    rw [State.limit, hpc, hb]
    simp
  have hnew : Function.update s.arrays s.array ((s.arrays s.array).store b (some val)) s.array =
      s.cur.store b (some val) := Function.update_self ..
  have hle := hI.le
  have hnonneg := hI.nonneg
  have hload : ∀ i, s.top ≤ i → i < s.limit →
      (s.cur.store b (some val)).load i = s.cur.load i := by
    intro i hi hi'
    exact Arr.load_store_of_ne hI.cap (by omega) (by omega) (by omega) (by omega) (by omega)
  refine lands_arrays hI ?_ ?_ (by simp [hpc]) ?_ (Nat.le_refl _) ?_ ?_ (by simp [hpc])
  · rw [hnew]
    exact hI.cap
  · rw [hnew]
    exact hI.fits
  · rw [hnew]
    exact hload
  · intro k _ hlt
    by_cases hk : k = s.array
    · rw [hk, hnew]
      exact hload _ (Int.le_refl _) hlt
    · rw [Function.update_of_ne hk]
  · refine ⟨hb, ?_, ?_⟩
    · exact (congrArg (Arr.load · b) hnew).trans Arr.load_store_self
    · change b - s.top <
        (Function.update s.arrays s.array ((s.arrays s.array).store b (some val)) s.array).cap
      rw [hnew]
      exact hroom

/-- The new element is published. -/
theorem lands_push (hI : Inv s) (hpc : s.owner = .pushPublish val b) :
    Lands s { s with bottom := b + 1, owner := .idle } [.pushed val] := by
  obtain ⟨hb, hval, hroom⟩ : b = s.bottom ∧ s.cur.load b = some val ∧
      b - s.top < s.cur.cap := by
    have := hI.owner
    rwa [hpc] at this
  have hlimit : s.limit = b := by
    rw [State.limit, hpc, hb]
    simp
  have hl : State.limit { s with bottom := b + 1, owner := .idle } = b + 1 := by
    simp [State.limit]
  have hle := hI.le
  constructor
  case inv =>
      constructor
      case cap => exact hI.cap
      case nonneg => exact hI.nonneg
      case le =>
          rw [hl]
          change s.top ≤ b + 1
          omega
      case fits =>
          rw [hl]
          change b + 1 - s.top ≤ s.cur.cap
          omega
      case owner => trivial
      case thief =>
          intro u
          refine thiefOk_of (hI.thief u) (Int.le_refl _) fun _ hlt => ?_
          refine ⟨?_, Nat.le_refl _, rfl, fun _ _ => rfl⟩
          rw [hl]
          omega
  case balance =>
      have hcontents : State.contents { s with bottom := b + 1, owner := .idle } =
          s.contents ++ [some val] := by
        unfold State.contents
        rw [hl, hlimit, ← hval]
        exact window_snoc (show s.top ≤ b by omega)
      unfold State.held
      rw [hcontents, hpc]
      simp only [OwnerPc.hand, pushes, returns, List.filterMap_cons, List.filterMap_nil, Event.push,
        Event.result, Multiset.coe_add, List.append_nil]

/-- The owner has seen that it is not the last element: it is his. -/
theorem lands_claim (hI : Inv s) {a : Nat} (hpc : s.owner = .popTop b a) (hlt : s.top < b) :
    Lands s { s with owner := .popLoad b s.top a } [] := by
  obtain ⟨hb, rfl⟩ : b = s.bottom ∧ a = s.array := by
    have := hI.owner
    rwa [hpc] at this
  have hlimit : s.limit = b + 1 := by
    rw [State.limit, hpc, hb]
    simp
  have hl : State.limit { s with owner := .popLoad b s.top s.array } = b := by
    simp only [State.limit, OwnerPc.contested, hb]
    omega
  have hfits := hI.fits
  constructor
  case inv =>
      constructor
      case cap => exact hI.cap
      case nonneg => exact hI.nonneg
      case le =>
          rw [hl]
          exact Int.le_of_lt hlt
      case fits =>
          rw [hl]
          change b - s.top ≤ s.cur.cap
          omega
      case owner => exact ⟨hb, rfl, Int.le_refl _, Int.le_of_lt hlt⟩
      case thief =>
          intro u
          refine thiefOk_of (hI.thief u) (Int.le_refl _) fun _ _ => ?_
          refine ⟨?_, Nat.le_refl _, rfl, fun _ _ => rfl⟩
          rw [hl]
          exact hlt
  case balance =>
      have hcontents : s.contents =
          State.contents { s with owner := .popLoad b s.top s.array } ++ [s.cur.load b] := by
        unfold State.contents
        rw [hl, hlimit]
        exact window_snoc (Int.le_of_lt hlt)
      unfold State.held
      rw [hcontents, hpc]
      simp only [OwnerPc.hand, pushes, returns, List.filterMap_nil, if_neg (Int.ne_of_lt hlt),
        Multiset.coe_add, List.append_nil]
      rfl

/-- The first element leaves. -/
theorem contents_take (hlt : s.top < s.limit) (htop : s'.top = s.top + 1)
    (hlimit : s'.limit = s.limit) (hcur : s'.cur = s.cur) :
    s.contents = s.cur.load s.top :: s'.contents := by
  unfold State.contents
  rw [hlimit, htop, hcur]
  exact window_cons hlt

/-- What is left of the invariant when the first element leaves. -/
theorem inv_take (hI : Inv s) (hlt : s.top < s.limit) (htop : s'.top = s.top + 1)
    (hlimit : s'.limit = s.limit) (hcur : s'.cur = s.cur) (hok : OwnerOk s' s'.owner)
    (hthief : ∀ u, s'.thief u = s.thief u ∨ s'.thief u = .idle) : Inv s' := by
  have hfits := hI.fits
  have hnonneg := hI.nonneg
  constructor
  case cap => exact hcur ▸ hI.cap
  case nonneg => omega
  case le => omega
  case fits =>
      rw [hcur]
      omega
  case owner => exact hok
  case thief =>
      intro u
      rcases hthief u with hu | hu
      · rw [hu]
        refine thiefOk_of (hI.thief u) (by omega) fun heq => ?_
        omega
      · rw [hu]
        trivial

/-- What the owner relies on is not touched by a thief that takes elements from the top. -/
theorem ownerOk_of (hI : Inv s) (htop : s.top ≤ s'.top) (hle : s'.top ≤ s.limit)
    (hbottom : s'.bottom = s.bottom) (harray : s'.array = s.array) (hcur : s'.cur = s.cur) :
    OwnerOk s' s.owner := by
  have h := hI.owner
  unfold State.limit at hle
  cases hpc : s.owner with
  | idle | pushBottom | popBottom => trivial
  | growLoad val b t old a i =>
      rw [hpc] at h
      exact Copied.mono h htop hbottom harray hcur
  | growStore val b t old a i v =>
      rw [hpc] at h
      exact ⟨h.1.mono htop hbottom harray hcur, h.2.1, hcur ▸ h.2.2⟩
  | pushTop | popArray | popStore | popTop =>
      rw [hpc] at h
      simpa only [OwnerOk, hbottom, harray] using h
  | pushArray | pushStore | pushPublish | popLoad =>
      rw [hpc] at h
      simp only [OwnerOk, hbottom, harray, hcur] at h ⊢
      grind
  | popCas b t val =>
      rw [hpc] at h
      obtain ⟨hb, htb, hle', hval⟩ := h
      exact ⟨hbottom ▸ hb, htb, by omega, fun heq => hcur ▸ hval (by omega)⟩
  | popRestore b r =>
      -- there is nothing left to take
      rw [hpc] at h hle
      obtain ⟨hb, ht⟩ := h
      simp only [OwnerPc.contested] at hle
      exact ⟨hbottom ▸ hb, by omega⟩

/-- The owner wins the last element. -/
theorem lands_last (hI : Inv s) {val : Option α} (hpc : s.owner = .popCas b t val)
    (htop : s.top = t) : Lands s { s with top := t + 1, owner := .popRestore b (some val) } [] := by
  obtain ⟨hb, rfl, _, hval⟩ : b = s.bottom ∧ t = b ∧ t ≤ s.top ∧
      (s.top = t → val = s.cur.load b) := by
    have := hI.owner
    rwa [hpc] at this
  have hlimit : s.limit = t + 1 := by
    rw [State.limit, hpc, hb]
    simp
  have hl : State.limit { s with top := t + 1, owner := .popRestore t (some val) } = s.limit := by
    rw [hlimit]
    simp [State.limit, hb]
  constructor
  case inv =>
      refine inv_take hI (by omega) (by rw [htop]) hl rfl ?_ fun _ => .inl rfl
      exact ⟨hb, rfl⟩
  case balance =>
      have hcontents : s.contents = s.cur.load s.top ::
          State.contents { s with top := t + 1, owner := .popRestore t (some val) } :=
        contents_take (by omega) (by rw [htop]) hl rfl
      rw [htop, ← hval htop] at hcontents
      unfold State.held
      rw [hcontents, hpc]
      simp only [OwnerPc.hand, pushes, returns, List.filterMap_nil, Multiset.coe_add,
        List.append_nil, Option.toList_some, Multiset.coe_eq_coe]
      exact List.perm_append_singleton _ _

end Steps

section Steps

variable [DecidableEq τ] {s s' : State τ α} {u : τ} {ev : List (Event τ α)}

@[simp] theorem goto_self (pc : ThiefPc α) : (s.goto u pc).thief u = pc := by
  simp only [State.goto, Function.update_self]

theorem goto_other {w : τ} (h : w ≠ u) (pc : ThiefPc α) : (s.goto u pc).thief w = s.thief w := by
  simp only [State.goto, Function.update_of_ne h]

/-- A thief goes on, or leaves with nothing. -/
theorem lands_thief (hI : Inv s) {pc : ThiefPc α} (hok : ThiefOk s pc)
    (hev : ev = [] ∨ ev = [.stolen u none]) : Lands s (s.goto u pc) ev := by
  have hthief : ∀ pc', ThiefOk s pc' → ThiefOk (s.goto u pc) pc' := by
    intro pc' hpc'
    exact thiefOk_of hpc' (Int.le_refl _) fun _ hlt => ⟨hlt, Nat.le_refl _, rfl, fun _ _ => rfl⟩
  constructor
  case inv =>
      constructor
      case cap => exact hI.cap
      case nonneg => exact hI.nonneg
      case le => exact hI.le
      case fits => exact hI.fits
      case owner => exact ownerOk_of (s := s) hI (Int.le_refl _) hI.le rfl rfl rfl
      case thief =>
          intro w
          by_cases hw : w = u
          · rw [hw, goto_self]
            exact hthief pc hok
          · rw [goto_other hw]
            exact hthief _ (hI.thief w)
  case balance =>
      change s.held + _ = s.held + _
      rcases hev with rfl | rfl
      · rfl
      · rfl

/-- A thief wins the first element. -/
theorem lands_steal (hI : Inv s) {val : Option α} (hpc : s.thief u = .stealCas t val)
    (htop : s.top = t) : Lands s { s.goto u .idle with top := t + 1 } [.stolen u (some val)] := by
  obtain ⟨_, h⟩ : t ≤ s.top ∧ (s.top = t → t < s.limit ∧ val = s.cur.load t) := by
    have := hI.thief u
    rwa [hpc] at this
  obtain ⟨hlt, hval⟩ := h htop
  rw [← htop] at hlt hval
  have htop' : State.top { s.goto u .idle with top := t + 1 } = s.top + 1 := by rw [htop]
  constructor
  case inv =>
      refine inv_take hI hlt htop' rfl rfl ?_ fun w => ?_
      · refine ownerOk_of (s := s) hI ?_ ?_ rfl rfl rfl
        · omega
        · omega
      · by_cases hw : w = u
        · rw [hw]
          exact .inr (goto_self _)
        · exact .inl (goto_other hw _)
  case balance =>
      have hcontents : s.contents = s.cur.load s.top ::
          State.contents { s.goto u .idle with top := t + 1 } := contents_take hlt htop' rfl rfl
      rw [← hval] at hcontents
      change (_ : Multiset (Option α)) + s.owner.hand s.arrays + _ = s.contents + _ + _
      rw [hcontents]
      simp only [pushes, returns, List.filterMap_cons, List.filterMap_nil, Event.push,
        Event.result, Multiset.coe_add, List.append_nil, Multiset.coe_eq_coe]
      exact List.perm_append_singleton _ _

omit [DecidableEq τ] in
theorem ownerGo_lands (hI : Inv s) (h : ownerGo s = some (s', ev)) : Lands s s' ev := by
  have hok := hI.owner
  have hle := hI.le
  have hfits := hI.fits
  unfold State.limit at hle hfits
  cases hpc : s.owner with
  | idle => simp [ownerGo, hpc] at h
  | pushBottom val =>
      simp only [ownerGo, hpc, Option.some.injEq, Prod.mk.injEq] at h
      obtain ⟨rfl, rfl⟩ := h
      exact lands_owner hI (by simp [State.limit, hpc]) rfl (by simp [hpc, pushes, returns])
  | pushTop val b =>
      simp only [ownerGo, hpc, Option.some.injEq, Prod.mk.injEq] at h
      obtain ⟨rfl, rfl⟩ := h
      rw [hpc] at hok hle hfits
      simp only [OwnerOk, OwnerPc.contested] at hok hle hfits
      refine lands_owner hI (by simp [State.limit, hpc]) ?_ (by simp [hpc, pushes, returns])
      exact ⟨hok, hI.nonneg, Int.le_refl _, by omega, by change b - s.top ≤ s.cur.cap; omega⟩
  | pushArray val b t =>
      rw [hpc] at hok
      obtain ⟨hb, hnonneg, htop, htb, hfits⟩ := hok
      simp only [ownerGo, hpc] at h
      split at h
      · cases h
        refine lands_owner hI (by simp [State.limit, hpc]) ?_ (by simp [hpc, pushes, returns])
        exact ⟨hb, hnonneg, htop, Int.le_refl _, htb, hfits, rfl, rfl,
          fun j hj hj' => absurd hj (by omega)⟩
      · rename_i hroom
        cases h
        refine lands_owner hI (by simp [State.limit, hpc]) ?_ (by simp [hpc, pushes, returns])
        exact ⟨hb, rfl, by change b - s.top < s.cur.cap; omega⟩
  | growLoad val b t old a i =>
      rw [hpc] at hok
      simp only [ownerGo, hpc] at h
      split at h
      · rename_i hlt
        cases h
        refine lands_owner hI (by simp [State.limit, hpc]) ?_ (by simp [hpc, pushes, returns])
        refine ⟨Copied.mono hok (Int.le_refl _) rfl rfl rfl, hlt, ?_⟩
        rw [Copied.array hok]
        rfl
      · rename_i hend
        cases h
        exact lands_grow hI hpc hend
  | growStore val b t old a i v =>
      simp only [ownerGo, hpc, Option.some.injEq, Prod.mk.injEq] at h
      obtain ⟨rfl, rfl⟩ := h
      rw [hpc] at hok
      obtain ⟨hcopied, hlt, rfl⟩ := hok
      refine lands_owner hI (by simp [State.limit, hpc]) ?_ (by simp [hpc, pushes, returns])
      exact (hcopied.next hI.cap hlt).mono (Int.le_refl _) rfl rfl rfl
  | pushStore val b a =>
      simp only [ownerGo, hpc, Option.some.injEq, Prod.mk.injEq] at h
      obtain ⟨rfl, rfl⟩ := h
      exact lands_store hI hpc
  | pushPublish val b =>
      simp only [ownerGo, hpc, Option.some.injEq, Prod.mk.injEq] at h
      obtain ⟨rfl, rfl⟩ := h
      exact lands_push hI hpc
  | popBottom =>
      simp only [ownerGo, hpc, Option.some.injEq, Prod.mk.injEq] at h
      obtain ⟨rfl, rfl⟩ := h
      exact lands_owner hI (by simp [State.limit, hpc]) rfl (by simp [hpc, pushes, returns])
  | popArray b =>
      simp only [ownerGo, hpc, Option.some.injEq, Prod.mk.injEq] at h
      obtain ⟨rfl, rfl⟩ := h
      rw [hpc] at hok
      exact lands_owner hI (by simp [State.limit, hpc]) ⟨hok, rfl⟩ (by simp [hpc, pushes, returns])
  | popStore b a =>
      simp only [ownerGo, hpc, Option.some.injEq, Prod.mk.injEq] at h
      obtain ⟨rfl, rfl⟩ := h
      rw [hpc] at hok
      obtain ⟨rfl, ha⟩ := hok
      exact lands_owner hI (by simp [State.limit, hpc]) ⟨rfl, ha⟩ (by simp [hpc, pushes, returns])
  | popTop b a =>
      rw [hpc] at hok hle
      obtain ⟨hb, ha⟩ := hok
      simp only [OwnerPc.contested] at hle
      simp only [ownerGo, hpc] at h
      split at h
      · cases h
        refine lands_owner hI (by simp [State.limit, hpc]) ?_ (by simp [hpc, pushes, returns])
        exact ⟨hb, by change s.top = b + 1; omega⟩
      · cases h
        by_cases hlast : s.top = b
        · refine lands_owner hI (by simp [State.limit, hpc, hlast]) ?_
            (by simp [hpc, hlast, pushes, returns])
          exact ⟨hb, ha, Int.le_refl _, Int.le_of_eq hlast⟩
        · exact lands_claim hI hpc (by omega)
  | popLoad b t a =>
      rw [hpc] at hok
      obtain ⟨hb, rfl, htop, htb⟩ := hok
      simp only [ownerGo, hpc] at h
      split at h
      · rename_i hlast
        cases h
        refine lands_owner hI (by simp [State.limit, hpc, hlast]) ?_
          (by simp [hpc, hlast, pushes, returns])
        exact ⟨hb, hlast, htop, fun _ => rfl⟩
      · rename_i hmore
        cases h
        exact lands_owner hI (by simp [State.limit, hpc, hmore]) trivial
          (by simp [hpc, hmore, pushes, returns, List.filterMap_cons])
  | popCas b t val =>
      rw [hpc] at hok hle
      obtain ⟨hb, rfl, htop, hval⟩ := hok
      simp only [OwnerPc.contested] at hle
      simp only [ownerGo, hpc] at h
      split at h
      · rename_i heq
        cases h
        exact lands_last hI hpc heq
      · rename_i hne
        cases h
        refine lands_owner hI (by simp [State.limit, hpc]) ?_ (by simp [hpc, pushes, returns])
        exact ⟨hb, by change s.top = t + 1; omega⟩
  | popRestore b r =>
      simp only [ownerGo, hpc, Option.some.injEq, Prod.mk.injEq] at h
      obtain ⟨rfl, rfl⟩ := h
      rw [hpc] at hok
      obtain ⟨rfl, _⟩ := hok
      refine lands_owner hI (by simp [State.limit, hpc]) trivial ?_
      cases r with
      | none => simp [hpc, pushes, returns, List.filterMap_cons]
      | some v => simp [hpc, pushes, returns, List.filterMap_cons]

theorem thiefGo_lands (hI : Inv s) (h : thiefGo s u = some (s', ev)) : Lands s s' ev := by
  have hok := hI.thief u
  cases hpc : s.thief u with
  | idle => simp [thiefGo, hpc] at h
  | stealTop =>
      simp only [thiefGo, hpc, Option.some.injEq, Prod.mk.injEq] at h
      obtain ⟨rfl, rfl⟩ := h
      exact lands_thief hI (Int.le_refl _) (.inl rfl)
  | stealBottom t =>
      rw [hpc] at hok
      simp only [thiefGo, hpc] at h
      split at h
      · cases h
        exact lands_thief hI trivial (.inr rfl)
      · cases h
        refine lands_thief hI ⟨hok, fun _ => ?_⟩ (.inl rfl)
        have := s.bottom_le_limit
        omega
  | stealArray t =>
      simp only [thiefGo, hpc, Option.some.injEq, Prod.mk.injEq] at h
      obtain ⟨rfl, rfl⟩ := h
      rw [hpc] at hok
      exact lands_thief hI ⟨hok.1, fun ht => ⟨hok.2 ht, Nat.le_refl _, rfl⟩⟩ (.inl rfl)
  | stealLoad t a =>
      simp only [thiefGo, hpc, Option.some.injEq, Prod.mk.injEq] at h
      obtain ⟨rfl, rfl⟩ := h
      rw [hpc] at hok
      exact lands_thief hI ⟨hok.1, fun ht => ⟨(hok.2 ht).1, (hok.2 ht).2.2⟩⟩ (.inl rfl)
  | stealCas t val =>
      simp only [thiefGo, hpc] at h
      split at h
      · rename_i htop
        cases h
        exact lands_steal hI hpc htop
      · cases h
        exact lands_thief hI trivial (.inr rfl)

theorem step_lands {a : Action τ α} (hI : Inv s) (h : step s a = some (s', ev)) :
    Lands s s' ev := by
  cases a with
  | push val =>
      cases hpc : s.owner <;> simp only [step, hpc, Option.some.injEq, Prod.mk.injEq] at h
      case idle =>
        obtain ⟨rfl, rfl⟩ := h
        exact lands_owner hI (by simp [State.limit, hpc]) trivial (by simp [hpc, pushes, returns])
      all_goals cases h
  | pop =>
      cases hpc : s.owner <;> simp only [step, hpc, Option.some.injEq, Prod.mk.injEq] at h
      case idle =>
        obtain ⟨rfl, rfl⟩ := h
        exact lands_owner hI (by simp [State.limit, hpc]) trivial (by simp [hpc, pushes, returns])
      all_goals cases h
  | own => exact ownerGo_lands hI h
  | steal u =>
      cases hpc : s.thief u <;> simp only [step, hpc, Option.some.injEq, Prod.mk.injEq] at h
      case idle =>
        obtain ⟨rfl, rfl⟩ := h
        exact lands_thief hI trivial (.inl rfl)
      all_goals cases h
  | thieve u => exact thiefGo_lands hI h

end Steps

/-! ## What a call returns -/

/-- The element `push` is about to add. -/
@[simp] def OwnerPc.pushing : OwnerPc α → Option α
  | .pushBottom val => some val
  | .pushTop val _ => some val
  | .pushArray val _ _ => some val
  | .growLoad val _ _ _ _ _ => some val
  | .growStore val _ _ _ _ _ _ => some val
  | .pushStore val _ _ => some val
  | .pushPublish val _ => some val
  | _ => none

section Calls

variable {s s' : State τ α} {ev : List (Event τ α)}

theorem ownerGo_pushing (hpush : s.owner.pushing = some val) (h : ownerGo s = some (s', ev)) :
    (ev = [] ∧ s'.owner.pushing = some val) ∨ ev = [.pushed val] := by
  cases hpc : s.owner <;> rw [hpc] at hpush <;>
    simp only [OwnerPc.pushing, Option.some.injEq, reduceCtorEq] at hpush
  case pushPublish =>
      simp only [ownerGo, hpc, Option.some.injEq, Prod.mk.injEq] at h
      exact .inr (hpush ▸ h.2.symm)
  case pushArray | growLoad =>
      simp only [ownerGo, hpc] at h
      split at h
      all_goals
        cases h
        exact .inl ⟨rfl, by simpa using hpush⟩
  all_goals
    simp only [ownerGo, hpc, Option.some.injEq, Prod.mk.injEq] at h
    obtain ⟨rfl, rfl⟩ := h
    exact .inl ⟨rfl, by simpa using hpush⟩

/-- When `pop` returns nothing there is nothing. -/
theorem ownerGo_none (hI : Inv s) (h : ownerGo s = some (s', [.popped none])) : s'.held = 0 := by
  have hok := hI.owner
  cases hpc : s.owner <;> simp only [ownerGo, hpc, reduceCtorEq] at h
  case popRestore b r =>
      rw [hpc] at hok
      simp only [Option.some.injEq, Prod.mk.injEq, List.cons.injEq, Event.popped.injEq,
        and_true] at h
      obtain ⟨rfl, _⟩ := h
      obtain ⟨_, htop⟩ := hok
      simp [State.held, State.contents, State.limit, htop, window_empty]
  case popTop | popCas | popLoad | pushArray | growLoad => split at h <;> simp at h
  all_goals simp at h

/-- Where everything was stored, everything stays so. -/
theorem Lands.solid (h : Lands s s' ev) (hs : none ∉ s.held) :
    none ∉ s'.held ∧ none ∉ returns ev := by
  have hpushes : none ∉ pushes ev := by
    intro hmem
    obtain ⟨e, _, he⟩ := List.mem_filterMap.mp (Multiset.mem_coe.mp hmem)
    cases e <;> simp at he
  have hall : none ∉ s'.held + returns ev := by
    rw [h.balance, Multiset.mem_add]
    exact fun hmem => hmem.elim hs hpushes
  exact ⟨fun hmem => hall (Multiset.mem_add.mpr (.inl hmem)),
    fun hmem => hall (Multiset.mem_add.mpr (.inr hmem))⟩

variable [DecidableEq τ] {u : τ}

theorem thiefGo_owner (h : thiefGo s u = some (s', ev)) : s'.owner = s.owner := by
  unfold thiefGo at h
  split at h
  case h_1 => cases h
  case h_3 | h_6 =>
      split at h
      all_goals
        simp only [Option.some.injEq, Prod.mk.injEq] at h
        rw [← h.1]
        rfl
  all_goals
    simp only [Option.some.injEq, Prod.mk.injEq] at h
    rw [← h.1]
    rfl

/-- A call begins: nothing changes that anybody else could see. -/
theorem call_lands {a : Action τ α} (ha : a ≠ .own) (ha' : ∀ u, a ≠ .thieve u) (hI : Inv s)
    (h : step s a = some (s', ev)) : Inv s' ∧ s'.held = s.held := by
  have hland := step_lands hI h
  have hev : ev = [] := by
    cases a with
    | own => exact absurd rfl ha
    | thieve u => exact absurd rfl (ha' u)
    | push | pop | steal =>
        simp only [step] at h
        split at h
        · simp only [Option.some.injEq, Prod.mk.injEq] at h
          exact h.2.symm
        · cases h
  subst hev
  exact ⟨hland.inv, by simpa [pushes, returns] using hland.balance⟩

end Calls

/-! ## Whole runs -/

theorem inv_init {cap : Nat} (hcap : PowTwo cap) : Inv (init cap : State τ α) := by
  constructor
  case cap => exact hcap
  case nonneg => exact Int.le_refl _
  case le => exact Int.le_refl _
  case fits => exact Int.natCast_nonneg cap
  case owner => trivial
  case thief => exact fun _ => trivial

@[simp] theorem held_init {cap : Nat} : (init cap : State τ α).held = 0 := rfl

section Runs

theorem pushes_append (es ev : List (Event τ α)) : pushes (es ++ ev) = pushes es + pushes ev := by
  simp only [pushes, List.filterMap_append, Multiset.coe_add]

theorem returns_append (es ev : List (Event τ α)) :
    returns (es ++ ev) = returns es + returns ev := by
  simp only [returns, List.filterMap_append, Multiset.coe_add]

variable [DecidableEq τ] {cap : Nat} {s : State τ α} {es : List (Event τ α)}

/-- What was pushed was returned or is held. -/
theorem run_balance (hcap : PowTwo cap) (h : Run step Any (init cap) es s) :
    Inv s ∧ pushes es = returns es + s.held := by
  refine Run.invariant (I := fun es s => Inv s ∧ pushes es = returns es + s.held)
    ⟨inv_init hcap, by simp [pushes, returns]⟩ ?_ h
  intro es ev s s' a hI _ hstep
  have hland := step_lands hI.1 hstep
  refine ⟨hland.inv, ?_⟩
  calc pushes (es ++ ev) = returns es + (s.held + pushes ev) := by
        rw [pushes_append, hI.2, Multiset.add_assoc]
    _ = returns es + (s'.held + returns ev) := by rw [hland.balance]
    _ = returns (es ++ ev) + s'.held := by
        rw [returns_append, Multiset.add_assoc, Multiset.add_comm s'.held]

/-- **Exactly once.** What `pop` and `steal` have returned was pushed, as many times as it was
returned. Whenever the owner is between two calls, the rest is in the deque, from `top_` up to
`bottom_`; the thieves may be anywhere. -/
theorem chaseLevDeque_exactly_once (hcap : PowTwo cap) (h : Run step Any (init cap) es s) :
    returns es ≤ pushes es ∧
      (s.owner = .idle → pushes es = returns es + window s.cur.load s.top s.bottom) := by
  obtain ⟨_, hbalance⟩ := run_balance hcap h
  refine ⟨hbalance ▸ Multiset.le_add_right _ _, fun hidle => ?_⟩
  rw [hbalance]
  simp [State.held, State.contents, State.limit, hidle]

end Runs

/-- The deque has room for one. A thief has got hold of the first array when the owner pushes
a second element and takes a larger one; the thief gets the first element all the same. The
owner and another thief then want the last element, and the thief is faster. -/
def raceSchedule : List (Action (Fin 2) Nat) :=
  [Action.push 7] ++ List.replicate 5 Action.own ++
  [Action.steal 0] ++ List.replicate 3 (Action.thieve 0) ++
  [Action.push 8] ++ List.replicate 8 Action.own ++
  List.replicate 2 (Action.thieve 0) ++
  [Action.steal 1] ++ List.replicate 4 (Action.thieve 1) ++
  [Action.pop] ++ List.replicate 5 Action.own ++
  [Action.thieve 1] ++ List.replicate 2 Action.own

theorem chaseLevDeque_exactly_once_race :
    ∃ (es : List (Event (Fin 2) Nat)) (s : State (Fin 2) Nat), Run step Any (init 1) es s ∧
      es = [pushed 7, pushed 8, stolen 0 (some (some 7)), stolen 1 (some (some 8)), popped none] ∧
      returns es ≤ pushes es := by
  have h : Leads step Any (init 1 : State (Fin 2) Nat) raceSchedule fun _ es => es =
      [pushed 7, pushed 8, stolen 0 (some (some 7)), stolen 1 (some (some 8)), popped none] := by
    decide +kernel
  obtain ⟨s, es, hrun, hes⟩ := h.run
  exact ⟨es, s, hrun, hes, (chaseLevDeque_exactly_once ⟨by decide, by decide⟩ hrun).1⟩

end CrossMachine.Deque
