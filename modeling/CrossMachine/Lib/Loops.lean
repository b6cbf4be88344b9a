import Mathlib.Data.List.GetD
import Mathlib.Data.Set.Insert
import Mathlib.Logic.Function.Basic
import Mathlib.Tactic.Common

/-!
# Counted loops

A loop over `0, …, n - 1` whose body may fail, and what can be said of it. `forRange_eq` gives
the state before every turn and so the state after the last one. `forRange_updateOn` is about
loops over memory: when every turn changes cells of its own, the loop changes all of them, and
as the rule gives what it takes of the body, it can be used for a nest of loops from the inside
to the outside. A loop over a list that may fail comes to its end exactly when it fails at none
of the states it gets to (`foldlM_isSome_iff`).
-/

namespace CrossMachine.Lib

variable {σ ι α : Type*}

def forRange (n : Nat) (body : Nat → σ → Option σ) (s : σ) : Option σ :=
  (List.range n).foldlM (fun s i => body i s) s

variable {n : Nat} {body : Nat → σ → Option σ} {s s' : σ}

@[simp] theorem forRange_zero : forRange 0 body s = some s := rfl

theorem forRange_succ : forRange (n + 1) body s = (forRange n body s).bind (body n) := by
  rw [forRange, forRange, List.range_succ, List.foldlM_append]
  refine congrArg _ (funext fun t => ?_)
  rw [List.foldlM_cons]
  exact Option.bind_fun_some _

/-- The loop goes through these states. -/
theorem forRange_eq {f : Nat → σ} (h : ∀ i < n, body i (f i) = some (f (i + 1))) :
    forRange n body (f 0) = some (f n) := by
  induction n with
  | zero => rfl
  | succ n ih =>
      rw [forRange_succ, ih fun i hi => h i (Nat.lt_succ_of_lt hi), Option.bind_some]
      exact h n (Nat.lt_succ_self n)

/-- A loop that comes to its end has made every turn. -/
theorem turn_of_forRange (h : forRange n body s = some s') {i : Nat} (hi : i < n) :
    ∃ t t', body i t = some t' := by
  induction n generalizing s' with
  | zero => exact absurd hi (Nat.not_lt_zero i)
  | succ n ih =>
      rw [forRange_succ] at h
      obtain ⟨t, ht, hlast⟩ := Option.bind_eq_some_iff.mp h
      rcases Nat.lt_succ_iff_lt_or_eq.mp hi with hlt | rfl
      · exact ih ht hlt
      · exact ⟨t, s', hlast⟩

/-! ## Loops over memory -/

open scoped Classical in
/-- The memory with some of its cells changed. -/
noncomputable def updateOn (p : Set ι) (f : ι → α → α) (mem : ι → α) : ι → α := fun x =>
  if x ∈ p then f x (mem x) else mem x

variable {p q : Set ι} {f : ι → α → α} {mem : ι → α} {x : ι}

theorem updateOn_mem (h : x ∈ p) : updateOn p f mem x = f x (mem x) := if_pos h

theorem updateOn_notMem (h : x ∉ p) : updateOn p f mem x = mem x := if_neg h

@[simp] theorem updateOn_empty : updateOn ∅ f mem = mem :=
  funext fun _ => updateOn_notMem fun h => h

theorem updateOn_singleton [DecidableEq ι] :
    updateOn {x} f mem = Function.update mem x (f x (mem x)) := by
  funext y
  by_cases hy : y = x
  · rw [hy, updateOn_mem (Set.mem_singleton x), Function.update_self]
  · rw [updateOn_notMem (Set.mem_singleton_iff.not.mpr hy), Function.update_of_ne hy]

/-- Cells that are changed one after another, and none of them twice. -/
theorem updateOn_updateOn (h : ∀ x ∈ q, x ∉ p) :
    updateOn q f (updateOn p f mem) = updateOn (p ∪ q) f mem := by
  funext x
  by_cases hq : x ∈ q
  · rw [updateOn_mem hq, updateOn_notMem (h x hq), updateOn_mem (Set.mem_union_right p hq)]
  · by_cases hp : x ∈ p
    · rw [updateOn_notMem hq, updateOn_mem hp, updateOn_mem (Set.mem_union_left q hp)]
    · rw [updateOn_notMem hq, updateOn_notMem hp, updateOn_notMem fun hor => hor.elim hp hq]

/-- A loop whose turns change cells of their own changes all of these cells. -/
theorem forRange_updateOn {body : Nat → (ι → α) → Option (ι → α)} {p : Nat → Set ι}
    (hapart : ∀ i < n, ∀ i' < i, ∀ x ∈ p i, x ∉ p i')
    (hbody : ∀ i < n, ∀ mem, body i mem = some (updateOn (p i) f mem)) :
    forRange n body mem = some (updateOn {x | ∃ i < n, x ∈ p i} f mem) := by
  have hstart : updateOn {x | ∃ i < 0, x ∈ p i} f mem = mem := by
    have hnone : {x | ∃ i < 0, x ∈ p i} = (∅ : Set ι) := by
      refine Set.eq_empty_of_forall_notMem ?_
      rintro x ⟨i, hi, -⟩
      exact Nat.not_lt_zero i hi
    rw [hnone, updateOn_empty]
  have hloop : ∀ i < n, body i (updateOn {x | ∃ j < i, x ∈ p j} f mem) =
      some (updateOn {x | ∃ j < i + 1, x ∈ p j} f mem) := by
    intro i hi
    have hunion : {x | ∃ j < i, x ∈ p j} ∪ p i = {x | ∃ j < i + 1, x ∈ p j} := by
      ext x
      constructor
      · rintro (⟨j, hj, hx⟩ | hx)
        · exact ⟨j, Nat.lt_succ_of_lt hj, hx⟩
        · exact ⟨i, Nat.lt_succ_self i, hx⟩
      · rintro ⟨j, hj, hx⟩
        rcases Nat.lt_succ_iff_lt_or_eq.mp hj with hlt | rfl
        · exact .inl ⟨j, hlt, hx⟩
        · exact .inr hx
    rw [hbody i hi, updateOn_updateOn, hunion]
    rintro x hx ⟨j, hj, hx'⟩
    exact hapart i hi j hj x hx hx'
  have := forRange_eq (f := fun i => updateOn {x | ∃ j < i, x ∈ p j} f mem) hloop
  rwa [hstart] at this

/-! ## Loops over a list -/

/-- What one turn brings about and every turn keeps holds at the end. -/
theorem foldl_of_mem {f : σ → α → σ} {I P : σ → Prop} {xs : List α}
    (hinv : ∀ s, ∀ x ∈ xs, I s → I (f s x)) (hkeep : ∀ s, ∀ x ∈ xs, P s → P (f s x)) {x : α}
    (hmake : ∀ s, I s → P (f s x)) (hx : x ∈ xs) {s : σ} (hs : I s) : P (xs.foldl f s) := by
  induction xs generalizing s with
  | nil => exact absurd hx List.not_mem_nil
  | cons y ys ih =>
      rw [List.foldl_cons]
      rcases List.mem_cons.mp hx with rfl | hin
      · exact List.foldlRecOn ys f (hmake s hs) fun t ht z hz =>
          hkeep t z (List.mem_cons_of_mem _ hz) ht
      · exact ih (fun s z hz => hinv s z (List.mem_cons_of_mem _ hz))
          (fun s z hz => hkeep s z (List.mem_cons_of_mem _ hz)) hin
          (hinv s y List.mem_cons_self hs)

variable {step : σ → α → Option σ} {xs : List α}

theorem foldlM_cons_eq_some {y : α} {ys : List α} :
    (y :: ys).foldlM step s = some s' ↔ ∃ t, step s y = some t ∧ ys.foldlM step t = some s' := by
  rw [List.foldlM_cons]
  exact Option.bind_eq_some_iff

/-- What every turn keeps holds at the end. -/
theorem foldlM_invariant {I : σ → Prop}
    (hstep : ∀ s, ∀ x ∈ xs, ∀ s', I s → step s x = some s' → I s') (h : xs.foldlM step s = some s')
    (hs : I s) : I s' := by
  induction xs generalizing s with
  | nil => exact Option.some.inj h ▸ hs
  | cons y ys ih =>
      obtain ⟨t, ht, hrest⟩ := foldlM_cons_eq_some.mp h
      exact ih (fun s x hx => hstep s x (List.mem_cons_of_mem _ hx)) hrest
        (hstep s y List.mem_cons_self t hs ht)

theorem foldlM_of_mem {P : σ → Prop} (hkeep : ∀ s x s', P s → step s x = some s' → P s') {x : α}
    (hmake : ∀ s s', step s x = some s' → P s') (hx : x ∈ xs)
    (h : xs.foldlM step s = some s') : P s' := by
  induction xs generalizing s with
  | nil => exact absurd hx List.not_mem_nil
  | cons y ys ih =>
      obtain ⟨t, ht, hrest⟩ := foldlM_cons_eq_some.mp h
      rcases List.mem_cons.mp hx with rfl | hin
      · exact foldlM_invariant (fun s x _ => hkeep s x) hrest (hmake s t ht)
      · exact ih hin hrest

theorem foldlM_isSome_iff :
    (∃ s', xs.foldlM step s = some s') ↔ ∀ before x after, xs = before ++ x :: after →
      ∀ t, before.foldlM step s = some t → ∃ t', step t x = some t' := by
  induction xs generalizing s with
  | nil => exact ⟨fun _ _ _ _ h => by simp at h, fun _ => ⟨s, rfl⟩⟩
  | cons y ys ih =>
      constructor
      · rintro ⟨s', hs'⟩ before x after hsplit t ht
        obtain ⟨u, hu, hrest⟩ := foldlM_cons_eq_some.mp hs'
        cases before with
        | nil =>
            obtain ⟨rfl, rfl⟩ := List.cons.inj hsplit
            obtain rfl : s = t := Option.some.inj ht
            exact ⟨u, hu⟩
        | cons z before =>
            obtain ⟨rfl, hrest'⟩ := List.cons.inj hsplit
            obtain ⟨u', hu', ht⟩ := foldlM_cons_eq_some.mp ht
            obtain rfl := Option.some.inj (hu.symm.trans hu')
            exact ih.mp ⟨s', hrest⟩ before x after hrest' t ht
      · intro h
        obtain ⟨u, hu⟩ := h [] y ys rfl s rfl
        obtain ⟨s', hs'⟩ := ih.mpr fun before x after hsplit t ht =>
          h (y :: before) x after (by rw [hsplit, List.cons_append]) t
            (foldlM_cons_eq_some.mpr ⟨u, hu, ht⟩)
        exact ⟨s', foldlM_cons_eq_some.mpr ⟨u, hu, hs'⟩⟩

/-- A loop whose turns only fail by a test that does not look at the state. -/
theorem foldlM_ite {ok : α → Prop} [DecidablePred ok] {f : σ → α → σ}
    (hstep : ∀ x ∈ xs, ∀ s, step s x = if ok x then some (f s x) else none) :
    xs.foldlM step s = if ∀ x ∈ xs, ok x then some (xs.foldl f s) else none := by
  induction xs generalizing s with
  | nil => exact (if_pos fun _ hx => absurd hx List.not_mem_nil).symm
  | cons y ys ih =>
      rw [List.foldlM_cons, List.foldl_cons, hstep y List.mem_cons_self]
      by_cases hy : ok y
      · rw [if_pos hy]
        refine (ih fun x hx => hstep x (List.mem_cons_of_mem y hx)).trans (if_congr ?_ rfl rfl)
        rw [List.forall_mem_cons]
        exact (and_iff_right hy).symm
      · rw [if_neg hy, if_neg fun h => hy (h y List.mem_cons_self)]
        rfl

/-! ## A value for every turn -/

theorem mapM_cons_eq_some {β : Type*} {f : α → Option β} {x : α} {ys : List β} :
    (x :: xs).mapM f = some ys ↔ ∃ y zs, f x = some y ∧ xs.mapM f = some zs ∧ y :: zs = ys := by
  rw [List.mapM_cons]
  constructor
  · intro h
    obtain ⟨y, hy, h⟩ := Option.bind_eq_some_iff.mp h
    obtain ⟨zs, hzs, h⟩ := Option.bind_eq_some_iff.mp h
    exact ⟨y, zs, hy, hzs, Option.some.inj h⟩
  · rintro ⟨y, zs, hy, hzs, rfl⟩
    rw [hy, hzs]
    rfl

theorem mapM_eq_some {β : Type*} {f : α → Option β} {g : α → β}
    (h : ∀ x ∈ xs, f x = some (g x)) : xs.mapM f = some (xs.map g) := by
  induction xs with
  | nil => rfl
  | cons x xs ih =>
      rw [List.mapM_cons, h x List.mem_cons_self, ih fun y hy => h y (List.mem_cons_of_mem _ hy)]
      rfl

theorem mapM_isSome_iff {β : Type*} {f : α → Option β} :
    (∃ ys, xs.mapM f = some ys) ↔ ∀ x ∈ xs, ∃ y, f x = some y := by
  induction xs with
  | nil => exact ⟨fun _ _ hx => absurd hx List.not_mem_nil, fun _ => ⟨[], rfl⟩⟩
  | cons x xs ih =>
      rw [List.forall_mem_cons, ← ih]
      constructor
      · rintro ⟨ys, hys⟩
        obtain ⟨y, zs, hy, hzs, -⟩ := mapM_cons_eq_some.mp hys
        exact ⟨⟨y, hy⟩, zs, hzs⟩
      · rintro ⟨⟨y, hy⟩, zs, hzs⟩
        exact ⟨y :: zs, mapM_cons_eq_some.mpr ⟨y, zs, hy, hzs, rfl⟩⟩

/-- The values of a loop over `start, …, start + n - 1`. -/
theorem mapM_range'_getD {β : Type*} {f : Nat → Option β} {start : Nat} {ys : List β}
    (h : (List.range' start n).mapM f = some ys) (d : β) :
    ys.length = n ∧ ∀ i < n, f (start + i) = some (ys.getD i d) := by
  induction n generalizing start ys with
  | zero =>
      obtain rfl : [] = ys := Option.some.inj h
      exact ⟨rfl, fun i hi => absurd hi (Nat.not_lt_zero i)⟩
  | succ n ih =>
      obtain ⟨y, zs, hy, hzs, rfl⟩ := mapM_cons_eq_some.mp h
      obtain ⟨hlen, hall⟩ := ih hzs
      refine ⟨congrArg (· + 1) hlen, fun i hi => ?_⟩
      cases i with
      | zero => exact hy
      | succ i =>
          rw [List.getD_cons_succ, ← hall i (by omega), Nat.add_assoc, Nat.add_comm 1]

theorem mapM_range_getElem {β : Type*} {f : Nat → Option β} {ys : List β}
    (h : (List.range n).mapM f = some ys) :
    ys.length = n ∧ ∀ i (hi : i < ys.length), f i = some ys[i] := by
  cases ys with
  | nil =>
      have hlen : n = 0 := by
        cases n with
        | zero => rfl
        | succ n =>
            rw [List.range_succ_eq_map] at h
            obtain ⟨y, zs, -, -, hnil⟩ := mapM_cons_eq_some.mp h
            exact absurd hnil (List.cons_ne_nil y zs)
      exact ⟨hlen.symm, fun i hi => absurd hi (Nat.not_lt_zero i)⟩
  | cons y ys =>
      rw [List.range_eq_range'] at h
      obtain ⟨hlen, hall⟩ := mapM_range'_getD h y
      refine ⟨hlen, fun i hi => ?_⟩
      rw [← List.getD_eq_getElem _ y hi, ← hall i (by omega), Nat.zero_add]

/-- Pieces of one length, end to end. -/
theorem getD_flatMap {β : Type*} {f : α → List β} {m r c : Nat} (hlen : ∀ x ∈ xs, (f x).length = m)
    (hr : r < xs.length) (hc : c < m) (d : β) :
    (xs.flatMap f).getD (r * m + c) d = (f xs[r]).getD c d := by
  induction xs generalizing r with
  | nil => exact absurd hr (Nat.not_lt_zero r)
  | cons x xs ih =>
      have hx := hlen x List.mem_cons_self
      rw [List.flatMap_cons]
      cases r with
      | zero =>
          rw [Nat.zero_mul, Nat.zero_add, List.getD_append _ _ _ _ (by omega)]
          rfl
      | succ r =>
          have hrest := ih (fun y hy => hlen y (List.mem_cons_of_mem x hy))
            (Nat.lt_of_succ_lt_succ hr)
          have hindex : (r + 1) * m + c - m = r * m + c := by
            rw [Nat.succ_mul]
            omega
          rw [List.getD_append_right _ _ _ _ (by rw [hx, Nat.succ_mul]; omega), hx, hindex, hrest,
            List.getElem_cons_succ]

/-! ## Nests of loops -/

/-- The turns of a loop over `0, …, m - 1` in a loop over `0, …, n - 1`. -/
def turns (n m : Nat) : List (Nat × Nat) :=
  (List.range n).flatMap fun i => (List.range m).map fun j => (i, j)

theorem mem_turns {n m : Nat} {p : Nat × Nat} : p ∈ turns n m ↔ p.1 < n ∧ p.2 < m := by
  simp [turns, Prod.ext_iff]

theorem forRange_forRange {n m : Nat} {body : Nat → Nat → σ → Option σ} {s : σ} :
    forRange n (fun i => forRange m (body i)) s =
      (turns n m).foldlM (fun s p => body p.1 p.2 s) s := by
  have hlist : ∀ is : List Nat, is.foldlM (fun s i => forRange m (body i) s) s =
      (is.flatMap fun i => (List.range m).map fun j => (i, j)).foldlM
        (fun s p => body p.1 p.2 s) s := by
    intro is
    induction is generalizing s with
    | nil => rfl
    | cons i is ih =>
        rw [List.foldlM_cons, List.flatMap_cons, List.foldlM_append, List.foldlM_map]
        exact congrArg _ (funext fun t => ih)
  exact hlist (List.range n)

/-- Two turns of the inner loop that follow one another, and the turns after them. -/
theorem turns_split {n m i j : Nat} (hi : i < n) (hj : j + 1 < m) :
    ∃ before after, turns n m = before ++ (i, j) :: (i, j + 1) :: after ∧
      ∀ p ∈ after, p.1 < n ∧ p.2 < m ∧ (i < p.1 ∨ p.1 = i ∧ j + 1 < p.2) := by
  have hsplit : ∀ {a b : Nat}, a < b → ∃ after, List.range b = List.range a ++ a :: after ∧
      ∀ x ∈ after, x < b ∧ a < x := by
    intro a b hab
    obtain ⟨d, rfl⟩ : ∃ d, b = a + (d + 1) := ⟨b - a - 1, by omega⟩
    refine ⟨(List.range d).map (a + 1 + ·), ?_, fun x hx => ?_⟩
    · rw [List.range_add, List.range_succ_eq_map, List.map_cons, List.map_map]
      simp [Function.comp_def, Nat.add_assoc, Nat.add_comm 1]
    · obtain ⟨y, hy, rfl⟩ := List.mem_map.mp hx
      have := List.mem_range.mp hy
      omega
  obtain ⟨outer, houter, hmem⟩ := hsplit hi
  obtain ⟨inner, hinner, hmem'⟩ := hsplit hj
  refine ⟨(turns i m) ++ (List.range j).map (fun j => (i, j)),
    inner.map (fun j => (i, j)) ++ outer.flatMap (fun i => (List.range m).map fun j => (i, j)),
    ?_, fun p hp => ?_⟩
  · rw [turns, turns, houter, List.flatMap_append, List.flatMap_cons]
    nth_rewrite 2 [hinner]
    rw [List.range_succ]
    simp
  · rcases List.mem_append.mp hp with hp | hp
    · obtain ⟨x, hx, rfl⟩ := List.mem_map.mp hp
      exact ⟨hi, (hmem' x hx).1, .inr ⟨rfl, (hmem' x hx).2⟩⟩
    · obtain ⟨x, hx, hp⟩ := List.mem_flatMap.mp hp
      obtain ⟨y, hy, rfl⟩ := List.mem_map.mp hp
      exact ⟨(hmem x hx).1, List.mem_range.mp hy, .inl (hmem x hx).2⟩

end CrossMachine.Lib
