import Mathlib.Algebra.BigOperators.Fin
import CrossMachine.Collectives.Exchange
import CrossMachine.Collectives.Ring
import CrossMachine.Lib.Bits

/-!
# Tree collectives

`tree_allreduce.cpp`. Ranks are numbered from the root. To reduce, round `t` lets every
rank whose lowest set bit is `t` hand what it has to the rank without that bit, and
leave; to broadcast, round `t` lets the ranks below `2 ^ t` hand the buffer to those
`2 ^ t` above. When the number of ranks is not a power of two, some partners do not
exist and the round is skipped.

In a reduction a rank that is still there after `t` rounds holds the sum of the
`2 ^ t` ranks from itself on, as far as they exist. The blocks of two partners are
adjacent, so nothing is lost and nothing is counted twice.
-/

namespace CrossMachine.Collectives

open Lib
open Relation (ReflTransGen)

variable {p count : Nat} {α β : Type*}

/-- `toActual`. -/
def toActual (relative root p : Nat) : Nat := (relative + root) % p

/-- `(rank - root + p) % p`. -/
def toRelative (rank root p : Nat) : Nat := (rank + p - root) % p

/-- The loop of `tree_reduce_to_root`. A rank that has sent leaves it. -/
def treeReduceLoop (op : α → α → α) (p count root relative : Nat) :
    List Nat → List α → Proc (Fin p) α (List α)
  | [], buf => .done buf
  | mask :: masks, buf =>
      if relative &&& mask ≠ 0 then
        let partner := toActual (Nat.ldiff relative mask) root p
        load buf 0 count fun out => sendTo partner out (.done buf)
      else
        let peerRelative := relative ||| mask
        if peerRelative < p then
          let partner := toActual peerRelative root p
          recvFrom partner count fun tmp =>
            store op buf 0 tmp (treeReduceLoop op p count root relative masks)
        else treeReduceLoop op p count root relative masks buf

/-- `tree_reduce_to_root`. -/
def treeReduceToRoot (op : α → α → α) (p count root rank : Nat) (buf : List α) :
    Proc (Fin p) α (List α) :=
  if p ≤ 1 then .done buf
  else treeReduceLoop op p count root (toRelative rank root p) (masksUp p) buf

/-- The loop of `tree_broadcast`. -/
def treeBroadcastLoop (p count root relative : Nat) :
    List Nat → List α → Proc (Fin p) α (List α)
  | [], buf => .done buf
  | mask :: masks, buf =>
      if relative < mask then
        let peerRelative := relative + mask
        if peerRelative < p then
          load buf 0 count fun out => sendTo (toActual peerRelative root p) out
            (treeBroadcastLoop p count root relative masks buf)
        else treeBroadcastLoop p count root relative masks buf
      else if relative < 2 * mask then
        let peerRelative := relative - mask
        recvFrom (toActual peerRelative root p) count fun x =>
          store (fun _ x => x) buf 0 x (treeBroadcastLoop p count root relative masks)
      else treeBroadcastLoop p count root relative masks buf

/-- `tree_broadcast`. -/
def treeBroadcast (p count root rank : Nat) (buf : List α) : Proc (Fin p) α (List α) :=
  if p ≤ 1 then .done buf
  else treeBroadcastLoop p count root (toRelative rank root p) (masksUp p) buf

/-- `tree_allreduce`. -/
def treeAllreduce (op : α → α → α) (p count rank : Nat) (buf : List α) :
    Proc (Fin p) α (List α) :=
  (treeReduceToRoot op p count 0 rank buf).bind (treeBroadcast p count 0 rank)

/-! ## Numbering from the root -/

/-- The place of a rank counted from the root. -/
def rel (root i : Fin p) : Nat := toRelative i root p

/-- The rank at a place counted from the root. -/
def act (root : Fin p) (r : Nat) : Fin p := ⟨toActual r root p, Nat.mod_lt _ root.pos⟩

theorem rel_lt (root i : Fin p) : rel root i < p := Nat.mod_lt _ root.pos

theorem rel_val (root i : Fin p) :
    rel root i = if root.val ≤ i.val then i.val - root.val else i.val + p - root.val :=
  ring_back i.isLt (Nat.le_of_lt root.isLt)

theorem act_val (root : Fin p) {r : Nat} (hr : r < p) :
    (act root r).val = if r + root.val < p then r + root.val else r + root.val - p := by
  have hroot := root.isLt
  unfold act toActual
  split
  · rename_i h
    exact Nat.mod_eq_of_lt h
  · simp only
    rw [Nat.mod_eq_sub_mod (by omega), Nat.mod_eq_of_lt (by omega)]

theorem act_rel (root i : Fin p) : act root (rel root i) = i := by
  have hi := i.isLt
  have hroot := root.isLt
  apply Fin.ext
  rw [act_val root (rel_lt root i), rel_val]
  split_ifs <;> omega

theorem rel_act (root : Fin p) {r : Nat} (hr : r < p) : rel root (act root r) = r := by
  have hroot := root.isLt
  rw [rel_val, act_val root hr]
  split_ifs <;> omega

theorem rel_root (root : Fin p) : rel root root = 0 := by
  rw [rel_val, if_pos (Nat.le_refl _), Nat.sub_self]

theorem rel_injective (root : Fin p) {i j : Fin p} (h : rel root i = rel root j) : i = j := by
  rw [← act_rel root i, h, act_rel]

/-! ## Whole buffers -/

theorem block_all (b : Fin count → α) : block (List.ofFn b) 0 count = List.ofFn b := by
  unfold block
  rw [List.drop_zero, List.take_of_length_le (by rw [List.length_ofFn])]

theorem load_all (b : Fin count → α) (k : List α → Proc (Fin p) α β) :
    load (List.ofFn b) 0 count k = k (List.ofFn b) := by
  rw [load_ofFn (by omega)]
  exact congrArg k (block_all b)

theorem store_all (f : α → α → α) (b b' : Fin count → α) (k : List α → Proc (Fin p) α β) :
    store f (List.ofFn b) 0 (List.ofFn b') k = k (List.ofFn fun y => f (b y) (b' y)) := by
  have h : store f (List.ofFn b) 0 (block (List.ofFn b') (0 : Int).toNat count) k = _ :=
    store_ofFn (by omega) k
  rw [Int.toNat_zero, block_all] at h
  rw [h]
  congr 2
  funext y
  have := y.isLt
  exact if_pos (by omega)

/-- The masks from `2 ^ t` on. -/
theorem masks_cons (d t : Nat) : ((List.range (d + 1)).map fun s => 2 ^ (s + t))
    = 2 ^ t :: (List.range d).map fun s => 2 ^ (s + (t + 1)) := by
  have hshift : ∀ s, s + 1 + t = s + (t + 1) := by intro s; omega
  rw [List.range_succ_eq_map]
  simp only [List.map_cons, List.map_map, Function.comp_def, Nat.succ_eq_add_one, hshift,
    Nat.zero_add]

/-! ## Reduction -/

section Reduce

variable {M : Type*} [AddCommMonoid M]

/-- The sum of the `2 ^ t` ranks from `i` on, as far as they exist. -/
def blockSum (root : Fin p) (init : Fin p → Fin count → M) (t : Nat) (i : Fin p) (y : Fin count) :
    M :=
  ∑ r with rel root i ≤ rel root r ∧ rel root r < rel root i + 2 ^ t, init r y

theorem blockSum_zero (root : Fin p) (init : Fin p → Fin count → M) (i : Fin p) (y : Fin count) :
    blockSum root init 0 i y = init i y := by
  have hone : (Finset.univ.filter fun r =>
      rel root i ≤ rel root r ∧ rel root r < rel root i + 2 ^ 0) = {i} := by
    ext r
    simp only [Finset.mem_filter, Finset.mem_univ, true_and, Finset.mem_singleton, Nat.pow_zero]
    constructor
    · intro h
      exact rel_injective root (by omega)
    · intro h
      subst h
      omega
  rw [blockSum, hone, Finset.sum_singleton]

/-- The blocks of two partners make one. -/
theorem blockSum_succ {root i j : Fin p} (init : Fin p → Fin count → M) {t : Nat}
    (hj : rel root j = rel root i + 2 ^ t) (y : Fin count) :
    blockSum root init (t + 1) i y = blockSum root init t i y + blockSum root init t j y := by
  unfold blockSum
  rw [← Finset.sum_union]
  · refine Finset.sum_congr ?_ fun _ _ => rfl
    ext r
    simp only [Finset.mem_union, Finset.mem_filter, Finset.mem_univ, true_and, hj, two_pow_succ]
    omega
  · rw [Finset.disjoint_filter]
    intro r _ h₁ h₂
    omega

/-- A rank without a partner has the whole block already. -/
theorem blockSum_succ_alone {root i : Fin p} (init : Fin p → Fin count → M) {t : Nat}
    (hi : p ≤ rel root i + 2 ^ t) (y : Fin count) :
    blockSum root init (t + 1) i y = blockSum root init t i y := by
  unfold blockSum
  refine Finset.sum_congr ?_ fun _ _ => rfl
  ext r
  have := rel_lt root r
  simp only [Finset.mem_filter, Finset.mem_univ, true_and, two_pow_succ]
  omega

theorem blockSum_all {root : Fin p} (init : Fin p → Fin count → M) {t : Nat} (ht : p ≤ 2 ^ t)
    (y : Fin count) : blockSum root init t root y = ∑ r, init r y := by
  unfold blockSum
  refine Finset.sum_congr ?_ fun _ _ => rfl
  ext r
  have := rel_lt root r
  simp only [Finset.mem_filter, Finset.mem_univ, true_and, rel_root, iff_true]
  omega

/-- The buffers after round `t`: a rank that is still there adds its partner's. -/
def reduceRound (root : Fin p) (t : Nat) (b : Fin p → Fin count → M) (i : Fin p) :
    Fin count → M :=
  if rel root i % 2 ^ (t + 1) = 0 ∧ rel root i + 2 ^ t < p then
    fun y => b i y + b (act root (rel root i + 2 ^ t)) y
  else b i

/-- Round `t` of the reduction, for the ranks that are still there. -/
theorem reduce_stage (root : Fin p) (t : Nat) (masks : List Nat) (b : Fin p → Fin count → M)
    (k : Fin p → List M → Proc (Fin p) M β) :
    ReflTransGen Meet
      (fun i => if rel root i % 2 ^ t = 0 then
        (treeReduceLoop (· + ·) p count root (rel root i) (2 ^ t :: masks)
          (List.ofFn (b i))).bind (k i) else k i (List.ofFn (b i)))
      (fun i => if rel root i % 2 ^ (t + 1) = 0 then
        (treeReduceLoop (· + ·) p count root (rel root i) masks
          (List.ofFn (reduceRound root t b i))).bind (k i)
        else k i (List.ofFn (reduceRound root t b i))) := by
  have hmod := fun i : Fin p => mod_two_pow_succ (rel root i) t
  have hbit := fun i : Fin p => Nat.mod_two_eq_zero_or_one (rel root i / 2 ^ t)
  -- those with bit `t` set hand their buffer to the rank without it
  refine meets_stage (fun i => act root (rel root i - 2 ^ t)) (fun i => List.ofFn (b i))
    (Finset.univ.filter fun i => rel root i % 2 ^ t = 0 ∧ rel root i / 2 ^ t % 2 = 1) ?_ ?_ ?_
  · intro i hi
    obtain ⟨hlow, hset⟩ := (Finset.mem_filter.mp hi).2
    have hnot : ¬ rel root i % 2 ^ (t + 1) = 0 := by
      have := Nat.two_pow_pos t
      rw [hmod i, hset]
      omega
    have hland : rel root i &&& 2 ^ t ≠ 0 := by
      intro h
      rw [land_two_pow_eq_zero] at h
      omega
    have hdst : toActual (rel root i - 2 ^ t) root p = (act root (rel root i - 2 ^ t)).val := rfl
    simp only [if_pos hlow, treeReduceLoop, if_pos hland, ldiff_two_pow_of_set hset,
      load_all, hdst, sendTo_val, Proc.bind_send, Proc.bind_done, reduceRound, hnot, false_and,
      if_false]
  · intro i hi
    obtain ⟨hlow, hset⟩ := (Finset.mem_filter.mp hi).2
    have hle := two_pow_le_of_set hset
    have hlt := rel_lt root i
    have hrel : rel root (act root (rel root i - 2 ^ t)) = rel root i - 2 ^ t :=
      rel_act root (by omega)
    have hclear : (rel root i - 2 ^ t) / 2 ^ t % 2 = 0 := by
      rw [sub_two_pow_div hset]
      omega
    have hlow' : (rel root i - 2 ^ t) % 2 ^ t = 0 := by
      rw [← Nat.mod_eq_sub_mod hle]
      exact hlow
    have hstay : (rel root i - 2 ^ t) % 2 ^ (t + 1) = 0 := by
      rw [mod_two_pow_succ, hclear, hlow', Nat.mul_zero]
    have hpeer : rel root i - 2 ^ t + 2 ^ t = rel root i := Nat.sub_add_cancel hle
    have hsrc : toActual (rel root i) root p = i.val := congrArg Fin.val (act_rel root i)
    refine ⟨fun tmp => (store (· + ·) (List.ofFn (b (act root (rel root i - 2 ^ t)))) 0 tmp
      (treeReduceLoop (· + ·) p count root (rel root i - 2 ^ t) masks)).bind
        (k (act root (rel root i - 2 ^ t))), ?_, ?_⟩
    · simp only [hrel, if_pos hlow', treeReduceLoop, land_two_pow_eq_zero.mpr hclear, ne_eq,
        not_true_eq_false, if_false, lor_two_pow_of_clear hclear, hpeer, if_pos hlt, hsrc,
        recvFrom_val, Proc.bind_recv, List.length_ofFn]
    · simp only [hrel, store_all, reduceRound, hpeer, act_rel, hstay, hlt, true_and,
        if_true]
  · intro x hx hne
    by_cases hlow : rel root x % 2 ^ t = 0
    · have hclear : rel root x / 2 ^ t % 2 = 0 := by
        refine (hbit x).resolve_right fun h => hx ?_
        exact Finset.mem_filter.mpr ⟨Finset.mem_univ x, hlow, h⟩
      have hstay : rel root x % 2 ^ (t + 1) = 0 := by rw [hmod x, hclear, hlow, Nat.mul_zero]
      -- nobody sends to `x`, so its partner does not exist
      have hnone : ¬ rel root x + 2 ^ t < p := by
        intro hlt
        have hrel := rel_act root hlt
        refine hne (act root (rel root x + 2 ^ t)) ?_ ?_
        · have hdiv : (rel root x + 2 ^ t) / 2 ^ t = rel root x / 2 ^ t + 1 :=
            Nat.add_div_right _ (Nat.two_pow_pos t)
          have hmod' : (rel root x + 2 ^ t) % 2 ^ t = 0 := by rw [Nat.add_mod_right, hlow]
          rw [Finset.mem_filter, hrel, hdiv]
          exact ⟨Finset.mem_univ _, hmod', by omega⟩
        · rw [hrel, Nat.add_sub_cancel, act_rel]
      simp only [if_pos hstay, if_pos hlow, treeReduceLoop, land_two_pow_eq_zero.mpr hclear, ne_eq,
        not_true_eq_false, if_false, lor_two_pow_of_clear hclear, reduceRound, hnone, and_false]
    · have hnot : ¬ rel root x % 2 ^ (t + 1) = 0 := by
        rw [hmod x]
        omega
      simp only [if_neg hlow, reduceRound, hnot, false_and, if_false]

/-- **The rounds of the reduction.** If the ranks still there after `t` rounds hold their
blocks, the root ends with the sum. -/
theorem reduce_rounds (root : Fin p) (init : Fin p → Fin count → M) : ∀ d t,
    ∀ b : Fin p → Fin count → M, p ≤ 2 ^ (d + t) →
    (∀ i, rel root i % 2 ^ t = 0 → b i = blockSum root init t i) →
    ∃ out : Fin p → Fin count → M, (∀ y, out root y = ∑ i, init i y) ∧
      ∀ k : Fin p → List M → Proc (Fin p) M β, ReflTransGen Meet
        (fun i => if rel root i % 2 ^ t = 0 then
          (treeReduceLoop (· + ·) p count root (rel root i)
            ((List.range d).map fun s => 2 ^ (s + t)) (List.ofFn (b i))).bind (k i)
          else k i (List.ofFn (b i)))
        (fun i => k i (List.ofFn (out i))) := by
  intro d
  induction d with
  | zero =>
      intro t b hp hb
      rw [Nat.zero_add] at hp
      refine ⟨b, ?_, ?_⟩
      · intro y
        rw [hb root (by rw [rel_root, Nat.zero_mod]), blockSum_all init hp]
      · intro k
        simp only [List.range_zero, List.map_nil, treeReduceLoop, Proc.bind_done, ite_self]
        exact .refl
  | succ d ih =>
      intro t b hp hb
      have hround : ∀ i, rel root i % 2 ^ (t + 1) = 0 →
          reduceRound root t b i = blockSum root init (t + 1) i := by
        intro i hi
        have hpos := Nat.two_pow_pos t
        have hlow : rel root i % 2 ^ t = 0 := by
          rw [mod_two_pow_succ] at hi
          omega
        funext y
        unfold reduceRound
        split
        · rename_i hpeer
          have hrel := rel_act root hpeer.2
          have hlow' : rel root (act root (rel root i + 2 ^ t)) % 2 ^ t = 0 := by
            rw [hrel, Nat.add_mod_right, hlow]
          rw [blockSum_succ init hrel, hb i hlow, hb _ hlow']
        · rename_i hpeer
          rw [blockSum_succ_alone init (by omega), hb i hlow]
      obtain ⟨out, hout, hrun⟩ := ih (t + 1) (reduceRound root t b)
        (by rw [show d + (t + 1) = d + 1 + t by omega]; exact hp) hround
      refine ⟨out, hout, fun k => ?_⟩
      rw [masks_cons]
      exact (reduce_stage root t _ b k).trans (hrun k)

end Reduce

/-! ## Broadcast -/

/-- The buffers after round `t`: those `2 ^ t` above the ranks that have the root's
buffer have it too. -/
def broadcastRound (root : Fin p) (t : Nat) (b : Fin p → Fin count → α) (i : Fin p) :
    Fin count → α :=
  if 2 ^ t ≤ rel root i ∧ rel root i < 2 ^ (t + 1) then b (act root (rel root i - 2 ^ t)) else b i

/-- Round `t` of the broadcast. -/
theorem broadcast_stage (root : Fin p) (t : Nat) (masks : List Nat) (b : Fin p → Fin count → α)
    (k : Fin p → List α → Proc (Fin p) α β) :
    ReflTransGen Meet
      (fun i => (treeBroadcastLoop p count root (rel root i) (2 ^ t :: masks)
        (List.ofFn (b i))).bind (k i))
      (fun i => (treeBroadcastLoop p count root (rel root i) masks
        (List.ofFn (broadcastRound root t b i))).bind (k i)) := by
  have hpow := two_pow_succ t
  refine meets_stage (fun i => act root (rel root i + 2 ^ t)) (fun i => List.ofFn (b i))
    (Finset.univ.filter fun i => rel root i < 2 ^ t ∧ rel root i + 2 ^ t < p) ?_ ?_ ?_
  · intro i hi
    obtain ⟨hlow, hlt⟩ := (Finset.mem_filter.mp hi).2
    have hkeep : broadcastRound root t b i = b i := if_neg (by omega)
    have hdst : toActual (rel root i + 2 ^ t) root p = (act root (rel root i + 2 ^ t)).val := rfl
    simp only [treeBroadcastLoop, if_pos hlow, if_pos hlt, load_all, hdst, sendTo_val,
      Proc.bind_send, hkeep]
  · intro i hi
    obtain ⟨hlow, hlt⟩ := (Finset.mem_filter.mp hi).2
    have hrel := rel_act root hlt
    have hback : rel root i + 2 ^ t - 2 ^ t = rel root i := Nat.add_sub_cancel _ _
    have hsrc : toActual (rel root i) root p = i.val := congrArg Fin.val (act_rel root i)
    have hnew : broadcastRound root t b (act root (rel root i + 2 ^ t)) = b i := by
      unfold broadcastRound
      rw [if_pos (by omega), hrel, hback, act_rel]
    refine ⟨fun x => (store (fun _ x => x) (List.ofFn (b (act root (rel root i + 2 ^ t)))) 0 x
      (treeBroadcastLoop p count root (rel root i + 2 ^ t) masks)).bind
        (k (act root (rel root i + 2 ^ t))), ?_, ?_⟩
    · simp only [hrel, treeBroadcastLoop, if_neg (by omega : ¬ rel root i + 2 ^ t < 2 ^ t),
        if_pos (by omega : rel root i + 2 ^ t < 2 * 2 ^ t), hback, hsrc, recvFrom_val,
        Proc.bind_recv, List.length_ofFn]
    · simp only [hrel, hnew, store_all]
  · intro x hx hne
    have hrange : ¬ (2 ^ t ≤ rel root x ∧ rel root x < 2 ^ (t + 1)) := by
      intro h
      have hlt := rel_lt root x
      have hrel := rel_act root (r := rel root x - 2 ^ t) (by omega)
      refine hne (act root (rel root x - 2 ^ t)) ?_ ?_
      · rw [Finset.mem_filter, hrel]
        exact ⟨Finset.mem_univ _, by omega, by omega⟩
      · rw [hrel, Nat.sub_add_cancel h.1, act_rel]
    have hkeep : broadcastRound root t b x = b x := if_neg hrange
    simp only [hkeep, treeBroadcastLoop]
    by_cases hlow : rel root x < 2 ^ t
    · have hnone : ¬ rel root x + 2 ^ t < p := fun h =>
        hx (Finset.mem_filter.mpr ⟨Finset.mem_univ x, hlow, h⟩)
      rw [if_pos hlow, if_neg hnone]
    · rw [if_neg hlow, if_neg (by omega)]

/-- **The rounds of the broadcast.** -/
theorem broadcast_rounds (root : Fin p) (out : Fin count → α) : ∀ d t,
    ∀ b : Fin p → Fin count → α, p ≤ 2 ^ (d + t) → (∀ i, rel root i < 2 ^ t → b i = out) →
    ∀ k : Fin p → List α → Proc (Fin p) α β, ReflTransGen Meet
      (fun i => (treeBroadcastLoop p count root (rel root i)
        ((List.range d).map fun s => 2 ^ (s + t)) (List.ofFn (b i))).bind (k i))
      (fun i => k i (List.ofFn out)) := by
  intro d
  induction d with
  | zero =>
      intro t b hp hb k
      rw [Nat.zero_add] at hp
      have hall : ∀ i, b i = out := fun i => hb i (Nat.lt_of_lt_of_le (rel_lt root i) hp)
      simp only [List.range_zero, List.map_nil, treeBroadcastLoop, Proc.bind_done, hall]
      exact .refl
  | succ d ih =>
      intro t b hp hb k
      have hround : ∀ i, rel root i < 2 ^ (t + 1) → broadcastRound root t b i = out := by
        intro i hi
        have hpow := two_pow_succ t
        have hlt := rel_lt root i
        unfold broadcastRound
        split
        · exact hb _ (by rw [rel_act root (by omega)]; omega)
        · exact hb i (by omega)
      rw [masks_cons]
      exact (broadcast_stage root t _ b k).trans
        (ih (t + 1) _ (by rw [show d + (t + 1) = d + 1 + t by omega]; exact hp) hround k)

/-! ## The collectives -/

/-- Both phases share the masks. -/
theorem masksUp_shift (p : Nat) :
    masksUp p = (List.range (Nat.clog 2 p)).map fun s => 2 ^ (s + 0) := by
  simp only [masksUp_eq, Nat.add_zero]

theorem treeReduce_meets {M : Type*} [AddCommMonoid M] (root : Fin p)
    (init : Fin p → Fin count → M) :
    ∃ out : Fin p → Fin count → M, (∀ y, out root y = ∑ i, init i y) ∧
      ∀ k : Fin p → List M → Proc (Fin p) M β, ReflTransGen Meet
        (fun i : Fin p =>
          (treeReduceToRoot (· + ·) p count root i (List.ofFn (init i))).bind (k i))
        (fun i => k i (List.ofFn (out i))) := by
  by_cases hp : p ≤ 1
  · refine ⟨init, ?_, ?_⟩
    · have : Subsingleton (Fin p) := Fin.subsingleton_iff_le_one.mpr hp
      exact fun y => (Fintype.sum_subsingleton (fun i => init i y) root).symm
    · intro k
      simp only [treeReduceToRoot, if_pos hp, Proc.bind_done]
      exact .refl
  · obtain ⟨out, hout, hrun⟩ := reduce_rounds (β := β) root init (Nat.clog 2 p) 0 init
      (Nat.le_pow_clog (by decide) p)
      (fun i _ => funext fun y => (blockSum_zero root init i y).symm)
    refine ⟨out, hout, fun k => ?_⟩
    have h := hrun k
    simp only [Nat.pow_zero, Nat.mod_one, if_true, ← masksUp_shift] at h
    simp only [treeReduceToRoot, if_neg hp]
    exact h

theorem treeBroadcast_meets (root : Fin p) (b : Fin p → Fin count → α)
    (k : Fin p → List α → Proc (Fin p) α β) :
    ReflTransGen Meet
      (fun i : Fin p => (treeBroadcast p count root i (List.ofFn (b i))).bind (k i))
      (fun i => k i (List.ofFn (b root))) := by
  by_cases hp : p ≤ 1
  · have : Subsingleton (Fin p) := Fin.subsingleton_iff_le_one.mpr hp
    have hall : ∀ i, b i = b root := fun i => by rw [Subsingleton.elim i root]
    simp only [treeBroadcast, if_pos hp, Proc.bind_done, hall]
    exact .refl
  · have h := broadcast_rounds (β := β) root (b root) (Nat.clog 2 p) 0 b
      (Nat.le_pow_clog (by decide) p) (fun i hi => by
        have hi' : rel root i = rel root root := by rw [rel_root]; omega
        rw [rel_injective root hi']) k
    simp only [← masksUp_shift] at h
    simp only [treeBroadcast, if_neg hp]
    exact h

/-- **Tree collectives**, for any number of ranks and any root. The reduction leaves the
sum of all ranks at the root, the broadcast gives every rank the root's buffer, and the
all-reduce gives every rank the sum. In each of them every send is received, by the rank
it was meant for and as one block (`Completes`). -/
theorem tree_collectives {M : Type*} [AddCommMonoid M] (p count : Nat) (root : Fin p)
    (init : Fin p → Fin count → M) :
    (∃ out : Fin p → List M, out root = List.ofFn (fun y => ∑ i, init i y) ∧
      Completes (fun i : Fin p => treeReduceToRoot (· + ·) p count root i (List.ofFn (init i)))
        out) ∧
    Completes (fun i : Fin p => treeBroadcast p count root i (List.ofFn (init i)))
      (fun _ => List.ofFn (init root)) ∧
    Completes (fun i : Fin p => treeAllreduce (· + ·) p count i (List.ofFn (init i)))
      (fun _ => List.ofFn fun y => ∑ i, init i y) := by
  refine ⟨?_, ?_, ?_⟩
  · obtain ⟨out, hout, hrun⟩ := treeReduce_meets (β := List M) root init
    have h := hrun fun _ => .done
    simp only [Proc.bind_done_right] at h
    exact ⟨fun i => List.ofFn (out i), congrArg List.ofFn (funext hout), completes_of_meets h⟩
  · have h := treeBroadcast_meets (β := List M) root init fun _ => .done
    simp only [Proc.bind_done_right] at h
    exact completes_of_meets h
  · have hpos : 0 < p := root.pos
    obtain ⟨out, hout, hrun⟩ := treeReduce_meets (β := List M) ⟨0, hpos⟩ init
    have hsum : out ⟨0, hpos⟩ = fun y => ∑ i, init i y := funext hout
    have h := (hrun fun i => treeBroadcast p count 0 i).trans (by
      have h' := treeBroadcast_meets (β := List M) ⟨0, hpos⟩ out fun _ => .done
      simp only [Proc.bind_done_right] at h'
      exact h')
    rw [hsum] at h
    exact completes_of_meets h

end CrossMachine.Collectives
