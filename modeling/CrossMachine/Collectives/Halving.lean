import Mathlib.Algebra.BigOperators.Fin
import Mathlib.Tactic.Ring
import CrossMachine.Collectives.Ring
import CrossMachine.Lib.Bits

/-!
# Halving and doubling all-reduce

`halving_doubling.cpp`. With a power of two of ranks, partners are the ranks that differ
in one bit. The first phase goes through the bits from the top: the partners share a
range of the buffer, each keeps one half of it and adds the other's values there. The
second phase goes through the bits from the bottom and doubles the range a rank holds.

The two phases do not describe the same ranges. The first splits a range of `m` elements
into `m / 2` and `m - m / 2`, which differ when `m` is odd. The second takes the
partner's range to be as long as its own. They agree exactly when no split ever meets an
odd length, that is, when the number of ranks divides the length of the buffer.
-/

namespace CrossMachine.Collectives

open Lib
open Relation (ReflTransGen)

variable {n count : Nat} {α β : Type*}

/-- `isPowerOfTwo`. -/
def isPowerOfTwo (n : Nat) : Bool := n > 0 && n &&& (n - 1) == 0

/-- `myOffset` and `myCount`. -/
structure Slice where
  offset : Int
  count : Nat

/-- The body of the first loop: the lower rank of a pair keeps the lower half. -/
def halvingRound (rank mask : Nat) (s : Slice) : Exchange :=
  let partner := rank ^^^ mask
  let keepLower : Bool := rank &&& mask == 0
  let lowerCount := s.count / 2
  let upperCount := s.count - lowerCount
  { dst := partner
    src := partner
    sendFirst := rank < partner
    sendOffset := if keepLower then s.offset + lowerCount else s.offset
    sendCount := if keepLower then upperCount else lowerCount
    recvOffset := if keepLower then s.offset else s.offset + lowerCount
    recvCount := if keepLower then lowerCount else upperCount
    reduce := true }

/-- The first loop: its exchanges, and the slice it leaves the rank with. -/
def halving (rank : Nat) : List Nat → Slice → List Exchange × Slice
  | [], s => ([], s)
  | mask :: masks, s =>
      let e := halvingRound rank mask s
      let rest := halving rank masks ⟨e.recvOffset, e.recvCount⟩
      (e :: rest.1, rest.2)

/-- `partnerOffset` in the second loop: the partner's slice is taken to lie right after
or right before the rank's own and to be as long. -/
def partnerOffset (rank mask : Nat) (s : Slice) : Int :=
  if rank < rank ^^^ mask then s.offset + s.count else s.offset - s.count

/-- The body of the second loop, and the slice after it. -/
def doublingRound (rank mask : Nat) (s : Slice) : Exchange × Slice :=
  let partner := rank ^^^ mask
  let myOffset := if rank < partner then s.offset else partnerOffset rank mask s
  ({ dst := partner
     src := partner
     sendFirst := rank < partner
     sendOffset := if rank < partner then myOffset else myOffset + s.count
     sendCount := s.count
     recvOffset := partnerOffset rank mask s
     recvCount := s.count
     reduce := false }, ⟨myOffset, s.count * 2⟩)

/-- The second loop. -/
def doubling (rank : Nat) : List Nat → Slice → List Exchange
  | [], _ => []
  | mask :: masks, s =>
      (doublingRound rank mask s).1 :: doubling rank masks (doublingRound rank mask s).2

/-- The rounds of both phases. -/
def halvingDoublingRounds (p count rank : Nat) : List Exchange :=
  let phase1 := halving rank (masksDown p) ⟨0, count⟩
  phase1.1 ++ doubling rank (masksUp p) phase1.2

/-- `halving_doubling_allreduce`. -/
def halvingDoublingAllreduce (op : α → α → α) (p count rank : Nat) (buf : List α) :
    Proc (Fin p) α (List α) :=
  if p ≤ 1 then .done buf
  else if !isPowerOfTwo p then ringAllreduce op p count rank buf
  else perform op (halvingDoublingRounds p count rank) buf

/-- The exchanges of a rank, whichever way the function goes. -/
def halvingDoublingPlan (p count rank : Nat) : List Exchange :=
  if p ≤ 1 then []
  else if !isPowerOfTwo p then ringPlan p count rank
  else halvingDoublingRounds p count rank

theorem isPowerOfTwo_iff {p : Nat} : isPowerOfTwo p = true ↔ ∃ k, p = 2 ^ k := by
  unfold isPowerOfTwo
  rw [Bool.and_eq_true, decide_eq_true_eq, beq_iff_eq]
  have h := Nat.ne_zero_and_sub_one_eq_zero_iff_isPowerOfTwo (n := p)
  unfold Nat.isPowerOfTwo at h
  rw [← h, gt_iff_lt, Nat.pos_iff_ne_zero]

/-! ## Partners -/

/-- The rank that differs in bit `j`. -/
def flipBit {k : Nat} (j : Nat) (i : Fin (2 ^ k)) : Fin (2 ^ k) :=
  ⟨(i.val ^^^ 2 ^ j) % 2 ^ k, Nat.mod_lt _ (Nat.two_pow_pos k)⟩

section Partners

variable {k j : Nat}

theorem flipBit_val (hj : j < k) (i : Fin (2 ^ k)) : (flipBit j i).val = i.val ^^^ 2 ^ j :=
  Nat.mod_eq_of_lt (Nat.xor_lt_two_pow i.isLt (Nat.pow_lt_pow_right (by decide) hj))

theorem flipBit_flipBit (hj : j < k) (i : Fin (2 ^ k)) : flipBit j (flipBit j i) = i := by
  apply Fin.ext
  rw [flipBit_val hj, flipBit_val hj, Nat.xor_assoc, Nat.xor_self, Nat.xor_zero]

/-- Partners differ in bit `j` and in nothing else. -/
theorem xor_div_succ (r j : Nat) : (r ^^^ 2 ^ j) / 2 ^ (j + 1) = r / 2 ^ (j + 1) := by
  rw [Nat.xor_div_two_pow, Nat.div_eq_of_lt (Nat.pow_lt_pow_right (by decide) (Nat.lt_succ_self j)),
    Nat.xor_zero]

/-- The lower and the higher rank of a pair. -/
theorem xor_cases (r j : Nat) :
    (r / 2 ^ j % 2 = 0 ∧ r < r ^^^ 2 ^ j ∧ (r ^^^ 2 ^ j) / 2 ^ j = r / 2 ^ j + 1) ∨
    (r / 2 ^ j % 2 = 1 ∧ ¬ r < r ^^^ 2 ^ j ∧ (r ^^^ 2 ^ j) / 2 ^ j + 1 = r / 2 ^ j) := by
  have hpos := Nat.two_pow_pos j
  rcases Nat.mod_two_eq_zero_or_one (r / 2 ^ j) with h | h
  · refine .inl ⟨h, ?_, ?_⟩
    · rw [xor_two_pow_of_clear h]; omega
    · rw [xor_two_pow_of_clear h, Nat.add_div_right _ hpos]
  · refine .inr ⟨h, ?_, ?_⟩
    · rw [xor_two_pow_of_set h]; omega
    · rw [xor_two_pow_of_set h, sub_two_pow_div h]
      exact Nat.sub_add_cancel (Nat.div_pos (two_pow_le_of_set h) hpos)

end Partners

/-! ## Slices of equal length -/

/-- The slice of `c * 2 ^ j` elements that rank `r` shares with the ranks that differ in
the bits below `j` only. -/
def owned (c j r : Nat) : Slice := ⟨(r / 2 ^ j * (c * 2 ^ j) : Nat), c * 2 ^ j⟩

/-- The position lies in the slice. -/
def Slice.Has (s : Slice) (y : Nat) : Prop := s.offset ≤ y ∧ y < s.offset + s.count

theorem owned_inside {c j k r : Nat} (hj : j ≤ k) (hr : r < 2 ^ k) :
    (owned c j r).offset + (owned c j r).count ≤ (c * 2 ^ k : Nat) := by
  obtain ⟨d, rfl⟩ := Nat.exists_eq_add_of_le hj
  have hq : r / 2 ^ j + 1 ≤ 2 ^ d := by
    have : r / 2 ^ j < 2 ^ d := Nat.div_lt_of_lt_mul (by rw [← Nat.pow_add]; exact hr)
    omega
  have hle := Nat.mul_le_mul_right (c * 2 ^ j) hq
  have htot : 2 ^ d * (c * 2 ^ j) = c * 2 ^ (j + d) := by rw [Nat.pow_add]; ring
  rw [Nat.add_mul, htot] at hle
  simp only [owned]
  omega

theorem owned_apart {c j r r' : Nat} (h : r / 2 ^ j + 1 = r' / 2 ^ j) :
    (owned c j r).offset + (owned c j r).count = (owned c j r').offset := by
  simp only [owned, ← h]
  push_cast
  ring

/-- The slice a rank keeps, and the one it gives up. -/
theorem halvingRound_owned (c j r : Nat) :
    let e := halvingRound r (2 ^ j) (owned c (j + 1) r)
    e.recvOffset = (owned c j r).offset ∧ e.recvCount = c * 2 ^ j ∧
      e.sendOffset = (owned c j (r ^^^ 2 ^ j)).offset ∧ e.sendCount = c * 2 ^ j := by
  have hhalf : c * 2 ^ (j + 1) / 2 = c * 2 ^ j := by
    rw [Nat.pow_succ, ← Nat.mul_assoc, Nat.mul_div_cancel _ (by decide)]
  have hrest : c * 2 ^ (j + 1) - c * 2 ^ j = c * 2 ^ j := by
    rw [two_pow_succ, show c * (2 * 2 ^ j) = c * 2 ^ j + c * 2 ^ j by ring]
    omega
  have hquot := div_two_pow r j
  rcases xor_cases r j with ⟨hbit, _, hx⟩ | ⟨hbit, _, hx⟩
  · have hkeep : (r &&& 2 ^ j == 0) = true := by
      rw [beq_iff_eq]
      exact land_two_pow_eq_zero.mpr hbit
    have hq : r / 2 ^ j = 2 * (r / 2 ^ (j + 1)) := by omega
    simp only [halvingRound, owned, hkeep, if_true, hhalf, hrest, hx, hq, and_true, true_and]
    constructor
    · rw [two_pow_succ]; push_cast; ring
    · rw [two_pow_succ]; push_cast; ring
  · have hkeep : (r &&& 2 ^ j == 0) = false := by
      rw [beq_eq_false_iff_ne]
      intro h
      rw [land_two_pow_eq_zero] at h
      omega
    have hq : r / 2 ^ j = 2 * (r / 2 ^ (j + 1)) + 1 := by omega
    have hx' : (r ^^^ 2 ^ j) / 2 ^ j = 2 * (r / 2 ^ (j + 1)) := by omega
    simp only [halvingRound, owned, hkeep, Bool.false_eq_true, if_false, hhalf, hrest, hx', hq,
      and_true, true_and]
    constructor
    · rw [two_pow_succ]; push_cast; ring
    · rw [two_pow_succ]; push_cast; ring

/-- The slice a rank gives, the one it gets, and the one it then holds. -/
theorem doublingRound_owned (c j r : Nat) :
    let e := (doublingRound r (2 ^ j) (owned c j r)).1
    e.sendOffset = (owned c j r).offset ∧ e.recvOffset = (owned c j (r ^^^ 2 ^ j)).offset ∧
      (doublingRound r (2 ^ j) (owned c j r)).2 = owned c (j + 1) r := by
  have hquot := div_two_pow r j
  have hcount : c * 2 ^ j * 2 = c * 2 ^ (j + 1) := by rw [Nat.pow_succ, Nat.mul_assoc]
  rcases xor_cases r j with ⟨hbit, hlt, hx⟩ | ⟨hbit, hlt, hx⟩
  · have happ := owned_apart (c := c) hx.symm
    have hq : r / 2 ^ j = 2 * (r / 2 ^ (j + 1)) := by omega
    simp only [doublingRound, partnerOffset, if_pos hlt, happ, true_and]
    simp only [owned, hcount, hq, Slice.mk.injEq, and_true]
    rw [two_pow_succ]; push_cast; ring
  · have happ := owned_apart (c := c) hx
    have hq : r / 2 ^ j = 2 * (r / 2 ^ (j + 1)) + 1 := by omega
    have hback : (owned c j r).offset - (owned c j r).count
        = (owned c j (r ^^^ 2 ^ j)).offset := by
      have hc : (owned c j r).count = (owned c j (r ^^^ 2 ^ j)).count := rfl
      omega
    have hx' : (r ^^^ 2 ^ j) / 2 ^ j = 2 * (r / 2 ^ (j + 1)) := by omega
    simp only [doublingRound, partnerOffset, if_neg hlt, hback, true_and]
    refine ⟨happ, ?_⟩
    simp only [owned, hcount, hx', Slice.mk.injEq, and_true]
    rw [two_pow_succ]; push_cast; ring

/-- A slice is made of the slices of its two partners. -/
theorem owned_succ {c j r y : Nat} :
    (owned c (j + 1) r).Has y ↔ (owned c j r).Has y ∨ (owned c j (r ^^^ 2 ^ j)).Has y := by
  have hquot := div_two_pow r j
  have hsucc : r / 2 ^ (j + 1) * (c * 2 ^ (j + 1)) = 2 * (r / 2 ^ (j + 1) * (c * 2 ^ j)) := by
    rw [two_pow_succ]; ring
  have hlen : c * 2 ^ (j + 1) = 2 * (c * 2 ^ j) := by rw [two_pow_succ]; ring
  have heven : 2 * (r / 2 ^ (j + 1)) * (c * 2 ^ j) = 2 * (r / 2 ^ (j + 1) * (c * 2 ^ j)) := by ring
  have hodd : (2 * (r / 2 ^ (j + 1)) + 1) * (c * 2 ^ j)
      = 2 * (r / 2 ^ (j + 1) * (c * 2 ^ j)) + c * 2 ^ j := by ring
  simp only [Slice.Has, owned]
  rcases xor_cases r j with ⟨hbit, _, hx⟩ | ⟨hbit, _, hx⟩
  · have hq : r / 2 ^ j = 2 * (r / 2 ^ (j + 1)) := by omega
    rw [hx, hq, hsucc, hlen, heven, hodd]
    omega
  · have hq : r / 2 ^ j = 2 * (r / 2 ^ (j + 1)) + 1 := by omega
    have hx' : (r ^^^ 2 ^ j) / 2 ^ j = 2 * (r / 2 ^ (j + 1)) := by omega
    rw [hx', hq, hsucc, hlen, heven, hodd]
    omega

section EqualSlices

variable {c j k : Nat}

/-- Partners that swap slices of equal length: `mine` tells whose slice a rank receives,
`theirs` whose slice it sends. -/
theorem swap_fits (hj : j < k) {e : Fin (2 ^ k) → Exchange}
    {mine theirs : Fin (2 ^ k) → Fin (2 ^ k)}
    (hdst : ∀ i, (e i).dst = i.val ^^^ 2 ^ j) (hsrc : ∀ i, (e i).src = i.val ^^^ 2 ^ j)
    (hfirst : ∀ i, (e i).sendFirst = decide (i.val < i.val ^^^ 2 ^ j))
    (hsend : ∀ i, (e i).sendOffset = (owned c j (theirs i)).offset ∧ (e i).sendCount = c * 2 ^ j)
    (hrecv : ∀ i, (e i).recvOffset = (owned c j (mine i)).offset ∧ (e i).recvCount = c * 2 ^ j)
    (hcross : ∀ i, theirs (flipBit j i) = mine i) (hother : ∀ i, theirs i = flipBit j (mine i)) :
    Fits (c * 2 ^ k) (flipBit j) (flipBit j) e := by
  have hback : ∀ i : Fin (2 ^ k), (flipBit j i).val ^^^ 2 ^ j = i.val := by
    intro i
    rw [flipBit_val hj, Nat.xor_assoc, Nat.xor_self, Nat.xor_zero]
  constructor
  case left_right => exact flipBit_flipBit hj
  case right_left => exact flipBit_flipBit hj
  case dst => exact fun i => by rw [hdst, flipBit_val hj]
  case src => exact fun i => by rw [hsrc, flipBit_val hj]
  case offset => exact fun i => by rw [(hsend _).1, (hrecv i).1, hcross]
  case size => exact fun i => by rw [(hsend _).2, (hrecv i).2]
  case inside =>
      intro i
      rw [(hrecv i).1, (hrecv i).2]
      exact ⟨by simp only [owned]; omega, owned_inside (Nat.le_of_lt hj) (mine i).isLt⟩
  case apart =>
      intro i
      rw [(hsend i).1, (hsend i).2, (hrecv i).1, (hrecv i).2, hother, flipBit_val hj]
      rcases xor_cases (mine i) j with ⟨_, _, hx⟩ | ⟨_, _, hx⟩
      · exact .inr (le_of_eq (owned_apart hx.symm))
      · exact .inl (le_of_eq (owned_apart hx))
  case pair =>
      intro i hi
      rw [hfirst, decide_eq_false_iff_not] at hi
      rw [hfirst, decide_eq_true_eq, hback, flipBit_val hj]
      rcases xor_cases i j with ⟨_, hlt, _⟩ | ⟨hbit, _, _⟩
      · exact absurd hlt hi
      · rw [xor_two_pow_of_set hbit]
        have := two_pow_le_of_set hbit
        have := Nat.two_pow_pos j
        omega
  case three =>
      intro i hi hi'
      rw [hfirst, decide_eq_true_eq] at hi hi'
      rw [hback, flipBit_val hj] at hi'
      omega

theorem halvingRound_fits (hj : j < k) :
    Fits (c * 2 ^ k) (flipBit j) (flipBit j)
      (fun i : Fin (2 ^ k) => halvingRound i (2 ^ j) (owned c (j + 1) i)) := by
  refine swap_fits (c := c) hj (fun i => rfl) (fun i => rfl)
    (fun i => rfl) ?_ ?_ (fun i => flipBit_flipBit hj i) (fun i => rfl)
  · intro i
    rw [flipBit_val hj]
    exact (halvingRound_owned c j i).2.2
  · intro i
    have h := halvingRound_owned c j i
    exact ⟨h.1, h.2.1⟩

theorem doublingRound_fits (hj : j < k) :
    Fits (c * 2 ^ k) (flipBit j) (flipBit j)
      (fun i : Fin (2 ^ k) => (doublingRound i (2 ^ j) (owned c j i)).1) := by
  refine swap_fits (c := c) hj (fun i => rfl) (fun i => rfl)
    (fun i => rfl) ?_ ?_ (fun i => rfl) (fun i => (flipBit_flipBit hj i).symm)
  · intro i
    exact ⟨(doublingRound_owned c j i).1, rfl⟩
  · intro i
    rw [flipBit_val hj]
    exact ⟨(doublingRound_owned c j i).2.1, rfl⟩

/-- The first loop halves the slice bit by bit. -/
theorem halving_owned (c j r : Nat) :
    halving r ((List.range j).map fun t => 2 ^ (j - 1 - t)) (owned c j r)
      = ((List.range j).map fun t => halvingRound r (2 ^ (j - 1 - t)) (owned c (j - 1 - t + 1) r),
        owned c 0 r) := by
  induction j with
  | zero => rfl
  | succ j ih =>
      have hnext : (⟨(halvingRound r (2 ^ j) (owned c (j + 1) r)).recvOffset,
          (halvingRound r (2 ^ j) (owned c (j + 1) r)).recvCount⟩ : Slice) = owned c j r := by
        have h := halvingRound_owned c j r
        rw [h.1, h.2.1]
        rfl
      simp only [Nat.sub_sub, Nat.add_comm 1] at ih
      rw [List.range_succ_eq_map]
      simp only [List.map_cons, List.map_map, Function.comp_def, Nat.succ_eq_add_one,
        Nat.add_sub_cancel, Nat.sub_zero, halving, hnext, ih]

/-- The second loop doubles it again. -/
theorem doubling_owned (c r : Nat) : ∀ m j,
    doubling r ((List.range m).map fun t => 2 ^ (t + j)) (owned c j r)
      = (List.range m).map fun t => (doublingRound r (2 ^ (t + j)) (owned c (t + j) r)).1 := by
  intro m
  induction m with
  | zero => exact fun j => rfl
  | succ m ih =>
      intro j
      have hshift : ∀ t, t + 1 + j = t + (j + 1) := by intro t; omega
      rw [List.range_succ_eq_map]
      simp only [List.map_cons, List.map_map, Function.comp_def, Nat.succ_eq_add_one, hshift,
        Nat.zero_add, doubling, (doublingRound_owned c j r).2.2, ih]

/-! ## What the slices hold -/

theorem mod_succ_iff {r i j : Nat} :
    r % 2 ^ (j + 1) = i % 2 ^ (j + 1) ↔ r % 2 ^ j = i % 2 ^ j ∧ r / 2 ^ j % 2 = i / 2 ^ j % 2 := by
  have hr := Nat.mod_lt r (Nat.two_pow_pos j)
  have hi := Nat.mod_lt i (Nat.two_pow_pos j)
  rw [mod_two_pow_succ, mod_two_pow_succ]
  rcases Nat.mod_two_eq_zero_or_one (r / 2 ^ j) with h | h <;>
    rcases Nat.mod_two_eq_zero_or_one (i / 2 ^ j) with h' | h' <;> rw [h, h'] <;> omega

variable {M : Type*} [AddCommMonoid M]

/-- The ranks that agree with `i` in the bits below `j` have been added up on the slice
that `i` still owns. -/
def Halved (init : Fin (2 ^ k) → Fin (c * 2 ^ k) → M) (j : Nat)
    (b : Fin (2 ^ k) → Fin (c * 2 ^ k) → M) : Prop :=
  ∀ (i : Fin (2 ^ k)) (y : Fin (c * 2 ^ k)), (owned c j i).Has y →
    b i y = ∑ r with r.val % 2 ^ j = i.val % 2 ^ j, init r y

/-- The slice that `i` owns holds the sum of all ranks. -/
def Doubled (init : Fin (2 ^ k) → Fin (c * 2 ^ k) → M) (j : Nat)
    (b : Fin (2 ^ k) → Fin (c * 2 ^ k) → M) : Prop :=
  ∀ (i : Fin (2 ^ k)) (y : Fin (c * 2 ^ k)), (owned c j i).Has y → b i y = ∑ r, init r y

theorem halved_init (init : Fin (2 ^ k) → Fin (c * 2 ^ k) → M) : Halved init k init := by
  intro i y _
  have hone : (Finset.univ.filter fun r : Fin (2 ^ k) => r.val % 2 ^ k = i.val % 2 ^ k) = {i} := by
    ext r
    simp only [Finset.mem_filter, Finset.mem_univ, true_and, Finset.mem_singleton,
      Nat.mod_eq_of_lt r.isLt, Nat.mod_eq_of_lt i.isLt]
    exact Fin.ext_iff.symm
  rw [hone, Finset.sum_singleton]

theorem halved_round {init b : Fin (2 ^ k) → Fin (c * 2 ^ k) → M} (hj : j < k)
    (h : Halved init (j + 1) b) :
    Halved init j (round (· + ·) (flipBit j)
      (fun i : Fin (2 ^ k) => halvingRound i (2 ^ j) (owned c (j + 1) i)) b) := by
  intro i y hy
  have he := halvingRound_owned c j i
  have hcovers : (halvingRound i (2 ^ j) (owned c (j + 1) i)).Covers y := by
    unfold Exchange.Covers
    rw [he.1, he.2.1]
    exact hy
  have hmine := h i y (owned_succ.mpr (.inl hy))
  have hpartner : (owned c (j + 1) (flipBit j i)).Has y := by
    rw [flipBit_val hj, owned, xor_div_succ]
    exact owned_succ.mpr (.inl hy)
  have htheirs := h (flipBit j i) y hpartner
  have hbits : (flipBit j i).val / 2 ^ j % 2 + i.val / 2 ^ j % 2 = 1 := by
    rw [flipBit_val hj]
    rcases xor_cases i j with ⟨h₁, _, h₂⟩ | ⟨h₁, _, h₂⟩ <;> omega
  have hlow : (flipBit j i).val % 2 ^ j = i.val % 2 ^ j := by
    rw [flipBit_val hj, Nat.xor_mod_two_pow, Nat.mod_self, Nat.xor_zero]
  have hround : round (· + ·) (flipBit j)
      (fun i : Fin (2 ^ k) => halvingRound i (2 ^ j) (owned c (j + 1) i)) b i y
      = b i y + b (flipBit j i) y := if_pos hcovers
  rw [hround, hmine, htheirs, ← Finset.sum_union]
  · refine Finset.sum_congr ?_ fun _ _ => rfl
    ext r
    simp only [Finset.mem_union, Finset.mem_filter, Finset.mem_univ, true_and, mod_succ_iff, hlow]
    omega
  · rw [Finset.disjoint_filter]
    intro r _ h₁ h₂
    rw [mod_succ_iff] at h₁ h₂
    omega

theorem doubled_init {init b : Fin (2 ^ k) → Fin (c * 2 ^ k) → M} (h : Halved init 0 b) :
    Doubled init 0 b := by
  intro i y hy
  rw [h i y hy]
  refine Finset.sum_congr ?_ fun _ _ => rfl
  ext r
  simp [Nat.mod_one]

theorem doubled_round {init b : Fin (2 ^ k) → Fin (c * 2 ^ k) → M} (hj : j < k)
    (h : Doubled init j b) :
    Doubled init (j + 1) (round (· + ·) (flipBit j)
      (fun i : Fin (2 ^ k) => (doublingRound i (2 ^ j) (owned c j i)).1) b) := by
  intro i y hy
  have he := doublingRound_owned c j i
  have hcovers : (doublingRound i (2 ^ j) (owned c j i)).1.Covers y
      ↔ (owned c j (flipBit j i)).Has y := by
    unfold Exchange.Covers
    rw [he.2.1, flipBit_val hj]
    exact Iff.rfl
  unfold round
  split
  · rename_i hhas
    exact h (flipBit j i) y (hcovers.mp hhas)
  · rename_i hnot
    rw [hcovers, flipBit_val hj] at hnot
    exact h i y ((owned_succ.mp hy).resolve_right hnot)

theorem halvingDoublingRounds_eq (i : Fin (2 ^ k)) :
    halvingDoublingRounds (2 ^ k) (c * 2 ^ k) i
      = ((List.range k).map fun t =>
          halvingRound i (2 ^ (k - 1 - t)) (owned c (k - 1 - t + 1) i)) ++
        (List.range k).map fun t => (doublingRound i (2 ^ t) (owned c t i)).1 := by
  have hall : (⟨0, c * 2 ^ k⟩ : Slice) = owned c k i := by
    simp [owned, Nat.div_eq_of_lt i.isLt]
  have hdouble := doubling_owned c i k 0
  simp only [Nat.add_zero] at hdouble
  unfold halvingDoublingRounds
  rw [masksDown_two_pow, masksUp_eq, Nat.clog_pow _ _ (by decide), hall, halving_owned]
  simp only [hdouble]

/-- With slices of equal length both phases go through, and every rank ends with the
sum. -/
theorem halvingDoubling_meets (init : Fin (2 ^ k) → Fin (c * 2 ^ k) → M) :
    ReflTransGen Meet (fun i : Fin (2 ^ k) => perform (· + ·)
        (halvingDoublingRounds (2 ^ k) (c * 2 ^ k) i) (List.ofFn (init i)))
      (fun _ => .done (List.ofFn fun y => ∑ r, init r y)) := by
  obtain ⟨b₁, hb₁, hrun₁⟩ := meets_rounds (β := List M) (m := k)
    (I := fun t b => Halved init (k - t) b) (b := init)
    (e := fun t (i : Fin (2 ^ k)) => halvingRound i (2 ^ (k - 1 - t)) (owned c (k - 1 - t + 1) i))
    (fun t ht => halvingRound_fits (j := k - 1 - t) (by omega)) (halved_init init)
    (fun t b ht h => by
      rw [show k - (t + 1) = k - 1 - t by omega]
      rw [show k - t = k - 1 - t + 1 by omega] at h
      exact halved_round (by omega) h)
  rw [Nat.sub_self] at hb₁
  obtain ⟨b₂, hb₂, hrun₂⟩ := meets_rounds (β := List M) (m := k)
    (I := fun t b => Doubled init t b) (b := b₁)
    (e := fun t (i : Fin (2 ^ k)) => (doublingRound i (2 ^ t) (owned c t i)).1)
    (fun t ht => doublingRound_fits ht) (doubled_init hb₁) (fun t b ht h => doubled_round ht h)
  have hsum : ∀ i, b₂ i = fun y => ∑ r, init r y := by
    intro i
    funext y
    refine hb₂ i y ?_
    have := y.isLt
    simp only [Slice.Has, owned, Nat.div_eq_of_lt i.isLt]
    omega
  have hrun := (hrun₁ fun i buf => (perform (· + ·) ((List.range k).map fun t =>
    (doublingRound i.val (2 ^ t) (owned c t i)).1) buf).bind .done).trans (hrun₂ fun _ => .done)
  simp only [Proc.bind_done_right, hsum] at hrun
  simp only [halvingDoublingRounds_eq, perform_append]
  exact hrun

end EqualSlices

/-! ## Slices of any length -/

/-- `myCount` after the first loop. -/
def keptCount (rank : Nat) : List Nat → Nat → Nat
  | [], m => m
  | mask :: masks, m => keptCount rank masks (if rank &&& mask = 0 then m / 2 else m - m / 2)

theorem halving_count (rank : Nat) (masks : List Nat) :
    ∀ s, (halving rank masks s).2.count = keptCount rank masks s.count := by
  induction masks with
  | nil => exact fun s => rfl
  | cons mask masks ih =>
      intro s
      simp only [halving, keptCount, ih, halvingRound, beq_iff_eq]

theorem length_halving (rank : Nat) (masks : List Nat) :
    ∀ s, (halving rank masks s).1.length = masks.length := by
  induction masks with
  | nil => exact fun s => rfl
  | cons mask masks ih => exact fun s => by simp only [halving, List.length_cons, ih]

/-- In every round of the second loop a rank sends and expects its own count, which
doubles. -/
theorem doubling_getElem? {r : Nat} {masks : List Nat} :
    ∀ {s : Slice} {t mask : Nat}, masks[t]? = some mask →
      ∃ e, (doubling r masks s)[t]? = some e ∧ e.dst = r ^^^ mask ∧
        e.sendCount = s.count * 2 ^ t ∧ e.recvCount = s.count * 2 ^ t := by
  induction masks with
  | nil =>
      intro s t mask h
      simp at h
  | cons m masks ih =>
      intro s t mask h
      cases t with
      | zero =>
          simp only [List.getElem?_cons_zero, Option.some.injEq] at h
          subst h
          exact ⟨_, rfl, rfl, by simp [doublingRound], by simp [doublingRound]⟩
      | succ t =>
          rw [List.getElem?_cons_succ] at h
          obtain ⟨e, he, hdst, hsend, hrecv⟩ := ih (s := (doublingRound r m s).2) h
          have hcount : (doublingRound r m s).2.count * 2 ^ t = s.count * 2 ^ (t + 1) := by
            simp only [doublingRound, two_pow_succ]
            ring
          exact ⟨e, he, hdst, by rw [hsend, hcount], by rw [hrecv, hcount]⟩

/-- A bit above all the masks does not matter. -/
theorem keptCount_add (k r : Nat) (hr : r < 2 ^ k) : ∀ j, j ≤ k → ∀ m,
    keptCount (r + 2 ^ k) ((List.range j).map fun t => 2 ^ (j - 1 - t)) m
      = keptCount r ((List.range j).map fun t => 2 ^ (j - 1 - t)) m := by
  intro j
  induction j with
  | zero => exact fun _ m => rfl
  | succ j ih =>
      intro hj m
      have hbit : (r + 2 ^ k) / 2 ^ j % 2 = r / 2 ^ j % 2 := by
        obtain ⟨d, rfl⟩ : ∃ d, k = j + (d + 1) := ⟨k - j - 1, by omega⟩
        rw [Nat.pow_add, Nat.add_mul_div_left _ _ (Nat.two_pow_pos j), two_pow_succ]
        omega
      have hmask : (r + 2 ^ k) &&& 2 ^ j = 0 ↔ r &&& 2 ^ j = 0 := by
        rw [land_two_pow_eq_zero, land_two_pow_eq_zero, hbit]
      have hrest := ih (by omega)
      simp only [Nat.sub_sub, Nat.add_comm 1] at hrest
      rw [List.range_succ_eq_map]
      simp only [List.map_cons, List.map_map, Function.comp_def, Nat.succ_eq_add_one,
        Nat.add_sub_cancel, Nat.sub_zero, keptCount, hmask, hrest]

/-- If every rank is left with the same count, that count is the exact quotient. -/
theorem count_of_keptCount {c : Nat} : ∀ k m,
    (∀ r, r < 2 ^ k → keptCount r ((List.range k).map fun t => 2 ^ (k - 1 - t)) m = c) →
    m = c * 2 ^ k := by
  intro k
  induction k with
  | zero =>
      intro m h
      rw [Nat.pow_zero, Nat.mul_one, ← h 0 (by decide)]
      rfl
  | succ k ih =>
      intro m h
      have hfirst : ∀ r, keptCount r ((List.range (k + 1)).map fun t => 2 ^ (k + 1 - 1 - t)) m
          = keptCount r ((List.range k).map fun t => 2 ^ (k - 1 - t))
            (if r &&& 2 ^ k = 0 then m / 2 else m - m / 2) := by
        intro r
        rw [List.range_succ_eq_map]
        simp only [List.map_cons, List.map_map, Function.comp_def, Nat.succ_eq_add_one,
          Nat.add_sub_cancel, Nat.sub_zero, keptCount, Nat.sub_sub, Nat.add_comm 1]
      have hlow := ih (m / 2) fun r hr => by
        have hr' := h r (by rw [two_pow_succ]; omega)
        rw [hfirst, if_pos (land_two_pow_eq_zero.mpr (by rw [Nat.div_eq_of_lt hr]))] at hr'
        exact hr'
      have hhigh := ih (m - m / 2) fun r hr => by
        have hr' := h (r + 2 ^ k) (by rw [two_pow_succ]; omega)
        have hset : (r + 2 ^ k) / 2 ^ k % 2 = 1 := by
          rw [Nat.add_div_right _ (Nat.two_pow_pos k), Nat.div_eq_of_lt hr]
        rw [hfirst, if_neg (by rw [land_two_pow_eq_zero]; omega),
          keptCount_add k r hr k (Nat.le_refl k)] at hr'
        exact hr'
      rw [two_pow_succ, show c * (2 * 2 ^ k) = c * 2 ^ k + c * 2 ^ k by ring]
      omega

/-- A quantity that flipping a bit does not change is the same for all ranks. -/
theorem eq_of_flip {f : Nat → Nat} {k : Nat}
    (h : ∀ r t, r < 2 ^ k → t < k → f (r ^^^ 2 ^ t) = f r) : ∀ r, r < 2 ^ k → f r = f 0 := by
  intro r
  induction r using Nat.strongRecOn with
  | _ r ih =>
      intro hr
      rcases Nat.eq_zero_or_pos r with rfl | hpos
      · rfl
      · -- take away the highest bit
        have hle : 2 ^ Nat.log 2 r ≤ r := Nat.pow_log_le_self 2 (by omega)
        have hlt : r < 2 ^ (Nat.log 2 r + 1) := Nat.lt_pow_succ_log_self (by decide) r
        have hk : Nat.log 2 r < k := Nat.log_lt_of_lt_pow (by omega) hr
        have hset : r / 2 ^ Nat.log 2 r % 2 = 1 := by
          rw [two_pow_succ] at hlt
          have h₁ : r / 2 ^ Nat.log 2 r < 2 := Nat.div_lt_of_lt_mul (by omega)
          have h₂ : 0 < r / 2 ^ Nat.log 2 r := Nat.div_pos hle (Nat.two_pow_pos _)
          omega
        have hstep := h r (Nat.log 2 r) hr hk
        rw [xor_two_pow_of_set hset] at hstep
        have hpow := Nat.two_pow_pos (Nat.log 2 r)
        rw [← hstep]
        exact ih _ (by omega) (by omega)

/-- Partners that agree in every round of the second phase are left with equal slices by
the first. -/
theorem dvd_of_sizesAgree {k : Nat}
    (h : SizesAgree fun i : Fin (2 ^ k) => halvingDoublingRounds (2 ^ k) count i) :
    2 ^ k ∣ count := by
  let masks := (List.range k).map fun t => 2 ^ (k - 1 - t)
  have hlen : ∀ r, (halving r masks ⟨0, count⟩).1.length = k := by
    intro r
    rw [length_halving, List.length_map, List.length_range]
  have hrounds : ∀ (r : Fin (2 ^ k)) (t : Nat), t < k →
      ∃ e, (halvingDoublingRounds (2 ^ k) count r)[k + t]? = some e ∧ e.dst = r.val ^^^ 2 ^ t ∧
        e.sendCount = keptCount r masks count * 2 ^ t ∧
        e.recvCount = keptCount r masks count * 2 ^ t := by
    intro r t ht
    have hmask : ((List.range k).map fun t => 2 ^ t)[t]? = some (2 ^ t) := by
      rw [List.getElem?_map, List.getElem?_range ht, Option.map_some]
    obtain ⟨e, he, hrest⟩ := doubling_getElem? (r := r.val)
      (s := (halving r masks ⟨0, count⟩).2) hmask
    rw [halving_count] at hrest
    refine ⟨e, ?_, hrest⟩
    unfold halvingDoublingRounds
    rw [masksDown_two_pow, masksUp_eq, Nat.clog_pow _ _ (by decide)]
    rw [List.getElem?_append_right (by rw [hlen]; omega), hlen, Nat.add_sub_cancel_left, he]
  have hflip : ∀ r t, r < 2 ^ k → t < k →
      keptCount (r ^^^ 2 ^ t) masks count = keptCount r masks count := by
    intro r t hr ht
    obtain ⟨e, he, hdst, hsend, _⟩ := hrounds ⟨r, hr⟩ t ht
    obtain ⟨j, e', hj, he', _, hsize⟩ := h (k + t) ⟨r, hr⟩ e he
    obtain ⟨e'', he'', _, _, hrecv⟩ := hrounds j t ht
    rw [he'] at he''
    injection he'' with heq
    subst heq
    rw [hrecv, hsend, ← hj, hdst] at hsize
    exact Nat.eq_of_mul_eq_mul_right (Nat.two_pow_pos t) hsize
  have hequal := eq_of_flip (f := fun r => keptCount r masks count) hflip
  exact ⟨keptCount 0 masks count, by
    rw [Nat.mul_comm]
    exact count_of_keptCount k count fun r hr => hequal r hr⟩

/-- **Halving and doubling is right exactly on buffers it can split evenly.** Every rank
ends with the sum, and partners agree on all sizes, if and only if the function has
nothing to do, falls back to the ring, or the number of ranks divides the length. -/
theorem halvingDoublingAllreduce_correct_iff {M : Type*} [AddCommMonoid M] (p count : Nat)
    (init : Fin p → Fin count → M) :
    Completes (fun i : Fin p => halvingDoublingAllreduce (· + ·) p count i (List.ofFn (init i)))
        (fun _ => List.ofFn fun y => ∑ i, init i y) ∧
      SizesAgree (fun i : Fin p => halvingDoublingPlan p count i) ↔
    p ≤ 1 ∨ isPowerOfTwo p = false ∨ p ∣ count := by
  constructor
  · intro h
    by_cases hp : p ≤ 1
    · exact .inl hp
    cases hpow : isPowerOfTwo p with
    | false => exact .inr (.inl rfl)
    | true =>
        obtain ⟨k, rfl⟩ := isPowerOfTwo_iff.mp hpow
        have hsizes := h.2
        simp only [halvingDoublingPlan, if_neg hp, hpow, Bool.not_true, Bool.false_eq_true,
          if_false] at hsizes
        exact .inr (.inr (dvd_of_sizesAgree hsizes))
  · intro h
    by_cases hp : p ≤ 1
    · constructor
      · refine completes_of_meets ?_
        have : Subsingleton (Fin p) := Fin.subsingleton_iff_le_one.mpr hp
        have hend : (fun i : Fin p => halvingDoublingAllreduce (· + ·) p count i
            (List.ofFn (init i))) = fun _ => .done (List.ofFn fun y => ∑ i, init i y) := by
          funext i
          simp only [halvingDoublingAllreduce, if_pos hp, Fintype.sum_subsingleton _ i]
        rw [hend]
      · intro t i e he
        simp [halvingDoublingPlan, hp] at he
    cases hpow : isPowerOfTwo p with
    | false =>
        simp only [halvingDoublingAllreduce, halvingDoublingPlan, if_neg hp, hpow, Bool.not_false,
          if_true]
        exact ⟨ringAllreduce_sum init, ringPlan_sizesAgree (by omega)⟩
    | true =>
        rw [hpow] at h
        obtain ⟨k, rfl⟩ := isPowerOfTwo_iff.mp hpow
        obtain ⟨c, rfl⟩ : ∃ c, count = c * 2 ^ k := by
          obtain ⟨c, hc⟩ := (h.resolve_left hp).resolve_left (by simp)
          exact ⟨c, by rw [hc, Nat.mul_comm]⟩
        simp only [halvingDoublingAllreduce, halvingDoublingPlan, if_neg hp, hpow, Bool.not_true,
          Bool.false_eq_true, if_false]
        refine ⟨completes_of_meets (halvingDoubling_meets init), ?_⟩
        simp only [halvingDoublingRounds_eq]
        refine SizesAgree.append (m := k) (fun i => by simp)
          (sizesAgree_of_fits fun t ht => halvingRound_fits (by omega))
          (sizesAgree_of_fits fun t ht => doublingRound_fits ht)

/-- Two ranks and three elements: rank 0 is left with one of them and rank 1 with two. In
the second phase rank 0 sends one element and rank 1 expects two. -/
theorem halvingDoublingAllreduce_two_three :
    ¬ (Completes (fun i : Fin 2 => halvingDoublingAllreduce (· + ·) 2 3 i [1, 2, 3])
        (fun _ => [2, 4, 6]) ∧
      SizesAgree (fun i : Fin 2 => halvingDoublingPlan 2 3 i)) := by
  intro h
  obtain ⟨j, e', hj, he', _, hsize⟩ := h.2 1 0 _ rfl
  have hj' : j = 1 := Fin.ext hj.symm
  subst hj'
  injection he' with he'
  subst he'
  exact absurd hsize (by decide)

end CrossMachine.Collectives
