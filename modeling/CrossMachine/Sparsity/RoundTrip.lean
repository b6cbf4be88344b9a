import CrossMachine.Sparsity.Sparse24
import Mathlib.Tactic.Common

/-!
# What can be decompressed

The groups of a row are given their bytes from `r * (cols / 8)` on. If the number of groups in a
row is odd, the last one has a byte that is not counted there: it is the first byte of the next
row, and behind the buffer if there is only one row. The next row then writes its own positions
over those of the group. And a group with fewer than two elements that are not zero leaves a
value as it was in the new buffer.

So the matrix can be had back just if all groups have two such elements and the rows are apart,
or the positions that are written over are the same (`roundTrip_iff`).
-/

namespace CrossMachine.Sparsity

open Lib

variable {rows cols k : Nat} {pruned : Nat → Half} {r g r' g' : Nat}

/-! ## One group -/

/-- The values one after another. -/
def putValues (values : Nat → Half) (v : Nat) : List Half → Nat → Half
  | [] => values
  | x :: xs => putValues (Function.update values v x) (v + 1) xs

/-- The mask of the positions. -/
def maskOf : List Nat → UInt8
  | [] => 0
  | [a] => UInt8.ofNat a
  | a :: b :: _ => UInt8.ofNat a ||| UInt8.ofNat (b <<< 2)

variable {v j i a b : Nat} {values : Nat → Half}

theorem forRange_packElement {nvals : Nat} {e : Nat → Half}
    (hlen : ((List.range 4).filter fun i => nonzero (e i)).length ≤ 2) (hroom : v + 2 ≤ nvals) :
    forRange 4 (packElement nvals v e) ⟨values, 0, 0⟩ =
      some ⟨putValues values v (((List.range 4).filter fun i => nonzero (e i)).map e),
        maskOf ((List.range 4).filter fun i => nonzero (e i)),
        ((List.range 4).filter fun i => nonzero (e i)).length⟩ := by
  let pack : Packing → Nat → Option Packing := fun s i => do
    let values ← store nvals s.values (v + s.written) (e i)
    let written := s.written + 1
    some ⟨values, s.mask ||| UInt8.ofNat (i <<< (if written = 1 then 0 else 2)), written⟩
  have hfilter : forRange 4 (packElement nvals v e) ⟨values, 0, 0⟩ =
      ((List.range 4).filter fun i => nonzero (e i)).foldlM pack ⟨values, 0, 0⟩ :=
    List.foldlM_filter.symm
  rw [hfilter]
  generalize ((List.range 4).filter fun i => nonzero (e i)) = ps at hlen ⊢
  rcases ps with - | ⟨a, - | ⟨b, - | ⟨c, ps⟩⟩⟩
  · rfl
  · simp [pack, store, show v < nvals by omega, putValues, maskOf]
  · simp [pack, store, show v < nvals by omega, show v + 1 < nvals by omega, putValues, maskOf]
  · simp only [List.length_cons] at hlen
    omega

theorem putValues_outside {n : Nat} {xs : List Half} (h : n < v ∨ v + xs.length ≤ n) :
    putValues values v xs n = values n := by
  induction xs generalizing values v with
  | nil => rfl
  | cons x xs ih =>
      rw [List.length_cons] at h
      rw [putValues, ih (by omega), Function.update_of_ne (by omega)]

theorem putValues_inside {xs : List Half} (hj : j < xs.length) :
    putValues values v xs (v + j) = xs[j] := by
  induction xs generalizing values v j with
  | nil => exact absurd hj (Nat.not_lt_zero j)
  | cons x xs ih =>
      cases j with
      | zero =>
          rw [putValues, putValues_outside (by omega)]
          exact Function.update_self v x values
      | succ j =>
          rw [putValues, show v + (j + 1) = v + 1 + j by omega]
          exact ih (Nat.lt_of_succ_lt_succ hj)

/-- The positions are in order, and two of them are a pair. -/
theorem positions_eq_pair (h : (positions cols pruned r g).length = 2) :
    ∃ a b, positions cols pruned r g = [a, b] ∧ a < b ∧ b < 4 := by
  obtain ⟨a, b, hab⟩ := List.length_eq_two.mp h
  have hsorted : (positions cols pruned r g).Pairwise (· < ·) :=
    List.pairwise_lt_range.filter _
  have hb : b ∈ positions cols pruned r g := by rw [hab]; simp
  rw [hab] at hsorted
  exact ⟨a, b, hab, by simpa using hsorted, List.mem_range.mp (List.mem_filter.mp hb).1⟩

theorem mem_positions :
    i ∈ positions cols pruned r g ↔ i < 4 ∧ nonzero (elem cols pruned r g i) = true := by
  rw [positions, List.mem_filter, List.mem_range]

theorem maskOf_pair (ha : a < 4) (hb : b < 4) : (maskOf [a, b]).toNat = a + 4 * b := by
  have hall : ∀ a < 4, ∀ b < 4, (maskOf [a, b]).toNat = a + 4 * b := by decide
  exact hall a ha b hb

/-! ## The loop over the groups -/

/-- What a turn does when it stays in the buffers. -/
def packGroup (cols : Nat) (pruned : Nat → Half) (m : Sparse24Matrix) (p : Nat × Nat) :
    Sparse24Matrix where
  values := putValues m.values (valIdx cols p.1 p.2)
    ((positions cols pruned p.1 p.2).map (elem cols pruned p.1 p.2))
  metadata := Function.update m.metadata (metaIdx cols p.1 p.2)
    (if p.2 % 2 = 0 then maskOf (positions cols pruned p.1 p.2)
      else m.metadata (metaIdx cols p.1 p.2) ||| maskOf (positions cols pruned p.1 p.2) <<< 4)

/-- At most two elements of a group are not zero. -/
def Pruned (rows cols : Nat) (pruned : Nat → Half) : Prop :=
  ∀ r < rows, ∀ g < cols / 4, (positions cols pruned r g).length ≤ 2

theorem valIdx_eq : valIdx (4 * k) r g = 2 * (r * k + g) := by
  have hhalf : 4 * k / 2 = 2 * k := by omega
  rw [valIdx, hhalf, Nat.mul_left_comm]
  omega

theorem metaIdx_eq : metaIdx (4 * k) r g = r * (k / 2) + g / 2 := by
  have heighth : 4 * k / 8 = k / 2 := by omega
  rw [metaIdx, heighth]

theorem slot_lt (hr : r < rows) (hg : g < k) : r * k + g < rows * k :=
  calc r * k + g < (r + 1) * k := by rw [Nat.succ_mul]; omega
    _ ≤ rows * k := Nat.mul_le_mul_right k hr

theorem slot_inj (hg : g < k) (hg' : g' < k) (h : r * k + g = r' * k + g') : r = r' ∧ g = g' := by
  rcases Nat.lt_trichotomy r r' with hlt | rfl | hlt
  · have := slot_lt hlt hg
    omega
  · exact ⟨rfl, by omega⟩
  · have := slot_lt hlt hg'
    omega

theorem compressGroup_eq (hpruned : Pruned rows (4 * k) pruned) (hr : r < rows) (hg : g < k)
    (m : Sparse24Matrix) :
    compressGroup rows (4 * k) pruned r g m =
      if metaIdx (4 * k) r g < rows * (4 * k) / 8 then some (packGroup (4 * k) pruned m (r, g))
      else none := by
  have hlen := hpruned r hr g (by omega)
  have hroom : valIdx (4 * k) r g + 2 ≤ rows * (4 * k) / 2 := by
    have := slot_lt hr hg
    rw [valIdx_eq, Nat.mul_left_comm]
    omega
  rw [compressGroup, forRange_packElement hlen hroom]
  by_cases hin : metaIdx (4 * k) r g < rows * (4 * k) / 8
  · simp [store, hin, packGroup, positions]
  · simp [store, hin]

theorem compress24Cpu_eq (hpruned : Pruned rows (4 * k) pruned) (hint : rows * (4 * k) < 2 ^ 31)
    (buffers : Sparse24Matrix) :
    compress24Cpu rows (4 * k) pruned buffers =
      if ∀ p ∈ turns rows k, metaIdx (4 * k) p.1 p.2 < rows * (4 * k) / 8
      then some ((turns rows k).foldl (packGroup (4 * k) pruned) buffers) else none := by
  rw [compress24Cpu, if_pos hint, show 4 * k / 4 = k by omega, forRange_forRange]
  refine foldlM_ite fun p hp m => ?_
  obtain ⟨hr, hg⟩ := mem_turns.mp hp
  exact compressGroup_eq hpruned hr hg m

/-! ### The values -/

/-- Another group has its values elsewhere. -/
theorem values_packGroup_of_ne (hpruned : Pruned rows (4 * k) pruned) (hg : g < k) (hr' : r' < rows)
    (hg' : g' < k) (hne : (r', g') ≠ (r, g)) (hj : j < 2) (m : Sparse24Matrix) :
    (packGroup (4 * k) pruned m (r', g')).values (valIdx (4 * k) r g + j) =
      m.values (valIdx (4 * k) r g + j) := by
  have hlen := hpruned r' hr' g' (by omega)
  have hslot : r' * k + g' ≠ r * k + g := by
    intro heq
    obtain ⟨rfl, rfl⟩ := slot_inj hg' hg heq
    exact hne rfl
  refine putValues_outside ?_
  simp only [List.length_map, valIdx_eq]
  omega

theorem values_of_mem (hpruned : Pruned rows (4 * k) pruned) (hr : r < rows) (hg : g < k)
    (hj : j < (positions (4 * k) pruned r g).length) (m : Sparse24Matrix) :
    ((turns rows k).foldl (packGroup (4 * k) pruned) m).values (valIdx (4 * k) r g + j) =
      elem (4 * k) pruned r g (positions (4 * k) pruned r g)[j] := by
  have hmake : ∀ m : Sparse24Matrix,
      (packGroup (4 * k) pruned m (r, g)).values (valIdx (4 * k) r g + j) =
        elem (4 * k) pruned r g (positions (4 * k) pruned r g)[j] := by
    intro m
    have hj' : j < ((positions (4 * k) pruned r g).map (elem (4 * k) pruned r g)).length := by
      rwa [List.length_map]
    exact (putValues_inside hj').trans (List.getElem_map _)
  have hin : (r, g) ∈ turns rows k := mem_turns.mpr ⟨hr, hg⟩
  refine foldl_of_mem (I := fun _ => True) (P := fun m => m.values (valIdx (4 * k) r g + j) =
    elem (4 * k) pruned r g (positions (4 * k) pruned r g)[j]) (fun _ _ _ h => h) ?_
    (fun m _ => hmake m) hin trivial
  rintro m ⟨r', g'⟩ hp hm
  obtain ⟨hr', hg'⟩ := mem_turns.mp hp
  by_cases heq : (r', g') = (r, g)
  · rw [heq]
    exact hmake m
  · have := hpruned r hr g (by omega)
    rw [values_packGroup_of_ne hpruned hg hr' hg' heq (by omega)]
    exact hm

/-- A group with fewer elements leaves a value as it was. -/
theorem values_of_short (hpruned : Pruned rows (4 * k) pruned) (hg : g < k) (hj : j < 2)
    (hshort : (positions (4 * k) pruned r g).length ≤ j) (m : Sparse24Matrix) :
    ((turns rows k).foldl (packGroup (4 * k) pruned) m).values (valIdx (4 * k) r g + j) =
      m.values (valIdx (4 * k) r g + j) := by
  refine List.foldlRecOn (turns rows k) (packGroup (4 * k) pruned)
    (motive := fun m' => m'.values (valIdx (4 * k) r g + j) = m.values (valIdx (4 * k) r g + j))
    rfl ?_
  rintro m' hm ⟨r', g'⟩ hp
  obtain ⟨hr', hg'⟩ := mem_turns.mp hp
  by_cases heq : (r', g') = (r, g)
  · obtain ⟨rfl, rfl⟩ := Prod.mk.inj heq
    refine (putValues_outside ?_).trans hm
    rw [List.length_map]
    exact .inr (Nat.add_le_add_left hshort _)
  · rw [values_packGroup_of_ne hpruned hg hr' hg' heq hj]
    exact hm

/-! ### The bits -/

/-- The bytes of the metadata do not depend on the values. -/
theorem metadata_foldl {m m' : Sparse24Matrix} (h : m.metadata = m'.metadata)
    (ps : List (Nat × Nat)) :
    (ps.foldl (packGroup cols pruned) m).metadata =
      (ps.foldl (packGroup cols pruned) m').metadata := by
  refine List.foldl_rel (r := fun m m' : Sparse24Matrix => m.metadata = m'.metadata) h ?_
  intro p _ m m' h
  simp only [packGroup, h]

theorem toNat_shiftLeft_four (x : UInt8) : (x <<< 4).toNat = 16 * (x.toNat % 16) := by
  have hshift : (x <<< 4).toNat = x.toNat <<< 4 % 256 := UInt8.toNat_shiftLeft x 4
  rw [hshift, Nat.shiftLeft_eq]
  omega

theorem low_or_shift (m x : UInt8) : (m ||| x <<< 4).toNat % 16 = m.toNat % 16 := by
  have hmod : (m.toNat ||| 16 * (x.toNat % 16)) % 16 =
      m.toNat % 16 ||| 16 * (x.toNat % 16) % 16 := Nat.or_mod_two_pow (n := 4)
  rw [UInt8.toNat_or, toNat_shiftLeft_four, hmod, Nat.mul_mod_right, Nat.or_zero]

theorem high_or_shift {m x : UInt8} (hm : m.toNat < 16) (hx : x.toNat < 16) :
    (m ||| x <<< 4).toNat / 16 = x.toNat := by
  have hdiv : (m.toNat ||| 16 * (x.toNat % 16)) / 16 =
      m.toNat / 16 ||| 16 * (x.toNat % 16) / 16 := Nat.or_div_two_pow (n := 4)
  rw [UInt8.toNat_or, toNat_shiftLeft_four, hdiv, Nat.div_eq_of_lt hm, Nat.zero_or,
    Nat.mul_div_cancel_left _ (by decide), Nat.mod_eq_of_lt hx]

/-- Two groups that come first in the same byte are at the same positions. -/
def LowAgree (rows k : Nat) (pruned : Nat → Half) : Prop :=
  ∀ r < rows, ∀ g < k, ∀ r' < rows, ∀ g' < k, g % 2 = 0 → g' % 2 = 0 →
    metaIdx (4 * k) r g = metaIdx (4 * k) r' g' →
    positions (4 * k) pruned r g = positions (4 * k) pruned r' g'

theorem nibble_low (hagree : LowAgree rows k pruned) (hr : r < rows) (hg : g < k)
    (heven : g % 2 = 0) (hab : positions (4 * k) pruned r g = [a, b]) (ha : a < 4) (hb : b < 4)
    (m : Sparse24Matrix) :
    nibble (4 * k) ((turns rows k).foldl (packGroup (4 * k) pruned) m).metadata r g =
      a + 4 * b := by
  have hmake : ∀ m : Sparse24Matrix,
      ((packGroup (4 * k) pruned m (r, g)).metadata (metaIdx (4 * k) r g)).toNat % 16 =
        a + 4 * b := by
    intro m
    simp only [packGroup, Function.update_self, if_pos heven, hab, maskOf_pair ha hb]
    omega
  have hin : (r, g) ∈ turns rows k := mem_turns.mpr ⟨hr, hg⟩
  rw [nibble, if_pos heven]
  refine foldl_of_mem (I := fun _ => True)
    (P := fun m => (m.metadata (metaIdx (4 * k) r g)).toNat % 16 = a + 4 * b)
    (fun _ _ _ h => h) ?_ (fun m _ => hmake m) hin trivial
  rintro m ⟨r', g'⟩ hp hm
  obtain ⟨hr', hg'⟩ := mem_turns.mp hp
  by_cases hbyte : metaIdx (4 * k) r g = metaIdx (4 * k) r' g'
  · rcases Nat.mod_two_eq_zero_or_one g' with heven' | hodd'
    · have hsame := hagree r hr g hg r' hr' g' hg' heven heven' hbyte
      have hone := hmake m
      simp only [packGroup, Function.update_self, if_pos heven] at hone
      simp only [packGroup, if_pos heven', ← hsame, ← hbyte, Function.update_self]
      exact hone
    · -- the bits of an odd group are the other ones
      have hodd : ¬g' % 2 = 0 := by omega
      simp only [packGroup, if_neg hodd, ← hbyte, Function.update_self, low_or_shift]
      exact hm
  · simp only [packGroup, Function.update_of_ne hbyte]
    exact hm

/-- After an odd group nothing is written to its byte. -/
theorem metaIdx_ne_of_odd (heven : j % 2 = 0) (hj : j + 1 < k)
    (hafter : r < r' ∨ r' = r ∧ j + 1 < g') :
    metaIdx (4 * k) r (j + 1) ≠ metaIdx (4 * k) r' g' := by
  rw [metaIdx_eq, metaIdx_eq]
  rcases hafter with hlt | ⟨rfl, hlt⟩
  · have : (r + 1) * (k / 2) ≤ r' * (k / 2) := Nat.mul_le_mul_right _ hlt
    rw [Nat.succ_mul] at this
    omega
  · omega

theorem nibble_high (hr : r < rows) (hg : g < k) (hodd : g % 2 = 1)
    (hab : positions (4 * k) pruned r g = [a, b]) (ha : a < 4) (hb : b < 4) {a' b' : Nat}
    (hab' : positions (4 * k) pruned r (g - 1) = [a', b']) (ha' : a' < 4) (hb' : b' < 4)
    (m : Sparse24Matrix) :
    nibble (4 * k) ((turns rows k).foldl (packGroup (4 * k) pruned) m).metadata r g =
      a + 4 * b := by
  obtain ⟨j, rfl⟩ : ∃ j, g = j + 1 := ⟨g - 1, by omega⟩
  have heven : j % 2 = 0 := by omega
  obtain ⟨before, after, hturns, hafter⟩ := turns_split hr hg
  have hbyte : metaIdx (4 * k) r (j + 1) = metaIdx (4 * k) r j := by
    rw [metaIdx_eq, metaIdx_eq]
    omega
  rw [Nat.add_sub_cancel] at hab'
  rw [nibble, if_neg (by omega), hturns, List.foldl_append, List.foldl_cons, List.foldl_cons]
  refine List.foldlRecOn after (packGroup (4 * k) pruned)
    (motive := fun m => (m.metadata (metaIdx (4 * k) r (j + 1))).toNat / 16 = a + 4 * b) ?_ ?_
  · -- the group before has cleared the bits of this one
    have hmask := maskOf_pair ha hb
    have hmask' := maskOf_pair ha' hb'
    simp only [packGroup, if_pos heven, if_neg (show ¬(j + 1) % 2 = 0 by omega), hbyte,
      Function.update_self, hab, hab']
    rw [high_or_shift (by omega) (by omega), hmask]
  · rintro m hm ⟨r', g'⟩ hp
    obtain ⟨-, -, hlater⟩ := hafter _ hp
    have hne := metaIdx_ne_of_odd heven hg hlater
    simp only [packGroup, Function.update_of_ne hne]
    exact hm

/-! ## When it can be decompressed -/

/-- The groups whose bytes are written over: the last one of a row, if their number is odd. -/
def Apart (rows cols : Nat) (pruned : Nat → Half) : Prop :=
  8 ∣ cols ∨ rows ≠ 1 ∧ ∀ r, r + 1 < rows →
    positions cols pruned r (cols / 4 - 1) = positions cols pruned (r + 1) 0

theorem metaIdx_lt (hapart : Apart rows (4 * k) pruned) (hr : r < rows) (hg : g < k) :
    metaIdx (4 * k) r g < rows * (4 * k) / 8 := by
  have hrow : r * (k / 2) + k / 2 ≤ rows * (k / 2) := by
    rw [← Nat.succ_mul]
    exact Nat.mul_le_mul_right _ hr
  have hsize : rows * (4 * k) / 8 = rows * k / 2 := by
    rw [Nat.mul_left_comm]
    omega
  rw [metaIdx_eq, hsize]
  obtain ⟨h, rfl | rfl⟩ : ∃ h, k = 2 * h ∨ k = 2 * h + 1 := ⟨k / 2, by omega⟩
  · rw [show 2 * h / 2 = h by omega] at hrow ⊢
    rw [Nat.mul_left_comm]
    omega
  · have hrows : rows ≠ 1 := by
      rcases hapart with hdvd | ⟨hrows, -⟩
      · omega
      · exact hrows
    rw [show (2 * h + 1) / 2 = h by omega] at hrow ⊢
    rw [Nat.mul_succ, Nat.mul_left_comm]
    omega

/-- With one group to a row, all groups have the first byte. -/
theorem positions_eq_of_single (h : ∀ r, r + 1 < rows →
      positions cols pruned r 0 = positions cols pruned (r + 1) 0) (hr : r < rows) :
    positions cols pruned r 0 = positions cols pruned 0 0 := by
  induction r with
  | zero => rfl
  | succ r ih => exact (h r hr).symm.trans (ih (Nat.lt_of_succ_lt hr))

/-- Groups that come first in the same byte, one in a row before the other. -/
theorem positions_eq_of_byte (hapart : Apart rows (4 * k) pruned) (hlt : r < r') (hr' : r' < rows)
    (hg : g < k) (hg' : g' < k) (heven' : g' % 2 = 0)
    (hbyte : metaIdx (4 * k) r g = metaIdx (4 * k) r' g') :
    positions (4 * k) pruned r g = positions (4 * k) pruned r' g' := by
  rw [metaIdx_eq, metaIdx_eq] at hbyte
  have hrow : (r + 1) * (k / 2) ≤ r' * (k / 2) := Nat.mul_le_mul_right _ hlt
  rw [Nat.succ_mul] at hrow
  rcases hapart with hdvd | ⟨-, hsame⟩
  · omega
  · obtain rfl : g = k - 1 := by omega
    rw [show 4 * k / 4 = k by omega] at hsame
    rcases Nat.eq_zero_or_pos (k / 2) with hsingle | hpos
    · obtain rfl : k = 1 := by omega
      obtain rfl : g' = 0 := by omega
      exact (positions_eq_of_single hsame (Nat.lt_trans hlt hr')).trans
        (positions_eq_of_single hsame hr').symm
    · have hnext : r' = r + 1 := by
        by_contra hne
        have hfar : (r + 2) * (k / 2) ≤ r' * (k / 2) := Nat.mul_le_mul_right _ (by omega)
        rw [Nat.add_mul] at hfar
        omega
      subst hnext
      obtain rfl : g' = 0 := by
        rw [Nat.succ_mul] at hbyte
        omega
      exact hsame r hr'

theorem lowAgree (hapart : Apart rows (4 * k) pruned) : LowAgree rows k pruned := by
  intro r hr g hg r' hr' g' hg' heven heven' hbyte
  rcases Nat.lt_trichotomy r r' with hlt | rfl | hlt
  · exact positions_eq_of_byte hapart hlt hr' hg hg' heven' hbyte
  · rw [metaIdx_eq, metaIdx_eq] at hbyte
    rw [show g = g' by omega]
  · exact (positions_eq_of_byte hapart hlt hr hg' hg heven hbyte.symm).symm

/-- The two values and their positions are the group. -/
theorem decompress_same {m : Sparse24Matrix} (hab : positions cols pruned r g = [a, b]) (ha : a < 4)
    (hnibble : nibble cols m.metadata r g = a + 4 * b)
    (hfirst : m.values (valIdx cols r g) = elem cols pruned r g a)
    (hsecond : m.values (valIdx cols r g + 1) = elem cols pruned r g b) (hi : i < 4) :
    Same (decompress cols m r g i) (elem cols pruned r g i) := by
  have hhigh : (a + 4 * b) / 4 = b := by omega
  have hlow : (a + 4 * b) % 4 = a := by omega
  rw [decompress, hnibble, hhigh, hlow]
  split
  · rename_i heq
    exact .inl (heq ▸ hsecond)
  · split
    · rename_i heq
      exact .inl (heq ▸ hfirst)
    · rename_i hb ha
      have hnot : i ∉ positions cols pruned r g := by
        rw [hab]
        simp [ha, hb]
      refine .inr ⟨rfl, ?_⟩
      by_contra hnz
      exact hnot (mem_positions.mpr ⟨hi, by simpa using hnz⟩)

theorem roundTrip_of_apart (hint : rows * (4 * k) < 2 ^ 31)
    (hfull : ∀ r < rows, ∀ g < 4 * k / 4, (positions (4 * k) pruned r g).length = 2)
    (hapart : Apart rows (4 * k) pruned) : RoundTrip rows (4 * k) pruned := by
  have hpruned : Pruned rows (4 * k) pruned := fun r hr g hg => (hfull r hr g hg).le
  have hinside : ∀ p ∈ turns rows k, metaIdx (4 * k) p.1 p.2 < rows * (4 * k) / 8 := by
    intro p hp
    obtain ⟨hr, hg⟩ := mem_turns.mp hp
    exact metaIdx_lt hapart hr hg
  intro buffers
  refine ⟨_, (compress24Cpu_eq hpruned hint buffers).trans (if_pos hinside), ?_⟩
  intro r hr g hg i hi
  obtain ⟨a, b, hab, hlt, hb⟩ := positions_eq_pair (hfull r hr g hg)
  have ha : a < 4 := Nat.lt_trans hlt hb
  rw [show 4 * k / 4 = k by omega] at hg
  have hvalue : ∀ (j : Nat) (hj : j < 2),
      ((turns rows k).foldl (packGroup (4 * k) pruned) buffers).values (valIdx (4 * k) r g + j) =
        elem (4 * k) pruned r g ([a, b].get ⟨j, hj⟩) := by
    intro j hj
    have hj' : j < (positions (4 * k) pruned r g).length := by rwa [hab]
    rw [values_of_mem hpruned hr hg hj']
    simp [hab]
  refine decompress_same hab ha ?_ (hvalue 0 (by decide)) (hvalue 1 (by decide)) hi
  rcases Nat.mod_two_eq_zero_or_one g with heven | hodd
  · exact nibble_low (lowAgree hapart) hr hg heven hab ha hb buffers
  · obtain ⟨a', b', hab', hlt', hb'⟩ := positions_eq_pair (hfull r hr (g - 1) (by omega))
    exact nibble_high hr hg hodd hab ha hb hab' (Nat.lt_trans hlt' hb') hb' buffers

/-! ## And when not -/

theorem nibble_lt {metadata : Nat → UInt8} : nibble cols metadata r g < 16 := by
  have := (metadata (metaIdx cols r g)).toNat_lt
  rw [nibble]
  split <;> omega

theorem eq_of_same {x y : Half} (h : Same x y) (hx : nonzero x = true) : x = y := by
  rcases h with heq | ⟨hzero, -⟩
  · exact heq
  · exact absurd (hx.symm.trans hzero) (by decide)

theorem Same.symm {x y : Half} (h : Same x y) : Same y x :=
  h.imp Eq.symm And.symm

/-- The writes are inside, and it is the end of the loop that can be decompressed. -/
theorem RoundTrip.loop (h : RoundTrip rows (4 * k) pruned)
    (hpruned : Pruned rows (4 * k) pruned) :
    rows * (4 * k) < 2 ^ 31 ∧
    (∀ p ∈ turns rows k, metaIdx (4 * k) p.1 p.2 < rows * (4 * k) / 8) ∧
    ∀ buffers, ∀ r < rows, ∀ g < k, ∀ i < 4,
      Same (decompress (4 * k) ((turns rows k).foldl (packGroup (4 * k) pruned) buffers) r g i)
        (elem (4 * k) pruned r g i) := by
  have hint : rows * (4 * k) < 2 ^ 31 := by
    by_contra hint
    obtain ⟨out, hout, -⟩ := h ⟨fun _ => 0, fun _ => 0⟩
    rw [compress24Cpu, if_neg hint] at hout
    exact absurd hout (by simp)
  have hloop := compress24Cpu_eq hpruned hint
  have hinside : ∀ p ∈ turns rows k, metaIdx (4 * k) p.1 p.2 < rows * (4 * k) / 8 := by
    by_contra hinside
    obtain ⟨out, hout, -⟩ := h ⟨fun _ => 0, fun _ => 0⟩
    rw [hloop, if_neg hinside] at hout
    exact absurd hout (by simp)
  refine ⟨hint, hinside, fun buffers r hr g hg i hi => ?_⟩
  obtain ⟨out, hout, hsame⟩ := h buffers
  rw [hloop, if_pos hinside] at hout
  rw [Option.some.inj hout]
  exact hsame r hr g (by omega) i hi

/-- A value that is not written is there when the matrix is decompressed. -/
theorem RoundTrip.length_eq (h : RoundTrip rows (4 * k) pruned)
    (hpruned : Pruned rows (4 * k) pruned) (hr : r < rows) (hg : g < k) :
    (positions (4 * k) pruned r g).length = 2 := by
  obtain ⟨-, -, hsame⟩ := h.loop hpruned
  have hle := hpruned r hr g (by omega)
  by_contra hne
  let out : Half → Sparse24Matrix := fun c =>
    (turns rows k).foldl (packGroup (4 * k) pruned) ⟨fun _ => c, fun _ => 0⟩
  let second := nibble (4 * k) (out 0).metadata r g / 4
  have hsecond : second < 4 := Nat.div_lt_of_lt_mul nibble_lt
  -- with `c` in the buffer, the element at the second position is `c`
  have hkept : ∀ c : Half, nonzero c = true → c = elem (4 * k) pruned r g second := by
    intro c hc
    have hmeta : (out c).metadata = (out 0).metadata := by
      refine metadata_foldl ?_ (turns rows k)
      rfl
    have hvalue : (out c).values (valIdx (4 * k) r g + 1) = c :=
      values_of_short hpruned hg (by omega) (by omega) _
    have hdec : decompress (4 * k) (out c) r g second = c := by
      rw [decompress, hmeta, if_pos rfl, hvalue]
    exact eq_of_same (hdec ▸ hsame ⟨fun _ => c, fun _ => 0⟩ r hr g hg second hsecond) hc
  have hone := hkept 1 (by decide)
  have htwo := hkept 2 (by decide)
  exact absurd (hone.trans htwo.symm) (by decide)

/-- The positions are had back from the bits of the group. -/
theorem RoundTrip.mem_nibble (h : RoundTrip rows (4 * k) pruned)
    (hpruned : Pruned rows (4 * k) pruned) (buffers : Sparse24Matrix) (hr : r < rows) (hg : g < k)
    (hi : i ∈ positions (4 * k) pruned r g) {n : Nat}
    (hn : nibble (4 * k) ((turns rows k).foldl (packGroup (4 * k) pruned) buffers).metadata r g
      = n) : i = n / 4 ∨ i = n % 4 := by
  obtain ⟨hlt, hnz⟩ := mem_positions.mp hi
  have hsame := (h.loop hpruned).2.2 buffers r hr g hg i hlt
  by_contra hno
  obtain ⟨hhigh, hlow⟩ := not_or.mp hno
  rw [decompress, hn, if_neg hhigh, if_neg hlow] at hsame
  rw [eq_of_same hsame.symm hnz] at hnz
  exact absurd hnz (by decide)

/-- Two groups that share their bits are at the same positions. -/
theorem RoundTrip.positions_eq (h : RoundTrip rows (4 * k) pruned)
    (hpruned : Pruned rows (4 * k) pruned) (hr : r < rows) (hg : g < k) (hr' : r' < rows)
    (hg' : g' < k) (heven : g % 2 = 0) (heven' : g' % 2 = 0)
    (hbyte : metaIdx (4 * k) r g = metaIdx (4 * k) r' g') :
    positions (4 * k) pruned r g = positions (4 * k) pruned r' g' := by
  obtain ⟨a, b, hab, hlt, hb⟩ := positions_eq_pair (h.length_eq hpruned hr hg)
  obtain ⟨a', b', hab', hlt', hb'⟩ := positions_eq_pair (h.length_eq hpruned hr' hg')
  let out := (turns rows k).foldl (packGroup (4 * k) pruned) ⟨fun _ => 0, fun _ => 0⟩
  have hbits : nibble (4 * k) out.metadata r' g' = nibble (4 * k) out.metadata r g := by
    rw [nibble, nibble, if_pos heven, if_pos heven', hbyte]
  have hin : ∀ i ∈ [a, b], i = nibble (4 * k) out.metadata r g / 4 ∨
      i = nibble (4 * k) out.metadata r g % 4 := fun i hi =>
    h.mem_nibble hpruned _ hr hg (hab ▸ hi) rfl
  have hin' : ∀ i ∈ [a', b'], i = nibble (4 * k) out.metadata r g / 4 ∨
      i = nibble (4 * k) out.metadata r g % 4 := fun i hi =>
    h.mem_nibble hpruned _ hr' hg' (hab' ▸ hi) hbits
  simp only [List.mem_cons, List.not_mem_nil, or_false, forall_eq_or_imp, forall_eq] at hin hin'
  obtain rfl : a = a' := by omega
  obtain rfl : b = b' := by omega
  rw [hab, hab']

theorem RoundTrip.apart (h : RoundTrip rows (4 * k) pruned)
    (hpruned : Pruned rows (4 * k) pruned) : Apart rows (4 * k) pruned := by
  obtain ⟨-, hinside, -⟩ := h.loop hpruned
  refine or_iff_not_imp_left.mpr fun hodd => ?_
  have hlast : (k - 1) / 2 = k / 2 := by omega
  refine ⟨?_, fun r hr => ?_⟩
  · -- the byte of the last group of the only row is behind the buffer
    rintro rfl
    have hlt := hinside (0, k - 1) (mem_turns.mpr ⟨Nat.one_pos, by omega⟩)
    simp only [metaIdx_eq] at hlt
    omega
  · rw [show 4 * k / 4 = k by omega]
    refine h.positions_eq hpruned (Nat.lt_of_succ_lt hr) (by omega) hr (by omega) (by omega) rfl ?_
    rw [metaIdx_eq, metaIdx_eq, hlast, Nat.succ_mul, Nat.zero_div, Nat.add_zero]

/-- When a matrix can be had back from what `compress_2_4_cpu` packs: all groups have two elements
that are not zero, and the rows do not share a byte or agree in it. -/
theorem roundTrip_iff (hcols : 4 ∣ cols)
    (hpruned : ∀ r < rows, ∀ g < cols / 4, (positions cols pruned r g).length ≤ 2) :
    RoundTrip rows cols pruned ↔ rows * cols < 2 ^ 31 ∧
      (∀ r < rows, ∀ g < cols / 4, (positions cols pruned r g).length = 2) ∧
      (8 ∣ cols ∨ rows ≠ 1 ∧ ∀ r, r + 1 < rows →
        positions cols pruned r (cols / 4 - 1) = positions cols pruned (r + 1) 0) := by
  obtain ⟨k, rfl⟩ := hcols
  constructor
  · intro h
    exact ⟨(h.loop hpruned).1, fun r hr g hg => h.length_eq hpruned hr (by omega),
      h.apart hpruned⟩
  · rintro ⟨hint, hfull, hapart⟩
    exact roundTrip_of_apart hint hfull hapart

/-- Two groups to a row. -/
theorem roundTrip_row_of_eight : RoundTrip 1 8 fun i => if i % 4 < 2 then 0x3c00 else 0 :=
  (roundTrip_iff (by decide) (by decide)).mpr ⟨by decide, by decide, .inl (by decide)⟩

/-- One group to a row: its byte is behind a buffer of none. -/
theorem row_of_four_outside :
    (∀ r < 1, ∀ g < 4 / 4,
      (positions 4 (fun i => if i % 4 < 2 then 0x3c00 else 0) r g).length ≤ 2) ∧
    compress24Cpu 1 4 (fun i => if i % 4 < 2 then 0x3c00 else 0) ⟨fun _ => 0, fun _ => 0⟩ = none ∧
    ¬RoundTrip 1 4 fun i => if i % 4 < 2 then 0x3c00 else 0 := by
  have hnone : compress24Cpu 1 4 (fun i => if i % 4 < 2 then 0x3c00 else 0)
      ⟨fun _ => 0, fun _ => 0⟩ = none := by rfl
  refine ⟨by decide, hnone, fun h => ?_⟩
  obtain ⟨out, hout, -⟩ := h ⟨fun _ => 0, fun _ => 0⟩
  exact absurd (hnone.symm.trans hout) (by simp)

end CrossMachine.Sparsity
