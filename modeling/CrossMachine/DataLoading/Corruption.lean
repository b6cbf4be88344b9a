import CrossMachine.DataLoading.Shard

/-!
# Corrupted archives

`TarReader::next` reads from block to block: behind a header come the data and their padding, and
then the next header. A header is malformed when it is not a USTAR header, or when the checksum
in it is not the one of the block. `next` does not look at the checksum at all, and a block that
is no USTAR header ends one call of it: the next call reads on behind that block.

So what decides whether anything is returned from a malformed header on is what stands there
(`rejects_iff`).
-/

namespace CrossMachine.DataLoading

open Lib Bytes

/-- The header of the block that the file starts with. -/
def headerOf (file : Str) : Str := file.take kBlockSize

/-- The zero block that ends an archive. -/
def AllZero (file : Str) : Prop := ((headerOf file).all fun b => decide (b = NUL)) = true

def Magic (file : Str) : Prop := slice (headerOf file) 257 5 = ustar

/-- The size in the header. -/
def sizeOf (file : Str) : Nat := parseOctal ((headerOf file).drop 124) 12

/-- The checksum in the header. -/
def storedChecksum (file : Str) : Nat := parseOctal ((headerOf file).drop 148) 8

def Regular (file : Str) : Prop :=
  (headerOf file).getD 156 NUL = ZERO ∨ (headerOf file).getD 156 NUL = NUL

/-- The data that the header announces are in the file. -/
def Whole (file : Str) : Prop := sizeOf file ≤ (file.drop kBlockSize).length

instance (file : Str) : Decidable (AllZero file) := inferInstanceAs (Decidable (_ = true))
instance (file : Str) : Decidable (Magic file) := inferInstanceAs (Decidable (_ = _))
instance (file : Str) : Decidable (Regular file) := inferInstanceAs (Decidable (_ ∨ _))
instance (file : Str) : Decidable (Whole file) := inferInstanceAs (Decidable (_ ≤ _))

/-- A header that is no USTAR header, or not the one that was written. -/
def Malformed (file : Str) : Prop :=
  ¬ AllZero file ∧ (¬ Magic file ∨ storedChecksum file ≠ computeChecksum (headerOf file))

/-- The block looks like the header of a regular file, and the data are there. -/
def Carries (file : Str) : Prop := ¬ AllZero file ∧ Magic file ∧ Regular file ∧ Whole file

/-- What is behind the block, and behind its data if it has some. -/
def behind (file : Str) : Str :=
  if AllZero file ∨ ¬ Magic file then file.drop kBlockSize
  else ((file.drop kBlockSize).drop (sizeOf file)).drop (padding (sizeOf file))

/-- The places in the file where a header is looked for, as what is left of the file there. -/
def blocks (file : Str) : List Str :=
  if _h : file.length < kBlockSize then [] else file :: blocks (behind file)
termination_by file.length
decreasing_by
  simp only [kBlockSize] at _h
  unfold behind
  split <;> simp only [List.length_drop, kBlockSize] <;> omega

variable {file p q : Str} {m : Str × Str}

/-! ## One call -/

theorem length_behind (h : ¬ file.length < kBlockSize) : (behind file).length < file.length := by
  simp only [kBlockSize] at h
  unfold behind
  split <;> simp only [List.length_drop, kBlockSize] <;> omega

theorem blocks_short (h : file.length < kBlockSize) : blocks file = [] := by
  rw [blocks, dif_pos h]

theorem blocks_cons (h : ¬ file.length < kBlockSize) :
    blocks file = file :: blocks (behind file) := by rw [blocks, dif_neg h]

/-- Later blocks are nearer to the end. -/
theorem length_of_mem_blocks (hq : q ∈ blocks file) : q.length ≤ file.length := by
  fun_induction blocks file with
  | case1 => exact absurd hq List.not_mem_nil
  | case2 file h ih =>
      rcases List.mem_cons.mp hq with rfl | hq
      · exact le_rfl
      · exact (ih hq).trans (length_behind h).le

/-- The name that the reader finds in the header. -/
def foundName (file : Str) : Str :=
  if cstr ((headerOf file).drop 345) = [] then cstr (headerOf file)
  else cstr ((headerOf file).drop 345) ++ SLASH :: cstr (headerOf file)

/-- `next`, in terms of the block. -/
theorem nextMember_eq (h : ¬ file.length < kBlockSize) :
    nextMember file =
      if AllZero file then (none, file.drop kBlockSize)
      else if ¬ Magic file then (none, file.drop kBlockSize)
      else if ((file.drop kBlockSize).take (sizeOf file)).length ≠ sizeOf file then
        (none, (file.drop kBlockSize).drop (sizeOf file))
      else if (headerOf file).getD 156 NUL ≠ ZERO ∧ (headerOf file).getD 156 NUL ≠ NUL then
        nextMember (((file.drop kBlockSize).drop (sizeOf file)).drop (padding (sizeOf file)))
      else (some (foundName file, (file.drop kBlockSize).take (sizeOf file)),
        ((file.drop kBlockSize).drop (sizeOf file)).drop (padding (sizeOf file))) := by
  rw [nextMember, dif_neg h]
  rfl

/-- No two blocks are at the same place. -/
theorem blocks_descend (file : Str) : (blocks file).Pairwise fun p q => q.length < p.length := by
  fun_induction blocks file with
  | case1 => exact .nil
  | case2 file h ih =>
      refine List.pairwise_cons.mpr ⟨fun q hq => ?_, ih⟩
      exact (length_of_mem_blocks hq).trans_lt (length_behind h)

/-- What `next` does with a block. -/
theorem nextMember_block (h : ¬ file.length < kBlockSize) :
    (Carries file → ∃ m, nextMember file = (some m, behind file)) ∧
      (¬ Carries file →
        nextMember file = (none, behind file) ∨ nextMember file = nextMember (behind file)) := by
  have hdata : ((file.drop kBlockSize).take (sizeOf file)).length = sizeOf file ↔ Whole file := by
    rw [List.length_take, Whole]
    omega
  have hregular : ((headerOf file).getD 156 NUL ≠ ZERO ∧ (headerOf file).getD 156 NUL ≠ NUL) ↔
      ¬ Regular file := not_or.symm
  rw [nextMember_eq h]
  unfold Carries behind
  by_cases hzero : AllZero file
  · simp only [hzero, true_or, not_true_eq_false, false_and, if_true, false_imp_iff,
      not_false_eq_true, true_imp_iff, true_and]
  · by_cases hmagic : Magic file
    · by_cases hwhole : Whole file
      · simp only [hzero, hmagic, hdata.mpr hwhole, hregular, ne_eq, not_true_eq_false, if_false,
          or_self, hwhole, not_false_eq_true, true_and, and_true]
        by_cases hreg : Regular file
        · simp [hreg]
        · simp [hreg]
      · -- the file ends within the data
        have hempty : (file.drop kBlockSize).drop (sizeOf file) = [] :=
          List.drop_of_length_le (Nat.le_of_not_le hwhole)
        simp only [hzero, hmagic, mt hdata.mp hwhole, hwhole, hempty, ne_eq, not_true_eq_false,
          not_false_eq_true, if_true, if_false, or_self, and_false, false_imp_iff, true_imp_iff,
          true_and, List.drop_nil, true_or]
    · simp [hzero, hmagic]

/-- A call makes progress. -/
theorem length_nextMember (h : ¬ file.length < kBlockSize) :
    (nextMember file).2.length < file.length := by
  obtain ⟨hcarries, hnot⟩ := nextMember_block h
  have hbehind := length_behind h
  by_cases hc : Carries file
  · obtain ⟨m, hm⟩ := hcarries hc
    rwa [hm]
  · rcases hnot hc with hnone | hskip
    · rwa [hnone]
    · rw [hskip]
      exact (nextMember_suffix _).length_le.trans_lt hbehind

/-- A call reads some blocks; only the last of them can give the member. -/
theorem blocks_nextMember (file : Str) :
    ∃ visited, blocks file = visited ++ blocks (nextMember file).2 ∧
      ((nextMember file).1 = none → ∀ q ∈ visited, ¬ Carries q) ∧
      ∀ m, (nextMember file).1 = some m → ∃ before q, visited = before ++ [q] ∧ Carries q ∧
        (∀ p ∈ before, ¬ Carries p) ∧ (nextMember file).2.length < q.length := by
  induction hlen : file.length using Nat.strong_induction_on generalizing file with
  | _ len ih =>
      subst hlen
      by_cases h : file.length < kBlockSize
      · have hread : nextMember file = (none, file.drop kBlockSize) := by
          rw [nextMember, dif_pos h]
        rw [hread]
        refine ⟨[], ?_, fun _ => by simp, fun m hm => by cases hm⟩
        rw [blocks_short h, List.drop_of_length_le h.le, blocks_short (by decide)]
        rfl
      · obtain ⟨hcarries, hnot⟩ := nextMember_block h
        rw [blocks_cons h]
        by_cases hc : Carries file
        · obtain ⟨m, hm⟩ := hcarries hc
          rw [hm]
          refine ⟨[file], rfl, fun hnone => absurd hnone (by simp), fun _ _ => ?_⟩
          exact ⟨[], file, rfl, hc, by simp, length_behind h⟩
        · rcases hnot hc with hnone | hskip
          · rw [hnone]
            refine ⟨[file], rfl, fun _ q hq => ?_, fun m hm => by cases hm⟩
            rwa [List.mem_singleton.mp hq]
          · -- the call goes on behind the block
            rw [hskip]
            obtain ⟨visited, hblocks, hnone, hsome⟩ := ih _ (length_behind h) (behind file) rfl
            refine ⟨file :: visited, by rw [hblocks]; rfl, fun hn => ?_, fun m hm => ?_⟩
            · exact List.forall_mem_cons.mpr ⟨hc, hnone hn⟩
            · obtain ⟨before, q, rfl, hq, hbefore, hlt⟩ := hsome m hm
              exact ⟨file :: before, q, rfl, hq, List.forall_mem_cons.mpr ⟨hc, hbefore⟩, hlt⟩

/-! ## All calls -/

/-- The file after `n` calls. -/
def afterCalls : Nat → Str → Str
  | 0, file => file
  | n + 1, file => afterCalls n (nextMember file).2

/-- No call returns a member from a malformed header or from behind one: wherever a call that
returns a member stops, the malformed headers are still to come. -/
def Rejects (file : Str) : Prop :=
  ∀ n m, (nextMember (afterCalls n file)).1 = some m →
    ∀ p ∈ blocks file, Malformed p → p.length ≤ (afterCalls (n + 1) file).length

/-- A call that returns a member has read it from a block. -/
theorem returned_from {n : Nat} (h : (nextMember (afterCalls n file)).1 = some m) :
    ∃ q ∈ blocks file, Carries q ∧
      ∀ p ∈ blocks file, (afterCalls (n + 1) file).length < p.length → q.length ≤ p.length := by
  induction n generalizing file with
  | zero =>
      obtain ⟨visited, hblocks, -, hsome⟩ := blocks_nextMember file
      obtain ⟨before, q, rfl, hc, -, -⟩ := hsome m h
      refine ⟨q, by rw [hblocks]; simp, hc, fun p hp hlt => ?_⟩
      rw [hblocks, List.append_assoc] at hp
      have hdesc := blocks_descend file
      rw [hblocks, List.append_assoc] at hdesc
      rcases List.mem_append.mp hp with hp | hp
      · exact ((List.pairwise_append.mp hdesc).2.2 p hp q (by simp)).le
      · rcases List.mem_cons.mp hp with rfl | hp
        · exact le_rfl
        · exact absurd (length_of_mem_blocks hp) (Nat.not_le.mpr hlt)
  | succ n ih =>
      obtain ⟨q, hq, hc, hfirst⟩ := ih h
      obtain ⟨visited, hblocks, -⟩ := blocks_nextMember file
      refine ⟨q, by rw [hblocks]; exact List.mem_append_right _ hq, hc, fun p hp hlt => ?_⟩
      have hdesc := blocks_descend file
      rw [hblocks] at hp hdesc
      rcases List.mem_append.mp hp with hp | hp
      · exact ((List.pairwise_append.mp hdesc).2.2 p hp q hq).le
      · exact hfirst p hp hlt

/-- Every block that looks like a regular file is returned by some call. -/
theorem returned_of (hq : q ∈ blocks file) (hc : Carries q) :
    ∃ n m, (nextMember (afterCalls n file)).1 = some m ∧
      (afterCalls (n + 1) file).length < q.length := by
  induction hlen : file.length using Nat.strong_induction_on generalizing file with
  | _ len ih =>
      subst hlen
      obtain ⟨visited, hblocks, hnone, hsome⟩ := blocks_nextMember file
      rw [hblocks] at hq
      rcases List.mem_append.mp hq with hq | hq
      · -- the first call reads it
        cases hm : (nextMember file).1 with
        | none => exact absurd hc (hnone hm q hq)
        | some m =>
            obtain ⟨before, q', rfl, -, hbefore, hlt⟩ := hsome m hm
            rcases List.mem_append.mp hq with hq | hq
            · exact absurd hc (hbefore q hq)
            · rw [List.mem_singleton.mp hq]
              exact ⟨0, m, hm, hlt⟩
      · have hlong : ¬ file.length < kBlockSize := fun hshort => by
          rw [blocks_short hshort] at hblocks
          rw [(List.append_eq_nil_iff.mp hblocks.symm).2] at hq
          exact absurd hq List.not_mem_nil
        obtain ⟨n, m, hm, hlt⟩ := ih _ (length_nextMember hlong) hq rfl
        exact ⟨n + 1, m, hm, hlt⟩

variable (file) in
/-- Whichever blocks are the bad ones: no call returns a member from one or from behind one exactly
when, from each of them on, no block looks like a regular file. -/
theorem returned_before_iff (Bad : Str → Prop) :
    (∀ n m, (nextMember (afterCalls n file)).1 = some m →
      ∀ p ∈ blocks file, Bad p → p.length ≤ (afterCalls (n + 1) file).length) ↔
    ∀ p ∈ blocks file, Bad p → ∀ q ∈ blocks file, q.length ≤ p.length → ¬ Carries q := by
  constructor
  · intro hbefore p hp hbad q hq hle hc
    obtain ⟨n, m, hm, hlt⟩ := returned_of hq hc
    have hcome := hbefore n m hm p hp hbad
    omega
  · intro hnone n m hm p hp hbad
    obtain ⟨q, hq, hc, hfirst⟩ := returned_from hm
    by_contra hlt
    exact hnone p hp hbad q hq (hfirst p hp (Nat.lt_of_not_le hlt)) hc

/-- **What a corrupted archive gives away.** No call returns a member from a malformed header or
from behind one exactly when, from every malformed header on, no block looks like the USTAR
header of a regular file with all its data. -/
theorem rejects_iff (file : Str) :
    Rejects file ↔
      ∀ p ∈ blocks file, Malformed p → ∀ q ∈ blocks file, q.length ≤ p.length → ¬ Carries q :=
  returned_before_iff file Malformed

/-- An empty file named `a`, with a `b` written over its name. -/
def corrupted : Str := writeAt (member [97] []) 0 [98]

/-- It is returned, under the wrong name, from a header with the wrong checksum. -/
theorem corrupted_returned : ¬ Rejects corrupted := by
  intro hrejects
  have hlong : ¬ corrupted.length < kBlockSize := by decide +kernel
  have hblock : corrupted ∈ blocks corrupted := by
    rw [blocks_cons hlong]
    exact List.mem_cons_self
  have hmal : Malformed corrupted := by
    unfold Malformed Magic AllZero
    decide +kernel
  have hc : Carries corrupted := by
    unfold Carries
    decide +kernel
  obtain ⟨n, m, hm, hlt⟩ := returned_of hblock hc
  exact absurd (hrejects n m hm corrupted hblock hmal) (Nat.not_le.mpr hlt)

end CrossMachine.DataLoading
