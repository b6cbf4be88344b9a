import Mathlib.Data.List.Basic
import Mathlib.Data.List.Perm.Basic
import Mathlib.Order.Basic

/-!
# An arena cut into blocks

An arena is the range of bytes `[0, hi)`. A list of blocks tiles it when every byte of the
range lies in exactly one block and no other byte lies in any. Tiling is stated by counting,
for every byte, the blocks that hold it: cutting a block in two and joining two neighbours
then keep it by arithmetic, and the order of the blocks never matters. A block of size zero
holds nothing and may lie anywhere.
-/

namespace CrossMachine.Lib

/-- The bytes `[offset, offset + size)`. -/
structure Extent where
  offset : Int
  size : Int
  deriving DecidableEq, Repr

/-- Byte `p` lies in the block. -/
def Extent.Holds (b : Extent) (p : Int) : Prop := b.offset ≤ p ∧ p < b.offset + b.size

instance (b : Extent) (p : Int) : Decidable (b.Holds p) :=
  inferInstanceAs (Decidable (_ ∧ _))

/-- The two blocks share no byte. -/
def Extent.Apart (a b : Extent) : Prop := ∀ p, ¬ (a.Holds p ∧ b.Holds p)

theorem Extent.Apart.symm {a b : Extent} (h : a.Apart b) : b.Apart a := fun p hp => h p hp.symm

theorem Extent.apart_of_empty {a b : Extent} (h : a.size ≤ 0) : a.Apart b := by
  rintro p ⟨ha, -⟩
  have := ha.1
  have := ha.2
  omega

/-- The block lies in the arena, also when it holds nothing. -/
def Extent.Fits (hi : Int) (b : Extent) : Prop :=
  0 ≤ b.offset ∧ 0 ≤ b.size ∧ b.offset + b.size ≤ hi

/-- The number of blocks that hold byte `p`. -/
def cover (bs : List Extent) (p : Int) : Nat := bs.countP fun b => b.Holds p

/-- Every byte of `[0, hi)` lies in exactly one block, every other byte in none. -/
def Tiles (hi : Int) (bs : List Extent) : Prop :=
  ∀ p, cover bs p = if 0 ≤ p ∧ p < hi then 1 else 0

section Cover

variable {a b : Extent} {bs cs : List Extent} {p : Int}

@[simp] theorem cover_nil : cover [] p = 0 := rfl

@[simp] theorem cover_append : cover (bs ++ cs) p = cover bs p + cover cs p :=
  List.countP_append

theorem cover_cons : cover (b :: bs) p = cover bs p + if b.Holds p then 1 else 0 := by
  simp [cover, List.countP_cons]

theorem cover_perm (h : bs.Perm cs) : cover bs p = cover cs p := h.countP_eq _

/-- Two neighbours joined hold what the two held. -/
theorem cover_join (ha : 0 ≤ a.size) (hb : 0 ≤ b.size) (hadj : a.offset + a.size = b.offset) :
    cover (⟨a.offset, a.size + b.size⟩ :: bs) p = cover (a :: b :: bs) p := by
  have hsplit : (Extent.mk a.offset (a.size + b.size)).Holds p ↔ a.Holds p ∨ b.Holds p := by
    simp only [Extent.Holds]
    omega
  have hone : ¬ (a.Holds p ∧ b.Holds p) := by
    simp only [Extent.Holds]
    omega
  rw [cover_cons, cover_cons, cover_cons]
  by_cases hpa : a.Holds p <;> by_cases hpb : b.Holds p <;> simp_all

/-- A block cut in two holds what it held before. -/
theorem cover_cut {n : Int} (hn : 0 ≤ n) (hle : n ≤ b.size) :
    cover (⟨b.offset, n⟩ :: ⟨b.offset + n, b.size - n⟩ :: bs) p = cover (b :: bs) p := by
  have hjoin : n + (b.size - n) = b.size := by omega
  rw [← cover_join hn (by simpa using hle) rfl]
  simp only [hjoin]

/-- A block of size zero does not count. -/
theorem cover_empty (hb : b.size = 0) : cover (b :: bs) p = cover bs p := by
  have : ¬ b.Holds p := by
    simp only [Extent.Holds]
    omega
  simp [cover_cons, this]

theorem cover_pos : 0 < cover bs p ↔ ∃ b ∈ bs, b.Holds p := by
  simp [cover, List.countP_pos_iff]

theorem pairwise_apart_of_cover (h : ∀ p, cover bs p ≤ 1) : bs.Pairwise Extent.Apart := by
  induction bs with
  | nil => exact List.Pairwise.nil
  | cons b bs ih =>
      refine List.pairwise_cons.mpr ⟨fun c hc p hp => ?_, ih fun p => ?_⟩
      · have hrest : 0 < cover bs p := cover_pos.mpr ⟨c, hc, hp.2⟩
        have hle := h p
        rw [cover_cons, if_pos hp.1] at hle
        omega
      · have hle := h p
        rw [cover_cons] at hle
        omega

end Cover

namespace Tiles

variable {hi : Int} {b : Extent} {bs cs : List Extent}

theorem congr (h : Tiles hi bs) (hcover : ∀ p, cover cs p = cover bs p) : Tiles hi cs :=
  fun p => (hcover p).trans (h p)

/-- One block that is the whole arena. -/
theorem whole : Tiles hi [⟨0, hi⟩] := by
  intro p
  simp [cover_cons, Extent.Holds]

theorem pairwise_apart (h : Tiles hi bs) : bs.Pairwise Extent.Apart := by
  refine pairwise_apart_of_cover fun p => ?_
  rw [h p]
  split <;> omega

theorem holds_iff (h : Tiles hi bs) (p : Int) : (∃ b ∈ bs, b.Holds p) ↔ 0 ≤ p ∧ p < hi := by
  rw [← cover_pos, h p]
  split <;> simp_all

end Tiles

end CrossMachine.Lib
