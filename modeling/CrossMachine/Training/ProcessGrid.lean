import CrossMachine.Lib.CInt
import CrossMachine.Lib.Lines
import Mathlib.Algebra.Order.Ring.Int
import Mathlib.Data.List.Nodup
import Mathlib.Data.Set.Function
import Mathlib.Tactic.Linarith
import Mathlib.Tactic.Ring

/-!
# The process grid

`ProcessGrid` of `process_grid.h`: the ranks of data, tensor and pipeline parallelism, with the
pipeline varying fastest. The coordinates of a rank are its digits, and a group is a line of the
box of coordinates.

Ranks and their number are computed in `int`s. Nothing on the way to a rank is larger than the
number of ranks, so nothing wraps if that number is an `int` (`worldSize_eq`, `rankAt_eq`). If it
is not, two coordinates may have one rank (`not_grid_consistent`).
-/

namespace CrossMachine.Training

open Lib

structure ProcessGrid where
  dpSize : Int
  tpSize : Int
  ppSize : Int

structure Coord where
  dp : Int
  tp : Int
  pp : Int
  deriving DecidableEq

/-- The kinds of parallelism. -/
inductive Axis where
  | dp
  | tp
  | pp
  deriving DecidableEq

/-- `for (int i = 0; i < n; ++i) group.push_back(rank(i))` -/
def pushRanks (n : Int) (rank : Int → Int) : List Int :=
  (List.range n.toNat).map fun i : Nat => rank i

namespace ProcessGrid

variable (g : ProcessGrid)

def worldSize : Int := int32 (int32 (g.dpSize * g.tpSize) * g.ppSize)

def rankOf (dp tp pp : Int) : Int :=
  int32 (int32 (int32 (dp * int32 (g.tpSize * g.ppSize)) + int32 (tp * g.ppSize)) + pp)

/-- Division of an `int` goes towards zero. -/
def coordOf (globalRank : Int) : Coord :=
  let pp := globalRank.tmod g.ppSize
  let rest := globalRank.tdiv g.ppSize
  let tp := rest.tmod g.tpSize
  let dp := rest.tdiv g.tpSize
  ⟨dp, tp, pp⟩

def tpGroup (dp pp : Int) : List Int := pushRanks g.tpSize fun tp => g.rankOf dp tp pp

def dpGroup (tp pp : Int) : List Int := pushRanks g.dpSize fun dp => g.rankOf dp tp pp

def ppGroup (dp tp : Int) : List Int := pushRanks g.ppSize fun pp => g.rankOf dp tp pp

/-! ## Ranks and coordinates -/

/-- The sizes are positive, and the number of ranks is an `int`. -/
structure FitsInt : Prop where
  dp : 0 < g.dpSize
  tp : 0 < g.tpSize
  pp : 0 < g.ppSize
  fits : g.dpSize * g.tpSize * g.ppSize < 2 ^ 31

def size : Axis → Int
  | .dp => g.dpSize
  | .tp => g.tpSize
  | .pp => g.ppSize

/-- The rank at a coordinate. -/
def rankAt (c : Coord) : Int := g.rankOf c.dp c.tp c.pp

end ProcessGrid

variable {c c' : Coord} {k : Axis}

namespace Coord

def get (c : Coord) : Axis → Int
  | .dp => c.dp
  | .tp => c.tp
  | .pp => c.pp

def set (c : Coord) (v : Int) : Axis → Coord
  | .dp => { c with dp := v }
  | .tp => { c with tp := v }
  | .pp => { c with pp := v }

theorem get_injective (h : c.get = c'.get) : c = c' := by
  have hdp := congrFun h .dp
  have htp := congrFun h .tp
  have hpp := congrFun h .pp
  cases c
  cases c'
  simp_all [get]

theorem get_set (c : Coord) (v : Int) (k j : Axis) :
    (c.set v k).get j = if j = k then v else c.get j := by
  cases k <;> cases j <;> rfl

/-- A line of the box is swept by setting one coordinate. -/
theorem mem_line_iff : c'.get ∈ line k c.get ↔ c' = c.set (c'.get k) k := by
  refine ⟨fun h => get_injective (funext fun j => ?_), fun h j hj => ?_⟩
  · by_cases hj : j = k
    · rw [get_set, if_pos hj, hj]
    · rw [get_set, if_neg hj]
      exact h j hj
  · rw [h, get_set, if_neg hj]

end Coord

namespace ProcessGrid

variable {g : ProcessGrid}

/-- The coordinates. -/
def coords (g : ProcessGrid) : Set Coord := {c | ∀ k, 0 ≤ c.get k ∧ c.get k < g.size k}

/-- The ranks. -/
def ranks (g : ProcessGrid) : Set Int := {r | 0 ≤ r ∧ r < g.worldSize}

theorem mem_coords :
    c ∈ g.coords ↔ (0 ≤ c.dp ∧ c.dp < g.dpSize) ∧ (0 ≤ c.tp ∧ c.tp < g.tpSize) ∧
      0 ≤ c.pp ∧ c.pp < g.ppSize := by
  refine ⟨fun h => ⟨h .dp, h .tp, h .pp⟩, fun ⟨hdp, htp, hpp⟩ k => ?_⟩
  cases k
  exacts [hdp, htp, hpp]

/-- A digit below the last one. -/
theorem digit_step {q n d b : Int} (hq : q < n) (hd : d < b) (hb : 0 ≤ b) : q * b + d < n * b := by
  have := mul_le_mul_of_nonneg_right (Int.add_one_le_of_lt hq) hb
  linarith

theorem worldSize_eq (hg : g.FitsInt) : g.worldSize = g.dpSize * g.tpSize * g.ppSize := by
  have hpos := mul_pos (mul_pos hg.dp hg.tp) hg.pp
  rw [worldSize, int32_mul_left, int32_of_nonneg hpos.le hg.fits]

/-- The sums that `rank_of` forms are ranks as well. -/
theorem rankAt_eq (hg : g.FitsInt) (hc : c ∈ g.coords) :
    g.rankAt c = c.dp * (g.tpSize * g.ppSize) + c.tp * g.ppSize + c.pp ∧ g.rankAt c ∈ g.ranks := by
  obtain ⟨⟨hdp, hdp'⟩, ⟨htp, htp'⟩, hpp, hpp'⟩ := mem_coords.mp hc
  have hTP := mul_nonneg hg.tp.le hg.pp.le
  have hlt := digit_step hdp' (digit_step htp' hpp' hg.pp.le) hTP
  have hassoc := mul_assoc g.dpSize g.tpSize g.ppSize
  have hnonneg := Int.add_nonneg (Int.add_nonneg (mul_nonneg hdp hTP) (mul_nonneg htp hg.pp.le)) hpp
  have heq : g.rankAt c = c.dp * (g.tpSize * g.ppSize) + c.tp * g.ppSize + c.pp := by
    have hfits := hg.fits
    simp only [rankAt, rankOf, int32_mul_right, int32_add_left, int32_add_right]
    exact int32_of_nonneg hnonneg (by linarith)
  refine ⟨heq, ?_, ?_⟩
  · rw [heq]
    exact hnonneg
  · rw [heq, worldSize_eq hg]
    linarith

theorem rankAt_mem (hg : g.FitsInt) (hc : c ∈ g.coords) : g.rankAt c ∈ g.ranks :=
  (rankAt_eq hg hc).2

/-- The digits of a rank are what it was made of. -/
theorem coordOf_rankAt (hg : g.FitsInt) (hc : c ∈ g.coords) : g.coordOf (g.rankAt c) = c := by
  obtain ⟨⟨hdp, -⟩, ⟨htp, htp'⟩, hpp, hpp'⟩ := mem_coords.mp hc
  obtain ⟨hrest, hpp₂⟩ := (Int.ediv_emod_unique (a := g.rankAt c) (q := c.dp * g.tpSize + c.tp)
    hg.pp).mpr ⟨by rw [(rankAt_eq hg hc).1]; ring, hpp, hpp'⟩
  obtain ⟨hdp₂, htp₂⟩ := (Int.ediv_emod_unique (a := c.dp * g.tpSize + c.tp) (q := c.dp) hg.tp).mpr
    ⟨by ring, htp, htp'⟩
  have hnonneg : 0 ≤ c.dp * g.tpSize + c.tp := Int.add_nonneg (mul_nonneg hdp hg.tp.le) htp
  simp only [coordOf]
  rw [Int.tmod_eq_emod_of_nonneg (rankAt_mem hg hc).1,
    Int.tdiv_eq_ediv_of_nonneg (rankAt_mem hg hc).1, hrest, hpp₂,
    Int.tmod_eq_emod_of_nonneg hnonneg, Int.tdiv_eq_ediv_of_nonneg hnonneg, hdp₂, htp₂]

variable {r : Int}

theorem coordOf_mem (hg : g.FitsInt) (hr : r ∈ g.ranks) :
    g.coordOf r ∈ g.coords ∧ g.rankAt (g.coordOf r) = r := by
  obtain ⟨hr, hr'⟩ := hr
  rw [worldSize_eq hg] at hr'
  have hrest : 0 ≤ r / g.ppSize := Int.ediv_nonneg hr hg.pp.le
  have hcoord : g.coordOf r =
      ⟨r / g.ppSize / g.tpSize, r / g.ppSize % g.tpSize, r % g.ppSize⟩ := by
    simp only [coordOf]
    rw [Int.tmod_eq_emod_of_nonneg hr, Int.tdiv_eq_ediv_of_nonneg hr,
      Int.tmod_eq_emod_of_nonneg hrest, Int.tdiv_eq_ediv_of_nonneg hrest]
  rw [hcoord]
  have hmem : (⟨r / g.ppSize / g.tpSize, r / g.ppSize % g.tpSize, r % g.ppSize⟩ : Coord) ∈
      g.coords := mem_coords.mpr ⟨⟨Int.ediv_nonneg hrest hg.tp.le,
        Int.ediv_lt_of_lt_mul hg.tp (Int.ediv_lt_of_lt_mul hg.pp hr')⟩,
    ⟨Int.emod_nonneg _ hg.tp.ne', Int.emod_lt_of_pos _ hg.tp⟩,
    Int.emod_nonneg _ hg.pp.ne', Int.emod_lt_of_pos _ hg.pp⟩
  refine ⟨hmem, ?_⟩
  have hpp := Int.mul_ediv_add_emod r g.ppSize
  have htp := Int.mul_ediv_add_emod (r / g.ppSize) g.tpSize
  rw [(rankAt_eq hg hmem).1]
  calc r / g.ppSize / g.tpSize * (g.tpSize * g.ppSize) + r / g.ppSize % g.tpSize * g.ppSize +
        r % g.ppSize
      = g.ppSize * (g.tpSize * (r / g.ppSize / g.tpSize) + r / g.ppSize % g.tpSize) +
        r % g.ppSize := by ring
    _ = r := by rw [htp, hpp]

/-- Ranks and coordinates determine each other. -/
theorem coordOf_inverse (hg : g.FitsInt) :
    Set.BijOn g.rankAt g.coords g.ranks ∧ Set.BijOn g.coordOf g.ranks g.coords ∧
      Set.InvOn g.coordOf g.rankAt g.coords g.ranks := by
  have hinv : Set.InvOn g.coordOf g.rankAt g.coords g.ranks :=
    ⟨fun _ hc => coordOf_rankAt hg hc, fun _ hr => (coordOf_mem hg hr).2⟩
  have hrank : Set.MapsTo g.rankAt g.coords g.ranks := fun _ hc => rankAt_mem hg hc
  have hcoord : Set.MapsTo g.coordOf g.ranks g.coords := fun _ hr => (coordOf_mem hg hr).1
  exact ⟨hinv.bijOn hrank hcoord, hinv.symm.bijOn hcoord hrank, hinv⟩

/-! ## Groups -/

/-- The group of a kind at a coordinate. -/
def group (g : ProcessGrid) (c : Coord) : Axis → List Int
  | .dp => g.dpGroup c.tp c.pp
  | .tp => g.tpGroup c.dp c.pp
  | .pp => g.ppGroup c.dp c.tp

/-- The group that a rank finds for itself. -/
def groupOf (g : ProcessGrid) (k : Axis) (r : Int) : List Int := g.group (g.coordOf r) k

theorem group_eq (c : Coord) (k : Axis) :
    g.group c k = pushRanks (g.size k) fun v => g.rankAt (c.set v k) := by
  cases k <;> rfl

theorem mem_pushRanks {n : Int} {rank : Int → Int} :
    r ∈ pushRanks n rank ↔ ∃ v, (0 ≤ v ∧ v < n) ∧ rank v = r := by
  simp only [pushRanks, List.mem_map, List.mem_range]
  refine ⟨fun ⟨i, hi, hr⟩ => ⟨i, by omega, hr⟩, fun ⟨v, hv, hr⟩ => ⟨v.toNat, by omega, ?_⟩⟩
  rwa [Int.toNat_of_nonneg hv.1]

theorem set_mem_coords (hc : c ∈ g.coords) {v : Int} (hv : 0 ≤ v ∧ v < g.size k) :
    c.set v k ∈ g.coords := by
  intro j
  rw [Coord.get_set]
  by_cases hj : j = k
  · rw [if_pos hj, hj]
    exact hv
  · rw [if_neg hj]
    exact hc j

/-- The members of a group are the ranks on a line. -/
theorem mem_group (hg : g.FitsInt) (hc : c ∈ g.coords) :
    r ∈ g.group c k ↔ r ∈ g.ranks ∧ (g.coordOf r).get ∈ line k c.get := by
  rw [group_eq, mem_pushRanks]
  refine ⟨?_, fun ⟨hr, hline⟩ => ?_⟩
  · rintro ⟨v, hv, rfl⟩
    have hset := set_mem_coords hc hv
    refine ⟨rankAt_mem hg hset, fun j hj => ?_⟩
    rw [coordOf_rankAt hg hset, Coord.get_set, if_neg hj]
  · obtain ⟨hcoord, hrank⟩ := coordOf_mem hg hr
    exact ⟨(g.coordOf r).get k, hcoord k, by rw [← Coord.mem_line_iff.mp hline, hrank]⟩

/-- A group depends on its line only. -/
theorem group_congr (h : c'.get ∈ line k c.get) : g.group c' k = g.group c k := by
  rw [group_eq, group_eq, Coord.mem_line_iff.mp h]
  cases k <;> rfl

theorem nodup_group (hg : g.FitsInt) (hc : c ∈ g.coords) (k : Axis) : (g.group c k).Nodup := by
  rw [group_eq, pushRanks]
  refine List.Nodup.map_on (fun i hi j hj hij => ?_) List.nodup_range
  rw [List.mem_range] at hi hj
  -- the ranks are equal, so their coordinates are
  have hset {i : Nat} (hi : i < (g.size k).toNat) := set_mem_coords hc (k := k) (v := i) (by omega)
  have heq := congrArg g.coordOf hij
  rw [coordOf_rankAt hg (hset hi), coordOf_rankAt hg (hset hj)] at heq
  have hget := congrArg (fun c => c.get k) heq
  simp only [Coord.get_set, if_pos] at hget
  exact_mod_cast hget

/-- The groups of a kind. -/
def groups (g : ProcessGrid) (k : Axis) : Set (List Int) := {G | ∃ c ∈ g.coords, G = g.group c k}

/-- Whichever member asks, it is told the same list. -/
theorem groupOf_of_mem (hg : g.FitsInt) {G : List Int} (hG : G ∈ g.groups k) (hr : r ∈ G) :
    g.groupOf k r = G := by
  obtain ⟨c, hc, rfl⟩ := hG
  exact group_congr ((mem_group hg hc).mp hr).2

theorem groupOf_mem (hg : g.FitsInt) (k : Axis) (hr : r ∈ g.ranks) :
    g.groupOf k r ∈ g.groups k ∧ r ∈ g.groupOf k r := by
  have hc := (coordOf_mem hg hr).1
  exact ⟨⟨_, hc, rfl⟩, (mem_group hg hc).mpr ⟨hr, mem_line_self⟩⟩

/-- Two groups of different kinds have one rank in common at most. -/
theorem eq_of_mem_groups (hg : g.FitsInt) {k' : Axis} (hk : k ≠ k') {G G' : List Int}
    (hG : G ∈ g.groups k) (hG' : G' ∈ g.groups k') {r' : Int} (hr : r ∈ G) (hr₂ : r ∈ G')
    (hr' : r' ∈ G) (hr'₂ : r' ∈ G') : r' = r := by
  obtain ⟨c, hc, rfl⟩ := hG
  obtain ⟨c', hc', rfl⟩ := hG'
  obtain ⟨hrank, hline⟩ := (mem_group hg hc).mp hr
  obtain ⟨hrank', hline'⟩ := (mem_group hg hc).mp hr'
  rw [← line_eq_of_mem hline] at hline'
  have hline₂ := ((mem_group hg hc').mp hr₂).2
  have hline'₂ := ((mem_group hg hc').mp hr'₂).2
  rw [← line_eq_of_mem hline₂] at hline'₂
  have hcoord := Coord.get_injective (eq_of_mem_lines hk hline' hline'₂)
  rw [← (coordOf_mem hg hrank').2, hcoord, (coordOf_mem hg hrank).2]

/-- The groups of each kind partition the ranks. -/
def Partition (groups : Set (List Int)) (ranks : Set Int) : Prop :=
  (∀ G ∈ groups, G.Nodup ∧ G ≠ [] ∧ ∀ r ∈ G, r ∈ ranks) ∧ ∀ r ∈ ranks, ∃! G, G ∈ groups ∧ r ∈ G

theorem groups_partition (hg : g.FitsInt) (k : Axis) : Partition (g.groups k) g.ranks := by
  refine ⟨?_, fun r hr => ⟨g.groupOf k r, groupOf_mem hg k hr, fun G hG => ?_⟩⟩
  · rintro G ⟨c, hc, rfl⟩
    refine ⟨nodup_group hg hc k, ?_, fun r hr => ((mem_group hg hc).mp hr).1⟩
    have hmem : g.rankAt c ∈ g.group c k := by
      rw [mem_group hg hc, coordOf_rankAt hg hc]
      exact ⟨rankAt_mem hg hc, mem_line_self⟩
    exact List.ne_nil_of_mem hmem
  · exact (groupOf_of_mem hg hG.1 hG.2).symm

/-- Ranks and coordinates are in bijection when the number of ranks is an `int`. The groups of each
kind partition the ranks then, every member computes its group as the same list, and groups of
different kinds through a rank share nothing else. -/
theorem grid_consistent (hg : g.FitsInt) :
    (Set.BijOn g.rankAt g.coords g.ranks ∧ Set.BijOn g.coordOf g.ranks g.coords ∧
      Set.InvOn g.coordOf g.rankAt g.coords g.ranks) ∧
    (∀ k, Partition (g.groups k) g.ranks) ∧
    (∀ k, ∀ G ∈ g.groups k, ∀ r ∈ G, g.groupOf k r = G) ∧
    ∀ k k', k ≠ k' → ∀ G ∈ g.groups k, ∀ G' ∈ g.groups k', ∀ r, r ∈ G → r ∈ G' →
      ∀ r', r' ∈ G ∧ r' ∈ G' ↔ r' = r := by
  refine ⟨coordOf_inverse hg, groups_partition hg, fun k G hG r hr => groupOf_of_mem hg hG hr,
    fun k k' hk G hG G' hG' r hr hr₂ r' => ⟨fun h => ?_, fun h => ?_⟩⟩
  · exact eq_of_mem_groups hg hk hG hG' hr hr₂ h.1 h.2
  · rw [h]
    exact ⟨hr, hr₂⟩

/-- Two, three and two. -/
theorem grid_consistent_two :
    (⟨2, 3, 2⟩ : ProcessGrid).groupOf .tp 3 = (⟨2, 3, 2⟩ : ProcessGrid).group ⟨0, 2, 1⟩ .tp :=
  (grid_consistent (g := ⟨2, 3, 2⟩) ⟨by decide, by decide, by decide, by decide⟩).2.2.1 .tp _
    ⟨⟨0, 2, 1⟩, mem_coords.mpr (by decide), rfl⟩ 3 (by decide)

/-- With `2 ^ 32 + 2 ^ 16` ranks, two coordinates have the rank `0`. -/
theorem not_grid_consistent :
    ¬ Set.BijOn (⟨65537, 65536, 1⟩ : ProcessGrid).rankAt (coords ⟨65537, 65536, 1⟩)
      (ranks ⟨65537, 65536, 1⟩) := by
  intro h
  have heq := h.injOn (mem_coords.mpr (by decide) : (⟨0, 0, 0⟩ : Coord) ∈ _)
    (mem_coords.mpr (by decide) : (⟨65536, 0, 0⟩ : Coord) ∈ _) (by decide)
  exact absurd (congrArg Coord.dp heq) (by decide)

end ProcessGrid

end CrossMachine.Training
