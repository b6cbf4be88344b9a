import CrossMachine.Compiler.Ir
import Mathlib.Algebra.Order.BigOperators.Group.List
import Mathlib.Algebra.Order.Ring.Nat
import Mathlib.Algebra.Order.Ring.Int
import Mathlib.Data.List.Induction

/-!
# Memory planning: offsets in one shared arena

`MemPlanningPass` gives every result with a static shape an interval from its definition to
its last use, and sweeps the intervals in the order of their definitions. Each step returns
the bytes of the intervals that have ended to the free list, sorts and coalesces it, and
takes the first block that is large enough.

The invariant of the sweep is that the free blocks and the live ranges together tile the
arena `[0, INT64_MAX)`. Two intervals that overlap are in the live set at the same time, so
their ranges are two blocks of one tiling. That the search finds a block rests on the last
free block: it starts no later than the sum of the sizes placed so far, so it is large enough
for whatever is left of the total. The one way out is a free list with no block at all, which
takes a total of exactly `INT64_MAX` bytes and a value of size zero.

Sizes are computed in 64 bits and wrap; offsets stay inside the arena, so their arithmetic
does not. The sort of the free list is any `Sorter`, since `llvm::sort` is not stable.
-/

namespace CrossMachine.Compiler

open Lib

/-- `INT64_MAX`. -/
def int64Max : Int := 2 ^ 63 - 1

/-- What 64 bits keep of a number. -/
def wrap64 (x : Int) : Int := x.bmod (2 ^ 64)

/-- The bytes of one element: its bits, rounded up. -/
def Elem.bytes (e : Elem) : Nat := (e.bitWidth + 7) / 8

/-- The loop over the dimensions and the last product, each multiplication in `int64_t`. -/
def byteSize (dims : List Nat) (e : Elem) : Int :=
  wrap64 (dims.foldl (fun (elems : Int) (d : Nat) => wrap64 (elems * d)) 1 * e.bytes)

/-- The size of a type that the pass plans: a ranked tensor with a static shape. -/
def Ty.byteSize? (ty : Ty) : Option Int :=
  ty.static?.map fun p => byteSize p.1 p.2

structure Interval where
  value : Val
  definingOp : Nat
  defTime : Nat
  lastUseTime : Nat
  size : Int
  deriving DecidableEq, Repr

abbrev FreeBlock := Extent

variable {κ : Type}

/-- The results of an operation that are planned, with their sizes. -/
def planned (o : Op κ) : List (Nat × Int) :=
  o.results.zipIdx.filterMap fun p => p.1.byteSize?.map fun size => (p.2, size)

/-- The latest of a definition and the uses of its value. -/
def lastUse (body : List (Op κ)) (v : Val) (defTime : Nat) : Nat :=
  ((users body v).map (timeOf body)).foldl max defTime

/-- The interval of result `k` of the operation `o` at time `t`. -/
def intervalOf (body : List (Op κ)) (o : Op κ) (t k : Nat) (size : Int) : Interval where
  value := .res o.id k
  definingOp := o.id
  defTime := t
  lastUseTime := lastUse body (.res o.id k) t
  size := size

/-- The intervals in program order. -/
def intervals (body : List (Op κ)) : List Interval :=
  body.zipIdx.flatMap fun p => (planned p.1).map fun r => intervalOf body p.1 p.2 r.1 r.2

/-- The free list from one block on, with neighbours that touch joined. -/
def coalesceFrom : FreeBlock → List FreeBlock → List FreeBlock
  | a, [] => [a]
  | a, b :: rest =>
      if a.offset + a.size = b.offset then coalesceFrom ⟨a.offset, a.size + b.size⟩ rest
      else a :: coalesceFrom b rest

def coalesce : List FreeBlock → List FreeBlock
  | [] => []
  | a :: rest => coalesceFrom a rest

/-- The first block that is large enough gives its first `size` bytes, and leaves the list
when nothing of it remains. -/
def firstFit : List FreeBlock → Int → Option (Int × List FreeBlock)
  | [], _ => none
  | b :: rest, size =>
      if b.size ≥ size then
        some (b.offset,
          if b.size - size = 0 then rest else ⟨b.offset + size, b.size - size⟩ :: rest)
      else (firstFit rest size).map fun r => (r.1, b :: r.2)

/-- The locals of `runOnOperation` and the offset attributes it has set. -/
structure Sweep where
  freeList : List FreeBlock
  placement : Val → Int × Int
  live : List Interval
  peak : Int
  offsets : Nat → Option Int

/-- The bytes that an interval was given. -/
def Sweep.range (s : Sweep) (iv : Interval) : Extent :=
  ⟨(s.placement iv.value).1, (s.placement iv.value).2⟩

variable (sorter : Sorter Extent.offset)

def releaseExpired (s : Sweep) (now : Nat) : Sweep :=
  { s with
    live := s.live.filter fun iv => iv.lastUseTime ≥ now
    freeList := coalesce <| sorter.run <|
      s.freeList ++ (s.live.filter fun iv => ¬ iv.lastUseTime ≥ now).map s.range }

/-- The rest of a round once the search has found `offset` and left `freeList`. -/
def Sweep.assign (s : Sweep) (iv : Interval) (offset : Int) (freeList : List FreeBlock) :
    Sweep where
  freeList := freeList
  placement := Function.update s.placement iv.value (offset, iv.size)
  live := s.live ++ [iv]
  peak := max s.peak (offset + iv.size)
  offsets := Function.update s.offsets iv.definingOp (some offset)

/-- One round of the loop; `none` is `find_if` running off the end of the free list. -/
def place (s : Sweep) (iv : Interval) : Option Sweep :=
  let s := releaseExpired sorter s iv.defTime
  (firstFit s.freeList iv.size).map fun fit => s.assign iv fit.1 fit.2

def sweepStart (offsets : Nat → Option Int) : Sweep where
  freeList := [⟨0, int64Max⟩]
  placement := fun _ => (0, 0)
  live := []
  peak := 0
  offsets := offsets

/-- The intervals in the order of the sweep. -/
def sweepOrder (body : List (Op κ)) : List Interval :=
  (Sorter.stable Interval.defTime).run (intervals body)

/-- The offset attributes as they are before the pass. -/
def offsetAttrs (body : List (Op κ)) (op : Nat) : Option Int :=
  (body.find? fun o => o.id = op).bind Op.bufferOffset

/-- The sweep over the first intervals. -/
def sweep (body : List (Op κ)) (ivs : List Interval) : Option Sweep :=
  ivs.foldlM (place sorter) (sweepStart (offsetAttrs body))

/-- The block with its offset attributes set. -/
def setOffsets (offsets : Nat → Option Int) (body : List (Op κ)) : List (Op κ) :=
  body.map fun o => { o with bufferOffset := offsets o.id }

def memPlanningPass (f : Func κ) : Option (Func κ) :=
  (sweep sorter f.body (sweepOrder f.body)).map fun s =>
    { f with body := setOffsets s.offsets f.body, peakMemoryBytes := some s.peak }

/-! ## The free list -/

/-- Some block reaches to the end of the arena and starts at `s` or before. -/
def Tail (s : Int) (bs : List FreeBlock) : Prop :=
  ∃ b ∈ bs, b.offset ≤ s ∧ b.offset + b.size = int64Max

section FreeList

variable {a : FreeBlock} {bs rest : List FreeBlock} {p size offset total : Int}

theorem coalesceFrom_fits (ha : a.Fits int64Max) (h : ∀ b ∈ bs, b.Fits int64Max) :
    ∀ b ∈ coalesceFrom a bs, b.Fits int64Max := by
  induction bs generalizing a with
  | nil => simpa [coalesceFrom] using ha
  | cons b bs ih =>
      have hb := h b (List.mem_cons_self ..)
      have hbs : ∀ c ∈ bs, c.Fits int64Max := fun c hc => h c (List.mem_cons_of_mem _ hc)
      rw [coalesceFrom]
      split
      case isTrue hadj =>
        refine ih ⟨ha.1, ?_, ?_⟩ hbs
        · exact Int.add_nonneg ha.2.1 hb.2.1
        · have := hb.2.2
          simp only
          omega
      case isFalse =>
        exact List.forall_mem_cons.mpr ⟨ha, ih hb hbs⟩

theorem coalesceFrom_cover (ha : 0 ≤ a.size) (h : ∀ b ∈ bs, 0 ≤ b.size) :
    cover (coalesceFrom a bs) p = cover (a :: bs) p := by
  induction bs generalizing a with
  | nil => rfl
  | cons b bs ih =>
      have hb := h b (List.mem_cons_self ..)
      have hbs : ∀ c ∈ bs, 0 ≤ c.size := fun c hc => h c (List.mem_cons_of_mem _ hc)
      rw [coalesceFrom]
      split
      case isTrue hadj => rw [ih (Int.add_nonneg ha hb) hbs, cover_join ha hb hadj]
      case isFalse => rw [cover_cons, ih hb hbs, cover_cons (b := a)]

/-- The block at the end only grows downwards: nothing lies behind it to be joined. -/
theorem coalesceFrom_tail (ha : a.Fits int64Max) (h : ∀ b ∈ bs, b.Fits int64Max)
    (htail : Tail total (a :: bs)) : Tail total (coalesceFrom a bs) := by
  induction bs generalizing a with
  | nil => exact htail
  | cons b bs ih =>
      have hb := h b (List.mem_cons_self ..)
      have hbs : ∀ c ∈ bs, c.Fits int64Max := fun c hc => h c (List.mem_cons_of_mem _ hc)
      obtain ⟨ha0, hasz, haend⟩ := ha
      obtain ⟨hb0, hbsz, hbend⟩ := h b (List.mem_cons_self ..)
      obtain ⟨c, hc, hoff, hend⟩ := htail
      rw [coalesceFrom]
      split
      case isTrue hadj =>
        refine ih ⟨ha0, Int.add_nonneg hasz hbsz, by simp only; omega⟩ hbs ?_
        rcases List.mem_cons.mp hc with rfl | hc
        · exact ⟨_, List.mem_cons_self .., hoff, by simp only; omega⟩
        · rcases List.mem_cons.mp hc with rfl | hc
          · exact ⟨_, List.mem_cons_self .., by simp only; omega, by simp only; omega⟩
          · exact ⟨c, List.mem_cons_of_mem _ hc, hoff, hend⟩
      case isFalse =>
        rcases List.mem_cons.mp hc with rfl | hc
        · exact ⟨c, List.mem_cons_self .., hoff, hend⟩
        · obtain ⟨d, hd, hdoff, hdend⟩ := ih hb hbs ⟨c, hc, hoff, hend⟩
          exact ⟨d, List.mem_cons_of_mem _ hd, hdoff, hdend⟩

theorem coalesce_fits (h : ∀ b ∈ bs, b.Fits int64Max) : ∀ b ∈ coalesce bs, b.Fits int64Max := by
  cases bs with
  | nil => simp [coalesce]
  | cons a bs =>
      obtain ⟨ha, hbs⟩ := List.forall_mem_cons.mp h
      exact coalesceFrom_fits ha hbs

theorem coalesce_cover (h : ∀ b ∈ bs, b.Fits int64Max) : cover (coalesce bs) p = cover bs p := by
  cases bs with
  | nil => rfl
  | cons a bs =>
      obtain ⟨ha, hbs⟩ := List.forall_mem_cons.mp h
      exact coalesceFrom_cover ha.2.1 fun b hb => (hbs b hb).2.1

theorem coalesce_tail (h : ∀ b ∈ bs, b.Fits int64Max) (htail : Tail total bs) :
    Tail total (coalesce bs) := by
  cases bs with
  | nil => exact htail
  | cons a bs =>
      obtain ⟨ha, hbs⟩ := List.forall_mem_cons.mp h
      exact coalesceFrom_tail ha hbs htail

/-- What the search hands out and what it leaves: one block `b` is cut, the first that is
large enough. -/
theorem firstFit_eq_some (h : firstFit bs size = some (offset, rest)) :
    ∃ pre b post, bs = pre ++ b :: post ∧ size ≤ b.size ∧ offset = b.offset ∧
      rest = pre ++ if b.size - size = 0 then post
        else ⟨b.offset + size, b.size - size⟩ :: post := by
  induction bs generalizing offset rest with
  | nil => exact absurd h (by simp [firstFit])
  | cons b bs ih =>
      rw [firstFit] at h
      split at h
      case isTrue hfits =>
        obtain ⟨rfl, rfl⟩ := Prod.mk.inj (Option.some.inj h)
        exact ⟨[], b, bs, rfl, hfits, rfl, rfl⟩
      case isFalse =>
        obtain ⟨⟨off, left⟩, hleft, heq⟩ := Option.map_eq_some_iff.mp h
        obtain ⟨rfl, rfl⟩ := Prod.mk.inj heq
        obtain ⟨pre, c, post, rfl, hsize, rfl, rfl⟩ := ih hleft
        exact ⟨b :: pre, c, post, rfl, hsize, rfl, rfl⟩

theorem firstFit_isSome {b : FreeBlock} (hb : b ∈ bs) (hsize : size ≤ b.size) :
    ∃ r, firstFit bs size = some r := by
  induction bs with
  | nil => exact absurd hb (by simp)
  | cons c bs ih =>
      rw [firstFit]
      split
      case isTrue => exact ⟨_, rfl⟩
      case isFalse hnot =>
        rcases List.mem_cons.mp hb with rfl | hb
        · exact absurd hsize hnot
        · obtain ⟨r, hr⟩ := ih hb
          exact ⟨_, by rw [hr]; rfl⟩

theorem firstFit_cover (hsize : 0 ≤ size) (h : firstFit bs size = some (offset, rest)) :
    cover (⟨offset, size⟩ :: rest) p = cover bs p := by
  obtain ⟨pre, b, post, rfl, hle, rfl, rfl⟩ := firstFit_eq_some h
  have hcut : cover (⟨b.offset, size⟩ :: ⟨b.offset + size, b.size - size⟩ :: post) p =
      cover (b :: post) p := cover_cut hsize hle
  split
  case isTrue hzero =>
    rw [cover_cons, cover_empty (b := ⟨b.offset + size, b.size - size⟩) hzero] at hcut
    rw [cover_cons, cover_append, cover_append]
    omega
  case isFalse =>
    rw [cover_cons] at hcut
    rw [cover_cons, cover_append, cover_append]
    omega

theorem firstFit_fits (hsize : 0 ≤ size) (hfits : ∀ b ∈ bs, b.Fits int64Max)
    (h : firstFit bs size = some (offset, rest)) :
    (Extent.mk offset size).Fits int64Max ∧ ∀ b ∈ rest, b.Fits int64Max := by
  obtain ⟨pre, b, post, rfl, hle, rfl, rfl⟩ := firstFit_eq_some h
  obtain ⟨hpre, hbpost⟩ := List.forall_mem_append.mp hfits
  obtain ⟨⟨hb0, hbsz, hbend⟩, hpost⟩ := List.forall_mem_cons.mp hbpost
  refine ⟨⟨hb0, hsize, by simp only; omega⟩, List.forall_mem_append.mpr ⟨hpre, ?_⟩⟩
  split
  case isTrue => exact hpost
  case isFalse =>
    refine List.forall_mem_cons.mpr ⟨⟨?_, ?_, ?_⟩, hpost⟩ <;> simp only <;> omega

/-- The block at the end gives at most what was asked for. -/
theorem firstFit_tail (hsize : 0 ≤ size) (hroom : total + size < int64Max)
    (htail : Tail total bs) (h : firstFit bs size = some (offset, rest)) :
    Tail (total + size) rest := by
  obtain ⟨pre, b, post, rfl, hle, rfl, rfl⟩ := firstFit_eq_some h
  obtain ⟨c, hc, hoff, hend⟩ := htail
  rcases List.mem_append.mp hc with hc | hc
  · exact ⟨c, List.mem_append_left _ hc, by omega, hend⟩
  rcases List.mem_cons.mp hc with rfl | hc
  · refine ⟨⟨c.offset + size, c.size - size⟩, List.mem_append_right _ ?_, ?_, ?_⟩
    · rw [if_neg (by omega)]
      exact List.mem_cons_self ..
    · simp only
      omega
    · simp only
      omega
  · refine ⟨c, List.mem_append_right _ ?_, by omega, hend⟩
    split
    · exact hc
    · exact List.mem_cons_of_mem _ hc

end FreeList

/-! ## The sweep -/

/-- What the sweep needs of the intervals: they are sorted, no two are for one value or one
operation, and no size is negative. -/
structure Orderly (ivs : List Interval) : Prop where
  sorted : ivs.Pairwise fun a b => a.defTime ≤ b.defTime
  values : (ivs.map Interval.value).Nodup
  ops : (ivs.map Interval.definingOp).Nodup
  sizes : ∀ iv ∈ ivs, 0 ≤ iv.size

namespace Orderly

variable {ivs : List Interval} {iv : Interval}

theorem sublist {jvs : List Interval} (h : Orderly ivs) (hsub : jvs.Sublist ivs) :
    Orderly jvs where
  sorted := h.sorted.sublist hsub
  values := h.values.sublist (hsub.map _)
  ops := h.ops.sublist (hsub.map _)
  sizes := fun iv hiv => h.sizes iv (hsub.subset hiv)

theorem init (h : Orderly (ivs ++ [iv])) : Orderly ivs := h.sublist (List.sublist_append_left ..)

theorem before (h : Orderly (ivs ++ [iv])) : ∀ a ∈ ivs, a.defTime ≤ iv.defTime :=
  fun a ha => (List.pairwise_append.mp h.sorted).2.2 a ha iv (List.mem_singleton_self _)

theorem value_new (h : Orderly (ivs ++ [iv])) : iv.value ∉ ivs.map Interval.value := by
  have := h.values
  rw [List.map_append, List.map_singleton] at this
  exact fun hin => (List.nodup_append.mp this).2.2 _ hin _ (List.mem_singleton_self _) rfl

theorem op_new (h : Orderly (ivs ++ [iv])) : iv.definingOp ∉ ivs.map Interval.definingOp := by
  have := h.ops
  rw [List.map_append, List.map_singleton] at this
  exact fun hin => (List.nodup_append.mp this).2.2 _ hin _ (List.mem_singleton_self _) rfl

theorem size_last (h : Orderly (ivs ++ [iv])) : 0 ≤ iv.size := h.sizes iv (by simp)

end Orderly

def totalSize (ivs : List Interval) : Int := (ivs.map Interval.size).sum

theorem totalSize_append (ivs jvs : List Interval) :
    totalSize (ivs ++ jvs) = totalSize ivs + totalSize jvs := by
  rw [totalSize, List.map_append, List.sum_append, ← totalSize, ← totalSize]

theorem totalSize_singleton (iv : Interval) : totalSize [iv] = iv.size := by simp [totalSize]

theorem Orderly.totalSize_nonneg {ivs : List Interval} (h : Orderly ivs) : 0 ≤ totalSize ivs := by
  refine List.sum_nonneg fun n hn => ?_
  obtain ⟨iv, hiv, rfl⟩ := List.mem_map.mp hn
  exact h.sizes iv hiv

/-- A first part of the intervals takes no more than all of them. -/
theorem Orderly.totalSize_le {ivs jvs : List Interval} (h : Orderly jvs) (hpre : ivs <+: jvs) :
    totalSize ivs ≤ totalSize jvs := by
  obtain ⟨rest, rfl⟩ := hpre
  have := (h.sublist (List.sublist_append_right ivs rest)).totalSize_nonneg
  rw [totalSize_append]
  omega

/-- The state of the sweep at time `now`, after the intervals `done`. -/
structure Swept (done : List Interval) (now : Nat) (s : Sweep) : Prop where
  tiles : Tiles int64Max (s.freeList ++ s.live.map s.range)
  fits : ∀ b ∈ s.freeList ++ s.live.map s.range, b.Fits int64Max
  live : ∀ iv ∈ s.live, iv ∈ done
  ended : ∀ iv ∈ done, iv ∉ s.live → iv.lastUseTime < now
  size : ∀ iv ∈ done, (s.range iv).size = iv.size
  apart : done.Pairwise fun a b =>
    a.lastUseTime < b.defTime ∨ (s.range a).Apart (s.range b)
  tail : totalSize done < int64Max → Tail (totalSize done) s.freeList
  peak : s.peak = (done.map fun iv => (s.range iv).offset + iv.size).foldl max 0
  offsets : ∀ iv ∈ done, s.offsets iv.definingOp = some (s.range iv).offset

section Assign

variable {s : Sweep} {iv jv : Interval} {offset : Int} {freeList : List FreeBlock}

theorem assign_peak : (s.assign iv offset freeList).peak = max s.peak (offset + iv.size) := rfl

theorem assign_offsets : (s.assign iv offset freeList).offsets =
    Function.update s.offsets iv.definingOp (some offset) := rfl

theorem range_assign_self : (s.assign iv offset freeList).range iv = ⟨offset, iv.size⟩ := by
  simp [Sweep.range, Sweep.assign]

theorem range_assign_of_ne (hne : jv.value ≠ iv.value) :
    (s.assign iv offset freeList).range jv = s.range jv := by
  simp [Sweep.range, Sweep.assign, Function.update_of_ne hne]

end Assign

namespace Swept

variable {done : List Interval} {now now' : Nat} {s : Sweep} {iv : Interval}

theorem start (offsets : Nat → Option Int) : Swept [] now (sweepStart offsets) where
  tiles := Tiles.whole
  fits := by
    intro b hb
    obtain rfl := List.mem_singleton.mp hb
    exact ⟨le_rfl, by decide, by decide⟩
  live := fun iv hiv => absurd hiv (by simp [sweepStart])
  ended := fun iv hiv => absurd hiv (by simp)
  size := fun iv hiv => absurd hiv (by simp)
  apart := List.Pairwise.nil
  tail := fun _ => ⟨⟨0, int64Max⟩, List.mem_singleton_self _, le_rfl, by simp⟩
  peak := rfl
  offsets := fun iv hiv => absurd hiv (by simp)

theorem mono (h : Swept done now s) (hle : now ≤ now') : Swept done now' s :=
  { h with ended := fun iv hiv hnot => lt_of_lt_of_le (h.ended iv hiv hnot) hle }

/-- The blocks before the release, with the expired ranges moved over to the free side. -/
theorem released_perm (s : Sweep) (now : Nat) :
    ((s.freeList ++ (s.live.filter fun iv => ¬ iv.lastUseTime ≥ now).map s.range) ++
      (s.live.filter fun iv => iv.lastUseTime ≥ now).map s.range).Perm
      (s.freeList ++ s.live.map s.range) := by
  have hsplit := List.filter_append_perm (fun iv : Interval => decide (iv.lastUseTime ≥ now)) s.live
  rw [List.append_assoc, ← List.map_append]
  refine List.Perm.append_left _ (List.Perm.map _ ?_)
  refine List.Perm.trans List.perm_append_comm ?_
  simpa only [decide_not] using hsplit

theorem release (h : Swept done now s) (hle : now ≤ now') :
    Swept done now' (releaseExpired sorter s now') := by
  have hperm := released_perm s now'
  -- what is sorted and coalesced still fits, being among the blocks there were
  have hfits : ∀ b ∈ s.freeList ++ s.live.map s.range, b.Fits int64Max := h.fits
  have hall : ∀ b, b ∈ sorter.run (s.freeList ++
      (s.live.filter fun iv => ¬ iv.lastUseTime ≥ now').map s.range) → b.Fits int64Max :=
    fun b hb => hfits b (hperm.mem_iff.mp (List.mem_append_left _ (sorter.mem_run.mp hb)))
  refine { h with tiles := ?_, fits := ?_, live := ?_, ended := ?_, tail := ?_ }
  · refine h.tiles.congr fun p => ?_
    rw [cover_append, releaseExpired, coalesce_cover hall, cover_perm (sorter.perm _),
      ← cover_append]
    exact cover_perm hperm
  · refine List.forall_mem_append.mpr ⟨coalesce_fits hall, fun b hb => ?_⟩
    exact hfits b (hperm.mem_iff.mp (List.mem_append_right _ hb))
  · exact fun iv hiv => h.live iv (List.mem_of_mem_filter hiv)
  · intro iv hiv hnot
    by_cases hlive : iv ∈ s.live
    · by_contra hge
      exact hnot (List.mem_filter.mpr ⟨hlive, by simpa using hge⟩)
    · exact lt_of_lt_of_le (h.ended iv hiv hlive) hle
  · intro hroom
    obtain ⟨b, hb, hoff, hend⟩ := h.tail hroom
    exact coalesce_tail hall
      ⟨b, sorter.mem_run.mpr (List.mem_append_left _ hb), hoff, hend⟩

/-- The new interval gets bytes of the free list, and no other range moves. -/
theorem assign {offset : Int} {rest : List FreeBlock} (h : Swept done iv.defTime s)
    (hvalue : iv.value ∉ done.map Interval.value)
    (hop : iv.definingOp ∉ done.map Interval.definingOp) (hsize : 0 ≤ iv.size)
    (hfit : firstFit s.freeList iv.size = some (offset, rest)) :
    Swept (done ++ [iv]) iv.defTime (s.assign iv offset rest) := by
  have hself : (s.assign iv offset rest).range iv = ⟨offset, iv.size⟩ := range_assign_self
  have hold : ∀ a ∈ done, (s.assign iv offset rest).range a = s.range a := fun a ha =>
    range_assign_of_ne fun heq => hvalue (List.mem_map.mpr ⟨a, ha, heq⟩)
  have hlive : (s.assign iv offset rest).live.map (s.assign iv offset rest).range =
      s.live.map s.range ++ [⟨offset, iv.size⟩] := by
    rw [Sweep.assign, List.map_append, List.map_singleton, ← Sweep.assign, hself]
    rw [List.map_congr_left fun a ha => hold a (h.live a ha)]
  obtain ⟨hnew, hrest⟩ := firstFit_fits hsize
    (fun b hb => h.fits b (List.mem_append_left _ hb)) hfit
  have htiles : Tiles int64Max (rest ++ (s.live.map s.range ++ [⟨offset, iv.size⟩])) := by
    refine h.tiles.congr fun p => ?_
    have hcover := firstFit_cover (p := p) hsize hfit
    rw [cover_cons] at hcover
    rw [cover_append, cover_append, cover_append, cover_cons, cover_nil]
    omega
  refine { tiles := ?_, fits := ?_, live := ?_, ended := ?_, size := ?_, apart := ?_, tail := ?_,
           peak := ?_, offsets := ?_ }
  · rw [hlive]
    exact htiles
  · rw [hlive]
    refine List.forall_mem_append.mpr ⟨hrest, List.forall_mem_append.mpr ⟨fun b hb => ?_, ?_⟩⟩
    · exact h.fits b (List.mem_append_right _ hb)
    · simpa using hnew
  · intro a ha
    rcases List.mem_append.mp ha with ha | ha
    · exact List.mem_append_left _ (h.live a ha)
    · exact List.mem_append_right _ ha
  · intro a ha hnot
    obtain ⟨hnotlive, hne⟩ : a ∉ s.live ∧ a ∉ [iv] := by
      simpa only [Sweep.assign, List.mem_append, not_or] using hnot
    rcases List.mem_append.mp ha with ha | ha
    · exact h.ended a ha hnotlive
    · exact absurd ha hne
  · intro a ha
    rcases List.mem_append.mp ha with ha | ha
    · rw [hold a ha, h.size a ha]
    · rw [List.mem_singleton.mp ha, hself]
  · refine List.pairwise_append.mpr ⟨?_, List.pairwise_singleton _ _, ?_⟩
    · refine h.apart.imp_of_mem fun ha hb hab => ?_
      rw [hold _ ha, hold _ hb]
      exact hab
    · intro a ha b hb
      rw [List.mem_singleton.mp hb, hself, hold a ha]
      -- an interval that has not ended is a block of the tiling beside the new one
      by_cases halive : a ∈ s.live
      · have hpair := htiles.pairwise_apart
        rw [← List.append_assoc] at hpair
        exact Or.inr ((List.pairwise_append.mp hpair).2.2 _
          (List.mem_append_right _ (List.mem_map_of_mem halive)) _ (List.mem_singleton_self _))
      · exact Or.inl (h.ended a ha halive)
  · intro hroom
    rw [totalSize_append, totalSize_singleton] at hroom ⊢
    exact firstFit_tail hsize hroom (h.tail (by omega)) hfit
  · rw [List.map_append, List.foldl_append, List.map_congr_left fun a ha => by rw [hold a ha],
      ← h.peak]
    simp [hself, assign_peak]
  · intro a ha
    rcases List.mem_append.mp ha with ha | ha
    · have hne : a.definingOp ≠ iv.definingOp := fun heq =>
        hop (List.mem_map.mpr ⟨a, ha, heq⟩)
      rw [hold a ha, assign_offsets, Function.update_of_ne hne, h.offsets a ha]
    · rw [List.mem_singleton.mp ha, hself, assign_offsets, Function.update_self]

/-- A free list with any block in it has one that is large enough: if the size is not zero,
the block at the end. -/
theorem place_isSome (h : Swept done now s) (hle : now ≤ iv.defTime) (hsize : 0 ≤ iv.size)
    (htotal : totalSize done + iv.size ≤ int64Max)
    (hroom : (releaseExpired sorter s iv.defTime).freeList ≠ []) :
    ∃ s', place sorter s iv = some s' := by
  have hr := h.release sorter hle
  have hfound : ∃ b ∈ (releaseExpired sorter s iv.defTime).freeList, iv.size ≤ b.size := by
    rcases eq_or_lt_of_le hsize with hzero | hpos
    · obtain ⟨b, hb⟩ := List.exists_mem_of_ne_nil _ hroom
      have := (hr.fits b (List.mem_append_left _ hb)).2.1
      exact ⟨b, hb, by omega⟩
    · obtain ⟨b, hb, hoff, hend⟩ := hr.tail (by omega)
      exact ⟨b, hb, by omega⟩
  obtain ⟨b, hb, hle⟩ := hfound
  obtain ⟨r, hfit⟩ := firstFit_isSome hb hle
  exact ⟨_, by rw [place, hfit]; rfl⟩

end Swept

/-- The sweep over an orderly list keeps the invariant, at any time from its last interval on. -/
theorem swept_of_sweep {body : List (Op κ)} {ivs : List Interval} {s : Sweep} {now : Nat}
    (horder : Orderly ivs) (hnow : ∀ iv ∈ ivs, iv.defTime ≤ now)
    (hs : sweep sorter body ivs = some s) : Swept ivs now s := by
  induction ivs using List.reverseRecOn generalizing s now with
  | nil =>
      obtain rfl := Option.some.inj hs
      exact Swept.start _
  | append_singleton ivs iv ih =>
      rw [sweep, List.foldlM_append] at hs
      obtain ⟨s₀, hs₀, hstep⟩ := Option.bind_eq_some_iff.mp hs
      have hplace : place sorter s₀ iv = some s := by simpa using hstep
      have hbefore := horder.before
      have h₀ : Swept ivs iv.defTime s₀ := ih horder.init hbefore hs₀
      have hr := h₀.release sorter le_rfl
      rw [place] at hplace
      obtain ⟨⟨offset, rest⟩, hfit, rfl⟩ := Option.map_eq_some_iff.mp hplace
      exact (hr.assign horder.value_new horder.op_new horder.size_last hfit).mono
        (hnow iv (by simp))

end CrossMachine.Compiler
