import CrossMachine.Lib.Arena
import CrossMachine.Lib.Bits
import CrossMachine.Lib.Links
import CrossMachine.Lib.Memory
import Mathlib.Data.List.Pairwise
import Mathlib.Logic.Function.Basic

/-!
# The arena with size classes

`Arena` and `SizeClassedArena` of `arena.h`. An arena hands out a slab from one end to the
other; on top of it, blocks of eight sizes are recycled through a free list for each size,
linked by pointers that lie in the free blocks themselves. A larger block comes from the arena
and is only taken back by `reset`.

Addresses are natural numbers, and nothing wraps. Between the calls the client writes what it
likes into the blocks it has (`Call.write`). That nothing else touches the links of a free
list is what the invariant is about: every block is apart from all others, whether it is live
or free, and the class found for a block when it is freed is the one that its size was rounded
up to when it was allocated.
-/

namespace CrossMachine.Alloc.Slab

open Lib

structure Arena where
  /-- `base_`. -/
  base : Nat
  /-- `cursor_`. -/
  cursor : Nat
  /-- `end_`. -/
  stop : Nat
  deriving DecidableEq, Repr

namespace Arena

/-- The arena on the slab that `mmap` returned, or null. -/
def create (base capacity : Nat) : Arena :=
  ⟨base, base, if base ≠ 0 then base + capacity else 0⟩

/-- `(p + align - 1) & ~(align - 1)`. -/
def alignUp (p align : Nat) : Nat := Nat.ldiff (p + align - 1) (align - 1)

def alloc (a : Arena) (size align : Nat) : Nat × Arena :=
  let p := alignUp a.cursor align
  if p + size > a.stop then (0, a) else (p, { a with cursor := p + size })

def reset (a : Arena) : Arena := { a with cursor := a.base }

end Arena

/-! ## Size classes -/

/-- `alignof(std::max_align_t)`. -/
def kMaxAlign : Nat := 16

def kMaxClass : Nat := 1024

def kNumClasses : Nat := 8

def kSizes : List Nat := [8, 16, 32, 64, 128, 256, 512, 1024]

/-- `std::bit_ceil`. -/
def bitCeil (n : Nat) : Nat := if n ≤ 1 then 1 else 2 ^ ((n - 1).log2 + 1)

/-- `__builtin_ctzl`, on a word of `width` bits. -/
def ctzl : Nat → Nat → Nat
  | 0, _ => 0
  | width + 1, n => if n % 2 = 1 then 0 else ctzl width (n / 2) + 1

/-- `class_index`; `none` is -1. -/
def classIndex (n : Nat) : Option Nat :=
  if n > kMaxClass then none else some (ctzl 64 (bitCeil (max n 8)) - 3)

/-- `kSizes[idx]`. -/
def sizeOfClass (idx : Nat) : Nat := kSizes.getD idx 0

def classSize (n : Nat) : Nat :=
  match classIndex n with
  | some idx => sizeOfClass idx
  | none => n

/-! ## The allocator -/

/-- The allocator, and the memory that it shares with its clients. -/
structure SizeClassedArena where
  arena : Arena
  /-- `free_`. -/
  free : Nat → Nat
  mem : Memory

/-- `node->next`. -/
def next (mem : Memory) (node : Nat) : Nat := mem.load node 8

namespace SizeClassedArena

def alloc (s : SizeClassedArena) (size : Nat) : Nat × SizeClassedArena :=
  if size = 0 then (0, s)
  else match classIndex size with
    | none =>
        let (p, arena) := s.arena.alloc size kMaxAlign
        (p, { s with arena := arena })
    | some idx =>
        let node := s.free idx
        if node ≠ 0 then
          (node, { s with free := Function.update s.free idx (next s.mem node) })
        else
          let (p, arena) := s.arena.alloc (sizeOfClass idx) (sizeOfClass idx)
          (p, { s with arena := arena })

/-- `free`. -/
def release (s : SizeClassedArena) (ptr size : Nat) : SizeClassedArena :=
  if ptr = 0 ∨ size = 0 then s
  else match classIndex size with
    | none => s
    | some idx =>
        { s with
          mem := s.mem.store ptr 8 (s.free idx)
          free := Function.update s.free idx ptr }

/-- `reset`. Pages that are released read as zero afterwards. -/
def reset (s : SizeClassedArena) (releasePages : Bool) : SizeClassedArena where
  arena := s.arena.reset
  free := fun _ => 0
  mem := if releasePages then
      fun a => if s.arena.base ≤ a ∧ a < s.arena.stop then 0 else s.mem a
    else s.mem

end SizeClassedArena

/-! ## Clients -/

/-- A block as its client knows it: where it is, and the size that was asked for. -/
structure Block where
  ptr : Nat
  size : Nat
  deriving DecidableEq, Repr

/-- The bytes of a block. -/
def Block.extent (b : Block) : Extent := ⟨b.ptr, classSize b.size⟩

/-- What a block is aligned to. -/
def Block.align (b : Block) : Nat :=
  match classIndex b.size with
  | some idx => sizeOfClass idx
  | none => kMaxAlign

structure State where
  heap : SizeClassedArena
  /-- The blocks that are allocated and not freed. -/
  live : List Block
  /-- All blocks that were allocated since the last reset. -/
  given : List Block

inductive Call where
  | alloc (size : Nat)
  | free (b : Block)
  | reset (releasePages : Bool)
  /-- The client stores a byte. -/
  | write (a : Nat) (byte : UInt8)
  deriving DecidableEq

def State.init (base capacity : Nat) (mem : Memory) : State :=
  ⟨⟨Arena.create base capacity, fun _ => 0, mem⟩, [], []⟩

/-- A call, by a client that frees what is live, with the size that it asked for, and writes
nowhere but in live blocks. -/
def step (s : State) : Call → Option State
  | .alloc size =>
      let (p, heap) := s.heap.alloc size
      if p = 0 then some { s with heap := heap }
      else some ⟨heap, ⟨p, size⟩ :: s.live, ⟨p, size⟩ :: s.given⟩
  | .free b =>
      if b ∈ s.live then
        some { s with heap := s.heap.release b.ptr b.size, live := s.live.erase b }
      else none
  | .reset releasePages => some ⟨s.heap.reset releasePages, [], []⟩
  | .write a byte =>
      if ∃ b ∈ s.live, b.extent.Holds a then
        some { s with heap := { s.heap with mem := Function.update s.heap.mem a byte } }
      else none

/-- A sequence of calls. -/
def run (s : State) (cs : List Call) : Option State := cs.foldlM step s

/-! ## Size classes round up -/

theorem le_bitCeil (n : Nat) : n ≤ bitCeil n := by
  unfold bitCeil
  split
  · assumption
  · have := Nat.lt_log2_self (n := n - 1)
    omega

theorem ctzl_two_pow {width k : Nat} (h : k < width) : ctzl width (2 ^ k) = k := by
  induction width generalizing k with
  | zero => omega
  | succ width ih =>
      cases k with
      | zero => rfl
      | succ k =>
          have heven : 2 ^ (k + 1) % 2 ≠ 1 := by
            rw [two_pow_succ]
            omega
          rw [ctzl, if_neg heven, two_pow_succ, Nat.mul_div_cancel_left _ Nat.two_pos,
            ih (by omega)]

variable {idx n : Nat} {s' : State}

theorem sizeOfClass_eq (h : idx < kNumClasses) : sizeOfClass idx = 2 ^ (idx + 3) := by
  have hall : ∀ idx < kNumClasses, sizeOfClass idx = 2 ^ (idx + 3) := by decide
  exact hall idx h

/-- The class of a size is one of the eight, and its blocks are large enough. -/
theorem classIndex_spec (h : classIndex n = some idx) :
    idx < kNumClasses ∧ n ≤ sizeOfClass idx := by
  unfold classIndex at h
  split at h
  · exact absurd h (by simp)
  · rename_i hle
    obtain ⟨k, hk, hlo, hhi⟩ : ∃ k, bitCeil (max n 8) = 2 ^ k ∧ 3 ≤ k ∧ k < 11 := by
      have hgt : ¬ max n 8 ≤ 1 := by omega
      have hbound : max n 8 - 1 < 2 ^ 10 := by
        unfold kMaxClass at hle
        omega
      refine ⟨(max n 8 - 1).log2 + 1, by rw [bitCeil, if_neg hgt], ?_, ?_⟩
      · have := (Nat.le_log2 (k := 2) (by omega : max n 8 - 1 ≠ 0)).mpr (by omega)
        omega
      · have := (Nat.log2_lt (by omega : max n 8 - 1 ≠ 0)).mpr hbound
        omega
    have hceil := le_bitCeil (max n 8)
    rw [hk, ctzl_two_pow (by omega), Option.some.injEq] at h
    subst h
    have hclass : k - 3 < kNumClasses := by
      unfold kNumClasses
      omega
    rw [sizeOfClass_eq hclass, Nat.sub_add_cancel hlo]
    exact ⟨hclass, by omega⟩

theorem le_classSize (n : Nat) : n ≤ classSize n := by
  unfold classSize
  split
  · rename_i h
    exact (classIndex_spec h).2
  · exact Nat.le_refl n

theorem classSize_of_index (h : classIndex n = some idx) : classSize n = sizeOfClass idx := by
  rw [classSize, h]

/-- A link fits in a block of any class. -/
theorem eight_le_sizeOfClass (h : idx < kNumClasses) : 8 ≤ sizeOfClass idx := by
  rw [sizeOfClass_eq h, pow_add]
  exact Nat.le_mul_of_pos_left _ (Nat.two_pow_pos idx)

theorem align_pow (b : Block) : ∃ k, b.align = 2 ^ k := by
  unfold Block.align
  split
  · rename_i idx h
    exact ⟨idx + 3, sizeOfClass_eq (classIndex_spec h).1⟩
  · exact ⟨4, rfl⟩

theorem Arena.alloc_spec (a : Arena) (size : Nat) {align k : Nat} (halign : align = 2 ^ k) :
    a.alloc size align = (0, a) ∨
    ∃ p, a.alloc size align = (p, { a with cursor := p + size }) ∧ a.cursor ≤ p ∧ align ∣ p ∧
      p + size ≤ a.stop := by
  subst halign
  have hpow := Nat.two_pow_pos k
  have hup : alignUp a.cursor (2 ^ k) = 2 ^ k * ((a.cursor + 2 ^ k - 1) / 2 ^ k) :=
    ldiff_two_pow_pred _ k
  have hle : a.cursor ≤ alignUp a.cursor (2 ^ k) := by
    have hmod := Nat.div_add_mod (a.cursor + 2 ^ k - 1) (2 ^ k)
    have hlt := Nat.mod_lt (a.cursor + 2 ^ k - 1) hpow
    omega
  unfold alloc
  by_cases hfull : alignUp a.cursor (2 ^ k) + size > a.stop
  · exact .inl (if_pos hfull)
  · exact .inr ⟨_, if_neg hfull, hle, hup ▸ Nat.dvd_mul_right _ _, by omega⟩

/-! ## The invariant -/

/-- A block lies between the start of the slab and the cursor, aligned. -/
structure Placed (a : Arena) (b : Block) : Prop where
  size_pos : 0 < b.size
  base_le : a.base ≤ b.ptr
  le_cursor : b.ptr + classSize b.size ≤ a.cursor
  aligned : b.align ∣ b.ptr

/-- The free blocks of a class, as a list of nodes. -/
def ofClass (idx : Nat) (freed : List Block) : List Nat :=
  (freed.filter fun b => classIndex b.size = some idx).map Block.ptr

/-- The slab is that between `base` and `stop`, and `freed` are the blocks on the free lists, the
last one freed first. -/
structure Inv (base stop : Nat) (s : State) (freed : List Block) : Prop where
  base_eq : s.heap.arena.base = base
  stop_eq : s.heap.arena.stop = stop
  base_le : s.heap.arena.base ≤ s.heap.arena.cursor
  le_stop : s.heap.arena.cursor ≤ s.heap.arena.stop
  null : s.heap.arena.base = 0 → s.heap.arena.stop = 0
  stop_le : s.heap.arena.stop ≤ 256 ^ 8
  placed : ∀ b ∈ s.live ++ freed, Placed s.heap.arena b
  apart : ((s.live ++ freed).map Block.extent).Pairwise Extent.Apart
  given : ∀ b ∈ s.live ++ freed, b ∈ s.given
  links : ∀ idx, Links (next s.heap.mem) 0 (s.heap.free idx) (ofClass idx freed)

section Step

variable {base stop : Nat} {s : State} {freed : List Block}

variable {b : Block}

theorem Inv.live_apart (h : Inv base stop s freed) {c : Block} (hb : b ∈ s.live) (hc : c ∈ freed) :
    b.extent.Apart c.extent := by
  have hpair := h.apart
  rw [List.map_append, List.pairwise_append] at hpair
  exact hpair.2.2 _ (List.mem_map_of_mem hb) _ (List.mem_map_of_mem hc)

/-- No block lies at address zero. -/
theorem Inv.ptr_pos (h : Inv base stop s freed) (hb : b ∈ s.live ++ freed) : 0 < b.ptr := by
  have hplaced := h.placed b hb
  have hbase : s.heap.arena.base ≠ 0 := fun hzero => by
    have := h.null hzero
    have := h.le_stop
    have := hplaced.le_cursor
    have := hplaced.size_pos
    have := le_classSize b.size
    omega
  have := hplaced.base_le
  omega

theorem mem_ofClass {x : Nat} :
    x ∈ ofClass idx freed ↔ ∃ b ∈ freed, classIndex b.size = some idx ∧ b.ptr = x := by
  simp [ofClass, and_assoc]

/-- The lists are as they were when the bytes of the free blocks are. -/
theorem Inv.links_frame (h : Inv base stop s freed) {mem : Memory}
    (hsame : ∀ c ∈ freed, ∀ a : Nat, c.extent.Holds a → mem a = s.heap.mem a) (idx : Nat) :
    Links (next mem) 0 (s.heap.free idx) (ofClass idx freed) := by
  refine (h.links idx).congr fun x hx => ?_
  obtain ⟨c, hc, hclass, rfl⟩ := mem_ofClass.mp hx
  refine Memory.load_congr fun a ha hlt => hsame c hc a ?_
  have height := eight_le_sizeOfClass (classIndex_spec hclass).1
  rw [← classSize_of_index hclass] at height
  simp only [Extent.Holds, Block.extent]
  omega

/-- A new block, behind the cursor. -/
theorem Inv.bump (h : Inv base stop s freed) (hsize : 0 < b.size)
    (hcursor : s.heap.arena.cursor ≤ b.ptr) (haligned : b.align ∣ b.ptr)
    (hstop : b.ptr + classSize b.size ≤ s.heap.arena.stop) :
    Inv base stop
      ⟨{ s.heap with arena := { s.heap.arena with cursor := b.ptr + classSize b.size } },
        b :: s.live, b :: s.given⟩ freed := by
  have hbase := h.base_le
  refine
    { base_eq := h.base_eq
      stop_eq := h.stop_eq
      base_le := by simp only; omega
      le_stop := hstop
      null := h.null
      stop_le := h.stop_le
      placed := fun c hc => ?placed
      apart := List.pairwise_cons.mpr ⟨fun e he => ?apart, h.apart⟩
      given := fun c hc => ?given
      links := h.links }
  case placed =>
    rcases List.mem_cons.mp hc with rfl | hc
    · exact ⟨hsize, by simp only; omega, Nat.le_refl _, haligned⟩
    · obtain ⟨hpos, hlo, hhi, halign⟩ := h.placed c hc
      exact ⟨hpos, hlo, by simp only; omega, halign⟩
  case apart =>
    obtain ⟨c, hc, rfl⟩ := List.mem_map.mp he
    have hhi := (h.placed c hc).le_cursor
    intro a
    simp only [Extent.Holds, Block.extent]
    omega
  case given =>
    rcases List.mem_cons.mp hc with rfl | hc
    · exact List.mem_cons_self
    · exact List.mem_cons_of_mem _ (h.given c hc)

/-- The first block of a free list, used again. -/
theorem Inv.recycle (h : Inv base stop s freed) (hn : 0 < n) (hclass : classIndex n = some idx)
    (hnode : s.heap.free idx ≠ 0) : ∃ freed', Inv base stop
      ⟨{ s.heap with free :=
          Function.update s.heap.free idx (next s.heap.mem (s.heap.free idx)) },
        ⟨s.heap.free idx, n⟩ :: s.live, ⟨s.heap.free idx, n⟩ :: s.given⟩ freed' := by
  obtain ⟨nodes, hnodes, hrest⟩ := (h.links idx).exists_cons hnode
  obtain ⟨b, ys, hfilter, hptr, hys⟩ := List.map_eq_cons_iff.mp hnodes
  obtain ⟨pre, post, rfl, hpre, hb, hpost⟩ := List.filter_eq_cons_iff.mp hfilter
  have hb : classIndex b.size = some idx := by simpa using hb
  rw [← hptr] at hrest ⊢
  have hextent : (Block.mk b.ptr n).extent = b.extent := by
    rw [Block.extent, Block.extent, classSize_of_index hclass, classSize_of_index hb]
  have halign : (Block.mk b.ptr n).align = b.align := by
    simp only [Block.align, hclass, hb]
  have hperm : (s.live ++ (pre ++ b :: post)).Perm (b :: s.live ++ (pre ++ post)) := by
    rw [← List.append_assoc, List.cons_append, ← List.append_assoc]
    exact List.perm_middle
  have hmem : ∀ c ∈ Block.mk b.ptr n :: s.live ++ (pre ++ post), c = ⟨b.ptr, n⟩ ∨
      c ∈ s.live ++ (pre ++ b :: post) := by
    intro c hc
    rcases List.mem_cons.mp hc with rfl | hc
    · exact .inl rfl
    · exact .inr (hperm.mem_iff.mpr (List.mem_cons_of_mem _ hc))
  have hplaced : Placed s.heap.arena b := h.placed b (by simp)
  refine ⟨pre ++ post,
    { base_eq := h.base_eq
      stop_eq := h.stop_eq
      base_le := h.base_le
      le_stop := h.le_stop
      null := h.null
      stop_le := h.stop_le
      placed := fun c hc => ?placed
      apart := ?apart
      given := fun c hc => ?given
      links := fun idx' => ?links }⟩
  case placed =>
    rcases hmem c hc with rfl | hc
    · have hsame : classSize n = classSize b.size := by
        rw [classSize_of_index hclass, classSize_of_index hb]
      exact ⟨hn, hplaced.base_le, by simpa only [hsame] using hplaced.le_cursor,
        halign ▸ hplaced.aligned⟩
    · exact h.placed c hc
  case apart =>
    have hpair := (hperm.map Block.extent).pairwise_iff (fun hab => Extent.Apart.symm hab) |>.mp
      h.apart
    rw [List.cons_append, List.map_cons, hextent]
    exact hpair
  case given =>
    rcases hmem c hc with rfl | hc
    · exact List.mem_cons_self
    · exact List.mem_cons_of_mem _ (h.given c hc)
  case links =>
    by_cases hidx : idx' = idx
    · subst hidx
      have hprenil : pre.filter (fun c => classIndex c.size = some idx') = [] :=
        List.filter_eq_nil_iff.mpr hpre
      simp only [Function.update_self, ofClass, List.filter_append, hprenil, hpost,
        List.nil_append, hys]
      exact hrest
    · have hsame : ofClass idx' (pre ++ post) = ofClass idx' (pre ++ b :: post) := by
        have hne : ¬ classIndex b.size = some idx' := fun h => hidx (by
          rw [hb] at h
          exact (Option.some.inj h).symm)
        simp [ofClass, hne]
      simp only [Function.update_of_ne hidx, hsame]
      exact h.links idx'

/-- What becomes of a request that goes to the slab. -/
theorem Inv.carve (h : Inv base stop s freed) {size : Nat} (hsize : 0 < size) {r : Nat × Arena}
    (hr : s.heap.arena.alloc (classSize size) (Block.mk 0 size).align = r)
    (hs : (if r.1 = 0 then some { s with heap := { s.heap with arena := r.2 } }
      else some ⟨{ s.heap with arena := r.2 }, ⟨r.1, size⟩ :: s.live, ⟨r.1, size⟩ :: s.given⟩) =
        some s') : ∃ freed', Inv base stop s' freed' := by
  obtain ⟨k, hk⟩ := align_pow ⟨0, size⟩
  rcases s.heap.arena.alloc_spec (classSize size) hk with hfull | ⟨p, hp, hcursor, halign, hstop⟩
  · rw [← hr, hfull, if_pos rfl] at hs
    obtain rfl := Option.some.inj hs
    exact ⟨freed, h⟩
  · -- the null pointer is not in the slab
    have hne : p ≠ 0 := fun hzero => by
      have := h.null (by have := h.base_le; omega)
      have := le_classSize size
      omega
    rw [← hr, hp, if_neg hne] at hs
    obtain rfl := Option.some.inj hs
    exact ⟨freed, h.bump (b := ⟨p, size⟩) hsize hcursor halign hstop⟩

theorem inv_alloc (h : Inv base stop s freed) {size : Nat} (hs : step s (.alloc size) = some s') :
    ∃ freed', Inv base stop s' freed' := by
  rw [step, SizeClassedArena.alloc] at hs
  by_cases hzero : size = 0
  · rw [if_pos hzero] at hs
    obtain rfl := Option.some.inj hs
    exact ⟨freed, h⟩
  rw [if_neg hzero] at hs
  have hsize : 0 < size := Nat.pos_of_ne_zero hzero
  cases hclass : classIndex size with
  | none =>
      have halign : (Block.mk 0 size).align = kMaxAlign := by simp only [Block.align, hclass]
      have hlen : classSize size = size := by simp only [classSize, hclass]
      rw [hclass] at hs
      exact h.carve (r := s.heap.arena.alloc size kMaxAlign) hsize (by rw [halign, hlen]) hs
  | some idx =>
      have halign : (Block.mk 0 size).align = sizeOfClass idx := by
        simp only [Block.align, hclass]
      rw [hclass] at hs
      by_cases hnode : s.heap.free idx = 0
      · simp only [hnode, ne_eq, not_true_eq_false, if_false] at hs
        exact h.carve (r := s.heap.arena.alloc (sizeOfClass idx) (sizeOfClass idx)) hsize
          (by rw [halign, classSize_of_index hclass]) hs
      · simp only [ne_eq, hnode, not_false_eq_true, if_true, if_false] at hs
        obtain rfl := Option.some.inj hs
        exact h.recycle hsize hclass hnode

/-- A link fits in its eight bytes. -/
theorem Inv.free_lt (h : Inv base stop s freed) (idx : Nat) : s.heap.free idx < 256 ^ 8 := by
  by_cases hnode : s.heap.free idx = 0
  · rw [hnode]
    decide
  · obtain ⟨nodes, hnodes, -⟩ := (h.links idx).exists_cons hnode
    obtain ⟨b, hb, -, hptr⟩ := mem_ofClass.mp (hnodes ▸ List.mem_cons_self)
    have hplaced := h.placed b (List.mem_append_right _ hb)
    have := hplaced.size_pos
    have := hplaced.le_cursor
    have := le_classSize b.size
    have := h.le_stop
    have := h.stop_le
    omega

theorem inv_free (h : Inv base stop s freed) (hs : step s (.free b) = some s') :
    ∃ freed', Inv base stop s' freed' := by
  rw [step] at hs
  split at hs
  · rename_i hlive
    obtain rfl := Option.some.inj hs
    have hmem : ∀ {c}, c ∈ s.live.erase b ++ freed → c ∈ s.live ++ freed := fun hc =>
      (List.mem_append.mp hc).elim (fun hc => List.mem_append_left _ (List.mem_of_mem_erase hc))
        fun hc => List.mem_append_right _ hc
    have hptr : b.ptr ≠ 0 := Nat.ne_of_gt (h.ptr_pos (List.mem_append_left _ hlive))
    have hsize : b.size ≠ 0 :=
      Nat.ne_of_gt (h.placed b (List.mem_append_left _ hlive)).size_pos
    unfold SizeClassedArena.release
    rw [if_neg (by simp [hptr, hsize])]
    cases hclass : classIndex b.size with
    | none =>
        refine ⟨freed,
          { h with
            placed := fun c hc => h.placed c (hmem hc)
            apart := h.apart.sublist (.map _ (.append List.erase_sublist (.refl _)))
            given := fun c hc => h.given c (hmem hc) }⟩
    | some idx =>
        have hperm : (s.live.erase b ++ b :: freed).Perm (s.live ++ freed) :=
          List.perm_middle.trans (.append_right freed (List.perm_cons_erase hlive).symm)
        have height := eight_le_sizeOfClass (classIndex_spec hclass).1
        rw [← classSize_of_index hclass] at height
        -- the links of the other free blocks are not touched
        have hframe : ∀ c ∈ freed, ∀ a : Nat, c.extent.Holds a →
            s.heap.mem.store b.ptr 8 (s.heap.free idx) a = s.heap.mem a := by
          intro c hc a ha
          refine if_neg fun hin => h.live_apart hlive hc a ⟨?_, ha⟩
          simp only [Extent.Holds, Block.extent]
          omega
        have hold := h.links_frame hframe
        have hnext : next (s.heap.mem.store b.ptr 8 (s.heap.free idx)) b.ptr = s.heap.free idx :=
          Memory.load_store_self (h.free_lt idx)
        refine ⟨b :: freed,
          { base_eq := h.base_eq
            stop_eq := h.stop_eq
            base_le := h.base_le
            le_stop := h.le_stop
            null := h.null
            stop_le := h.stop_le
            placed := fun c hc => h.placed c (hperm.mem_iff.mp hc)
            apart := ((hperm.map Block.extent).pairwise_iff
              (fun hab => Extent.Apart.symm hab)).mpr h.apart
            given := fun c hc => h.given c (hperm.mem_iff.mp hc)
            links := fun idx' => ?_ }⟩
        by_cases hidx : idx' = idx
        · subst hidx
          have hcons : ofClass idx' (b :: freed) = b.ptr :: ofClass idx' freed := by
            simp [ofClass, hclass]
          simp only [Function.update_self, hcons]
          refine Links.push ?_ hptr
          rw [hnext]
          exact hold idx'
        · have hsame : ofClass idx' (b :: freed) = ofClass idx' freed := by
            simp [ofClass, hclass, Ne.symm hidx]
          simp only [Function.update_of_ne hidx, hsame]
          exact hold idx'
  · exact absurd hs (by simp)

theorem inv_reset (h : Inv base stop s freed) {releasePages : Bool}
    (hs : step s (.reset releasePages) = some s') : ∃ freed', Inv base stop s' freed' := by
  obtain rfl := Option.some.inj hs
  exact ⟨[],
    { base_eq := h.base_eq
      stop_eq := h.stop_eq
      base_le := Nat.le_refl _
      le_stop := h.base_le.trans h.le_stop
      null := h.null
      stop_le := h.stop_le
      placed := fun b hb => absurd hb List.not_mem_nil
      apart := .nil
      given := fun b hb => absurd hb List.not_mem_nil
      links := fun idx => rfl }⟩

theorem inv_write (h : Inv base stop s freed) {a : Nat} {byte : UInt8}
    (hs : step s (.write a byte) = some s') : ∃ freed', Inv base stop s' freed' := by
  rw [step] at hs
  split at hs
  · rename_i hin
    obtain ⟨b, hb, hholds⟩ := hin
    obtain rfl := Option.some.inj hs
    refine ⟨freed, { h with links := h.links_frame fun c hc a' ha' => ?_ }⟩
    refine Function.update_of_ne (fun heq => ?_) _ _
    subst heq
    exact h.live_apart hb hc a' ⟨hholds, ha'⟩
  · exact absurd hs (by simp)

end Step

/-- The run lemma. -/
theorem inv_run {base stop : Nat} {s : State} {freed : List Block} {cs : List Call}
    (h : Inv base stop s freed) (hs : run s cs = some s') : ∃ freed', Inv base stop s' freed' := by
  induction cs generalizing s freed with
  | nil =>
      obtain rfl : s = s' := by simpa [run] using hs
      exact ⟨freed, h⟩
  | cons c cs ih =>
      rw [run, List.foldlM_cons, Option.bind_eq_bind, Option.bind_eq_some_iff] at hs
      obtain ⟨s₁, hc, hcs⟩ := hs
      obtain ⟨freed₁, h₁⟩ : ∃ freed', Inv base stop s₁ freed' := by
        cases c with
        | alloc size => exact inv_alloc h hc
        | free b => exact inv_free h hc
        | reset releasePages => exact inv_reset h hc
        | write a byte => exact inv_write h hc
      exact ih h₁ hcs

theorem inv_init {base capacity : Nat} (hfit : base + capacity ≤ 256 ^ 8) (mem : Memory) :
    Inv base (Arena.create base capacity).stop (State.init base capacity mem) [] where
  base_eq := rfl
  stop_eq := rfl
  base_le := Nat.le_refl _
  le_stop := by
    simp only [State.init, Arena.create]
    split <;> omega
  null hzero := by
    simp only [State.init, Arena.create] at hzero ⊢
    simp [hzero]
  stop_le := by
    simp only [State.init, Arena.create]
    split
    · exact hfit
    · exact Nat.zero_le _
  placed b hb := absurd hb List.not_mem_nil
  apart := .nil
  given b hb := absurd hb List.not_mem_nil
  links _ := rfl

/-- **The allocator keeps its blocks apart**: after any calls, the live blocks are disjoint,
each in the slab, as large as was asked for and aligned; and every free list ends, has no node
twice, and consists of blocks of its class, which are apart from the live ones. -/
theorem blocks_apart {base capacity : Nat} (hfit : base + capacity ≤ 2 ^ 64) {mem : Memory}
    {cs : List Call} {s : State} (hs : run (State.init base capacity mem) cs = some s) :
    s.live.Pairwise (fun b c => b.extent.Apart c.extent) ∧
    (∀ b ∈ s.live, base ≤ b.ptr ∧ b.ptr + classSize b.size ≤ base + capacity ∧
      b.size ≤ classSize b.size ∧ b.align ∣ b.ptr) ∧
    ∀ idx < kNumClasses, ∃ nodes, Links (next s.heap.mem) 0 (s.heap.free idx) nodes ∧
      nodes.Nodup ∧ ∀ x ∈ nodes, ∃ b ∈ s.given, b.ptr = x ∧ classIndex b.size = some idx ∧
        ∀ c ∈ s.live, c.extent.Apart b.extent := by
  obtain ⟨freed, h⟩ := inv_run (inv_init (by omega) mem) hs
  have hstop : s.heap.arena.stop ≤ base + capacity := by
    rw [h.stop_eq, Arena.create]
    simp only
    split <;> omega
  have hpair := h.apart
  rw [List.map_append, List.pairwise_append] at hpair
  refine ⟨List.pairwise_map.mp hpair.1, fun b hb => ?_, fun idx _ => ?_⟩
  · have hplaced := h.placed b (List.mem_append_left _ hb)
    have hhi := hplaced.le_cursor.trans (h.le_stop.trans hstop)
    exact ⟨h.base_eq ▸ hplaced.base_le, hhi, le_classSize b.size, hplaced.aligned⟩
  · refine ⟨ofClass idx freed, h.links idx, (h.links idx).nodup, fun x hx => ?_⟩
    obtain ⟨b, hb, hclass, hptr⟩ := mem_ofClass.mp hx
    exact ⟨b, h.given b (List.mem_append_right _ hb), hptr, hclass,
      fun c hc => h.live_apart hc hb⟩

/-- A small block and a large one are allocated, the small one is freed, and its neighbour has
been given out again. -/
theorem blocks_apart_recycled : ∃ s, run (State.init 4096 4096 fun _ => 0)
      [.alloc 9, .alloc 2000, .alloc 16, .free ⟨4096, 9⟩, .write 6112 7, .alloc 10] = some s ∧
    s.live = [⟨4096, 10⟩, ⟨6112, 16⟩, ⟨4112, 2000⟩] ∧
    s.live.Pairwise (fun b c => b.extent.Apart c.extent) := by
  have hrun : (run (State.init 4096 4096 fun _ => 0)
      [.alloc 9, .alloc 2000, .alloc 16, .free ⟨4096, 9⟩, .write 6112 7, .alloc 10]).map
        State.live = some [⟨4096, 10⟩, ⟨6112, 16⟩, ⟨4112, 2000⟩] := by decide +kernel
  obtain ⟨s, hs, hlive⟩ := Option.map_eq_some_iff.mp hrun
  exact ⟨s, hs, hlive, (blocks_apart (by decide) hs).1⟩

end CrossMachine.Alloc.Slab
