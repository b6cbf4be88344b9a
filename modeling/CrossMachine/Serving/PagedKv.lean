import CrossMachine.Lib.CInt
import CrossMachine.Lib.Table
import Mathlib.Data.List.Perm.Basic
import Mathlib.Tactic.Cases

/-!
# The paged KV cache

`PagedKVCache` gives every sequence the blocks its tokens need, from one pool of physical
blocks. The pool is a stack of free block ids, and a sequence has a table of the blocks it
owns and the number of its tokens. A token that starts a new block takes one from the pool,
and freeing a sequence puts all of its blocks back.

`Accounted` is the bookkeeping: every block is free or in exactly one table, and a table has
as many blocks as its tokens fill. It holds of every state that any operations lead to, as long as
an `int` can count the tokens that the pool has room for. The count of a sequence that outgrows it
wraps.
-/

namespace CrossMachine.Serving

open Lib

structure BlockTable where
  physicalBlocks : List Nat
  /-- An `int`. -/
  seqLen : Int
  deriving DecidableEq, Repr

structure PagedKVCache where
  /-- `free_list_`, whose back is handed out first. -/
  freeList : List Nat
  /-- `seq_tables_` -/
  seqTables : List (Int × BlockTable)
  blockSize : Nat
  deriving DecidableEq, Repr

/-- `BlockAllocator::BlockAllocator`: block 0 is at the back. -/
def initFreeList (numBlocks : Nat) : List Nat := (List.range numBlocks).reverse

def PagedKVCache.new (blockSize maxBlocks : Nat) : PagedKVCache where
  freeList := initFreeList maxBlocks
  seqTables := []
  blockSize := blockSize

/-- `BlockAllocator::allocate`. -/
def allocate (freeList : List Nat) : Option (Nat × List Nat) :=
  freeList.getLast?.map fun id => (id, freeList.dropLast)

/-- `seq_tables_[seq_id]`, which makes an empty table for a new sequence. -/
def openTable (tables : List (Int × BlockTable)) (seqId : Int) : List (Int × BlockTable) :=
  if (tables.lookup seqId).isSome then tables else tables ++ [(seqId, ⟨[], 0⟩)]

def appendToken (c : PagedKVCache) (seqId : Int) : PagedKVCache × Bool :=
  let tables := openTable c.seqTables seqId
  let table := (tables.lookup seqId).getD ⟨[], 0⟩
  if table.physicalBlocks = [] ∨ table.seqLen.tmod c.blockSize = 0 then
    match allocate c.freeList with
    | none =>
        let tables := if table.physicalBlocks = [] ∧ table.seqLen = 0 then
          Table.remove tables seqId else tables
        ({ c with seqTables := tables }, false)
    | some (block, freeList) =>
        ({ c with
            freeList := freeList
            seqTables := Table.set tables seqId
              ⟨table.physicalBlocks ++ [block], int32 (table.seqLen + 1)⟩ }, true)
  else
    ({ c with
        seqTables := Table.set tables seqId
          { table with seqLen := int32 (table.seqLen + 1) } }, true)

def freeSequence (c : PagedKVCache) (seqId : Int) : PagedKVCache :=
  match c.seqTables.lookup seqId with
  | none => c
  | some table =>
      { c with
        freeList := c.freeList ++ table.physicalBlocks
        seqTables := Table.remove c.seqTables seqId }

def getBlockTable (c : PagedKVCache) (seqId : Int) : Option BlockTable := c.seqTables.lookup seqId

/-- The public operations; the queries change nothing. -/
inductive Call
  | appendToken (seqId : Int)
  | freeSequence (seqId : Int)
  | getBlockTable (seqId : Int)
  | numFreeBlocks
  | blockSize
  | bytesPerBlock
  deriving DecidableEq, Repr

def perform (c : PagedKVCache) : Call → PagedKVCache
  | .appendToken seqId => (appendToken c seqId).1
  | .freeSequence seqId => freeSequence c seqId
  | .getBlockTable _ | .numFreeBlocks | .blockSize | .bytesPerBlock => c

/-! ## Accounting -/

/-- The blocks that so many tokens fill. -/
def blocksFor (blockSize tokens : Nat) : Nat := (tokens + blockSize - 1) / blockSize

/-- The table of so many tokens. -/
def BlockTable.Holds (table : BlockTable) (blockSize tokens : Nat) : Prop :=
  0 < tokens ∧ table.seqLen = tokens ∧ table.physicalBlocks.length = blocksFor blockSize tokens

structure Accounted (maxBlocks : Nat) (c : PagedKVCache) : Prop where
  keys : (Table.keys c.seqTables).Nodup
  blocks : (c.freeList ++ c.seqTables.flatMap fun e => e.2.physicalBlocks).Perm
    (List.range maxBlocks)
  lengths : ∀ e ∈ c.seqTables, ∃ tokens, e.2.Holds c.blockSize tokens

variable {c : PagedKVCache} {maxBlocks blockSize n : Nat} {seqId : Int} {table : BlockTable}

/-- A token at the start of a block needs one block more. -/
theorem blocksFor_succ_full (hpos : 0 < blockSize) (hfull : n % blockSize = 0) :
    blocksFor blockSize (n + 1) = blocksFor blockSize n + 1 := by
  obtain ⟨q, rfl⟩ := Nat.dvd_of_mod_eq_zero hfull
  have hnew : blockSize * q + 1 + blockSize - 1 = blockSize * (q + 1) := by
    rw [Nat.mul_succ]
    omega
  have hold : (blockSize * q + blockSize - 1) / blockSize = q := by
    rw [Nat.add_sub_assoc hpos, Nat.mul_add_div hpos, Nat.div_eq_of_lt (by omega)]
    rfl
  rw [blocksFor, blocksFor, hnew, Nat.mul_div_cancel_left _ hpos, hold]

/-- A token inside of a block needs none. -/
theorem blocksFor_succ (hpos : 0 < blockSize) (hroom : n % blockSize ≠ 0) :
    blocksFor blockSize (n + 1) = blocksFor blockSize n := by
  have hdiv := Nat.div_add_mod n blockSize
  have hlt := Nat.mod_lt n hpos
  have hblocks : ∀ r, 0 < r → r ≤ blockSize →
      (blockSize * (n / blockSize) + r + blockSize - 1) / blockSize = n / blockSize + 1 := by
    intro r hr hle
    rw [show blockSize * (n / blockSize) + r + blockSize - 1 =
      blockSize * (n / blockSize + 1) + (r - 1) by rw [Nat.mul_succ]; omega]
    have hsmall : (r - 1) / blockSize = 0 := Nat.div_eq_of_lt (by omega)
    rw [Nat.mul_add_div hpos, hsmall, Nat.add_zero]
  have hold := hblocks (n % blockSize) (by omega) (by omega)
  have hnew := hblocks (n % blockSize + 1) (by omega) (by omega)
  rw [blocksFor, blocksFor]
  rw [hdiv] at hold
  rw [← Nat.add_assoc, hdiv] at hnew
  rw [hold, hnew]

/-- So many blocks have room for the tokens. -/
theorem le_blocksFor (hpos : 0 < blockSize) : n ≤ blockSize * blocksFor blockSize n := by
  have hdiv := Nat.div_add_mod (n + blockSize - 1) blockSize
  have hmod := Nat.mod_lt (n + blockSize - 1) hpos
  rw [blocksFor]
  omega

theorem accounted_new : Accounted maxBlocks (PagedKVCache.new blockSize maxBlocks) where
  keys := List.nodup_nil
  blocks := by simp [PagedKVCache.new, initFreeList]
  lengths := by simp [PagedKVCache.new]

/-! ## What the operations do -/

theorem allocate_some {l free : List Nat} {block : Nat} (h : allocate l = some (block, free)) :
    l = free ++ [block] := by
  obtain ⟨id, hid, heq⟩ := Option.map_eq_some_iff.mp h
  obtain ⟨rfl, rfl⟩ := Prod.mk.inj heq
  obtain ⟨l', rfl⟩ := List.getLast?_eq_some_iff.mp hid
  rw [List.dropLast_concat]

/-- The first token of a sequence. -/
theorem appendToken_first (h : c.seqTables.lookup seqId = none) :
    appendToken c seqId = match allocate c.freeList with
      | none => (c, false)
      | some (block, freeList) =>
          ({ c with
              freeList := freeList
              seqTables := c.seqTables ++ [(seqId, ⟨[block], 1⟩)] }, true) := by
  have hkey := Table.lookup_eq_none h
  simp only [appendToken, openTable, h, Option.isSome_none, Bool.false_eq_true, if_false,
    Table.lookup_concat h, Option.getD_some, true_or, if_true, and_self,
    Table.remove_concat hkey, Table.set_concat hkey, List.nil_append]
  rfl

/-- A token of a sequence that has blocks already. -/
theorem appendToken_more (h : c.seqTables.lookup seqId = some table)
    (hblocks : table.physicalBlocks ≠ []) :
    appendToken c seqId =
      if table.seqLen.tmod c.blockSize = 0 then
        match allocate c.freeList with
        | none => (c, false)
        | some (block, freeList) =>
            ({ c with
                freeList := freeList
                seqTables := Table.set c.seqTables seqId
                  ⟨table.physicalBlocks ++ [block], int32 (table.seqLen + 1)⟩ }, true)
      else ({ c with
              seqTables := Table.set c.seqTables seqId
                { table with seqLen := int32 (table.seqLen + 1) } }, true) := by
  simp only [appendToken, openTable, h, Option.isSome_some, if_true, Option.getD_some, hblocks,
    false_or, false_and, if_false]

theorem Accounted.of_lookup (hacc : Accounted maxBlocks c) (hpos : 0 < c.blockSize)
    (h : c.seqTables.lookup seqId = some table) :
    ∃ tokens, table.Holds c.blockSize tokens ∧ table.physicalBlocks ≠ [] := by
  obtain ⟨tokens, hholds⟩ := hacc.lengths _ (Table.mem_of_lookup h)
  have hroom := le_blocksFor (n := tokens) hpos
  refine ⟨tokens, hholds, fun hnil => ?_⟩
  obtain ⟨hlen, -, hcount⟩ := hholds
  rw [← hcount, hnil, List.length_nil, Nat.mul_zero] at hroom
  omega

/-- A table and the free list have no more blocks than there are. -/
theorem Accounted.length_le (hacc : Accounted maxBlocks c)
    (h : c.seqTables.lookup seqId = some table) :
    c.freeList.length + table.physicalBlocks.length ≤ maxBlocks := by
  obtain ⟨l, l', ht, -⟩ := Table.lookup_split hacc.keys h
  have hlen := hacc.blocks.length_eq
  rw [ht] at hlen
  simp only [List.length_append, List.flatMap_append, List.flatMap_cons, List.length_range] at hlen
  omega

/-- The `int` counts one token more, if there are blocks for it. -/
theorem BlockTable.Holds.succ {tokens blocks : Nat} (h : table.Holds blockSize tokens)
    (hpos : 0 < blockSize) (hle : blocksFor blockSize (tokens + 1) ≤ maxBlocks)
    (hfits : maxBlocks * blockSize < 2 ^ 31) (hblocks : blocks = blocksFor blockSize (tokens + 1)) :
    0 < tokens + 1 ∧ int32 (table.seqLen + 1) = (tokens + 1 : Nat) ∧
      blocks = blocksFor blockSize (tokens + 1) := by
  have hroom := le_blocksFor (n := tokens + 1) hpos
  have hmul := Nat.mul_le_mul_left blockSize hle
  rw [Nat.mul_comm maxBlocks] at hfits
  refine ⟨Nat.succ_pos _, ?_, hblocks⟩
  rw [h.2.1]
  exact int32_of_nonneg (by omega) (by omega)

/-- An append that fails has found no free block and changes nothing. -/
theorem appendToken_failed (hacc : Accounted maxBlocks c) (hpos : 0 < c.blockSize)
    (h : (appendToken c seqId).2 = false) : (appendToken c seqId).1 = c := by
  cases hlook : c.seqTables.lookup seqId with
  | none =>
      rw [appendToken_first hlook] at h ⊢
      cases hall : allocate c.freeList with
      | none => rfl
      | some r => simp [hall] at h
  | some table =>
      obtain ⟨tokens, -, hne⟩ := hacc.of_lookup hpos hlook
      rw [appendToken_more hlook hne] at h ⊢
      split at h
      case isFalse => cases h
      case isTrue hfull =>
          rw [if_pos hfull]
          cases hall : allocate c.freeList with
          | none => rfl
          | some r => simp [hall] at h

/-- Another value at a key of the table. -/
theorem Accounted.set {free : List Nat} {table' : BlockTable} (hacc : Accounted maxBlocks c)
    (h : c.seqTables.lookup seqId = some table)
    (hperm : (free ++ table'.physicalBlocks).Perm (c.freeList ++ table.physicalBlocks))
    (hlen : ∃ tokens, table'.Holds c.blockSize tokens) :
    Accounted maxBlocks { c with
      freeList := free
      seqTables := Table.set c.seqTables seqId table' } := by
  obtain ⟨l, l', ht, hset, -⟩ := Table.lookup_split hacc.keys h
  have hkeys := hacc.keys
  have hblocks := hacc.blocks
  have hlengths := hacc.lengths
  rw [ht] at hkeys hblocks hlengths
  rw [hset]
  refine ⟨?_, ?_, fun e he => ?_⟩
  · simpa [Table.keys] using hkeys
  · -- the blocks of the other tables stay where they are
    refine List.Perm.trans ?_ hblocks
    simp only [List.flatMap_append, List.flatMap_cons]
    have hmove : ∀ (f b x y : List Nat), (f ++ (x ++ (b ++ y))).Perm ((f ++ b) ++ (x ++ y)) := by
      intro f b x y
      rw [List.append_assoc]
      refine List.Perm.append_left f ?_
      rw [← List.append_assoc, ← List.append_assoc]
      exact List.Perm.append_right y List.perm_append_comm
    exact (hmove _ _ _ _).trans ((hperm.append_right _).trans (hmove _ _ _ _).symm)
  · rcases List.mem_append.mp he with he | he
    · exact hlengths e (List.mem_append_left _ he)
    · rcases List.mem_cons.mp he with rfl | he
      · exact hlen
      · exact hlengths e (List.mem_append_right _ (List.mem_cons_of_mem _ he))

theorem Accounted.appendToken (hacc : Accounted maxBlocks c) (hpos : 0 < c.blockSize)
    (hfits : maxBlocks * c.blockSize < 2 ^ 31) :
    Accounted maxBlocks (Serving.appendToken c seqId).1 := by
  cases hlook : c.seqTables.lookup seqId with
  | none =>
      rw [appendToken_first hlook]
      cases hall : allocate c.freeList with
      | none => exact hacc
      | some r =>
          obtain ⟨block, free⟩ := r
          have hfree := allocate_some hall
          have hblocks := hacc.blocks
          have hkey := Table.lookup_eq_none hlook
          refine ⟨?_, ?_, fun e he => ?_⟩
          · simp only [Table.keys, List.map_append, List.map_cons, List.map_nil]
            exact List.nodup_append.mpr ⟨hacc.keys, List.nodup_singleton _, fun a ha b hb heq =>
              hkey (List.mem_singleton.mp hb ▸ heq ▸ ha)⟩
          · refine List.Perm.trans ?_ hblocks
            simp only [hfree, List.flatMap_append, List.flatMap_cons, List.flatMap_nil,
              List.append_nil, List.append_assoc]
            exact List.Perm.append_left free List.perm_append_comm
          · rcases List.mem_append.mp he with he | he
            · exact hacc.lengths e he
            · rw [List.mem_singleton.mp he]
              refine ⟨1, Nat.one_pos, rfl, ?_⟩
              show 1 = (1 + c.blockSize - 1) / c.blockSize
              rw [Nat.add_sub_cancel_left, Nat.div_self hpos]
  | some table =>
      obtain ⟨tokens, hholds, hne⟩ := hacc.of_lookup hpos hlook
      have hle := hacc.length_le hlook
      have hmod : table.seqLen.tmod c.blockSize = 0 ↔ tokens % c.blockSize = 0 := by
        rw [hholds.2.1, ← Int.ofNat_tmod, Int.natCast_eq_zero]
      rw [appendToken_more hlook hne]
      split
      case isTrue hfull =>
          cases hall : allocate c.freeList with
          | none => exact hacc
          | some r =>
              obtain ⟨block, free⟩ := r
              have hsucc := blocksFor_succ_full hpos (hmod.mp hfull)
              rw [allocate_some hall, List.length_append, hholds.2.2] at hle
              refine hacc.set hlook ?_ ⟨tokens + 1, ?_⟩
              · rw [allocate_some hall, List.append_assoc]
                exact List.Perm.append_left free List.perm_append_comm
              · refine hholds.succ hpos ?_ hfits ?_
                · rw [hsucc]
                  simp only [List.length_singleton] at hle
                  omega
                · rw [hsucc, List.length_append, hholds.2.2]
                  rfl
      case isFalse hroom =>
          have hsucc := blocksFor_succ hpos (hroom ∘ hmod.mpr)
          refine hacc.set hlook (List.Perm.refl _) ⟨tokens + 1, hholds.succ hpos ?_ hfits ?_⟩
          · rw [hsucc, ← hholds.2.2]
            omega
          · rw [hsucc, hholds.2.2]

theorem Accounted.freeSequence (hacc : Accounted maxBlocks c) :
    Accounted maxBlocks (Serving.freeSequence c seqId) := by
  rw [Serving.freeSequence]
  cases hlook : c.seqTables.lookup seqId with
  | none => exact hacc
  | some table =>
      obtain ⟨l, l', ht, -, hremove⟩ := Table.lookup_split hacc.keys hlook
      have hkeys := hacc.keys
      have hblocks := hacc.blocks
      have hlengths := hacc.lengths
      rw [ht] at hkeys hblocks hlengths
      simp only [hremove]
      refine ⟨?_, ?_, fun e he => hlengths e ?_⟩
      · simp only [Table.keys, List.map_append, List.map_cons] at hkeys ⊢
        exact (List.nodup_cons.mp (List.nodup_middle.mp hkeys)).2
      · refine List.Perm.trans ?_ hblocks
        simp only [List.flatMap_append, List.flatMap_cons, List.append_assoc]
        refine List.Perm.append_left _ ?_
        rw [← List.append_assoc, ← List.append_assoc]
        exact List.Perm.append_right _ List.perm_append_comm
      · rcases List.mem_append.mp he with he | he
        · exact List.mem_append_left _ he
        · exact List.mem_append_right _ (List.mem_cons_of_mem _ he)

theorem blockSize_perform (call : Call) : (perform c call).blockSize = c.blockSize := by
  cases call with
  | appendToken seqId =>
      simp only [perform, Serving.appendToken]
      split
      · split <;> rfl
      · rfl
  | freeSequence seqId =>
      simp only [perform, Serving.freeSequence]
      split <;> rfl
  | _ => rfl

/-- One operation, successful or not, keeps the accounting. -/
theorem Accounted.perform (hacc : Accounted maxBlocks c) (hpos : 0 < c.blockSize)
    (hfits : maxBlocks * c.blockSize < 2 ^ 31) (call : Call) :
    Accounted maxBlocks (Serving.perform c call) := by
  cases call with
  | appendToken seqId => exact hacc.appendToken hpos hfits
  | freeSequence seqId => exact hacc.freeSequence
  | _ => exact hacc

/-- Any operations keep it. -/
theorem Accounted.foldl (hacc : Accounted maxBlocks c) (hpos : 0 < c.blockSize)
    (hfits : maxBlocks * c.blockSize < 2 ^ 31) (calls : List Call) :
    Accounted maxBlocks (calls.foldl Serving.perform c) ∧
      (calls.foldl Serving.perform c).blockSize = c.blockSize := by
  induction calls generalizing c with
  | nil => exact ⟨hacc, rfl⟩
  | cons call calls ih =>
      have hsize : (Serving.perform c call).blockSize = c.blockSize := blockSize_perform call
      rw [List.foldl_cons, ← hsize]
      exact ih (hacc.perform hpos hfits call) (hsize ▸ hpos) (hsize ▸ hfits)

/-- Sequences share no block. -/
theorem Accounted.apart {seqId' : Int} {table' : BlockTable} (hacc : Accounted maxBlocks c)
    (hne : seqId ≠ seqId') (h : c.seqTables.lookup seqId = some table)
    (h' : c.seqTables.lookup seqId' = some table') :
    ∀ b ∈ table.physicalBlocks, b ∉ table'.physicalBlocks := by
  have hnodup := (List.nodup_append.mp (hacc.blocks.nodup_iff.mpr List.nodup_range)).2.1
  have hmem' := Table.mem_of_lookup h'
  obtain ⟨l, l', ht, -⟩ := Table.lookup_split hacc.keys h
  rw [ht] at hnodup hmem'
  have hother : (seqId', table') ∈ l ++ l' := by
    simp only [List.mem_append, List.mem_cons, Prod.mk.injEq] at hmem' ⊢
    tauto
  have hfront : (table.physicalBlocks ++
      (l ++ l').flatMap fun e => e.2.physicalBlocks).Nodup := by
    refine (List.Perm.nodup_iff ?_).mp hnodup
    simp only [List.flatMap_append, List.flatMap_cons]
    rw [← List.append_assoc, ← List.append_assoc]
    exact List.Perm.append_right _ List.perm_append_comm
  intro b hb hb'
  exact (List.nodup_append.mp hfront).2.2 b hb b (List.mem_flatMap.mpr ⟨_, hother, hb'⟩) rfl

/-- As long as an `int` counts the tokens there is room for, after any operations the free list
and the tables have every block exactly once, every sequence owns the blocks its tokens fill,
sequences share none, and an append that fails leaves everything as it was. -/
theorem pagedKv_accounting (maxBlocks : Nat) (hpos : 1 ≤ blockSize)
    (hfits : maxBlocks * blockSize < 2 ^ 31) (calls : List Call) :
    let c := calls.foldl perform (.new blockSize maxBlocks)
    (c.freeList ++ c.seqTables.flatMap fun e => e.2.physicalBlocks).Perm (List.range maxBlocks) ∧
      (∀ seqId table, getBlockTable c seqId = some table →
        table.physicalBlocks.length = (table.seqLen + blockSize - 1) / blockSize) ∧
      (∀ seqId seqId' table table', seqId ≠ seqId' → getBlockTable c seqId = some table →
        getBlockTable c seqId' = some table' →
        ∀ b ∈ table.physicalBlocks, b ∉ table'.physicalBlocks) ∧
      ∀ seqId, (appendToken c seqId).2 = false → (appendToken c seqId).1 = c := by
  intro c
  obtain ⟨hacc, hsize⟩ : Accounted maxBlocks c ∧ c.blockSize = blockSize :=
    accounted_new.foldl hpos hfits calls
  refine ⟨hacc.blocks, fun seqId table h => ?_,
    fun seqId seqId' table table' hne h h' => hacc.apart hne h h', fun seqId h => ?_⟩
  · obtain ⟨tokens, ⟨-, hlen, hcount⟩, -⟩ := hacc.of_lookup (hsize ▸ hpos) h
    rw [hlen, hcount, hsize, blocksFor]
    push_cast [Nat.cast_sub (by omega : 1 ≤ tokens + blockSize)]
    rfl
  · exact appendToken_failed hacc (hsize ▸ hpos) h

/-- Two sequences over three blocks of two tokens: the fourth append takes the last block,
and the fifth finds none. -/
def twoSequences : List Call :=
  [Call.appendToken 1, Call.appendToken 2, Call.appendToken 1, Call.appendToken 1,
    Call.appendToken 3]

/-- The fifth append failed, and the state is what the fourth left. -/
theorem pagedKv_accounting_two :
    let c := twoSequences.foldl perform (.new 2 3)
    c.freeList = [] ∧ (appendToken c 3).2 = false ∧ (appendToken c 3).1 = c := by
  refine ⟨by decide, by decide, ?_⟩
  exact (pagedKv_accounting 3 (by decide) (by decide) twoSequences).2.2.2 3 (by decide)

/-- So many tokens of one sequence stay in a block that is as long as an `int` can say. -/
theorem foldl_longBlock (h : n + 1 < 2 ^ 31) :
    (List.replicate (n + 1) (Call.appendToken 0)).foldl perform (.new (2 ^ 31 - 1) 2) =
      ⟨[1], [(0, ⟨[0], (n + 1 : Nat)⟩)], 2 ^ 31 - 1⟩ := by
  induction n with
  | zero => decide
  | succ n ih =>
      have hroom : ((n + 1 : Nat) : Int).tmod (2 ^ 31 - 1 : Nat) ≠ 0 := by
        rw [← Int.ofNat_tmod, Nat.mod_eq_of_lt (by omega)]
        omega
      have hcount : int32 ((n + 1 : Nat) + 1) = (n + 1 + 1 : Nat) :=
        int32_of_nonneg (by omega) (by omega)
      have hblocks : (⟨[0], (n + 1 : Nat)⟩ : BlockTable).physicalBlocks ≠ [] := by simp
      rw [List.replicate_succ', List.foldl_append, ih (by omega), List.foldl_cons, List.foldl_nil,
        perform, appendToken_more rfl hblocks, if_neg hroom, hcount]
      rfl

/-- The token after that takes the second block, and the count is `-2 ^ 31`. -/
theorem not_pagedKv_accounting :
    ¬ ∀ blockSize maxBlocks : Nat, 1 ≤ blockSize → ∀ calls : List Call, ∀ seqId table,
      getBlockTable (calls.foldl perform (.new blockSize maxBlocks)) seqId = some table →
      table.physicalBlocks.length = (table.seqLen + blockSize - 1) / blockSize := by
  intro h
  have hlast : ∀ n, n + 2 = 2 ^ 31 →
      (List.replicate (n + 2) (Call.appendToken 0)).foldl perform (.new (2 ^ 31 - 1) 2) =
        ⟨[], [(0, ⟨[0, 1], -(2 ^ 31)⟩)], 2 ^ 31 - 1⟩ := by
    intro n hn
    have hlen : n + 1 = 2 ^ 31 - 1 := by omega
    rw [List.replicate_succ', List.foldl_append, foldl_longBlock (by omega), hlen]
    decide
  have hcount := h (2 ^ 31 - 1) 2 (by omega) (List.replicate (2 ^ 31 - 2 + 2) (.appendToken 0)) 0
    ⟨[0, 1], -(2 ^ 31)⟩ (by rw [hlast _ (by omega)]; rfl)
  exact absurd hcount (by decide)

end CrossMachine.Serving
