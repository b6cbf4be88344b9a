import CrossMachine.Collectives.Ring

/-!
# Reduce-scatter and all-gather

`collectives.cpp` offers the two phases of the ring as collectives of their own, for buffers
of one slot a rank. After the first, rank `r` has the sum of slot `r + 1`, and nothing is said
about the rest of its buffer. The second puts what rank `r` contributes into slot `r + 1` on
every rank. The shift by one is the same in both.

Here the two are specified by the blocks of the buffers: a buffer is known when its slots are.
-/

namespace CrossMachine.Collectives

open Lib
open Relation (ReflTransGen)

variable {n count m : Nat} {α β : Type*}

/-- `ReduceScatter`. -/
def reduceScatter (op : α → α → α) (n count rank : Nat) (buf : List α) : Proc (Fin n) α (List α) :=
  ringReduceScatter op n count rank buf

/-- `AllGather`. The second phase of the ring takes over from slot `rank + 1`. -/
def allGather (n sendCount rank : Nat) (sendBuf recvBuf : List α) : Proc (Fin n) α (List α) :=
  let slot := (rank + 1) % n
  load sendBuf 0 sendCount fun contribution =>
    store (fun _ x => x) recvBuf (slot * sendCount : Nat) contribution
      (ringAllGather (fun _ x => x) n (sendCount * n) rank)

/-! ## Blocks -/

theorem getElem?_block (buf : List α) (off len y : Nat) :
    (block buf off len)[y]? = if y < len then buf[off + y]? else none := by
  rw [block, List.getElem?_take, List.getElem?_drop]

/-- The buffer with `data` written over it from `off` on. -/
def overwrite (buf : List α) (off : Nat) (data : List α) : List α :=
  buf.take off ++ data ++ buf.drop (off + data.length)

variable {buf data : List α} {off : Nat} {M : Type*}

theorem length_overwrite (h : off + data.length ≤ buf.length) :
    (overwrite buf off data).length = buf.length := by
  rw [overwrite, List.length_append, List.length_append, List.length_take, List.length_drop]
  omega

theorem store_eq (h : off + data.length ≤ buf.length) (k : List α → Proc (Fin n) α β) :
    store (fun _ x => x) buf off data k = k (overwrite buf off data) := by
  have hlen : (block buf off data.length).length = data.length := length_block h
  have hzip : List.zipWith (fun _ x => x) (block buf off data.length) data = data := by
    refine List.ext_getElem ?_ fun y hy hy' => ?_
    · rw [List.length_zipWith, hlen, Nat.min_self]
    · rw [List.getElem_zipWith]
  unfold store
  rw [if_pos (by omega), Int.toNat_natCast, hzip]
  rfl

theorem load_eq {len : Nat} (h : off + len ≤ buf.length) (k : List α → Proc (Fin n) α β) :
    load buf off len k = k (block buf off len) := by
  unfold load
  rw [if_pos (by omega), Int.toNat_natCast]

theorem getElem?_overwrite (h : off + data.length ≤ buf.length) (y : Nat) :
    (overwrite buf off data)[y]? =
      if off ≤ y ∧ y < off + data.length then data[y - off]? else buf[y]? := by
  have htake : (buf.take off).length = off := by
    rw [List.length_take]
    omega
  rw [overwrite, List.append_assoc]
  by_cases hlow : y < off
  · rw [List.getElem?_append_left (by omega), List.getElem?_take_of_lt hlow, if_neg (by omega)]
  · rw [List.getElem?_append_right (by omega), htake]
    by_cases hin : y < off + data.length
    · rw [List.getElem?_append_left (by omega), if_pos (by omega)]
    · rw [List.getElem?_append_right (by omega), List.getElem?_drop, if_neg (by omega)]
      congr 1
      omega

theorem block_overwrite_self (h : off + data.length ≤ buf.length) :
    block (overwrite buf off data) off data.length = data := by
  refine List.ext_getElem? fun y => ?_
  rw [getElem?_block, getElem?_overwrite h]
  by_cases hy : y < data.length
  · rw [if_pos hy, if_pos (by omega), Nat.add_sub_cancel_left]
  · rw [if_neg hy, List.getElem?_eq_none (by omega)]

/-- A slot that is not written to. -/
theorem block_overwrite_of_ne {s s' : Nat} (hdata : data.length = m) (h : s * m + m ≤ buf.length)
    (hne : s ≠ s') : block (overwrite buf (s * m) data) (s' * m) m = block buf (s' * m) m := by
  refine List.ext_getElem? fun y => ?_
  rw [getElem?_block, getElem?_block, getElem?_overwrite (by omega), hdata]
  by_cases hy : y < m
  · rw [if_pos hy, if_pos hy, if_neg]
    rintro ⟨hlow, hhigh⟩
    rcases Nat.lt_or_gt_of_ne hne with hlt | hgt
    · have := Nat.mul_le_mul_right m (show s + 1 ≤ s' from hlt)
      rw [Nat.succ_mul] at this
      omega
    · have := Nat.mul_le_mul_right m (show s' + 1 ≤ s from hgt)
      rw [Nat.succ_mul] at this
      omega
  · rw [if_neg hy, if_neg hy]

/-- A buffer is known when its slots are. -/
theorem eq_of_blocks {a b : List α} (ha : a.length = m * n) (hb : b.length = m * n)
    (h : ∀ s < n, block a (s * m) m = block b (s * m) m) : a = b := by
  refine List.ext_getElem? fun y => ?_
  by_cases hy : y < m * n
  · have hm : 0 < m := Nat.pos_of_ne_zero fun h0 => by simp [h0] at hy
    have hs : y / m < n := (Nat.div_lt_iff_lt_mul hm).mpr (by rwa [Nat.mul_comm n m])
    have heq := congrArg (fun l => l[y % m]?) (h (y / m) hs)
    simp only [getElem?_block, if_pos (Nat.mod_lt y hm)] at heq
    rwa [Nat.mul_comm, Nat.div_add_mod] at heq
  · rw [List.getElem?_eq_none (by omega), List.getElem?_eq_none (by omega)]

theorem chunkStart_mul (hn : 0 < n) (c : Nat) : chunkStart (m * n) n c = c * m := by
  rw [chunkStart, Nat.mul_div_cancel m hn, Nat.mul_mod_left, Nat.min_zero, Nat.add_zero]

theorem chunkSize_mul (hn : 0 < n) (c : Nat) : chunkSize (m * n) n c = m := by
  rw [chunkSize, Nat.mul_div_cancel m hn, Nat.mul_mod_left, if_neg (Nat.not_lt_zero c),
    Nat.add_zero]

theorem slot_inside {s : Nat} (hs : s < n) : s * m + m ≤ m * n := by
  have hle := Nat.mul_le_mul_right m (show s + 1 ≤ n from hs)
  rwa [Nat.succ_mul, Nat.mul_comm n m] at hle

theorem inChunk_mul (hn : 0 < n) {c y : Nat} :
    InChunk (m * n) n c y ↔ c * m ≤ y ∧ y < c * m + m := by
  rw [InChunk, chunkStart_mul hn, chunkSize_mul hn]

theorem exists_ofFn {l : Fin n → List α} (h : ∀ i, (l i).length = count) :
    ∃ b : Fin n → Fin count → α, ∀ i, l i = List.ofFn (b i) := by
  refine ⟨fun i y => (l i).get ⟨y.val, by rw [h]; exact y.isLt⟩, fun i => ?_⟩
  refine List.ext_getElem (by rw [List.length_ofFn, h]) fun y _ _ => ?_
  rw [List.getElem_ofFn]
  rfl

/-! ## The collectives -/

/-- The elementwise sum. -/
def vecSum {M : Type*} [AddCommMonoid M] (count : Nat) (g : Fin n → List M) : List M :=
  List.ofFn fun y : Fin count => ∑ i, (g i).getD y 0

theorem length_vecSum [AddCommMonoid M] (count : Nat) (g : Fin n → List M) :
    (vecSum count g).length = count := List.length_ofFn

theorem vecSum_ofFn [AddCommMonoid M] (b : Fin n → Fin count → M) :
    vecSum count (fun i => List.ofFn (b i)) = List.ofFn fun y => ∑ i, b i y := by
  simp [vecSum]

/-- Every rank has the sum. -/
theorem allReduce_meets [AddCommMonoid M] {g : Fin n → List M} (hg : ∀ i, (g i).length = count)
    (k : Fin n → List M → Proc (Fin n) M β) :
    ReflTransGen Meet (fun i : Fin n => (ringAllreduce (· + ·) n count i (g i)).bind (k i))
      (fun i => k i (vecSum count g)) := by
  obtain ⟨init, hinit⟩ := exists_ofFn hg
  obtain rfl : g = fun i => List.ofFn (init i) := funext hinit
  rw [vecSum_ofFn]
  exact meets_bind k (ringAllreduce_sum_meets init)

/-- Every rank has the sum of the chunk behind its own number. -/
theorem reduceScatter_owned [AddCommMonoid M] (hn : 0 < n) (init : Fin n → Fin count → M) :
    ∃ b : Fin n → Fin count → M,
      (∀ i y, InChunk count n (ringRight i).val y.val → b i y = ∑ j, init j y) ∧
      ∀ k : Fin n → List M → Proc (Fin n) M β, ReflTransGen Meet
        (fun i : Fin n => (reduceScatter (· + ·) n count i (List.ofFn (init i))).bind (k i))
        (fun i => k i (List.ofFn (b i))) := by
  have : NeZero n := ⟨by omega⟩
  obtain ⟨b, hb, hrun⟩ := ringReduceScatter_meets (β := β) (· + ·) init
  refine ⟨b, fun i y hin => ?_, hrun⟩
  have hdist : ringDist n (ringRight i).val i.val = n - 1 := by
    have hi := i.isLt
    rw [ringDist_eq (ringRight i).isLt hi, ringRight_val]
    split <;> split <;> omega
  rw [hb i y (ringRight i).val (ringRight i).isLt hin, hdist, if_pos (le_refl _),
    tour_full _ (ringRight i).isLt]

/-- Every rank has the sum of the slot behind its own number. -/
theorem reduceScatter_meets [AddCommMonoid M] (hn : 0 < n) {g : Fin n → List M}
    (hg : ∀ i, (g i).length = m * n) :
    ∃ g' : Fin n → List M, (∀ i, (g' i).length = m * n) ∧
      (∀ i, block (g' i) ((ringRight i).val * m) m =
        block (vecSum (m * n) g) ((ringRight i).val * m) m) ∧
      ∀ k : Fin n → List M → Proc (Fin n) M β, ReflTransGen Meet
        (fun i : Fin n => (reduceScatter (· + ·) n (m * n) i (g i)).bind (k i))
        (fun i => k i (g' i)) := by
  obtain ⟨init, hinit⟩ := exists_ofFn hg
  obtain rfl : g = fun i => List.ofFn (init i) := funext hinit
  obtain ⟨b, hb, hrun⟩ := reduceScatter_owned (β := β) hn init
  refine ⟨fun i => List.ofFn (b i), fun i => List.length_ofFn, fun i => ?_, hrun⟩
  rw [vecSum_ofFn]
  exact block_apart (slot_inside (ringRight i).isLt) fun y hlow hhigh =>
    hb i y ((inChunk_mul hn).mpr ⟨hlow, hhigh⟩)

/-- Every rank has in each slot what the rank before contributed. -/
theorem allGather_meets (hn : 0 < n) {part recv : Fin n → List α}
    (hpart : ∀ i, (part i).length = m) (hrecv : ∀ i, (recv i).length = m * n) :
    ∃ out : List α, out.length = m * n ∧
      (∀ s : Fin n, block out (s.val * m) m = part (ringLeft s)) ∧
      ∀ k : Fin n → List α → Proc (Fin n) α β, ReflTransGen Meet
        (fun i : Fin n => (allGather n m i (part i) (recv i)).bind (k i)) (fun i => k i out) := by
  have : NeZero n := ⟨by omega⟩
  have hinside (i : Fin n) : (ringRight i).val * m + (part i).length ≤ (recv i).length := by
    rw [hpart, hrecv]
    exact slot_inside (ringRight i).isLt
  have hlen (i : Fin n) :
      (overwrite (recv i) ((ringRight i).val * m) (part i)).length = m * n := by
    rw [length_overwrite (hinside i), hrecv]
  obtain ⟨init, hinit⟩ := exists_ofFn hlen
  -- the last rank that slot `c` reaches is the one that has contributed it
  have hcarried : Carried (fun c y => init (ringLeft (Fin.ofNat n c)) y) 0 init := by
    intro i y c hc _ hdist
    have hi := i.isLt
    have howner : ringLeft (Fin.ofNat n c) = i := by
      refine Fin.ext ?_
      rw [ringLeft_val, Fin.val_ofNat, Nat.mod_eq_of_lt hc]
      rw [ringDist_eq hc hi] at hdist
      split at hdist <;> split <;> omega
    exact congrFun (congrArg init howner.symm) y
  obtain ⟨b, hb, hrun⟩ := ringAllGather_meets (β := β) (fun _ x => x) _ hcarried
  have hsame (i : Fin n) : b i = b 0 := by
    funext y
    obtain ⟨c, hc, hin⟩ := exists_inChunk (n := n) y.isLt hn
    rw [hb i y c hc hin, hb 0 y c hc hin]
  refine ⟨List.ofFn (b 0), List.length_ofFn, fun s => ?_, fun k => ?_⟩
  · have howned : block (List.ofFn (b 0)) (s.val * m) m =
        block (List.ofFn (init (ringLeft s))) (s.val * m) m := by
      refine block_apart (slot_inside s.isLt) fun y hlow hhigh => ?_
      rw [hb 0 y s.val s.isLt ((inChunk_mul hn).mpr ⟨hlow, hhigh⟩), Fin.ofNat_val_eq_self]
    have hwrite := block_overwrite_self (hinside (ringLeft s))
    rw [hinit, ringRight_left, hpart] at hwrite
    rw [howned, hwrite]
  · have hprog (i : Fin n) : allGather n m i (part i) (recv i) =
        ringAllGather (fun _ x => x) n (m * n) i (List.ofFn (init i)) := by
      have hwhole : block (part i) 0 m = part i := by
        rw [block, List.drop_zero, List.take_of_length_le (by rw [hpart])]
      rw [allGather, ← Int.natCast_zero, load_eq (by rw [hpart]; omega), hwhole, ← hinit]
      exact store_eq (hinside i) _
    have hend := hrun k
    simp only [hsame] at hend
    simp only [hprog]
    exact hend

/-- Nobody is there. -/
theorem completes_nobody {P : Fin 0 → Proc (Fin 0) α β} {r : Fin 0 → β} : Completes P r := by
  refine completes_of_meets ?_
  rw [Subsingleton.elim P fun i => .done (r i)]

/-- With anybody there, a rank has the sum of the slot of its right neighbour. -/
theorem reduceScatter_slots [AddCommMonoid M] {n count : Nat} (hn : 0 < n)
    (data : Fin n → Fin count → M) :
    ∃ out : Fin n → List M,
      Completes (fun i : Fin n => reduceScatter (· + ·) n count i (List.ofFn (data i))) out ∧
      ∀ r : Fin n,
        let layout := computeChunks count n
        let c := (r.val + 1) % n
        block (out r) (layout.startOf c) (layout.sizeOf c) =
          block (List.ofFn fun y => ∑ i, data i y) (layout.startOf c) (layout.sizeOf c) := by
  obtain ⟨b, hb, hrun⟩ := reduceScatter_owned (β := List M) hn data
  have hend := hrun fun _ => .done
  simp only [Proc.bind_done_right] at hend
  refine ⟨fun i => List.ofFn (b i), completes_of_meets hend, fun r => ?_⟩
  have hright : (r.val + 1) % n = (ringRight r).val := rfl
  simp only [hright, computeChunks_startOf (ringRight r).isLt,
    computeChunks_sizeOf (ringRight r).isLt]
  exact block_apart (chunk_inside (ringRight r).isLt) fun y hlow hhigh => hb r y ⟨hlow, hhigh⟩

/-- With anybody there, what a rank contributes is in the slot of its right neighbour. -/
theorem allGather_slots {α : Type*} {n m : Nat} (hn : 0 < n) (sendBuf : Fin n → Fin m → α)
    (recvBuf : Fin n → Fin (m * n) → α) :
    ∃ out : List α,
      Completes (fun i : Fin n =>
        allGather n m i (List.ofFn (sendBuf i)) (List.ofFn (recvBuf i))) (fun _ => out) ∧
      ∀ r : Fin n, block out ((r.val + 1) % n * m) m = List.ofFn (sendBuf r) := by
  have hsend (i : Fin n) : (List.ofFn (sendBuf i)).length = m := List.length_ofFn
  have hrecv (i : Fin n) : (List.ofFn (recvBuf i)).length = m * n := List.length_ofFn
  obtain ⟨out, -, hout, hrun⟩ := allGather_meets (β := List α) hn hsend hrecv
  have hend := hrun fun _ => .done
  simp only [Proc.bind_done_right] at hend
  refine ⟨out, completes_of_meets hend, fun r => ?_⟩
  -- slot `s` is from the left neighbour of `s`
  have hslot := hout (ringRight r)
  rw [ringLeft_right] at hslot
  exact hslot

/-- **The two on their own.** With any number of ranks and whatever the schedule, rank `r` ends
`ReduceScatter` with the sum in chunk `r + 1`, and `AllGather` ends on every rank with the same
buffer, in which slot `r + 1` is what rank `r` has contributed. -/
theorem standalone_collectives (n count m : Nat) :
    (∀ (M : Type*) [AddCommMonoid M] (data : Fin n → Fin count → M),
      ∃ out : Fin n → List M,
        Completes (fun i : Fin n => reduceScatter (· + ·) n count i (List.ofFn (data i))) out ∧
        ∀ r : Fin n,
          let layout := computeChunks count n
          let c := (r.val + 1) % n
          block (out r) (layout.startOf c) (layout.sizeOf c) =
            block (List.ofFn fun y => ∑ i, data i y) (layout.startOf c) (layout.sizeOf c)) ∧
    ∀ (α : Type*) (sendBuf : Fin n → Fin m → α) (recvBuf : Fin n → Fin (m * n) → α),
      ∃ out : List α,
        Completes (fun i : Fin n =>
          allGather n m i (List.ofFn (sendBuf i)) (List.ofFn (recvBuf i))) (fun _ => out) ∧
        ∀ r : Fin n, block out ((r.val + 1) % n * m) m = List.ofFn (sendBuf r) := by
  constructor
  · intro M _ data
    rcases Nat.eq_zero_or_pos n with rfl | hn
    · exact ⟨fun i => i.elim0, completes_nobody, fun r => r.elim0⟩
    · exact reduceScatter_slots hn data
  · intro α sendBuf recvBuf
    rcases Nat.eq_zero_or_pos n with rfl | hn
    · exact ⟨[], completes_nobody, fun r => r.elim0⟩
    · exact allGather_slots hn sendBuf recvBuf

end CrossMachine.Collectives
