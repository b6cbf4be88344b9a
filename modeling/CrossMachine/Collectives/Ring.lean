import Mathlib.Algebra.BigOperators.Fin
import Mathlib.Algebra.BigOperators.Intervals
import CrossMachine.Collectives.Exchange

/-!
# Ring all-reduce

`ring_allreduce.cpp`. The buffer is cut into one chunk per rank. For `n - 1` rounds
every rank passes a chunk to its right neighbour, which adds it to its own copy
(`ring_reduce_scatter`); for another `n - 1` rounds the finished chunks are passed on
and overwrite what they find (`ring_all_gather`).

Chunk by chunk the whole is simple. Number the ranks by their distance from the rank
whose index is that of the chunk. In round `t` of the first phase exactly the rank at
distance `t + 1` receives the chunk, from the rank at distance `t`, so the chunk makes
one tour of the ring and collects every contribution once. It ends at distance `n - 1`,
from where the second phase carries it around once more. Nothing in this uses what the
operation is: only that the tour's result is the sum does.
-/

namespace CrossMachine.Collectives

open Lib
open Relation (ReflTransGen)

variable {n count : Nat} {α β : Type*}

/-! ## The chunks -/

/-- `ChunkLayout`. -/
structure ChunkLayout where
  start : List Nat
  size : List Nat

/-- `computeChunks`: the first `count % n` chunks are one element longer. -/
def computeChunks (count n : Nat) : ChunkLayout :=
  let base := count / n
  let remainder := count % n
  ((List.range n).foldl (fun (l : ChunkLayout × Nat) i =>
    let size := base + if i < remainder then 1 else 0
    (⟨l.1.start ++ [l.2], l.1.size ++ [size]⟩, l.2 + size)) (⟨[], []⟩, 0)).1

/-- Where chunk `i` begins. -/
def chunkStart (count n i : Nat) : Nat := i * (count / n) + min i (count % n)

/-- How long chunk `i` is. -/
def chunkSize (count n i : Nat) : Nat := count / n + if i < count % n then 1 else 0

theorem chunkStart_succ (count n i : Nat) :
    chunkStart count n (i + 1) = chunkStart count n i + chunkSize count n i := by
  unfold chunkStart chunkSize
  rw [Nat.add_mul, Nat.one_mul]
  split <;> omega

theorem chunkStart_last (hn : 0 < n) : chunkStart count n n = count := by
  have hmod := Nat.mod_lt count hn
  have hdiv := Nat.div_add_mod count n
  unfold chunkStart
  omega

variable {i c y t : Nat} {op : α → α → α} {init b : Fin n → Fin count → α} {M : Type*}

theorem chunkStart_mono {j : Nat} (h : i ≤ j) : chunkStart count n i ≤ chunkStart count n j := by
  unfold chunkStart
  have := Nat.mul_le_mul_right (count / n) h
  omega

/-- The loop fills both vectors chunk by chunk. -/
theorem computeChunks_eq (count n : Nat) :
    computeChunks count n = ⟨(List.range n).map (chunkStart count n),
      (List.range n).map (chunkSize count n)⟩ := by
  have hloop : ∀ m, (List.range m).foldl (fun (l : ChunkLayout × Nat) i =>
      let size := count / n + if i < count % n then 1 else 0
      ((⟨l.1.start ++ [l.2], l.1.size ++ [size]⟩ : ChunkLayout), l.2 + size)) (⟨[], []⟩, 0)
      = (⟨(List.range m).map (chunkStart count n), (List.range m).map (chunkSize count n)⟩,
        chunkStart count n m) := by
    intro m
    induction m with
    | zero => simp [chunkStart]
    | succ m ih =>
        simp only [List.range_succ, List.foldl_append, ih, List.foldl_cons, List.foldl_nil,
          List.map_append, List.map_cons, List.map_nil, chunkStart_succ]
        rfl
  unfold computeChunks
  exact congrArg Prod.fst (hloop n)

/-- `layout.start[i]`. -/
def ChunkLayout.startOf (l : ChunkLayout) (i : Nat) : Nat := l.start.getD i 0

/-- `layout.size[i]`. -/
def ChunkLayout.sizeOf (l : ChunkLayout) (i : Nat) : Nat := l.size.getD i 0

theorem computeChunks_startOf (h : i < n) :
    (computeChunks count n).startOf i = chunkStart count n i := by
  simp [ChunkLayout.startOf, computeChunks_eq, List.getD_eq_getElem?_getD, h]

theorem computeChunks_sizeOf (h : i < n) :
    (computeChunks count n).sizeOf i = chunkSize count n i := by
  simp [ChunkLayout.sizeOf, computeChunks_eq, List.getD_eq_getElem?_getD, h]

/-- Position `y` lies in chunk `c`. -/
def InChunk (count n c y : Nat) : Prop :=
  chunkStart count n c ≤ y ∧ y < chunkStart count n c + chunkSize count n c

theorem chunk_inside (h : c < n) : chunkStart count n c + chunkSize count n c ≤ count := by
  rw [← chunkStart_succ]
  calc chunkStart count n (c + 1) ≤ chunkStart count n n := chunkStart_mono h
    _ = count := chunkStart_last (by omega)

/-- Chunks do not overlap. -/
theorem chunk_apart {c' : Nat} (h : c ≠ c') :
    chunkStart count n c + chunkSize count n c ≤ chunkStart count n c' ∨
      chunkStart count n c' + chunkSize count n c' ≤ chunkStart count n c := by
  rw [← chunkStart_succ, ← chunkStart_succ]
  rcases Nat.lt_or_gt_of_ne h with hlt | hgt
  · exact .inl (chunkStart_mono hlt)
  · exact .inr (chunkStart_mono hgt)

theorem InChunk.unique {c' : Nat} (h : InChunk count n c y) (h' : InChunk count n c' y) :
    c = c' := by
  by_contra hne
  obtain ⟨h₁, h₂⟩ := h
  obtain ⟨h₃, h₄⟩ := h'
  have hapart : chunkStart count n c + chunkSize count n c ≤ chunkStart count n c' ∨
      chunkStart count n c' + chunkSize count n c' ≤ chunkStart count n c := chunk_apart hne
  omega

/-- Every position lies in a chunk. -/
theorem exists_inChunk (hy : y < count) (hn : 0 < n) : ∃ c, c < n ∧ InChunk count n c y := by
  have hsearch : ∀ m, y < chunkStart count n m → ∃ c, c < m ∧ InChunk count n c y := by
    intro m
    induction m with
    | zero =>
        intro h
        simp [chunkStart] at h
    | succ m ih =>
        intro h
        by_cases hm : y < chunkStart count n m
        · obtain ⟨c, hc, hin⟩ := ih hm
          exact ⟨c, by omega, hin⟩
        · rw [chunkStart_succ] at h
          exact ⟨m, by omega, by omega, h⟩
  exact hsearch n (by rw [chunkStart_last hn]; exact hy)

/-! ## The loops -/

/-- The part the bodies of both loops share. -/
def ringRound (n count rank sendIdx recvIdx : Nat) (reduce : Bool) : Exchange :=
  let layout := computeChunks count n
  { dst := (rank + 1) % n
    src := (rank + n - 1) % n
    sendFirst := rank % 2 == 0
    sendOffset := layout.startOf sendIdx
    sendCount := layout.sizeOf sendIdx
    recvOffset := layout.startOf recvIdx
    recvCount := layout.sizeOf recvIdx
    reduce := reduce }

/-- The body of `ring_reduce_scatter`'s loop. The source writes `rank - step + n`, in
`int`; here `n` is added first. -/
def reduceScatterRound (n count rank step : Nat) : Exchange :=
  ringRound n count rank ((rank + n - step) % n) ((rank + n - step - 1) % n) true

/-- The body of `ring_all_gather`'s loop. -/
def allGatherRound (n count rank step : Nat) : Exchange :=
  ringRound n count rank ((rank + n - step + 1) % n) ((rank + n - step) % n) false

/-- `ring_reduce_scatter`. -/
def ringReduceScatter (op : α → α → α) (n count rank : Nat) (buf : List α) :
    Proc (Fin n) α (List α) :=
  if n ≤ 1 then .done buf
  else perform op ((List.range (n - 1)).map (reduceScatterRound n count rank)) buf

/-- `ring_all_gather`. -/
def ringAllGather (op : α → α → α) (n count rank : Nat) (buf : List α) :
    Proc (Fin n) α (List α) :=
  if n ≤ 1 then .done buf
  else perform op ((List.range (n - 1)).map (allGatherRound n count rank)) buf

/-- `ring_allreduce`. -/
def ringAllreduce (op : α → α → α) (n count rank : Nat) (buf : List α) :
    Proc (Fin n) α (List α) :=
  if n ≤ 1 then .done buf
  else (ringReduceScatter op n count rank buf).bind (ringAllGather op n count rank)

/-- The exchanges of both phases. -/
def ringPlan (n count rank : Nat) : List Exchange :=
  (List.range (n - 1)).map (reduceScatterRound n count rank) ++
    (List.range (n - 1)).map (allGatherRound n count rank)

/-! ## Around the ring -/

/-- The neighbour a rank sends to. -/
def ringRight (i : Fin n) : Fin n := ⟨(i.val + 1) % n, Nat.mod_lt _ i.pos⟩

/-- The neighbour a rank receives from. -/
def ringLeft (i : Fin n) : Fin n := ⟨(i.val + n - 1) % n, Nat.mod_lt _ i.pos⟩

/-- How far rank `i` is to the right of rank `c`. -/
def ringDist (n c i : Nat) : Nat := (i + n - c) % n

theorem ring_next (hi : i < n) : (i + 1) % n = if i + 1 = n then 0 else i + 1 := by
  split
  · rename_i h
    rw [h, Nat.mod_self]
  · exact Nat.mod_eq_of_lt (by omega)

/-- Going back `s` places. -/
theorem ring_back {s : Nat} (hi : i < n) (hs : s ≤ n) :
    (i + n - s) % n = if s ≤ i then i - s else i + n - s := by
  split
  · rw [show i + n - s = i - s + n by omega, Nat.add_mod_right, Nat.mod_eq_of_lt (by omega)]
  · exact Nat.mod_eq_of_lt (by omega)

/-- Going back `s` places and one forward again. -/
theorem ring_back_next {s : Nat} (hi : i < n) (hs : s ≤ n) :
    (i + n - s + 1) % n
      = if s = 0 then if i + 1 = n then 0 else i + 1
        else if s ≤ i + 1 then i + 1 - s else i + 1 + n - s := by
  split
  · rename_i h
    rw [h, show i + n - 0 + 1 = i + 1 + n by omega, Nat.add_mod_right, ring_next hi]
  · rw [show i + n - s + 1 = i + n - (s - 1) by omega, ring_back hi (by omega)]
    split <;> split <;> omega

theorem ringLeft_val (i : Fin n) :
    (ringLeft i).val = if 1 ≤ i.val then i.val - 1 else i.val + n - 1 :=
  ring_back i.isLt i.pos

theorem ringRight_val (i : Fin n) :
    (ringRight i).val = if i.val + 1 = n then 0 else i.val + 1 :=
  ring_next i.isLt

theorem ringLeft_right (i : Fin n) : ringLeft (ringRight i) = i := by
  apply Fin.ext
  rw [ringLeft_val, ringRight_val]
  have := i.isLt
  split <;> split <;> omega

theorem ringRight_left (i : Fin n) : ringRight (ringLeft i) = i := by
  apply Fin.ext
  rw [ringRight_val, ringLeft_val]
  have := i.isLt
  split <;> split <;> omega

/-- A round of the ring goes through whenever left and right neighbour mean the same
chunk, and nobody sends the chunk it receives. Even ranks send first; with `n` odd the
ranks `n - 1` and `0` both do, and rank `1` does not. -/
theorem ringRound_fits (hn : 2 ≤ n) {snd rcv : Nat → Nat} {reduce : Bool}
    (hsnd : ∀ i, i < n → snd i < n) (hrcv : ∀ i, i < n → rcv i < n)
    (hagree : ∀ i : Fin n, snd (ringLeft i) = rcv i) (hne : ∀ i, i < n → snd i ≠ rcv i) :
    Fits count ringRight ringLeft
      (fun i : Fin n => ringRound n count i (snd i) (rcv i) reduce) := by
  constructor
  case left_right => exact ringLeft_right
  case right_left => exact ringRight_left
  case dst => exact fun i => rfl
  case src => exact fun i => rfl
  case offset =>
      intro i
      simp only [ringRound, hagree]
  case size =>
      intro i
      simp only [ringRound, hagree]
  case inside =>
      intro i
      simp only [ringRound, computeChunks_startOf (hrcv i i.isLt),
        computeChunks_sizeOf (hrcv i i.isLt)]
      have : chunkStart count n (rcv i) + chunkSize count n (rcv i) ≤ count :=
        chunk_inside (hrcv i i.isLt)
      omega
  case apart =>
      intro i
      simp only [ringRound, computeChunks_startOf (hrcv i i.isLt),
        computeChunks_sizeOf (hrcv i i.isLt), computeChunks_startOf (hsnd i i.isLt),
        computeChunks_sizeOf (hsnd i i.isLt)]
      rcases chunk_apart (hne i i.isLt) with h | h
      · exact .inl (by exact_mod_cast h)
      · exact .inr (by exact_mod_cast h)
  case pair =>
      intro i hi
      simp only [ringRound, beq_eq_false_iff_ne, beq_iff_eq, ringRight_val] at hi ⊢
      split <;> omega
  case three =>
      intro i hi hr
      have := i.isLt
      simp only [ringRound, beq_eq_false_iff_ne, beq_iff_eq, ringRight_val] at hi hr ⊢
      split_ifs at * <;> omega

theorem reduceScatterRound_fits (hn : 2 ≤ n) (ht : t < n - 1) :
    Fits count ringRight ringLeft (fun i : Fin n => reduceScatterRound n count i t) := by
  refine @ringRound_fits n count hn (fun i => (i + n - t) % n) (fun i => (i + n - t - 1) % n) true
    (fun i _ => Nat.mod_lt _ (by omega)) (fun i _ => Nat.mod_lt _ (by omega)) ?_ ?_
  · intro i
    have := i.isLt
    simp only [Nat.sub_sub]
    rw [ring_back (ringLeft i).isLt (by omega), ring_back i.isLt (by omega), ringLeft_val]
    split <;> split <;> split <;> omega
  · intro i hi
    rw [Nat.sub_sub, ring_back hi (by omega), ring_back hi (by omega)]
    split <;> split <;> omega

theorem allGatherRound_fits (hn : 2 ≤ n) (ht : t < n - 1) :
    Fits count ringRight ringLeft (fun i : Fin n => allGatherRound n count i t) := by
  refine @ringRound_fits n count hn (fun i => (i + n - t + 1) % n) (fun i => (i + n - t) % n) false
    (fun i _ => Nat.mod_lt _ (by omega)) (fun i _ => Nat.mod_lt _ (by omega)) ?_ ?_
  · intro i
    have := i.isLt
    rw [ring_back_next (ringLeft i).isLt (by omega), ring_back i.isLt (by omega), ringLeft_val]
    split_ifs <;> omega
  · intro i hi
    rw [ring_back_next hi (by omega), ring_back hi (by omega)]
    split_ifs <;> omega

/-- What is received is the chunk meant. -/
theorem ringRound_covers {rank snd rcv : Nat} {reduce : Bool} (hrcv : rcv < n)
    (hin : InChunk count n c y) : (ringRound n count rank snd rcv reduce).Covers y ↔ rcv = c := by
  have hiff : (ringRound n count rank snd rcv reduce).Covers y ↔ InChunk count n rcv y := by
    simp only [Exchange.Covers, InChunk, ringRound, computeChunks_startOf hrcv,
      computeChunks_sizeOf hrcv]
    omega
  rw [hiff]
  constructor
  · intro h
    exact h.unique hin
  · intro h
    exact h ▸ hin

/-! ## The tour of a chunk -/

/-- What a position has collected when its chunk has gone `d` places around the ring,
starting from the value of rank `c`. -/
def tour [NeZero n] (op : α → α → α) (v : Fin n → α) (c : Nat) : Nat → α
  | 0 => v (Fin.ofNat n c)
  | d + 1 => op (v (Fin.ofNat n (c + (d + 1)))) (tour op v c d)

/-- After `t` rounds the ranks up to distance `t` hold what the tour has collected when it
passed them, and the others still hold their own value. -/
def Scattered [NeZero n] (op : α → α → α) (init : Fin n → Fin count → α) (t : Nat)
    (b : Fin n → Fin count → α) : Prop :=
  ∀ (i : Fin n) (y : Fin count) (c : Nat), c < n → InChunk count n c y →
    b i y = if ringDist n c i ≤ t then tour op (fun j => init j y) c (ringDist n c i) else init i y

/-- After `t` rounds the ranks below distance `t` have the finished chunk, besides the
last, which had it from the start. -/
def Gathered [NeZero n] (op : α → α → α) (init : Fin n → Fin count → α) (t : Nat)
    (b : Fin n → Fin count → α) : Prop :=
  ∀ (i : Fin n) (y : Fin count) (c : Nat), c < n → InChunk count n c y →
    ringDist n c i < t ∨ ringDist n c i = n - 1 → b i y = tour op (fun j => init j y) c (n - 1)

theorem ringDist_eq (hc : c < n) (hi : i < n) :
    ringDist n c i = if c ≤ i then i - c else i + n - c :=
  ring_back hi (by omega)

theorem ofNat_ringDist [NeZero n] (hc : c < n) (i : Fin n) :
    Fin.ofNat n (c + ringDist n c i) = i := by
  apply Fin.ext
  have := i.isLt
  rw [Fin.val_ofNat, ringDist_eq hc i.isLt]
  split
  · rw [Nat.add_sub_cancel' (by omega), Nat.mod_eq_of_lt i.isLt]
  · rw [show c + (i.val + n - c) = i.val + n by omega, Nat.add_mod_right, Nat.mod_eq_of_lt i.isLt]

theorem scattered_init [NeZero n] (op : α → α → α) (init : Fin n → Fin count → α) :
    Scattered op init 0 init := by
  intro i y c hc hin
  split
  · rename_i h
    have hd : ringDist n c i = 0 := by omega
    have hi := ofNat_ringDist hc i
    rw [hd, Nat.add_zero] at hi
    rw [hd, tour, hi]
  · rfl

theorem scattered_round [NeZero n] (ht : t < n - 1) (h : Scattered op init t b) :
    Scattered op init (t + 1)
      (round op ringLeft (fun i : Fin n => reduceScatterRound n count i t) b) := by
  intro i y c hc hin
  have hi := i.isLt
  have hdist := ringDist_eq hc hi
  have hleft : ringDist n c (ringLeft i) = if c ≤ (ringLeft i).val then (ringLeft i).val - c
      else (ringLeft i).val + n - c := ringDist_eq hc (ringLeft i).isLt
  have hrecv : (reduceScatterRound n count i t).Covers y ↔ ringDist n c i = t + 1 := by
    unfold reduceScatterRound
    rw [ringRound_covers (Nat.mod_lt _ (by omega)) hin, Nat.sub_sub, ring_back hi (by omega), hdist]
    split <;> split <;> omega
  simp only [round, hrecv]
  split
  · -- the rank the chunk reaches in this round adds its own value
    rename_i hd
    have hl : ringDist n c (ringLeft i) = t := by
      rw [hleft, ringLeft_val]
      split_ifs at * <;> omega
    have hval : Fin.ofNat n (c + (t + 1)) = i := by rw [← hd]; exact ofNat_ringDist hc i
    rw [if_pos (by omega), hd, tour, hval, h i y c hc hin, if_neg (by omega),
      h (ringLeft i) y c hc hin, if_pos (by omega), hl]
    rfl
  · rename_i hd
    rw [h i y c hc hin]
    by_cases hle : ringDist n c i ≤ t
    · rw [if_pos hle, if_pos (by omega)]
    · rw [if_neg hle, if_neg (by omega)]

theorem gathered_init [NeZero n] (h : Scattered op init (n - 1) b) : Gathered op init 0 b := by
  intro i y c hc hin hd
  have hlast : ringDist n c i = n - 1 := by omega
  rw [h i y c hc hin, hlast, if_pos (Nat.le_refl _)]

/-- After `t` rounds of the second phase, whatever its chunks hold: the ranks below distance
`t` have the chunk of the last. -/
def Carried (out : Nat → Fin count → α) (t : Nat) (b : Fin n → Fin count → α) : Prop :=
  ∀ (i : Fin n) (y : Fin count) (c : Nat), c < n → InChunk count n c y →
    ringDist n c i < t ∨ ringDist n c i = n - 1 → b i y = out c y

theorem carried_round (op : α → α → α) {out : Nat → Fin count → α} (ht : t < n - 1)
    (h : Carried out t b) :
    Carried out (t + 1) (round op ringLeft (fun i : Fin n => allGatherRound n count i t) b) := by
  intro i y c hc hin hd
  have hi := i.isLt
  have hdist := ringDist_eq hc hi
  have hleft : ringDist n c (ringLeft i) = if c ≤ (ringLeft i).val then (ringLeft i).val - c
      else (ringLeft i).val + n - c := ringDist_eq hc (ringLeft i).isLt
  have hrecv : (allGatherRound n count i t).Covers y ↔ ringDist n c i = t := by
    unfold allGatherRound
    rw [ringRound_covers (Nat.mod_lt _ (by omega)) hin, ring_back hi (by omega), hdist]
    split <;> split <;> omega
  simp only [round, hrecv]
  split
  · rename_i hdt
    refine h (ringLeft i) y c hc hin ?_
    rw [hleft, ringLeft_val]
    split_ifs at * <;> omega
  · exact h i y c hc hin (by omega)

/-- The first phase goes through: every chunk has made its tour. -/
theorem ringReduceScatter_meets [NeZero n] (op : α → α → α) (init : Fin n → Fin count → α) :
    ∃ b : Fin n → Fin count → α, Scattered op init (n - 1) b ∧
      ∀ k : Fin n → List α → Proc (Fin n) α β, ReflTransGen Meet
        (fun i : Fin n => (ringReduceScatter op n count i (List.ofFn (init i))).bind (k i))
        (fun i : Fin n => k i (List.ofFn (b i))) := by
  unfold ringReduceScatter
  by_cases hn : n ≤ 1
  · refine ⟨init, ?_, fun k => ?_⟩
    · rw [show n - 1 = 0 by omega]
      exact scattered_init op init
    · simp only [if_pos hn, Proc.bind_done]
      exact .refl
  · simp only [if_neg hn]
    exact meets_rounds (fun t ht => reduceScatterRound_fits (by omega) ht) (scattered_init op init)
      (fun t b ht h => scattered_round ht h)

/-- The second phase goes through, whatever the chunks hold: every rank ends with the chunks
that the last ranks had. -/
theorem ringAllGather_meets (op : α → α → α) (out : Nat → Fin count → α) (h : Carried out 0 init) :
    ∃ b : Fin n → Fin count → α, (∀ i y c, c < n → InChunk count n c y.val → b i y = out c y) ∧
      ∀ k : Fin n → List α → Proc (Fin n) α β, ReflTransGen Meet
        (fun i : Fin n => (ringAllGather op n count i (List.ofFn (init i))).bind (k i))
        (fun i : Fin n => k i (List.ofFn (b i))) := by
  unfold ringAllGather
  have hall {b : Fin n → Fin count → α} (hb : Carried out (n - 1) b) :
      ∀ i y c, c < n → InChunk count n c y.val → b i y = out c y := by
    intro i y c hc hin
    have hlt : ringDist n c i < n := Nat.mod_lt _ (by omega)
    exact hb i y c hc hin (by omega)
  by_cases hn : n ≤ 1
  · refine ⟨init, hall ?_, fun k => ?_⟩
    · rw [show n - 1 = 0 by omega]
      exact h
    · simp only [if_pos hn, Proc.bind_done]
      exact .refl
  · simp only [if_neg hn]
    obtain ⟨b, hb, hrun⟩ := meets_rounds (β := β) (I := fun t b => Carried out t b)
      (fun t ht => allGatherRound_fits (by omega) ht) h
      (fun t b ht h => carried_round op ht h)
    exact ⟨b, hall hb, hrun⟩

/-- Both phases go through, and every rank ends with what each chunk's tour collected. -/
theorem ringAllreduce_meets [NeZero n] (hn : 2 ≤ n) (op : α → α → α)
    (init : Fin n → Fin count → α) :
    ∃ b : Fin n → Fin count → α,
      (∀ i y c, c < n → InChunk count n c y.val →
        b i y = tour op (fun j => init j y) c (n - 1)) ∧
      ReflTransGen Meet (fun i => ringAllreduce op n count i (List.ofFn (init i)))
        (fun i => .done (List.ofFn (b i))) := by
  obtain ⟨b₁, hb₁, hrun₁⟩ := ringReduceScatter_meets (β := List α) op init
  obtain ⟨b₂, hb₂, hrun₂⟩ := ringAllGather_meets (β := List α) op
    (fun c y => tour op (fun j => init j y) c (n - 1)) (gathered_init hb₁)
  refine ⟨b₂, hb₂, ?_⟩
  have hrun := (hrun₁ fun i buf => (ringAllGather op n count i buf).bind .done).trans
    (hrun₂ fun _ => .done)
  simp only [Proc.bind_done_right] at hrun
  simp only [ringAllreduce, if_neg (show ¬ n ≤ 1 by omega)]
  exact hrun

/-- Neighbours mean the same chunk in every round. -/
theorem ringPlan_sizesAgree (hn : 2 ≤ n) :
    SizesAgree fun i : Fin n => ringPlan n count i :=
  SizesAgree.append (m := n - 1) (fun i => by simp)
    (sizesAgree_of_fits fun _ ht => reduceScatterRound_fits hn ht)
    (sizesAgree_of_fits fun _ ht => allGatherRound_fits hn ht)

/-- The tour adds up the ranks it has passed. -/
theorem tour_eq_sum [AddCommMonoid M] [NeZero n] (v : Fin n → M) (c d : Nat) :
    tour (· + ·) v c d = ∑ e ∈ Finset.range (d + 1), v (Fin.ofNat n (c + e)) := by
  induction d with
  | zero => simp [tour]
  | succ d ih => rw [tour, ih, Finset.sum_range_succ _ (d + 1), add_comm]

/-- A full tour passes every rank once. -/
theorem tour_full [AddCommMonoid M] [NeZero n] (v : Fin n → M) (hc : c < n) :
    tour (· + ·) v c (n - 1) = ∑ i, v i := by
  rw [tour_eq_sum, show n - 1 + 1 = n by omega]
  refine Finset.sum_bij' (fun e _ => Fin.ofNat n (c + e)) (fun i _ => ringDist n c i) ?_ ?_ ?_ ?_ ?_
  · exact fun e _ => Finset.mem_univ _
  · exact fun i _ => Finset.mem_range.mpr (Nat.mod_lt _ (by omega))
  · intro e he
    have he' := Finset.mem_range.mp he
    have hlt : (Fin.ofNat n (c + e)).val < n := (Fin.ofNat n (c + e)).isLt
    rw [ringDist_eq hc hlt, Fin.val_ofNat]
    by_cases hwrap : c + e < n
    · rw [Nat.mod_eq_of_lt hwrap]
      split <;> omega
    · rw [show c + e = c + e - n + n by omega, Nat.add_mod_right, Nat.mod_eq_of_lt (by omega)]
      split <;> omega
  · exact fun i _ => ofNat_ringDist hc i
  · exact fun e _ => rfl

/-- A world of at most one rank is done before it starts. -/
theorem ringAllreduce_alone (hn : n ≤ 1) {out : List α} (hout : ∀ i, List.ofFn (init i) = out) :
    ReflTransGen Meet (fun i : Fin n => ringAllreduce op n count i (List.ofFn (init i)))
      (fun _ => .done out) := by
  simp only [ringAllreduce, if_pos hn, hout]
  exact .refl

theorem ringAllreduce_sum_meets [AddCommMonoid M] (init : Fin n → Fin count → M) :
    ReflTransGen Meet (fun i : Fin n => ringAllreduce (· + ·) n count i (List.ofFn (init i)))
      (fun _ => .done (List.ofFn fun y => ∑ i, init i y)) := by
  rcases Nat.lt_or_ge n 2 with hlt | hn
  · refine ringAllreduce_alone (by omega) fun i => ?_
    have : Subsingleton (Fin n) := Fin.subsingleton_iff_le_one.mpr (by omega)
    simp only [Fintype.sum_subsingleton _ i]
  · have : NeZero n := ⟨by omega⟩
    obtain ⟨b, hb, hrun⟩ := ringAllreduce_meets hn (· + ·) init
    have hsum : ∀ i, b i = fun y => ∑ i, init i y := by
      intro i
      funext y
      obtain ⟨c, hc, hin⟩ := exists_inChunk (n := n) y.isLt (by omega)
      rw [hb i y c hc hin, tour_full _ hc]
    simp only [hsum] at hrun
    exact hrun

theorem ringAllreduce_sum [AddCommMonoid M] (init : Fin n → Fin count → M) :
    Completes (fun i : Fin n => ringAllreduce (· + ·) n count i (List.ofFn (init i)))
      (fun _ => List.ofFn fun y => ∑ i, init i y) :=
  completes_of_meets (ringAllreduce_sum_meets init)

theorem ringAllreduce_same (op : α → α → α) (init : Fin n → Fin count → α) :
    ∃ out : List α, Completes
      (fun i : Fin n => ringAllreduce op n count i (List.ofFn (init i))) (fun _ => out) := by
  rcases Nat.lt_or_ge n 2 with hlt | hn
  · have : Subsingleton (Fin n) := Fin.subsingleton_iff_le_one.mpr (by omega)
    rcases isEmpty_or_nonempty (Fin n) with _ | ⟨⟨i₀⟩⟩
    · exact ⟨[], completes_of_meets (ringAllreduce_alone (by omega) fun i => isEmptyElim i)⟩
    · exact ⟨_, completes_of_meets
        (ringAllreduce_alone (by omega) fun i => by rw [Subsingleton.elim i i₀])⟩
  · have : NeZero n := ⟨by omega⟩
    obtain ⟨b, hb, hrun⟩ := ringAllreduce_meets hn op init
    have hsame : ∀ i, b i = b 0 := by
      intro i
      funext y
      obtain ⟨c, hc, hin⟩ := exists_inChunk (n := n) y.isLt (by omega)
      rw [hb i y c hc hin, hb 0 y c hc hin]
    refine ⟨List.ofFn (b 0), completes_of_meets ?_⟩
    simp only [hsame] at hrun
    exact hrun

/-- **Ring all-reduce.** Whatever the number of ranks, the length of the buffers and the
schedule, every rank ends with the elementwise sum of all buffers; and with an operation
that is neither associative nor commutative all ranks still end with the same buffer. -/
theorem ringAllreduce_completes (n count : Nat) :
    (∀ (M : Type*) [AddCommMonoid M] (init : Fin n → Fin count → M),
      Completes (fun i : Fin n => ringAllreduce (· + ·) n count i (List.ofFn (init i)))
        (fun _ => List.ofFn fun y => ∑ i, init i y)) ∧
    (∀ (α : Type*) (op : α → α → α) (init : Fin n → Fin count → α), ∃ out : List α,
      Completes (fun i : Fin n => ringAllreduce op n count i (List.ofFn (init i)))
        (fun _ => out)) :=
  ⟨fun _ _ init => ringAllreduce_sum init, fun _ op init => ringAllreduce_same op init⟩

/-- **No deadlock on the ring.** With sends that block until the receiver asks for them,
two or more ranks that run the two phases one after the other are never all stuck before
all are finished. -/
theorem ring_deadlock_free {n : Nat} (hn : 2 ≤ n) (count : Nat) {α : Type*} (op : α → α → α)
    (init : Fin n → Fin count → α) {P : Fin n → Proc (Fin n) α (List α)}
    (hP : ReflTransGen Meet (fun i : Fin n =>
      (ringReduceScatter op n count i (List.ofFn (init i))).bind (ringAllGather op n count i)) P) :
    (∀ i, ∃ out, P i = .done out) ∨ ∃ Q, Meet P Q := by
  obtain ⟨out, hout⟩ := ringAllreduce_same op init
  have hprog : (fun i : Fin n => ringAllreduce op n count i (List.ofFn (init i)))
      = fun i : Fin n =>
        (ringReduceScatter op n count i (List.ofFn (init i))).bind
          (ringAllGather op n count i) := by
    funext i
    exact if_neg (by omega)
  rw [← hprog] at hP
  rcases hout.meet.progress hP with hdone | hmove
  · exact .inl fun i => ⟨out, congrFun hdone i⟩
  · exact .inr hmove

/-- Three ranks, of which the last and the first both send first. -/
theorem ring_deadlock_free_three :
    ∃ P : Fin 3 → Proc (Fin 3) Nat (List Nat),
      ReflTransGen Meet (fun i : Fin 3 => (ringReduceScatter (· + ·) 3 2 i
        (List.ofFn ![i.val, 7])).bind (ringAllGather (· + ·) 3 2 i)) P ∧
      ((∀ i, ∃ out, P i = .done out) ∨ ∃ Q, Meet P Q) :=
  ⟨_, .refl, ring_deadlock_free (by decide) 2 (· + ·) (fun i : Fin 3 => ![i.val, 7]) .refl⟩

end CrossMachine.Collectives
