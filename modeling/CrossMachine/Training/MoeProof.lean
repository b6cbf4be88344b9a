import CrossMachine.Lib.Instances
import CrossMachine.Lib.Loops
import CrossMachine.Training.Moe
import Mathlib.Data.Fin.VecNotation
import Mathlib.Data.List.GetD

/-!
# Every row comes back from its expert

What a rank has received when it has come to rank `r` of a phase is known in advance: the
counts, rows or results of the ranks below `r`. Two ranks that meet in a phase agree on the
lengths of what they exchange, empty buffers included, since each sends as many rows as the
other has been told, and gets as many results as it has sent rows. So each phase goes through
(`meets_forEach`), one after the other.
-/

namespace CrossMachine.Training

open Lib Collectives
open Relation (ReflTransGen)

variable {n w : Nat} {F β γ : Type*}

/-! ## Buffers -/

theorem asFloats_flatten (rows : List (Vector F w)) (k : List F → Proc (Fin n) (Word F) β) :
    asFloats (flattenRows rows) k = k (rows.flatMap Vector.toList) := by
  have hmap : flattenRows rows = (rows.flatMap Vector.toList).map Word.float := by
    rw [flattenRows, List.map_flatMap]
  have hread (buf : List F) : (buf.map Word.float).mapM Word.toFloat? = some buf := by
    induction buf with
    | nil => rfl
    | cons x buf ih =>
        rw [List.map_cons, List.mapM_cons, ih]
        rfl
  rw [asFloats, hmap, hread]

theorem length_flattenRows (rows : List (Vector F w)) :
    (flattenRows rows).length = rows.length * w := by
  induction rows with
  | nil => simp [flattenRows]
  | cons row rows ih =>
      rw [flattenRows, List.flatMap_cons, List.length_append, ← flattenRows, ih, List.length_map,
        Vector.length_toList, List.length_cons, Nat.succ_mul, Nat.add_comm]

section

variable [Zero F]

/-- The row at an index. -/
def rowAt (rows : List (Vector F w)) (i : Nat) : Vector F w := rows.getD i (Vector.replicate w 0)

theorem rowAt_of_lt {rows : List (Vector F w)} {i : Nat} (h : i < rows.length) :
    rows[i]? = some (rowAt rows i) := by
  rw [rowAt, List.getD_eq_getElem _ _ h, List.getElem?_eq_getElem h]

theorem readRows_eq {rows : List (Vector F w)} {indices : List Nat}
    (h : ∀ i ∈ indices, i < rows.length) (k : List (Vector F w) → Proc (Fin n) (Word F) β) :
    readRows rows indices k = k (indices.map (rowAt rows)) := by
  rw [readRows, mapM_eq_some fun i hi => rowAt_of_lt (h i hi)]

theorem getD_flatten {rows : List (Vector F w)} {k : Nat} (hk : k < rows.length) (j : Fin w) :
    (rows.flatMap Vector.toList).getD (k * w + j.val) 0 = rows[k][j.val] := by
  induction rows generalizing k with
  | nil => simp at hk
  | cons row rows ih =>
      have hj := j.isLt
      rw [List.flatMap_cons]
      cases k with
      | zero =>
          rw [Nat.zero_mul, Nat.zero_add, List.getD_append _ _ _ _ (by simp)]
          simp
      | succ k =>
          rw [Nat.succ_mul, List.getD_append_right _ _ _ _ (by simp; omega)]
          have hlen : k * w + w + j.val - row.toList.length = k * w + j.val := by
            rw [Vector.length_toList]
            omega
          rw [hlen]
          exact ih (Nat.lt_of_succ_lt_succ hk)

theorem rowsOf_flatten (rows : List (Vector F w)) :
    rowsOf w rows.length (rows.flatMap Vector.toList) = rows := by
  refine List.ext_getElem (by simp [rowsOf]) fun k hk hk' => ?_
  ext j hj
  simp only [rowsOf, List.getElem_map, List.getElem_range, Vector.getElem_ofFn]
  exact getD_flatten hk' ⟨j, hj⟩

end

/-- Every index is written with a value of its own. -/
theorem getElem?_writeRows (output : List (Vector F w)) (indices : List Nat)
    (g : Nat → Vector F w) (k : Nat) :
    (writeRows output indices (indices.map g))[k]? =
      if k ∈ indices then output[k]?.map fun _ => g k else output[k]? := by
  induction indices generalizing output with
  | nil => simp [writeRows]
  | cons i indices ih =>
      have hrest := ih (output.set i (g i))
      rw [writeRows, List.map_cons, List.zip_cons_cons, List.foldl_cons]
      refine hrest.trans ?_
      rw [List.getElem?_set']
      by_cases hmem : k ∈ indices
      · rw [if_pos hmem, if_pos (List.mem_cons_of_mem _ hmem)]
        by_cases heq : i = k
        · subst heq
          cases output[i]? <;> simp
        · rw [if_neg heq]
      · rw [if_neg hmem]
        by_cases heq : i = k
        · subst heq
          cases output[i]? <;> simp
        · rw [if_neg heq, if_neg (by simp [hmem, Ne.symm heq])]

/-! ## Exchanges -/

theorem exchangeWith_bind (me r : Nat) (data : List (Word F)) (len : Nat)
    (k : List (Word F) → Proc (Fin n) (Word F) β) (l : β → Proc (Fin n) (Word F) γ) :
    (exchangeWith me r data len k).bind l = exchangeWith me r data len fun x => (k x).bind l := by
  have hsend (p : Proc (Fin n) (Word F) β) :
      (sendUnlessEmpty r data p).bind l = sendUnlessEmpty r data (p.bind l) := by
    unfold sendUnlessEmpty sendTo
    split_ifs <;> rfl
  have hrecv (q : List (Word F) → Proc (Fin n) (Word F) β) :
      (recvUnlessEmpty r len q).bind l = recvUnlessEmpty r len fun x => (q x).bind l := by
    unfold recvUnlessEmpty recvFrom
    split_ifs <;> rfl
  unfold exchangeWith
  split_ifs
  · rw [hsend, hrecv]
  · simp only [hrecv, hsend]

/-- A block that is sent and received, or not sent and not waited for. -/
theorem meets_unlessEmpty {a b : Fin n} {P : Fin n → Proc (Fin n) (Word F) β}
    {data : List (Word F)} {len : Nat} (hlen : data.length = len) {p : Proc (Fin n) (Word F) β}
    {q : List (Word F) → Proc (Fin n) (Word F) β} (hPa : P a = sendUnlessEmpty b.val data p)
    (hPb : P b = recvUnlessEmpty a.val len q) :
    ReflTransGen Meet P (Function.update (Function.update P a p) b (q data)) := by
  subst hlen
  by_cases hempty : data = []
  · subst hempty
    have hstay : Function.update (Function.update P a p) b (q []) = P := by
      have hp : P a = p := hPa
      have hq : P b = q [] := hPb
      rw [← hp, ← hq, Function.update_eq_self, Function.update_eq_self]
    rw [hstay]
  · refine .single (.intro ?_ ?_)
    · rw [hPa, sendUnlessEmpty, if_neg (by simpa using hempty), sendTo_val]
    · rw [hPb, recvUnlessEmpty, if_neg (by simpa using hempty), recvFrom_val]

/-- Two ranks that have come to each other exchange. -/
theorem meets_exchangeWith {a b : Fin n} (hab : a < b) {P : Fin n → Proc (Fin n) (Word F) β}
    {dataA dataB : List (Word F)} {lenA lenB : Nat} (hA : dataA.length = lenB)
    (hB : dataB.length = lenA) {k l : List (Word F) → Proc (Fin n) (Word F) β}
    (hPa : P a = exchangeWith a b dataA lenA k) (hPb : P b = exchangeWith b a dataB lenB l) :
    ReflTransGen Meet P
      (Function.update (Function.update P a (k dataB)) b (l dataA)) := by
  have hne : a ≠ b := ne_of_lt hab
  have hlt : a.val < b.val := hab
  rw [exchangeWith, if_pos hlt] at hPa
  rw [exchangeWith, if_neg (by omega)] at hPb
  refine (meets_unlessEmpty hA hPa hPb).trans ?_
  have hback := meets_unlessEmpty (P := Function.update (Function.update P a
    (recvUnlessEmpty b lenA k)) b (sendUnlessEmpty a dataB (l dataA))) hB
    (Function.update_self ..) (by rw [Function.update_of_ne hne, Function.update_self])
  refine hback.trans ?_
  rw [Function.update_idem, Function.update_comm (Ne.symm hne), Function.update_idem]

/-! ## Buckets -/

/-- The indices of the rows for rank `r`. -/
def bucketOf (destRank : List Nat) (r : Nat) : List Nat :=
  (List.range destRank.length).filter fun i => destRank[i]? = some r

theorem bucketOf_append (destRank : List Nat) (d r : Nat) :
    bucketOf (destRank ++ [d]) r =
      bucketOf destRank r ++ if d = r then [destRank.length] else [] := by
  rw [bucketOf, List.length_append, List.length_singleton, List.range_succ, List.filter_append]
  congr 1
  · refine List.filter_congr fun i hi => ?_
    rw [List.getElem?_append_left (List.mem_range.mp hi)]
  · by_cases h : d = r <;> simp [h]

theorem buckets_eq (world : Nat) (destRank : List Nat) :
    buckets world destRank = (List.range world).map (bucketOf destRank) := by
  induction destRank using List.reverseRecOn with
  | nil =>
      exact (List.eq_replicate_iff.mpr ⟨by simp, by simp [bucketOf]⟩).symm
  | append_singleton destRank d ih =>
      have hpush : buckets world (destRank ++ [d]) =
          (buckets world destRank).modify d (· ++ [destRank.length]) := by
        rw [buckets, List.zipIdx_append, List.foldl_append]
        simp [buckets]
      rw [hpush, ih]
      refine List.ext_getElem? fun r => ?_
      rw [List.getElem?_modify, List.getElem?_map, List.getElem?_map]
      by_cases hr : r < world
      · rw [List.getElem?_range hr, Option.map_some, Option.map_some, bucketOf_append]
        by_cases h : d = r <;> simp [h]
      · rw [List.getElem?_eq_none (by rw [List.length_range]; omega)]
        rfl

/-! ## What the ranks have for each other -/

section

variable (dest : Fin n → List (Fin n))

/-- The indices of the rows that rank `i` has for rank `r`. -/
def indicesTo (i r : Fin n) : List Nat := bucketOf ((dest i).map Fin.val) r.val

theorem mem_indicesTo {i r : Fin n} {k : Nat} : k ∈ indicesTo dest i r ↔ (dest i)[k]? = some r := by
  rw [indicesTo, bucketOf, List.mem_filter, List.mem_range, List.length_map, List.getElem?_map]
  by_cases hk : k < (dest i).length
  · rw [List.getElem?_eq_getElem hk]
    simp [hk, Fin.ext_iff]
  · rw [List.getElem?_eq_none (by omega)]
    simp

theorem getD_buckets (i r : Fin n) :
    (buckets n ((dest i).map Fin.val)).getD r.val [] = indicesTo dest i r := by
  rw [buckets_eq, List.getD_eq_getElem?_getD, List.getElem?_map, List.getElem?_range r.isLt]
  rfl

theorem getD_sendCounts (i r : Fin n) :
    ((buckets n ((dest i).map Fin.val)).map List.length).getD r.val 0 =
      (indicesTo dest i r).length := by
  rw [buckets_eq, List.getD_eq_getElem?_getD, List.getElem?_map, List.getElem?_map,
    List.getElem?_range r.isLt]
  rfl

end

/-! ## Groups in the order of the ranks -/

theorem take_finRange_succ (r : Fin n) :
    (List.finRange n).take (r.val + 1) = (List.finRange n).take r.val ++ [r] := by
  rw [List.take_add_one]
  simp

/-- The group of rank `r` comes behind those of the ranks below it. -/
theorem flatMap_group {γ : Type*} (g : Fin n → List γ) (r : Fin n) :
    ∃ rest, (List.finRange n).flatMap g =
      ((List.finRange n).take r.val).flatMap g ++ (g r ++ rest) := by
  refine ⟨((List.finRange n).drop (r.val + 1)).flatMap g, ?_⟩
  conv_lhs => rw [← List.take_append_drop (r.val + 1) (List.finRange n)]
  rw [take_finRange_succ, List.flatMap_append, List.flatMap_append, List.flatMap_singleton,
    List.append_assoc]

theorem takeRows_group {w' : Nat} (g : Fin n → List (Vector F w)) (h : Vector F w → Vector F w')
    (r : Fin n) (k : List (Vector F w') → Proc (Fin n) (Word F) β) :
    takeRows (((List.finRange n).flatMap g).map h)
      (((List.finRange n).take r.val).flatMap g).length (g r).length k = k ((g r).map h) := by
  obtain ⟨rest, hsplit⟩ := flatMap_group g r
  rw [takeRows, if_pos]
  · rw [hsplit, List.map_append, List.drop_left' (by rw [List.length_map]), List.map_append,
      List.take_left' (by rw [List.length_map])]
  · rw [hsplit, List.length_map, List.length_append, List.length_append]
    omega

/-! ## The phases -/

section

variable [Zero F] {hidden out : Nat} (dest : Fin n → List (Fin n))
  (X : Fin n → List (Vector F hidden)) (f : Fin n → Vector F hidden → Vector F out)

/-- The rows that rank `i` has for rank `r`. -/
def rowsTo (i r : Fin n) : List (Vector F hidden) := (indicesTo dest i r).map (rowAt (X i))

theorem length_rowsTo (i r : Fin n) : (rowsTo dest X i r).length = (indicesTo dest i r).length :=
  List.length_map _

/-- The counts that rank `i` has received when it has come to rank `r`. -/
def countsAt (i : Fin n) (r : Nat) : List Nat :=
  ((List.finRange n).take r).map fun r' => (indicesTo dest r' i).length

/-- The rows that rank `i` has received when it has come to rank `r`. -/
def receivedAt (i : Fin n) (r : Nat) : List (Vector F hidden) :=
  ((List.finRange n).take r).flatMap fun r' => rowsTo dest X r' i

theorem countsAt_succ (i r : Fin n) :
    countsAt dest i (r.val + 1) = countsAt dest i r.val ++ [(indicesTo dest r i).length] := by
  rw [countsAt, take_finRange_succ, List.map_append]
  rfl

theorem receivedAt_succ (i r : Fin n) :
    receivedAt dest X i (r.val + 1) = receivedAt dest X i r.val ++ rowsTo dest X r i := by
  rw [receivedAt, take_finRange_succ, List.flatMap_append, List.flatMap_singleton]
  rfl

theorem getD_counts (i r : Fin n) :
    (countsAt dest i n).getD r.val 0 = (indicesTo dest r i).length := by
  rw [countsAt, List.take_of_length_le (by simp), List.getD_eq_getElem?_getD, List.getElem?_map]
  simp

omit [Zero F] in
/-- All ranks know how many rows they will get. -/
theorem counts_meets : ReflTransGen Meet
    (fun i : Fin n => (Proc.forEach (countsBody i ((buckets n ((dest i).map Fin.val)).map
      List.length)) (List.range n) [] : Proc (Fin n) (Word F) (List Nat)))
    (fun i => .done (countsAt dest i n)) := by
  refine meets_forEach (fun i : Fin n => countsBody i _) (countsAt dest) (fun i => ?_)
    fun a b hab k l P hPa hPb => ?_
  · rw [countsBody, if_pos rfl, getD_sendCounts, countsAt_succ]
  · have hne : a.val ≠ b.val := Nat.ne_of_lt hab
    rw [countsBody, if_neg (Ne.symm hne), getD_sendCounts, exchangeWith_bind] at hPa
    rw [countsBody, if_neg hne, getD_sendCounts, exchangeWith_bind] at hPb
    rw [countsAt_succ, countsAt_succ]
    refine meets_exchangeWith hab ?_ ?_ hPa hPb
    · rfl
    · rfl

section

variable (hdest : ∀ i, (dest i).length = (X i).length)

include hdest

theorem readRows_indicesTo (i r : Fin n)
    (k : List (Vector F hidden) → Proc (Fin n) (Word F) β) :
    readRows (X i) ((buckets n ((dest i).map Fin.val)).getD r.val []) k =
      k (rowsTo dest X i r) := by
  rw [getD_buckets]
  refine readRows_eq (fun j hj => ?_) k
  obtain ⟨hlt, -⟩ := List.getElem?_eq_some_iff.mp ((mem_indicesTo dest).mp hj)
  rwa [← hdest i]

theorem dispatchBody_other {i r : Fin n} (hne : r ≠ i) (received : List (Vector F hidden)) :
    (dispatchBody i ⟨hidden, X i⟩ (buckets n ((dest i).map Fin.val)) (countsAt dest i n) r
      received : Proc (Fin n) (Word F) (List (Vector F hidden))) =
    exchangeWith i r (flattenRows (rowsTo dest X i r)) ((rowsTo dest X r i).length * hidden)
      fun data => asFloats data fun buf =>
        .done (received ++ rowsOf hidden (rowsTo dest X r i).length buf) := by
  have hval : r.val ≠ i.val := fun h => hne (Fin.ext h)
  rw [dispatchBody, readRows_indicesTo dest X hdest, if_neg hval, getD_counts, length_rowsTo]

/-- All ranks get the rows that the others have for them. -/
theorem dispatch_meets : ReflTransGen Meet
    (fun i : Fin n => (Proc.forEach (dispatchBody i ⟨hidden, X i⟩ (buckets n ((dest i).map Fin.val))
      (countsAt dest i n)) (List.range n) [] : Proc (Fin n) (Word F) (List (Vector F hidden))))
    (fun i => .done (receivedAt dest X i n)) := by
  refine meets_forEach (σ := List (Vector F hidden)) (fun i : Fin n => dispatchBody i ⟨hidden, X i⟩
    (buckets n ((dest i).map Fin.val)) (countsAt dest i n)) (receivedAt dest X) (fun i => ?_)
    fun a b hab k l P hPa hPb => ?_
  · rw [dispatchBody, readRows_indicesTo dest X hdest, if_pos rfl, receivedAt_succ]
  · have hne : a ≠ b := ne_of_lt hab
    rw [dispatchBody_other dest X hdest (Ne.symm hne), exchangeWith_bind] at hPa
    rw [dispatchBody_other dest X hdest hne, exchangeWith_bind] at hPb
    have hmeets := meets_exchangeWith hab (length_flattenRows _) (length_flattenRows _) hPa hPb
    simp only [asFloats_flatten, rowsOf_flatten, Proc.bind_done] at hmeets
    rwa [receivedAt_succ, receivedAt_succ]

end

/-- The output of rank `i` when it has come to rank `r`: the rows of the ranks from `r` on are
still zero. -/
def outputAt (i : Fin n) (r : Nat) : List (Vector F out) :=
  List.zipWith (fun d row => if d.val < r then f d row else Vector.replicate out 0) (dest i) (X i)

section

variable (hdest : ∀ i, (dest i).length = (X i).length)

include hdest

theorem outputAt_zero (i : Fin n) :
    outputAt dest X f i 0 = List.replicate (X i).length (Vector.replicate out 0) := by
  refine List.eq_replicate_iff.mpr ⟨?_, ?_⟩
  · rw [outputAt, List.length_zipWith, hdest i, Nat.min_self]
  · intro row hrow
    obtain ⟨k, hk⟩ := List.getElem?_of_mem hrow
    rw [outputAt, List.getElem?_zipWith] at hk
    cases hd : (dest i)[k]? <;> cases hx : (X i)[k]? <;> simp [hd, hx] at hk
    exact hk.symm

theorem outputAt_succ (i r : Fin n) :
    writeRows (outputAt dest X f i r.val) (indicesTo dest i r) ((rowsTo dest X i r).map (f r)) =
      outputAt dest X f i (r.val + 1) := by
  refine List.ext_getElem? fun k => ?_
  rw [rowsTo, List.map_map, getElem?_writeRows]
  simp only [mem_indicesTo, outputAt, List.getElem?_zipWith]
  cases hd : (dest i)[k]? with
  | none => simp
  | some d =>
      have hlt : k < (X i).length := by
        rw [← hdest i]
        exact (List.getElem?_eq_some_iff.mp hd).1
      rw [rowAt_of_lt hlt]
      by_cases heq : d = r
      · subst heq
        simp
      · have hval : d.val ≠ r.val := fun h => heq (Fin.ext h)
        have hiff : d.val < r.val + 1 ↔ d.val < r.val := by omega
        simp [heq, hiff]

end

/-- The matrix that rank `i` has processed. -/
abbrev processedBy (i : Fin n) : Matrix F := ⟨out, (receivedAt dest X i n).map (f i)⟩

theorem takeRows_processed (i r : Fin n)
    (k : List (Vector F out) → Proc (Fin n) (Word F) β) :
    takeRows ((receivedAt dest X i n).map (f i)) (receivedAt dest X i r.val).length
      (indicesTo dest r i).length k = k ((rowsTo dest X r i).map (f i)) := by
  have hall : receivedAt dest X i n = (List.finRange n).flatMap fun r' => rowsTo dest X r' i := by
    rw [receivedAt, List.take_of_length_le (by simp)]
  rw [hall, ← length_rowsTo dest X r i]
  exact takeRows_group (fun r' => rowsTo dest X r' i) (f i) r k

theorem combineBody_self (i : Fin n) (output : List (Vector F out)) :
    (combineBody i (buckets n ((dest i).map Fin.val))
      ((buckets n ((dest i).map Fin.val)).map List.length) (countsAt dest i n)
      (processedBy dest X f i) i ((receivedAt dest X i i.val).length, output) :
      Proc (Fin n) (Word F) (Nat × List (Vector F out))) =
    .done ((receivedAt dest X i (i.val + 1)).length,
      writeRows output (indicesTo dest i i) ((rowsTo dest X i i).map (f i))) := by
  simp only [combineBody, if_true, getD_buckets]
  refine (takeRows_processed dest X f i i _).trans ?_
  rw [receivedAt_succ, List.length_append, length_rowsTo]

theorem combineBody_other {i r : Fin n} (hne : r ≠ i) (output : List (Vector F out)) :
    (combineBody i (buckets n ((dest i).map Fin.val))
      ((buckets n ((dest i).map Fin.val)).map List.length) (countsAt dest i n)
      (processedBy dest X f i) r ((receivedAt dest X i r.val).length, output) :
      Proc (Fin n) (Word F) (Nat × List (Vector F out))) =
    exchangeWith i r (flattenRows ((rowsTo dest X r i).map (f i)))
      (((rowsTo dest X i r).map (f r)).length * out) fun data => asFloats data fun buf =>
        .done ((receivedAt dest X i (r.val + 1)).length, writeRows output (indicesTo dest i r)
          (rowsOf out ((rowsTo dest X i r).map (f r)).length buf)) := by
  have hval : r.val ≠ i.val := fun h => hne (Fin.ext h)
  simp only [combineBody, if_neg hval, getD_buckets, getD_counts, getD_sendCounts]
  refine (takeRows_processed dest X f i r _).trans ?_
  rw [receivedAt_succ, List.length_append, length_rowsTo, List.length_map, length_rowsTo]

/-- All ranks get the results of their rows. -/
theorem combine_meets (hdest : ∀ i, (dest i).length = (X i).length) : ReflTransGen Meet
    (fun i : Fin n => (Proc.forEach (combineBody i (buckets n ((dest i).map Fin.val))
      ((buckets n ((dest i).map Fin.val)).map List.length) (countsAt dest i n)
      (processedBy dest X f i)) (List.range n)
      (0, List.replicate (X i).length (Vector.replicate out 0)) :
      Proc (Fin n) (Word F) (Nat × List (Vector F out))))
    (fun i => .done ((receivedAt dest X i n).length, outputAt dest X f i n)) := by
  have hstart (i : Fin n) : (0, List.replicate (X i).length (Vector.replicate out 0)) =
      ((receivedAt dest X i 0).length, outputAt dest X f i 0) := by
    rw [outputAt_zero dest X f hdest]
    rfl
  simp only [hstart]
  refine meets_forEach (σ := Nat × List (Vector F out)) (fun i : Fin n => combineBody i
    (buckets n ((dest i).map Fin.val)) ((buckets n ((dest i).map Fin.val)).map List.length)
    (countsAt dest i n) (processedBy dest X f i))
    (fun i r => ((receivedAt dest X i r).length, outputAt dest X f i r)) (fun i => ?_)
    fun a b hab k l P hPa hPb => ?_
  · rw [combineBody_self, outputAt_succ dest X f hdest]
  · have hne : a ≠ b := ne_of_lt hab
    rw [combineBody_other dest X f (Ne.symm hne), exchangeWith_bind] at hPa
    rw [combineBody_other dest X f hne, exchangeWith_bind] at hPb
    have hmeets := meets_exchangeWith hab (length_flattenRows _) (length_flattenRows _) hPa hPb
    simp only [asFloats_flatten, rowsOf_flatten, Proc.bind_done,
      outputAt_succ dest X f hdest] at hmeets
    exact hmeets

theorem outputAt_last (i : Fin n) :
    outputAt dest X f i n = List.zipWith f (dest i) (X i) := by
  simp [outputAt]

end

end CrossMachine.Training
