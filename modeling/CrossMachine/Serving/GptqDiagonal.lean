import CrossMachine.Lib.Instances
import CrossMachine.Serving.GptqBound
import Mathlib.Algebra.BigOperators.Ring.Finset

/-!
# GPTQ with orthogonal columns

When the calibration columns are orthogonal, the Hessian is diagonal. The elimination then finds
every pivot on the diagonal, has nothing to subtract, and leaves a diagonal inverse, whatever the
guard does to a pivot. So no column pushes anything onto another, the groups are found from the
weights as they were, and what is left is rounding to nearest.
-/

namespace CrossMachine.Serving

open Lib
open Training (Matrix)

variable {K : Type} [Field K] [LinearOrder K]

/-! ## The Hessian -/

/-- The products of the columns. -/
theorem entry_twiceGram {x : Matrix K} {i j : Nat} (hi : i < x.cols) (hj : j < x.cols) :
    (twiceGram x).entry i j = 2 * ∑ s ∈ Finset.range x.height, x.entry s i * x.entry s j := by
  have hskip : (fun (h : K) s => if x.entry s i = 0 then h
      else h + 2 * x.entry s i * x.entry s j) =
        fun h s => h + 2 * x.entry s i * x.entry s j := by
    funext h s
    split
    · rename_i hzero
      rw [hzero, mul_zero, zero_mul, add_zero]
    · rfl
  rw [twiceGram, Matrix.entry_ofFn_of_lt hi hj, hskip, Lib.foldl_range_add, zero_add,
    Finset.mul_sum]
  simp only [mul_assoc]

theorem entry_computeHessian {x : Matrix K} (dampFrac : K) {i j : Nat} (hi : i < x.cols)
    (hj : j < x.cols) :
    (computeHessian x dampFrac).entry i j =
      2 * ∑ s ∈ Finset.range x.height, x.entry s i * x.entry s j +
        if i = j then dampFrac * diagMean (twiceGram x) x.cols else 0 := by
  rw [computeHessian, Matrix.entry_ofFn_of_lt hi hj, entry_twiceGram hi hj]
  split
  · rfl
  · rw [add_zero]

/-- Nothing stands off the diagonal. -/
def Diagonal (n : Nat) (m : Matrix K) : Prop := ∀ i < n, ∀ j < n, i ≠ j → m.entry i j = 0

theorem diagonal_computeHessian {x : Matrix K} (dampFrac : K) (horth : ∀ i j, i ≠ j →
    ∑ s ∈ Finset.range x.height, x.entry s i * x.entry s j = 0) :
    Diagonal x.cols (computeHessian x dampFrac) := by
  intro i hi j hj hne
  rw [entry_computeHessian dampFrac hi hj, horth i j hne, if_neg hne, mul_zero, add_zero]

/-! ## The inverse -/

section

variable [IsStrictOrderedRing K]

theorem guardPivot_ne_zero (diag : K) : guardPivot diag ≠ 0 := by
  have htiny : (0 : K) < 1 / 10 ^ 12 := by positivity
  rw [guardPivot]
  split
  · split
    · exact htiny.ne'
    · exact (neg_neg_of_pos htiny).ne
  · rename_i hfar
    intro hzero
    rw [hzero, abs_zero] at hfar
    exact hfar htiny

/-- The pivot is on the diagonal when there is nothing below it. -/
theorem findPivot_eq {a : Matrix K} {n col : Nat} (hcol : col < n) (ha : Diagonal n a) :
    findPivot a n col = col := by
  rw [findPivot]
  have hl : ∀ r ∈ List.range' (col + 1) (n - (col + 1)), col < r ∧ r < n := by
    intro r hr
    rw [List.mem_range'_1] at hr
    omega
  generalize List.range' (col + 1) (n - (col + 1)) = l at hl ⊢
  induction l with
  | nil => rfl
  | cons r l ih =>
      obtain ⟨hlow, hhigh⟩ := hl r List.mem_cons_self
      rw [List.foldl_cons]
      dsimp only
      rw [ha r hhigh col hcol (by omega), abs_zero, if_neg (not_lt.mpr (abs_nonneg _))]
      exact ih fun r hr => hl r (List.mem_cons_of_mem _ hr)

/-- A round of the elimination scales one row. -/
theorem entry_invertColumn {n col : Nat} (hcol : col < n) {s : Matrix K × Matrix K}
    (ha : Diagonal n s.1) :
    ∃ diag, diag ≠ 0 ∧ ∀ r < n, ∀ j < n,
      (invertColumn n s col).1.entry r j =
        (if r = col then s.1.entry r j / diag else s.1.entry r j) ∧
      (invertColumn n s col).2.entry r j =
        (if r = col then s.2.entry r j / diag else s.2.entry r j) := by
  have hswap (m : Matrix K) : ∀ r < n, ∀ j < n, (swapRows m n col col).entry r j = m.entry r j := by
    intro r hr j hj
    rw [swapRows, Matrix.entry_ofFn_of_lt hr hj]
    split_ifs with h <;> simp [h]
  -- the other rows have nothing in the column
  have hround (b : Matrix K) (diag : K) (r : Nat) (hr : r < n) (j : Nat) (hj : j < n) :
      (eliminate (swapRows s.1 n col col) (swapRows b n col col) n col diag).entry r j =
        if r = col then b.entry r j / diag else b.entry r j := by
    rw [eliminate, Matrix.entry_ofFn_of_lt hr hj]
    dsimp only
    split
    · rename_i heq
      rw [heq, hswap b col hcol j hj]
    · rename_i hne
      rw [if_pos (by rw [hswap s.1 r hr col hcol, ha r hr col hcol hne]), hswap b r hr j hj]
  rw [invertColumn, findPivot_eq hcol ha]
  exact ⟨_, guardPivot_ne_zero _, fun r hr j hj =>
    ⟨hround s.1 _ r hr j hj, hround s.2 _ r hr j hj⟩⟩

theorem invert_diagonal {h : Matrix K} (hdiag : Diagonal h.height h) :
    Diagonal h.height (invert h) ∧ ∀ i < h.height, (invert h).entry i i ≠ 0 := by
  rw [invert]
  generalize h.height = n at hdiag
  -- both matrices stay diagonal, column by column
  suffices hloop : ∀ l : List Nat, (∀ col ∈ l, col < n) → ∀ s : Matrix K × Matrix K,
      Diagonal n s.1 → Diagonal n s.2 → (∀ i < n, s.2.entry i i ≠ 0) →
      Diagonal n (l.foldl (invertColumn n) s).2 ∧
        ∀ i < n, (l.foldl (invertColumn n) s).2.entry i i ≠ 0 by
    refine hloop _ (fun col => List.mem_range.mp) _ hdiag (fun i hi j hj hne => ?_)
      fun i hi => ?_
    · rw [Matrix.entry_ofFn_of_lt hi hj, if_neg hne]
    · rw [Matrix.entry_ofFn_of_lt hi hi, if_pos rfl]
      exact one_ne_zero
  intro l hl
  induction l with
  | nil => exact fun s _ hinv hne => ⟨hinv, hne⟩
  | cons col l ih =>
      intro s ha hinv hne
      obtain ⟨diag, hdiag, hentry⟩ := entry_invertColumn (hl col List.mem_cons_self) ha
      refine ih (fun c hc => hl c (List.mem_cons_of_mem _ hc)) _ (fun i hi j hj hij => ?_)
        (fun i hi j hj hij => ?_) fun i hi => ?_
      · rw [(hentry i hi j hj).1, ha i hi j hj hij, zero_div, ite_self]
      · rw [(hentry i hi j hj).2, hinv i hi j hj hij, zero_div, ite_self]
      · rw [(hentry i hi i hi).2]
        split
        · exact div_ne_zero (hne i hi) hdiag
        · exact hne i hi

end

/-! ## The columns of a row -/

section

variable [FloorRing K] {hinv : Matrix K} {row : Nat → K} {cols groupSize bits c g : Nat}
  {a : RowArrays K} {p : QuantParams K}

omit [LinearOrder K] [FloorRing K] in
theorem getD_weights (hc : c < cols) : ((List.range cols).map row).getD c 0 = row c := by
  rw [List.getD_eq_getElem _ _ (by simpa using hc), List.getElem_map, List.getElem_range]

/-- A column is rounded for itself. -/
theorem quantizeColumn_diagonal (hsize : 0 < groupSize) (hdiag : Diagonal cols hinv)
    (hc : c < cols) (hne : hinv.entry c c ≠ 0) :
    quantizeColumn hinv cols groupSize bits ⟨(List.range cols).map row, a⟩ c =
      (startGroup cols groupSize bits ⟨(List.range cols).map row, a⟩ c).bind fun arrays =>
        (quantizeScalar (row c) (arrays.params (c / groupSize)) bits).map fun q =>
          ⟨(List.range cols).map row, arrays.addCodes [q]⟩ := by
  have hkeep (err : K) : ((List.range cols).map row).mapIdx (fun j wj =>
      if c < j then wj - err * hinv.entry c j else wj) = (List.range cols).map row := by
    refine List.ext_getElem (by simp) fun j hj hj' => ?_
    rw [List.getElem_mapIdx]
    split
    · rename_i hlt
      have hjc : j < cols := by simpa using hj'
      rw [hdiag c hc j hjc (by omega), mul_zero, sub_zero]
    · rfl
  simp only [quantizeColumn, groupIndex, if_neg hsize.ne', exactDiv, if_neg hne, hkeep,
    getD_weights hc, Option.bind_eq_bind, Option.bind_some]
  congr 1
  funext arrays
  cases quantizeScalar (row c) (arrays.params (c / groupSize)) bits <;> rfl

/-- The columns of a group after its first. -/
theorem columns_diagonal (row : Nat → K) (bits : Nat) (hsize : 0 < groupSize)
    (hdiag : Diagonal cols hinv) (hne : ∀ c < cols, hinv.entry c c ≠ 0)
    (hparams : a.params g = p) (n start : Nat) (hcols : start + n ≤ cols)
    (hgroup : ∀ c, start ≤ c → c < start + n → c / groupSize = g ∧ c % groupSize ≠ 0) :
    (List.range' start n).foldlM (quantizeColumn hinv cols groupSize bits)
        ⟨(List.range cols).map row, a⟩ =
      ((List.range' start n).mapM fun c => quantizeScalar (row c) p bits).map fun codes =>
        ⟨(List.range cols).map row, a.addCodes codes⟩ := by
  induction n generalizing start a with
  | zero => simp [RowArrays.addCodes]
  | succ n ih =>
      obtain ⟨hown, hinside⟩ := hgroup start le_rfl (by omega)
      rw [List.range'_succ, List.foldlM_cons, List.mapM_cons,
        quantizeColumn_diagonal hsize hdiag (by omega) (hne start (by omega)), startGroup,
        if_neg hinside, Option.bind_some, hown, hparams]
      cases quantizeScalar (row start) p bits with
      | none => rfl
      | some q =>
          have hrest := @ih (a.addCodes [q]) hparams (start + 1) (by omega)
            fun c hlow hhigh => hgroup c (by omega) (by omega)
          simp only [Option.map_some, Option.bind_eq_bind, Option.bind_some, hrest]
          cases (List.range' (start + 1) n).mapM fun c => quantizeScalar (row c) p bits with
          | none => rfl
          | some codes => simp [RowArrays.addCodes]

/-- The first column of a group finds its parameters, from the weights as they were. -/
theorem startGroup_first (hsize : 0 < groupSize) :
    startGroup cols groupSize bits ⟨(List.range cols).map row, a⟩ (g * groupSize) =
      (groupParams ((groupColumns cols groupSize g).map row) bits).map a.addParams := by
  have hvalues : (groupColumns cols groupSize g).map
      (fun c => ((List.range cols).map row).getD c 0) =
        (groupColumns cols groupSize g).map row :=
    List.map_congr_left fun c hc => getD_weights ((mem_groupColumns hsize).mp hc).1
  rw [startGroup, if_pos (Nat.mul_mod_left g groupSize), ← hvalues]
  change (groupParams ((groupColumns cols groupSize g).map
    fun c => ((List.range cols).map row).getD c 0) bits).bind (fun p => some (a.addParams p)) = _
  cases groupParams ((groupColumns cols groupSize g).map
    fun c => ((List.range cols).map row).getD c 0) bits <;> rfl

/-- The columns of a group are the group of rounding to nearest. -/
theorem group_diagonal (hsize : 0 < groupSize) (hdiag : Diagonal cols hinv)
    (hne : ∀ c < cols, hinv.entry c c ≠ 0) (hscales : a.scales.length = g)
    (hzeros : a.zeros.length = g) (hg : g * groupSize < cols) :
    (groupColumns cols groupSize g).foldlM (quantizeColumn hinv cols groupSize bits)
        ⟨(List.range cols).map row, a⟩ =
      (rtnGroup row cols groupSize bits a g).map fun a' => ⟨(List.range cols).map row, a'⟩ := by
  -- the group has a first column, where it begins
  obtain ⟨n, hn⟩ : ∃ n, min (g * groupSize + groupSize) cols - g * groupSize = n + 1 :=
    ⟨min (g * groupSize + groupSize) cols - g * groupSize - 1, by omega⟩
  have hcolumns : groupColumns cols groupSize g =
      g * groupSize :: List.range' (g * groupSize + 1) n := by
    rw [groupColumns, hn, List.range'_succ]
  have hstart (p : QuantParams K) : (a.addParams p).params g = p := by
    have h := params_addParams (p := p) hscales hzeros le_rfl []
    rwa [if_pos rfl, RowArrays.addCodes, List.append_nil] at h
  -- behind the first column, the group goes on as it has begun
  have hrest (a' : RowArrays K) (p : QuantParams K) (hparams : a'.params g = p) :=
    columns_diagonal row bits hsize hdiag hne hparams n (g * groupSize + 1)
      (by omega) fun c hlow hhigh => by
        have hown : c / groupSize = g := (Nat.div_eq_iff hsize).mpr ⟨by omega, by omega⟩
        have hdiv := Nat.div_add_mod c groupSize
        rw [hown, Nat.mul_comm] at hdiv
        exact ⟨hown, by omega⟩
  rw [rtnGroup, hcolumns, List.foldlM_cons,
    quantizeColumn_diagonal hsize hdiag hg (hne _ hg), startGroup_first hsize,
    Nat.mul_div_cancel g hsize, hcolumns]
  cases groupParams ((g * groupSize :: List.range' (g * groupSize + 1) n).map row) bits with
  | none => rfl
  | some p =>
      simp only [Option.bind_eq_bind, Option.bind_some, Option.map_some, List.mapM_cons, hstart]
      cases quantizeScalar (row (g * groupSize)) p bits with
      | none => rfl
      | some q =>
          simp only [Option.map_some, Option.bind_some,
            hrest ((a.addParams p).addCodes [q]) p (hstart p)]
          cases (List.range' (g * groupSize + 1) n).mapM fun c => quantizeScalar (row c) p bits with
          | none => rfl
          | some codes => simp [RowArrays.addCodes]

/-- The columns of a row, group by group. -/
theorem range_min_succ (hg : g * groupSize < cols) :
    List.range (min ((g + 1) * groupSize) cols) =
      List.range (g * groupSize) ++ groupColumns cols groupSize g := by
  have hnext : (g + 1) * groupSize = g * groupSize + groupSize := Nat.succ_mul g groupSize
  have happend := List.range'_append_1 (s := 0) (m := g * groupSize)
    (n := min (g * groupSize + groupSize) cols - g * groupSize)
  rw [Nat.zero_add] at happend
  rw [groupColumns, hnext, List.range_eq_range', List.range_eq_range', happend]
  congr 1
  omega

/-- **A row** is rounded to nearest. -/
theorem quantizeColumns_diagonal (hsize : 0 < groupSize) (hdiag : Diagonal cols hinv)
    (hne : ∀ c < cols, hinv.entry c c ≠ 0) (row : Nat → K) (bits : Nat) :
    (quantizeColumns hinv row cols groupSize bits cols).map RowState.arrays =
      rtnRow row cols groupSize bits ((cols + groupSize - 1) / groupSize) := by
  suffices h : ∀ g ≤ (cols + groupSize - 1) / groupSize,
      quantizeColumns hinv row cols groupSize bits (min (g * groupSize) cols) =
        (rtnRow row cols groupSize bits g).map fun a => ⟨(List.range cols).map row, a⟩ by
    have hall := h _ le_rfl
    rw [min_groups_cols hsize] at hall
    rw [hall, Option.map_map]
    exact Option.map_id' ..
  -- group by group, with the weights as they were
  intro g hg
  induction g with
  | zero => simp [quantizeColumns, rtnRow]
  | succ g ih =>
      have hfront := ih (by omega)
      have hinside : g * groupSize < cols := by
        have hle := (Nat.le_div_iff_mul_le hsize).mp hg
        rw [Nat.succ_mul] at hle
        omega
      rw [Nat.min_eq_left hinside.le] at hfront
      rw [quantizeColumns, range_min_succ hinside, List.foldlM_append, rtnRow, List.range_succ,
        List.foldlM_append]
      rw [quantizeColumns] at hfront
      rw [hfront]
      rw [← rtnRow]
      cases hrow : rtnRow row cols groupSize bits g with
      | none => rfl
      | some a =>
          have hquantized := rtnRow_quantized hsize hrow
          simp only [Option.map_some, Option.bind_eq_bind, Option.bind_some]
          rw [group_diagonal hsize hdiag hne hquantized.scales hquantized.zeros hinside,
            List.foldlM_cons]
          cases rtnGroup row cols groupSize bits a g <;> rfl

end

/-- **GPTQ degenerates.** With orthogonal calibration columns it is rounding to nearest. -/
theorem quantize_eq_rtn [IsStrictOrderedRing K] [FloorRing K] (groupSize bits : Nat)
    (weight calibration : Matrix K)
    (hcols : weight.cols = calibration.cols) (horth : ∀ i j, i ≠ j →
      ∑ s ∈ Finset.range calibration.height, calibration.entry s i * calibration.entry s j = 0) :
    quantize groupSize bits weight calibration = quantizeRtn weight groupSize bits := by
  have hheight : (computeHessian calibration (1 / 100)).height = weight.cols := by
    rw [hcols, computeHessian, Matrix.height_ofFn]
  obtain ⟨hdiag, hne⟩ := invert_diagonal (hheight ▸ hcols ▸
    diagonal_computeHessian (1 / 100) horth)
  rw [hheight] at hdiag hne
  rw [quantize, if_pos hcols, quantizeRtn]
  cases hgroups : numGroups weight.cols groupSize with
  | none => rfl
  | some groups =>
      obtain ⟨hsize, -, rfl⟩ := numGroups_eq_some.mp hgroups
      simp only [Option.bind_eq_bind, Option.bind_some, quantizeColumns_diagonal hsize hdiag hne]

/-- Two columns, `(1, 1)` and `(1, -1)`. -/
theorem quantize_eq_rtn_two_columns :
    quantize 2 4 (⟨2, [#v[1, -1 / 3]]⟩ : Matrix ℚ) ⟨2, [#v[1, 1], #v[1, -1]]⟩ =
      quantizeRtn (⟨2, [#v[1, -1 / 3]]⟩ : Matrix ℚ) 2 4 := by
  refine quantize_eq_rtn 2 4 _ _ rfl fun i j hne => ?_
  by_cases hi : 2 ≤ i
  · exact Finset.sum_eq_zero fun s _ => by rw [Matrix.entry_of_cols_le hi, zero_mul]
  by_cases hj : 2 ≤ j
  · exact Finset.sum_eq_zero fun s _ => by
      rw [@Matrix.entry_of_cols_le ℚ _ _ j hj, mul_zero]
  obtain ⟨rfl, rfl⟩ | ⟨rfl, rfl⟩ : i = 0 ∧ j = 1 ∨ i = 1 ∧ j = 0 := by omega
  · decide +kernel
  · decide +kernel

end CrossMachine.Serving
