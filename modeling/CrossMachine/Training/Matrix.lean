import CrossMachine.Lib.Sum
import Mathlib.Algebra.BigOperators.Group.Finset.Basic
import Mathlib.Algebra.BigOperators.Intervals
import Mathlib.Data.Finset.Prod
import Mathlib.Algebra.Ring.Defs

/-!
# Dense matrices

`Matrix` of `matrix.h`. The element at `(i, j)` is the `j`th of the `i`th row, and everything
outside reads as zero here; in the C++ nothing outside is ever read. An operation whose
operands do not fit asserts, and is `none`.
-/

namespace CrossMachine.Training

/-- A dense matrix. -/
structure Matrix (F : Type*) where
  cols : Nat
  rows : List (Vector F cols)

namespace Matrix

variable {F : Type*}

/-- `rows()`. -/
def height (m : Matrix F) : Nat := m.rows.length

def entry [Zero F] (m : Matrix F) (i j : Nat) : F :=
  (m.rows[i]?.bind fun row => row[j]?).getD 0

/-- The matrix with these elements. -/
def ofFn (height cols : Nat) (f : Nat → Nat → F) : Matrix F :=
  ⟨cols, (List.range height).map fun i => Vector.ofFn fun j : Fin cols => f i j⟩

/-- `m` and `m'` have the same shape. -/
def SameShape (m m' : Matrix F) : Prop := m.height = m'.height ∧ m.cols = m'.cols

instance (m m' : Matrix F) : Decidable (m.SameShape m') := inferInstanceAs (Decidable (_ ∧ _))

/-- The places of a matrix. -/
def places (m : Matrix F) : Finset (Nat × Nat) := Finset.range m.height ×ˢ Finset.range m.cols

theorem mem_places {m : Matrix F} {k : Nat × Nat} :
    k ∈ m.places ↔ k.1 < m.height ∧ k.2 < m.cols := by
  simp [places]

@[simp] theorem height_ofFn (h c : Nat) (f : Nat → Nat → F) : (ofFn h c f).height = h := by
  simp [ofFn, height]

@[simp] theorem cols_ofFn (h c : Nat) (f : Nat → Nat → F) : (ofFn h c f).cols = c := rfl

section Zero

variable [Zero F]

theorem entry_ofFn (h c : Nat) (f : Nat → Nat → F) (i j : Nat) :
    (ofFn h c f).entry i j = if i < h ∧ j < c then f i j else 0 := by
  change (((List.range h).map fun i => Vector.ofFn fun j : Fin c => f i j)[i]?.bind
    fun row : Vector F c => row[j]?).getD 0 = _
  by_cases hi : i < h
  · rw [List.getElem?_map, List.getElem?_range hi, Option.map_some, Option.bind_some]
    by_cases hj : j < c
    · simp [hi, hj]
    · simp [hj]
  · rw [List.getElem?_eq_none (by simpa using hi)]
    simp [hi]

theorem entry_of_height_le {m : Matrix F} {i : Nat} (hi : m.height ≤ i) (j : Nat) :
    m.entry i j = 0 := by
  rw [entry, List.getElem?_eq_none hi]
  rfl

theorem entry_of_cols_le {m : Matrix F} {j : Nat} (hj : m.cols ≤ j) (i : Nat) :
    m.entry i j = 0 := by
  rw [entry]
  cases m.rows[i]? with
  | none => rfl
  | some row =>
      rw [Option.bind_some, Vector.getElem?_eq_none hj]
      rfl

/-- The constructor: all elements are zero. -/
def zeros (h c : Nat) : Matrix F := ofFn h c fun _ _ => 0

def transpose (m : Matrix F) : Matrix F := ofFn m.cols m.height fun i j => m.entry j i

@[simp] theorem entry_zeros (h c i j : Nat) : (zeros h c : Matrix F).entry i j = 0 := by
  rw [zeros, entry_ofFn]
  split <;> rfl

theorem entry_transpose (m : Matrix F) (i j : Nat) : m.transpose.entry i j = m.entry j i := by
  rw [transpose, entry_ofFn]
  split
  · rfl
  · rename_i hout
    by_cases hi : i < m.cols
    · rw [entry_of_height_le (by omega)]
    · rw [entry_of_cols_le (by omega)]

end Zero

section Semiring

variable [CommSemiring F]

/-- `operator+`. -/
def plus (a b : Matrix F) : Option (Matrix F) :=
  if a.SameShape b then some (ofFn a.height a.cols fun i j => a.entry i j + b.entry i j) else none

/-- Adds a row to every row. -/
def addRowBroadcast (a row : Matrix F) : Option (Matrix F) :=
  if row.height = 1 ∧ row.cols = a.cols then
    some (ofFn a.height a.cols fun i j => a.entry i j + row.entry 0 j)
  else none

def sumRows (a : Matrix F) : Matrix F :=
  ofFn 1 a.cols fun _ j => (List.range a.height).foldl (fun out i => out + a.entry i j) 0

/-- `add_inplace` with a scale of one: the new value of `a`. -/
def addInplace (a other : Matrix F) : Option (Matrix F) :=
  if a.SameShape other then
    some (ofFn a.height a.cols fun i j => a.entry i j + other.entry i j)
  else none

/-- The element `(i, j)` sums over `k` in order, and passes over the zeros of `a`. -/
def matmul [DecidableEq F] (a b : Matrix F) : Option (Matrix F) :=
  if a.cols = b.height then
    some (ofFn a.height b.cols fun i j =>
      (List.range a.cols).foldl
        (fun out k => if a.entry i k = 0 then out else out + a.entry i k * b.entry k j) 0)
  else none

theorem entry_sumRows (a : Matrix F) (i j : Nat) :
    a.sumRows.entry i j = if i = 0 then ∑ k ∈ Finset.range a.height, a.entry k j else 0 := by
  rw [sumRows, entry_ofFn, Lib.foldl_range_add, zero_add]
  by_cases hi : i = 0
  · by_cases hj : j < a.cols
    · simp [hi, hj]
    · simp [hi, hj, entry_of_cols_le (Nat.le_of_not_lt hj)]
  · simp [hi]

theorem matmul_eq_some [DecidableEq F] {a b : Matrix F} (h : a.cols = b.height) :
    ∃ c, a.matmul b = some c ∧ c.height = a.height ∧ c.cols = b.cols ∧
      ∀ i j, c.entry i j = ∑ k ∈ Finset.range a.cols, a.entry i k * b.entry k j := by
  refine ⟨_, if_pos h, height_ofFn _ _ _, rfl, fun i j => ?_⟩
  have hskip : (fun (out : F) k => if a.entry i k = 0 then out
      else out + a.entry i k * b.entry k j) = fun out k => out + a.entry i k * b.entry k j := by
    funext out k
    split
    · rename_i hzero
      rw [hzero, zero_mul, add_zero]
    · rfl
  rw [entry_ofFn, hskip, Lib.foldl_range_add, zero_add]
  split
  · rfl
  · rename_i hout
    by_cases hi : i < a.height
    · simp [entry_of_cols_le (m := b) (j := j) (by omega)]
    · simp [entry_of_height_le (m := a) (i := i) (by omega)]

theorem addInplace_eq_some {a b : Matrix F} (h : a.SameShape b) :
    ∃ c, a.addInplace b = some c ∧ c.SameShape a ∧
      ∀ i j, c.entry i j = a.entry i j + b.entry i j := by
  refine ⟨_, if_pos h, ⟨height_ofFn _ _ _, rfl⟩, fun i j => ?_⟩
  rw [entry_ofFn]
  split
  · rfl
  · rename_i hout
    by_cases hi : i < a.height
    · rw [entry_of_cols_le (by omega), entry_of_cols_le (h.2 ▸ by omega), add_zero]
    · rw [entry_of_height_le (by omega), entry_of_height_le (h.1 ▸ by omega), add_zero]

end Semiring

/-! ## Elementwise operations, and the elements as one array -/

/-- `apply`. -/
def apply [Zero F] (m : Matrix F) (fn : F → F) : Matrix F :=
  ofFn m.height m.cols fun i j => fn (m.entry i j)

def elementwiseMul [CommSemiring F] (a b : Matrix F) : Option (Matrix F) :=
  if a.SameShape b then some (ofFn a.height a.cols fun i j => a.entry i j * b.entry i j) else none

/-- `data_`: row after row. -/
def data [Zero F] (m : Matrix F) : List F :=
  List.ofFn fun y : Fin (m.height * m.cols) => m.entry (y / m.cols) (y % m.cols)

/-- `m` after its elements are overwritten. -/
def withData [Zero F] (m : Matrix F) (data : List F) : Matrix F :=
  ofFn m.height m.cols fun i j => data.getD (i * m.cols + j) 0

/-- The columns from `start` on, `width` of them. -/
def colSlice [Zero F] (m : Matrix F) (start width : Nat) : Matrix F :=
  ofFn m.height width fun i j => m.entry i (start + j)

/-- The rows from `start` on, `height` of them. -/
def rowSlice [Zero F] (m : Matrix F) (start height : Nat) : Matrix F :=
  ofFn height m.cols fun i j => m.entry (start + i) j

/-! ## Operations on matrices that are given by their elements -/

section OfFn

variable {h c k : Nat} {f g : Nat → Nat → F}

theorem ofFn_congr (hfg : ∀ i < h, ∀ j < c, f i j = g i j) : ofFn h c f = ofFn h c g := by
  rw [ofFn, ofFn]
  congr 1
  refine List.map_congr_left fun i hi => ?_
  congr 1
  funext j
  exact hfg i (List.mem_range.mp hi) j j.isLt

section

variable [Zero F]

theorem entry_ofFn_of_lt {i j : Nat} (hi : i < h) (hj : j < c) :
    (ofFn h c f).entry i j = f i j := by
  rw [entry_ofFn, if_pos ⟨hi, hj⟩]

/-- A matrix is what its elements are. -/
theorem eq_ofFn (m : Matrix F) : m = ofFn m.height m.cols m.entry := by
  obtain ⟨c, rows⟩ := m
  rw [ofFn]
  congr 1
  refine List.ext_getElem (by simp [height]) fun i hi hi' => ?_
  rw [List.getElem_map, List.getElem_range]
  refine Vector.ext fun j hj => ?_
  simp [entry, hi]

theorem exists_ofFn {m : Matrix F} (hheight : m.height = h) (hcols : m.cols = c) :
    ∃ f, m = ofFn h c f := by
  subst hheight hcols
  exact ⟨m.entry, m.eq_ofFn⟩

theorem eq_ofFn_of_entry {m : Matrix F} (hheight : m.height = h) (hcols : m.cols = c)
    (hentry : ∀ i < h, ∀ j < c, m.entry i j = f i j) : m = ofFn h c f := by
  subst hheight hcols
  exact m.eq_ofFn.trans (ofFn_congr hentry)

@[simp] theorem transpose_ofFn : (ofFn h c f).transpose = ofFn c h fun i j => f j i :=
  eq_ofFn_of_entry (height_ofFn _ _ _) (height_ofFn _ _ _) fun i hi j hj => by
    rw [entry_transpose, entry_ofFn_of_lt hj hi]

@[simp] theorem apply_ofFn (fn : F → F) : (ofFn h c f).apply fn = ofFn h c fun i j => fn (f i j) :=
  eq_ofFn_of_entry ((height_ofFn _ _ _).trans (height_ofFn _ _ _)) rfl fun i hi j hj => by
    rw [apply, height_ofFn, cols_ofFn, entry_ofFn_of_lt hi hj, entry_ofFn_of_lt hi hj]

theorem colSlice_ofFn {start width : Nat} (hfits : start + width ≤ c) :
    (ofFn h c f).colSlice start width = ofFn h width fun i j => f i (start + j) := by
  rw [colSlice, height_ofFn]
  exact ofFn_congr fun i hi j hj => entry_ofFn_of_lt hi (by omega)

theorem rowSlice_ofFn {start height : Nat} (hfits : start + height ≤ h) :
    (ofFn h c f).rowSlice start height = ofFn height c fun i j => f (start + i) j := by
  rw [rowSlice, cols_ofFn]
  exact ofFn_congr fun i hi j hj => entry_ofFn_of_lt (by omega) hj

theorem data_ofFn :
    (ofFn h c f).data = List.ofFn fun y : Fin (h * c) => f (y / c) (y % c) := by
  refine List.ext_getElem (by simp [data]) fun y hy hy' => ?_
  rw [List.length_ofFn] at hy'
  have hrow : y / c < h := Nat.div_lt_of_lt_mul (by rwa [Nat.mul_comm])
  have hcol : y % c < c := Nat.mod_lt _ (Nat.pos_of_ne_zero fun h0 => by simp [h0] at hy')
  simp only [data, List.getElem_ofFn, cols_ofFn]
  exact entry_ofFn_of_lt hrow hcol

theorem withData_ofFn (x : Nat → Nat → F) :
    (ofFn h c f).withData (List.ofFn fun y : Fin (h * c) => x (y / c) (y % c)) = ofFn h c x := by
  rw [withData, height_ofFn, cols_ofFn]
  refine ofFn_congr fun i hi j hj => ?_
  have hinside : i * c + j < h * c := calc
    i * c + j < (i + 1) * c := by rw [Nat.succ_mul]; omega
    _ ≤ h * c := Nat.mul_le_mul_right c hi
  rw [List.getD_eq_getElem?_getD, List.getElem?_eq_getElem (by simpa using hinside)]
  simp only [Option.getD_some, List.getElem_ofFn]
  rw [Nat.add_comm, Nat.add_mul_div_right _ _ (by omega), Nat.add_mul_mod_self_right,
    Nat.div_eq_of_lt hj, Nat.mod_eq_of_lt hj, Nat.zero_add]

end

section

variable [CommSemiring F]

theorem matmul_ofFn [DecidableEq F] :
    (ofFn h k f).matmul (ofFn k c g) =
      some (ofFn h c fun i j => ∑ l ∈ Finset.range k, f i l * g l j) := by
  obtain ⟨m, hm, hheight, hcols, hentry⟩ :=
    matmul_eq_some (a := ofFn h k f) (b := ofFn k c g) (height_ofFn _ _ _).symm
  rw [hm]
  refine congrArg some (eq_ofFn_of_entry (hheight.trans (height_ofFn _ _ _)) hcols
    fun i hi j hj => ?_)
  rw [hentry]
  refine Finset.sum_congr rfl fun l hl => ?_
  have hl' : l < k := Finset.mem_range.mp hl
  rw [entry_ofFn_of_lt hi hl', entry_ofFn_of_lt hl' hj]

theorem addRowBroadcast_ofFn :
    (ofFn h c f).addRowBroadcast (ofFn 1 c g) = some (ofFn h c fun i j => f i j + g 0 j) := by
  rw [addRowBroadcast, if_pos ⟨height_ofFn _ _ _, rfl⟩, height_ofFn, cols_ofFn]
  refine congrArg some (ofFn_congr fun i hi j hj => ?_)
  rw [entry_ofFn_of_lt hi hj, entry_ofFn_of_lt Nat.one_pos hj]

theorem elementwiseMul_ofFn :
    (ofFn h c f).elementwiseMul (ofFn h c g) = some (ofFn h c fun i j => f i j * g i j) := by
  rw [elementwiseMul, if_pos ⟨by simp, rfl⟩, height_ofFn, cols_ofFn]
  refine congrArg some (ofFn_congr fun i hi j hj => ?_)
  rw [entry_ofFn_of_lt hi hj, entry_ofFn_of_lt hi hj]

theorem sumRows_ofFn :
    (ofFn h c f).sumRows = ofFn 1 c fun _ j => ∑ i ∈ Finset.range h, f i j :=
  eq_ofFn_of_entry (height_ofFn _ _ _) rfl fun i hi j hj => by
    rw [entry_sumRows, if_pos (by omega), height_ofFn]
    exact Finset.sum_congr rfl fun l hl => entry_ofFn_of_lt (Finset.mem_range.mp hl) hj

end

end OfFn

end Matrix

end CrossMachine.Training
