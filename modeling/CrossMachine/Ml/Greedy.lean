import CrossMachine.Lib.Gini
import CrossMachine.Lib.Loops
import CrossMachine.Lib.Sum
import CrossMachine.Ml.Tree

/-!
# What a grown tree gets right

A node is split only where a cut gains something. No cut loses anything, and a cut gains nothing
exactly when both sides have the classes in the proportions of the node (`gain_le_zero_iff`). So
growth stops early at samples that are balanced: whatever feature is compared with whatever
threshold, the classes come out alike on both sides. The four corners of a square with diagonal
classes are such samples.
-/

namespace CrossMachine.Ml

open Lib

variable {V K σ : Type} [LinearOrder V] [Field K] [LinearOrder K]
  {p : Platform V K σ} {params : TreeParams K} {data : Dataset V} {classes : Nat}
  {rows : List (Fin data.samples)} {cut : Fin data.features × V}

/-! ## Gains -/

omit [LinearOrder V] in
theorem length_labelsOf (rows : List (Fin data.samples)) :
    (labelsOf data rows).length = rows.length :=
  List.length_map _

omit [LinearOrder V] in
theorem impurityOf_gini (hgini : params.criterion = .gini) (hrows : rows ≠ []) :
    impurityOf p params data classes rows =
      gini (Finset.range classes) (fun c => ((labelsOf data rows).count c : K)) rows.length := by
  have hlength : rows.length ≠ 0 := mt List.length_eq_zero_iff.mp hrows
  rw [impurityOf, nodeImpurity, if_neg hlength, hgini, classCounts_eq]
  simp only [bind_pure_comp, List.map_eq_map, List.map_map, List.foldl_map]
  rw [foldl_range_add, zero_add, gini]
  rfl

omit [Field K] [LinearOrder K] in
theorem count_below_add_above (rows : List (Fin data.samples)) (cut : Fin data.features × V)
    (c : Nat) :
    (labelsOf data (below data rows cut)).count c + (labelsOf data (above data rows cut)).count c =
      (labelsOf data rows).count c := by
  rw [← List.count_append, labelsOf, labelsOf, ← List.map_append]
  exact ((below_append_above cut).map _).count_eq c

variable [IsStrictOrderedRing K]

/-- A cut with samples on both sides gains nothing exactly when the classes are in the same
proportions on both. -/
theorem gain_le_zero_iff (hgini : params.criterion = .gini) (hbelow : below data rows cut ≠ [])
    (habove : above data rows cut ≠ []) :
    gain p params data classes rows cut ≤ 0 ↔
      ∀ c < classes, (labelsOf data (below data rows cut)).count c * rows.length =
        (below data rows cut).length * (labelsOf data rows).count c := by
  have hrows : rows ≠ [] := by
    obtain ⟨i, hi⟩ := List.exists_mem_of_ne_nil _ hbelow
    exact List.ne_nil_of_mem (mem_below.mp hi).1
  have hm : (0 : K) < (below data rows cut).length := by
    exact_mod_cast List.length_pos_iff.mpr hbelow
  have hn : (0 : K) < (above data rows cut).length := by
    exact_mod_cast List.length_pos_iff.mpr habove
  rw [gain, impurityOf_gini hgini hrows, impurityOf_gini hgini hbelow, impurityOf_gini hgini habove]
  have hlength := length_below_add_above rows cut
  simp only [← count_below_add_above rows cut, ← hlength, Nat.cast_add]
  rw [gini_parted_eq_zero hm hn]
  simp only [Finset.mem_range]
  exact_mod_cast Iff.rfl

/-! ## Balanced samples -/

/-- The samples are of one class. -/
def SameClass (data : Dataset V) (rows : List (Fin data.samples)) : Prop :=
  ∀ i ∈ rows, ∀ j ∈ rows, data.y.get i = data.y.get j

/-- However a feature is compared with a threshold, the classes come out alike on both sides. -/
def Balanced (data : Dataset V) (rows : List (Fin data.samples)) : Prop :=
  ∀ (cut : Fin data.features × V) (c : Nat),
    (labelsOf data (below data rows cut)).count c * rows.length =
      (below data rows cut).length * (labelsOf data rows).count c

omit [Field K] [LinearOrder K] [IsStrictOrderedRing K] in
theorem mem_middles_cons {z : V × Nat} {l : List (V × Nat)} {m : V} (h : m ∈ middles p l) :
    m ∈ middles p (z :: l) := by
  cases l with
  | nil => cases h
  | cons y rest =>
      rw [middles]
      split
      · exact h
      · exact List.mem_cons_of_mem _ h

omit [Field K] [LinearOrder K] [IsStrictOrderedRing K] in
theorem mem_middles {front rest : List (V × Nat)} {x y : V × Nat} (hne : x.1 ≠ y.1) :
    p.mid x.1 y.1 ∈ middles p ((front ++ [x]) ++ y :: rest) := by
  induction front with
  | nil =>
      show _ ∈ middles p (x :: y :: rest)
      rw [middles, if_neg hne]
      exact List.mem_cons_self
  | cons z front ih => exact mem_middles_cons ih

/-- Along sorted values, a threshold is between two neighbours, where it has values on both
sides. -/
theorem exists_neighbours {l : List (V × Nat)} (hsorted : l.Pairwise pairLe) {t : V}
    (hlow : ∃ z ∈ l, z.1 ≤ t) (hhigh : ∃ z ∈ l, t < z.1) :
    ∃ front x y rest, l = (front ++ [x]) ++ y :: rest ∧ x.1 ≤ t ∧ t < y.1 := by
  induction l with
  | nil =>
      obtain ⟨z, hz, -⟩ := hlow
      cases hz
  | cons x l ih =>
      obtain ⟨hx, hl⟩ := List.pairwise_cons.mp hsorted
      have hxt : x.1 ≤ t := by
        obtain ⟨z, hz, hzt⟩ := hlow
        rcases List.mem_cons.mp hz with rfl | hz
        · exact hzt
        · exact (hx z hz).fst_le.trans hzt
      obtain ⟨w, hw, hwt⟩ := hhigh
      rcases List.mem_cons.mp hw with rfl | hw
      · exact absurd hxt hwt.not_ge
      · cases l with
        | nil => cases hw
        | cons y rest =>
            by_cases hy : y.1 ≤ t
            · obtain ⟨front, x', y', rest', heq, hx', hy'⟩ :=
                ih hl ⟨y, List.mem_cons_self, hy⟩ ⟨w, hw, hwt⟩
              exact ⟨x :: front, x', y', rest', congrArg (x :: ·) heq, hx', hy'⟩
            · exact ⟨[], x, y, rest, rfl, hxt, not_le.mp hy⟩

omit [Field K] [LinearOrder K] [IsStrictOrderedRing K] in
/-- A threshold with samples on both sides parts them as one of the middles does. -/
theorem exists_middle (hsep : SeparatesRows p data) (hbelow : below data rows cut ≠ [])
    (habove : above data rows cut ≠ []) :
    ∃ m ∈ middles p (sortedPairs data rows cut.1),
      below data rows (cut.1, m) = below data rows cut ∧
        above data rows (cut.1, m) = above data rows cut := by
  obtain ⟨i, hi⟩ := List.exists_mem_of_ne_nil _ hbelow
  obtain ⟨j, hj⟩ := List.exists_mem_of_ne_nil _ habove
  have hsorted := List.pairwise_insertionSort pairLe
    (rows.map fun i => ((data.x.get i).get cut.1, data.y.get i))
  have hpair {i : Fin data.samples} (hi : i ∈ rows) :
      ((data.x.get i).get cut.1, data.y.get i) ∈ sortedPairs data rows cut.1 :=
    (List.mem_insertionSort pairLe).mpr (List.mem_map_of_mem hi)
  obtain ⟨front, x, y, rest, hl, hx, hy⟩ := exists_neighbours hsorted
    ⟨_, hpair (mem_below.mp hi).1, of_decide_eq_true (mem_below.mp hi).2⟩
    ⟨_, hpair (mem_above.mp hj).1, by
      have hnot := (mem_above.mp hj).2
      rwa [goesLeft, decide_eq_true_iff, not_le] at hnot⟩
  have hne : x.1 ≠ y.1 := (hx.trans_lt hy).ne
  have hinfix : [x, y] <:+: sortedPairs data rows cut.1 :=
    ⟨front, rest, by rw [sortedPairs, hl, List.append_assoc, List.append_assoc]; rfl⟩
  obtain ⟨i', -, j', -, hi', hj', hlt⟩ := sortedPairs_split hinfix hne
  obtain ⟨hle, hlt⟩ := hsep i' j' cut.1 (hi' ▸ hj' ▸ hlt)
  rw [hi', hj'] at hle hlt
  have hsame : ∀ i ∈ rows,
      (data.x.get i).get cut.1 ≤ p.mid x.1 y.1 ↔ (data.x.get i).get cut.1 ≤ cut.2 := by
    intro i hi
    have hmid := @le_middle_iff _ _ _ _ _ _ _ ((data.x.get i).get cut.1, data.y.get i) _ hsorted
      hl hle hlt
    have hcut := @le_middle_iff _ _ _ _ _ _ _ ((data.x.get i).get cut.1, data.y.get i) _ hsorted
      hl hx hy
    have hmem := hpair hi
    rw [sortedPairs, hl, List.mem_append] at hmem
    rcases hmem with hmem | hmem
    · exact iff_of_true (hmid.1 hmem) (hcut.1 hmem)
    · exact iff_of_false (hmid.2 hmem) (hcut.2 hmem)
  refine ⟨p.mid x.1 y.1, ?_, ?_, ?_⟩
  · rw [sortedPairs, hl]
    exact mem_middles hne
  · exact List.filter_congr fun i hi => decide_eq_decide.mpr (hsame i hi)
  · exact List.filter_congr fun i hi => decide_eq_decide.mpr (not_congr (hsame i hi))

omit [LinearOrder V] in
theorem SameClass.count_eq (h : SameClass data rows) {side : List (Fin data.samples)}
    (hside : side ⊆ rows) (c : Nat) :
    (labelsOf data side).count c * rows.length = side.length * (labelsOf data rows).count c := by
  by_cases hc : ∃ i ∈ rows, data.y.get i = c
  · obtain ⟨i, hi, rfl⟩ := hc
    have hall {l : List (Fin data.samples)} (hl : l ⊆ rows) :
        (labelsOf data l).count (data.y.get i) = l.length := by
      rw [← length_labelsOf l, List.count_eq_length]
      intro c hc
      obtain ⟨j, hj, rfl⟩ := List.mem_map.mp hc
      exact h i hi j (hl hj)
    rw [hall hside, hall (List.Subset.refl rows)]
  · have hnone {l : List (Fin data.samples)} (hl : l ⊆ rows) : (labelsOf data l).count c = 0 := by
      refine List.count_eq_zero.mpr fun hmem => hc ?_
      obtain ⟨i, hi, rfl⟩ := List.mem_map.mp hmem
      exact ⟨i, hl hi, rfl⟩
    rw [hnone hside, hnone (List.Subset.refl rows), Nat.zero_mul, Nat.mul_zero]

theorem SameClass.balanced (h : SameClass data rows) : Balanced data rows :=
  fun _ c => h.count_eq (fun _ hi => (mem_below.mp hi).1) c

omit [LinearOrder V] in
/-- Samples of two classes are mixed. -/
theorem impurityOf_pos (hgini : params.criterion = .gini)
    (hclasses : ∀ c ∈ labelsOf data rows, c < classes) (h : ¬ SameClass data rows) :
    0 < impurityOf p params data classes rows := by
  simp only [SameClass, not_forall] at h
  obtain ⟨i, hi, j, hj, hne⟩ := h
  have hmem {i : Fin data.samples} (hi : i ∈ rows) : data.y.get i ∈ labelsOf data rows :=
    List.mem_map_of_mem hi
  rw [impurityOf_gini hgini (List.ne_nil_of_mem hi)]
  refine gini_pos (c := data.y.get i) (fun c _ => Nat.cast_nonneg _) ?_
    (Finset.mem_range.mpr (hclasses _ (hmem hi))) ?_ ?_
  · have hsum := Multiset.sum_count_eq_card (s := Finset.range classes)
      (m := (labelsOf data rows : Multiset Nat))
      fun c hc => Finset.mem_range.mpr (hclasses c hc)
    simp only [Multiset.coe_card, Multiset.coe_count] at hsum
    rw [← Nat.cast_sum, hsum, length_labelsOf]
  · exact_mod_cast List.count_pos_iff.mpr (hmem hi)
  · rw [← length_labelsOf rows]
    have hall : (labelsOf data rows).count (data.y.get i) ≠ (labelsOf data rows).length :=
      fun hall => hne (List.count_eq_length.mp hall _ (hmem hj))
    exact_mod_cast lt_of_le_of_ne List.count_le_length hall

/-! ## Trees without a limit -/

/-- Unlimited depth, the least limits on samples and impurity, and all features. -/
structure Unpruned (params : TreeParams K) (features : Nat) : Prop where
  gini : params.criterion = .gini
  maxDepth : params.maxDepth < 0
  minSamplesLeaf : params.minSamplesLeaf = 1
  minSamplesSplit : params.minSamplesSplit = 2
  minImpurityDecrease : params.minImpurityDecrease = 0
  maxFeatures : params.maxFeatures ≤ 0 ∨ features ≤ params.maxFeatures

/-- The cuts of all features. -/
abbrev allCuts (p : Platform V K σ) (params : TreeParams K) (data : Dataset V)
    (rows : List (Fin data.samples)) : List (Fin data.features × V) :=
  cuts p params data (List.finRange data.features) rows

omit [LinearOrder V] [LinearOrder K] [IsStrictOrderedRing K] in
theorem Unpruned.candidates {features : Nat} (hu : Unpruned params features) (rng : σ) :
    (candidateFeatures p params features rng).1 = List.finRange features := by
  have := hu.maxFeatures
  rw [candidateFeatures, if_neg (by omega)]

/-- A node offers no gain exactly when it is balanced. -/
theorem Unpruned.balanced_iff (hu : Unpruned params data.features) (hsep : SeparatesRows p data)
    (hclasses : ∀ c ∈ labelsOf data rows, c < classes) :
    Balanced data rows ↔
      ∀ cut ∈ allCuts p params data rows, gain p params data classes rows cut ≤ 0 := by
  constructor
  · intro h cut hcut
    obtain ⟨hbelow, habove⟩ := leaves_of_mem_cuts hcut
    rw [hu.minSamplesLeaf] at hbelow habove
    exact (gain_le_zero_iff hu.gini (List.length_pos_iff.mp (by omega))
      (List.length_pos_iff.mp (by omega))).mpr fun c _ => h cut c
  · intro h cut c
    by_cases hbelow : below data rows cut = []
    · rw [hbelow]
      simp [labelsOf]
    · by_cases habove : above data rows cut = []
      · have hcount := count_below_add_above rows cut c
        have hlength := length_below_add_above rows cut
        rw [habove, labelsOf, labelsOf, List.map_nil, List.count_nil, Nat.add_zero] at hcount
        rw [habove, List.length_nil, Nat.add_zero] at hlength
        rw [labelsOf, hcount, hlength, Nat.mul_comm]
      · obtain ⟨m, hm, hsame, hsame'⟩ := exists_middle hsep hbelow habove
        have hleaves : Leaves params data rows (cut.1, m) := by
          rw [Leaves, hsame, hsame', hu.minSamplesLeaf]
          have := List.length_pos_iff.mpr hbelow
          have := List.length_pos_iff.mpr habove
          omega
        have hmem : (cut.1, m) ∈ allCuts p params data rows :=
          List.mem_flatMap.mpr ⟨cut.1, List.mem_finRange _,
            List.mem_filter.mpr ⟨List.mem_map_of_mem hm, decide_eq_true hleaves⟩⟩
        have hgain := (gain_le_zero_iff hu.gini (by rwa [hsame]) (by rwa [hsame'])).mp (h _ hmem)
        rw [hsame] at hgain
        by_cases hc : c < classes
        · exact hgain c hc
        · have hnone : c ∉ labelsOf data rows := fun hmem => hc (hclasses c hmem)
          have hzero := count_below_add_above rows cut c
          rw [List.count_eq_zero.mpr hnone, Nat.add_eq_zero_iff] at hzero
          rw [hzero.1, List.count_eq_zero.mpr hnone, Nat.zero_mul, Nat.mul_zero]

/-- A node stays a leaf exactly when it is balanced. -/
theorem Unpruned.nodeSplit_eq_none_iff (hu : Unpruned params data.features)
    (hsep : SeparatesRows p data) (hclasses : ∀ c ∈ labelsOf data rows, c < classes)
    {level : Int} {rng : σ} :
    (nodeSplit p params data classes rows level
        (impurityOf p params data classes rows) rng).1 = none ↔ Balanced data rows := by
  have hbalanced := hu.balanced_iff hsep hclasses
  constructor
  · intro hnone
    by_contra hnot
    have hpure := mt SameClass.balanced hnot
    have himpurity : impurityOf p params data classes rows > 0 :=
      impurityOf_pos hu.gini hclasses hpure
    have htwo : rows.length ≥ params.minSamplesSplit := by
      rw [hu.minSamplesSplit]
      by_contra hfew
      refine hpure fun i hi j hj => ?_
      have hone : rows.length = 1 := by
        have := List.length_pos_iff.mpr (List.ne_nil_of_mem hi)
        omega
      obtain ⟨a, rfl⟩ := List.length_eq_one_iff.mp hone
      rw [List.mem_singleton.mp hi, List.mem_singleton.mp hj]
    have hends := @findBestSplit_cut V K σ _ _ _ p params data classes rows hsep rng
    rw [hu.candidates] at hends
    rcases hends with ⟨-, hall⟩ | ⟨cut, hbest, hfound⟩
    · exact hnot (hbalanced.mpr hall)
    · have hdecrease : gain p params data classes rows cut ≥ params.minImpurityDecrease := by
        rw [hu.minImpurityDecrease]
        exact hbest.1.le
      rw [nodeSplit_eq ⟨.inl hu.maxDepth, htwo, himpurity⟩ hfound hdecrease] at hnone
      cases hnone
  · intro h
    cases hsplit : (nodeSplit p params data classes rows level
      (impurityOf p params data classes rows) rng).1 with
    | none => rfl
    | some b =>
        obtain ⟨-, cut, hbest, -⟩ := nodeSplit_cut hsep hsplit
        rw [hu.candidates] at hbest
        exact absurd hbest.1 (hbalanced.mp h cut hbest.mem).not_gt

/-! ## Cells -/

/-- The sets of samples that cutting comes to which takes the first of the cuts that gain most. -/
inductive Cell (p : Platform V K σ) (params : TreeParams K) (data : Dataset V) :
    List (Fin data.samples) → Prop
  | root : Cell p params data (List.finRange data.samples)
  | left {rows : List (Fin data.samples)} {cut : Fin data.features × V}
      (h : Cell p params data rows)
      (hbest : FirstBest (gain p params data (numClasses data) rows) 0
        (allCuts p params data rows) cut) :
      Cell p params data (below data rows cut)
  | right {rows : List (Fin data.samples)} {cut : Fin data.features × V}
      (h : Cell p params data rows)
      (hbest : FirstBest (gain p params data (numClasses data) rows) 0
        (allCuts p params data rows) cut) :
      Cell p params data (above data rows cut)

variable {t : RowTree data} {level : Int} {pos k : Nat}

/-- The leaves of a grown tree are cells, and balanced. -/
theorem Grown.leaf_cell (hu : Unpruned params data.features) (hsep : SeparatesRows p data)
    (h : Grown p params data (numClasses data) level t) (hcell : Cell p params data t.label)
    (hk : (k, rows) ∈ t.leavesAt pos) : Cell p params data rows ∧ Balanced data rows := by
  induction h generalizing pos with
  | leaf rng h =>
      obtain ⟨-, rfl⟩ := Prod.mk.inj (List.mem_singleton.mp hk)
      exact ⟨hcell,
        (hu.nodeSplit_eq_none_iff hsep fun c hc => label_lt_numClasses hc).mp h⟩
  | node rng b h hleft hright _ _ ihl ihr =>
      obtain ⟨-, cut, hbest, rfl⟩ := nodeSplit_cut hsep h
      rw [hu.candidates] at hbest
      rcases List.mem_append.mp hk with hk | hk
      · exact ihl (hleft ▸ hcell.left hbest) hk
      · exact ihr (hright ▸ hcell.right hbest) hk

/-- Where a cut gains something, a grown tree has it. -/
theorem eq_node_of_grown (hu : Unpruned params data.features) (hsep : SeparatesRows p data)
    (h : Grown p params data (numClasses data) level t)
    (hbest : FirstBest (gain p params data (numClasses data) t.label) 0
      (allCuts p params data t.label) cut) :
    ∃ l r, t = .node t.label cut l r ∧ l.label = below data t.label cut ∧
      r.label = above data t.label cut ∧ Grown p params data (numClasses data) (level + 1) l ∧
      Grown p params data (numClasses data) (level + 1) r := by
  have hclasses : ∀ c ∈ labelsOf data t.label, c < numClasses data :=
    fun c hc => label_lt_numClasses hc
  cases h with
  | leaf rng h =>
      have hle := (hu.balanced_iff hsep hclasses).mp
        ((hu.nodeSplit_eq_none_iff hsep hclasses).mp h)
      exact absurd hbest.1 (hle cut hbest.mem).not_gt
  | node rng b h hleft hright hl hr =>
      obtain ⟨-, cut', hbest', rfl⟩ := nodeSplit_cut hsep h
      rw [hu.candidates] at hbest'
      obtain rfl := hbest.unique hbest'
      exact ⟨_, _, rfl, hleft, hright, hl, hr⟩

/-- Every cell has a node in the tree. -/
theorem exists_node_of_cell (hu : Unpruned params data.features) (hsep : SeparatesRows p data)
    (h : Grown p params data (numClasses data) 0 t) (hroot : t.label = List.finRange data.samples)
    (hcell : Cell p params data rows) :
    ∃ level pos t', Grown p params data (numClasses data) level t' ∧ t'.label = rows ∧
      ∀ leaf ∈ t'.leavesAt pos, leaf ∈ t.leavesAt 0 := by
  induction hcell with
  | root => exact ⟨0, 0, t, h, hroot, fun _ hleaf => hleaf⟩
  | left _ hbest ih =>
      obtain ⟨level, pos, t', hgrown, rfl, hleaves⟩ := ih
      obtain ⟨l, r, hnode, hleft, -, hl, -⟩ := eq_node_of_grown hu hsep hgrown hbest
      rw [hnode] at hleaves
      exact ⟨_, pos + 1, l, hl, hleft, fun leaf h => hleaves leaf (List.mem_append_left _ h)⟩
  | right _ hbest ih =>
      obtain ⟨level, pos, t', hgrown, rfl, hleaves⟩ := ih
      obtain ⟨l, r, hnode, -, hright, -, hr⟩ := eq_node_of_grown hu hsep hgrown hbest
      rw [hnode] at hleaves
      exact ⟨_, pos + 1 + l.size, r, hr, hright,
        fun leaf h => hleaves leaf (List.mem_append_right _ h)⟩

/-! ## The score on the training data -/

omit [Field K] [LinearOrder K] [IsStrictOrderedRing K] in
/-- What is predicted for a row depends on the leaf it comes to. -/
theorem predictOne_congr {features : Nat} {nodes : List (TreeNode V K features)}
    {row row' : Vector V features} {fuel : Nat}
    (h : leafIdx nodes row fuel 0 = leafIdx nodes row' fuel 0) :
    predictOne nodes row fuel = predictOne nodes row' fuel := by
  rw [predictOne, predictOne, h]

/-- The share of the samples that `g` gives their class. -/
def share (K : Type) [Field K] {features samples : Nat} (g : Vector V features → Nat)
    (x : Vector (Vector V features) samples) (y : Vector Nat samples) : K :=
  (List.zipWith (fun p c => p == c) (x.toList.map g) y.toList).count true / y.toList.length

section

variable {features samples : Nat} {g : Vector V features → Nat}
  {x : Vector (Vector V features) samples} {y : Vector Nat samples}

omit [LinearOrder K] [IsStrictOrderedRing K] in
theorem score_eq_share {nodes : List (TreeNode V K features)} {fuel : Nat} (hy : y.toList ≠ [])
    (hg : ∀ row, predictOne nodes row fuel = some (g row)) :
    score nodes x.toList y.toList fuel = some (share K g x y) := by
  have hpredict : predict nodes x.toList fuel = some (x.toList.map g) :=
    mapM_eq_some fun row _ => hg row
  rw [score, if_neg hy, hpredict]
  rfl

omit [LinearOrder V] in
theorem share_eq_one_iff (hy : y.toList ≠ []) :
    share K g x y = 1 ↔ ∀ i : Fin samples, g (x.get i) = y.get i := by
  have hlength : (List.zipWith (fun p c => p == c) (x.toList.map g) y.toList).length =
      y.toList.length := by simp
  rw [share, div_eq_one_iff_eq (Nat.cast_ne_zero.mpr (List.length_pos_iff.mpr hy).ne'),
    Nat.cast_inj, ← hlength, List.count_eq_length, List.forall_mem_iff_getElem, Fin.forall_iff]
  simp [Vector.get]

end

omit [IsStrictOrderedRing K] in
/-- The leaves that a fitted tree has are of one class each, exactly where it predicts the class
of every sample. -/
theorem FittedTree.predicts_iff {nodes : List (TreeNode V K data.features)}
    (h : FittedTree p params data nodes t) {fuel : Nat} (hfuel : nodes.length ≤ fuel)
    {g : Vector V data.features → Nat} (hg : ∀ row, predictOne nodes row fuel = some (g row)) :
    (∀ i : Fin data.samples, g (data.x.get i) = data.y.get i) ↔
      ∀ k rows, (k, rows) ∈ t.leavesAt 0 → SameClass data rows := by
  constructor
  · intro hall k rows hk i hi j hj
    have hleaf := (h.routes i k rows hk fuel hfuel).mp hi
    have hleaf' := (h.routes j k rows hk fuel hfuel).mp hj
    have hsame := predictOne_congr (hleaf.trans hleaf'.symm)
    rw [hg, hg, hall, hall] at hsame
    exact Option.some.inj hsame
  · intro hpure i
    obtain ⟨k, rows, hk, hends⟩ := h.ends (data.x.get i)
    obtain ⟨hleaf, hpred⟩ := hends fuel hfuel
    have hi := (h.routes i k rows hk fuel hfuel).mpr hleaf
    have hmem : data.y.get i ∈ labelsOf data rows := List.mem_map_of_mem hi
    have hmajority : (labelsOf data rows).count (data.y.get i) ≤ (labelsOf data rows).count
        (majorityClass (classCounts (numClasses data) (labelsOf data rows))) :=
      count_le_majority (Nat.succ_pos _) (fun c hc => label_lt_numClasses hc) _
    have hpos := (List.count_pos_iff.mpr hmem).trans_le hmajority
    obtain ⟨j, hj, hlabel⟩ := List.mem_map.mp (List.count_pos_iff.mp hpos)
    rw [Option.some.inj ((hg _).symm.trans hpred), ← hlabel]
    exact hpure k rows hk j hj i hi

/-- Every leaf is of one class, exactly where every balanced cell is. -/
theorem leaves_sameClass_iff (hu : Unpruned params data.features) (hsep : SeparatesRows p data)
    (h : Grown p params data (numClasses data) 0 t)
    (hroot : t.label = List.finRange data.samples) :
    (∀ k rows, (k, rows) ∈ t.leavesAt 0 → SameClass data rows) ↔
      ∀ rows, Cell p params data rows → Balanced data rows → SameClass data rows := by
  constructor
  · intro hpure rows hcell hbalanced
    obtain ⟨level, pos, t', hgrown, rfl, hleaves⟩ := exists_node_of_cell hu hsep h hroot hcell
    cases hgrown with
    | leaf => exact hpure pos _ (hleaves _ (List.mem_singleton_self _))
    | node rng b hsplit =>
        rw [BinTree.label] at hbalanced
        rw [(hu.nodeSplit_eq_none_iff hsep fun c hc => label_lt_numClasses hc).mpr hbalanced]
          at hsplit
        cases hsplit
  · intro hcells k rows hk
    obtain ⟨hcell, hbalanced⟩ := h.leaf_cell hu hsep (hroot ▸ .root) hk
    exact hcells rows hcell hbalanced

/-- **An unpruned tree gets all of its data right exactly where growth meets no balanced samples
of several classes.** -/
theorem score_fit_iff (log2 : ℚ → ℚ) (pick : Nat → Nat → σ → Nat × σ) (params : TreeParams ℚ)
    (data : Dataset ℚ) (hu : Unpruned params data.features) (rng : σ) :
    ∃ (g : Growth ℚ ℚ σ data.features) (s : ℚ),
      (∀ fuel, data.samples < fuel →
        fit (exact log2 pick) params data rng fuel = some (0, g)) ∧
      (∀ fuel, g.nodes.length ≤ fuel →
        score g.nodes data.x.toList data.y.toList fuel = some s) ∧
      (s = 1 ↔ 0 < data.samples ∧ ∀ rows, Cell (exact log2 pick) params data rows →
        Balanced data rows → SameClass data rows) := by
  obtain ⟨g, t, hfit, hfitted, hgrown⟩ :=
    fit_fitted (separatesRows_exact log2 pick data) rng
  have hlength : data.y.toList.length = data.samples := Vector.length_toList
  by_cases hempty : data.y.toList = []
  · have hzero : data.samples = 0 := by
      rw [← hlength, hempty, List.length_nil]
    refine ⟨g, 0, hfit, fun fuel _ => by rw [score, if_pos hempty], ?_⟩
    exact iff_of_false zero_ne_one fun h => h.1.ne' hzero
  · have hpos : 0 < data.samples := by
      rw [← hlength]
      exact List.length_pos_iff.mpr hempty
    -- what is predicted does not depend on the fuel
    choose k rows hk hends using hfitted.ends
    have hpred {fuel : Nat} (hfuel : g.nodes.length ≤ fuel) (row : Vector ℚ data.features) :=
      (hends row fuel hfuel).2
    refine ⟨g, _, hfit, fun fuel hfuel => score_eq_share hempty (hpred hfuel), ?_⟩
    rw [share_eq_one_iff hempty, hfitted.predicts_iff le_rfl (hpred le_rfl),
      leaves_sameClass_iff hu (separatesRows_exact log2 pick data) hgrown hfitted.root]
    exact (and_iff_right hpos).symm

theorem unpruned_unlimited (features : Nat) : Unpruned (unlimited : TreeParams ℚ) features :=
  ⟨rfl, Int.negSucc_lt_zero 0, rfl, rfl, rfl, .inl (Int.negSucc_lt_zero 0).le⟩

/-- Two samples with one threshold between them. -/
theorem score_fit_two :
    ∃ (g : Growth ℚ ℚ Unit 1) (s : ℚ),
      (∀ fuel, 2 < fuel → fit rational unlimited (twoSamples 0 1) () fuel = some (0, g)) ∧
      (∀ fuel, g.nodes.length ≤ fuel → score g.nodes [#v[0], #v[1]] [0, 1] fuel = some s) ∧
      (s = 1 ↔ 0 < 2 ∧ ∀ rows, Cell rational unlimited (twoSamples 0 1) rows →
        Balanced (twoSamples 0 1) rows → SameClass (twoSamples 0 1) rows) :=
  score_fit_iff (fun _ => 0) (fun lo _ _ => (lo, ())) unlimited (twoSamples 0 1)
    (unpruned_unlimited 1) ()

/-- The corners of a square, with diagonal classes. -/
def xorSquare : Dataset ℚ :=
  ⟨4, 2, #v[#v[0, 0], #v[0, 1], #v[1, 0], #v[1, 1]], #v[0, 1, 1, 0], nofun⟩

/-- `fit`, and then `score` on the same data. -/
def fitScore (p : Platform V K σ) (params : TreeParams K) (data : Dataset V) (rng : σ)
    (fuel : Nat) : Option K := do
  let (_, g) ← fit p params data rng fuel
  score g.nodes data.x.toList data.y.toList fuel

/-- No comparison tells anything about a corner: the tree is one leaf, and half of the corners are
wrong. -/
theorem not_fits_xorSquare :
    (¬ ∀ data : Dataset ℚ,
      (∀ i j : Fin data.samples, data.x.get i = data.x.get j → data.y.get i = data.y.get j) →
        ∀ fuel, data.samples < fuel → fitScore rational unlimited data () fuel = some 1) ∧
    fitScore rational unlimited xorSquare () 5 = some (1 / 2) := by
  have hhalf : fitScore rational unlimited xorSquare () 5 = some (1 / 2) := by decide +kernel
  refine ⟨fun h => ?_, hhalf⟩
  have hone := h xorSquare (by decide +kernel) 5 (by decide)
  rw [hhalf] at hone
  norm_num at hone

end CrossMachine.Ml
