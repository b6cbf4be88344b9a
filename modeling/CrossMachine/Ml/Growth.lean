import CrossMachine.Lib.Instances
import CrossMachine.Ml.DecisionTree
import Mathlib.Algebra.Order.Field.Basic
import Mathlib.Data.Int.ConditionallyCompleteOrder
import Mathlib.Data.Prod.Lex
import Mathlib.Tactic.Linarith
import Mathlib.Tactic.NormNum

/-!
# Whether a tree is done growing

A split is chosen by counting along the sorted values of a feature, so that both sides get
samples. It is carried out with `<= threshold`, where the threshold is the middle of two
neighbours. The two agree when the middle is at least the lower neighbour and below the upper
one. The middle of two floats that are next to each other is rounded to one of them, and when it
is rounded up, all samples go to the left, where the same split is found again.
-/

namespace CrossMachine.Ml

variable {V K σ : Type} [LinearOrder V] [Field K] [LinearOrder K]

theorem pairLe_iff {a b : V × Nat} : pairLe a b ↔ toLex a ≤ toLex b :=
  Prod.Lex.toLex_le_toLex.symm

instance : Std.Total (pairLe (V := V)) where
  total a b := by
    rw [pairLe_iff, pairLe_iff]
    exact le_total _ _

instance : IsTrans (V × Nat) pairLe where
  trans _ _ _ hab hbc := pairLe_iff.mpr ((pairLe_iff.mp hab).trans (pairLe_iff.mp hbc))

/-! ## What a split is between -/

/-- The sweep leaves the best split alone, or puts one between two neighbours that differ. -/
theorem sweep_split (p : Platform V K σ) (params : TreeParams K) {features : Nat}
    (totalCounts : List Nat) (n : Nat) (parentImpurity : K) (feature : Fin features)
    (l : List (V × Nat)) (leftCounts : List Nat) (leftTotal : Nat) (best : Best V K features) :
    (sweep p params totalCounts n parentImpurity feature l leftCounts leftTotal best).split =
        best.split ∨
      ∃ x y, [x, y] <:+: l ∧ x.1 ≠ y.1 ∧
        (sweep p params totalCounts n parentImpurity feature l leftCounts leftTotal best).split =
          some (feature, p.mid x.1 y.1) := by
  fun_induction sweep with
  | case1 x y rest leftCounts leftTotal best counts total rightTotal best' ih =>
      rcases ih with h | ⟨x', y', hinfix, hne, h⟩
      · -- nothing better comes later: what this turn has done to the best split
        rw [h]
        by_cases heq : x.1 = y.1
        · exact .inl (by simp [best', heq])
        · have hhere : [x, y] <:+: x :: y :: rest := ⟨[], rest, rfl⟩
          simp only [best', heq, if_false]
          split_ifs
          · exact .inl rfl
          · exact .inr ⟨x, y, hhere, heq, rfl⟩
          · exact .inl rfl
      · exact .inr ⟨x', y', hinfix.trans (List.suffix_cons x _).isInfix, hne, h⟩
  | case2 => exact .inl rfl

variable {data : Dataset V} {indices : List (Fin data.samples)} {p : Platform V K σ}
  {params : TreeParams K} {classes : Nat} {parentImpurity : K} {rng : σ}
  {s : Split V K data.samples data.features} {S : Set V}

/-- The threshold is the middle of the values of two samples of the node. -/
theorem sortedPairs_split {feature : Fin data.features} {x y : V × Nat}
    (h : [x, y] <:+: sortedPairs data indices feature) (hne : x.1 ≠ y.1) :
    ∃ i ∈ indices, ∃ j ∈ indices, (data.x.get i).get feature = x.1 ∧
      (data.x.get j).get feature = y.1 ∧ x.1 < y.1 := by
  have hle : pairLe x y := by
    have hsorted := (List.pairwise_insertionSort pairLe _).sublist h.sublist
    exact List.rel_of_pairwise_cons hsorted (List.mem_singleton_self y)
  have hmem : ∀ z ∈ [x, y], ∃ i ∈ indices, (data.x.get i).get feature = z.1 := by
    intro z hz
    have hz := (List.mem_insertionSort pairLe).mp (h.subset hz)
    obtain ⟨i, hi, rfl⟩ := List.mem_map.mp hz
    exact ⟨i, hi, rfl⟩
  obtain ⟨i, hi, hx⟩ := hmem x (by simp)
  obtain ⟨j, hj, hy⟩ := hmem y (by simp)
  rcases hle with hlt | ⟨heq, _⟩
  · exact ⟨i, hi, j, hj, hx, hy, hlt⟩
  · exact absurd heq hne

/-- A threshold of a feature between two samples of the node. -/
def Between (p : Platform V K σ) (data : Dataset V) (indices : List (Fin data.samples))
    (feature : Fin data.features) (threshold : V) : Prop :=
  ∃ i ∈ indices, ∃ j ∈ indices, (data.x.get i).get feature < (data.x.get j).get feature ∧
    threshold = p.mid ((data.x.get i).get feature) ((data.x.get j).get feature)

/-- Along the features, the best split stays between two samples. -/
theorem bestOf_between (candidates : List (Fin data.features)) (best : Best V K data.features)
    (hbest : ∀ f t, best.split = some (f, t) → Between p data indices f t) :
    ∀ f t, (bestOf p params data classes indices parentImpurity candidates best).split =
      some (f, t) → Between p data indices f t := by
  induction candidates generalizing best with
  | nil => exact hbest
  | cons feature candidates ih =>
      refine ih _ fun f t hsplit => ?_
      rcases sweep_split p params (classCounts classes (indices.map fun i => data.y.get i))
          indices.length parentImpurity feature (sortedPairs data indices feature)
          (List.replicate classes 0) 0 best with hkept | ⟨x, y, hinfix, hne, hnew⟩
      · exact hbest f t (hkept ▸ hsplit)
      · obtain ⟨rfl, rfl⟩ := Prod.mk.inj (Option.some.inj (hnew.symm.trans hsplit))
        obtain ⟨i, hi, j, hj, hx, hy, hlt⟩ := sortedPairs_split hinfix hne
        exact ⟨i, hi, j, hj, hx ▸ hy ▸ hlt, by rw [hx, hy]⟩

/-- What a split is: the samples told apart by a threshold between two of them. -/
theorem findBestSplit_some
    (h : (findBestSplit p params data classes indices parentImpurity rng).1 = some s) :
    Between p data indices s.feature s.threshold ∧
      s.left = indices.filter (fun i => (data.x.get i).get s.feature ≤ s.threshold) ∧
      s.right = indices.filter (fun i => ¬ (data.x.get i).get s.feature ≤ s.threshold) := by
  unfold findBestSplit at h
  dsimp only at h
  split at h
  · cases h
  · rename_i feature threshold hbest
    obtain rfl := Option.some.inj h
    exact ⟨bestOf_between _ _ (by simp) _ _ hbest, rfl, rfl⟩

theorem findBestSplit_eq {rng' : σ} {candidates : List (Fin data.features)}
    {feature : Fin data.features} {threshold : V} {decrease : K}
    (hfeatures : candidateFeatures p params data.features rng = (candidates, rng'))
    (hbest : bestOf p params data classes indices parentImpurity candidates ⟨none, 0⟩ =
      ⟨some (feature, threshold), decrease⟩) :
    findBestSplit p params data classes indices parentImpurity rng =
      (some ⟨feature, threshold, decrease,
        indices.filter fun i => (data.x.get i).get feature ≤ threshold,
        indices.filter fun i => ¬ (data.x.get i).get feature ≤ threshold⟩, rng') := by
  unfold findBestSplit
  simp only [hfeatures, hbest]

theorem nodeSplit_some {depth : Int} {impurity : K}
    (h : (nodeSplit p params data classes indices depth impurity rng).1 = some s) :
    (findBestSplit p params data classes indices impurity rng).1 = some s := by
  unfold nodeSplit at h
  split at h
  · exact (Option.filter_eq_some_iff.mp h).1
  · cases h

theorem nodeSplit_eq {depth : Int} {impurity : K}
    (hcan : (params.maxDepth < 0 ∨ depth < params.maxDepth) ∧
      indices.length ≥ params.minSamplesSplit ∧ impurity > 0)
    (h : (findBestSplit p params data classes indices impurity rng).1 = some s)
    (hdecrease : s.decrease ≥ params.minImpurityDecrease) :
    (nodeSplit p params data classes indices depth impurity rng).1 = some s := by
  rw [nodeSplit, if_pos hcan]
  exact Option.filter_eq_some_iff.mpr ⟨h, decide_eq_true hdecrease⟩

/-- Both sides of a split are smaller than the node, where both have samples. -/
theorem Split.length_lt
    (h : (findBestSplit p params data classes indices parentImpurity rng).1 = some s)
    (hleft : s.left ≠ []) (hright : s.right ≠ []) :
    s.left.length < indices.length ∧ s.right.length < indices.length := by
  obtain ⟨-, hl, hr⟩ := findBestSplit_some h
  have hsum : indices.length = s.left.length + s.right.length := by
    rw [hl, hr, List.length_eq_length_filter_add
      (fun i => decide ((data.x.get i).get s.feature ≤ s.threshold))]
    simp only [decide_not]
  have := List.length_pos_iff.mpr hleft
  have := List.length_pos_iff.mpr hright
  omega

/-! ## The end of the recursion -/

/-- Where all splits have samples on both sides, a node with `n` samples has at most `n` levels
below it. -/
theorem buildNode_isSome (hsplit : ∀ indices parentImpurity rng s,
      (findBestSplit p params data classes indices parentImpurity rng).1 = some s →
        s.left ≠ [] ∧ s.right ≠ []) :
    ∀ (fuel : Nat) (indices : List (Fin data.samples)) (depth : Int)
      (s : Growth V K σ data.features), indices.length < fuel →
      (buildNode p params data classes fuel indices depth s).isSome
  | 0, _, _, _, h => absurd h (Nat.not_lt_zero _)
  | fuel + 1, indices, depth, s, h => by
      rw [buildNode]
      dsimp only
      split
      · rfl
      · rename_i b hb
        have hfound := nodeSplit_some hb
        obtain ⟨hleft, hright⟩ := hsplit _ _ _ _ hfound
        obtain ⟨hl, hr⟩ := Split.length_lt hfound hleft hright
        -- the two calls are on fewer samples
        obtain ⟨⟨left, s₁⟩, h₁⟩ := Option.isSome_iff_exists.mp
          (buildNode_isSome hsplit fuel b.left (depth + 1) _ (by omega))
        obtain ⟨⟨right, s₂⟩, h₂⟩ := Option.isSome_iff_exists.mp
          (buildNode_isSome hsplit fuel b.right (depth + 1) s₁ (by omega))
        rw [h₁, Option.bind_eq_bind, Option.bind_some, h₂]
        rfl

/-- With more fuel, what is made is the same. -/
theorem buildNode_le : ∀ {fuel fuel' : Nat} {indices : List (Fin data.samples)} {depth : Int}
      {s : Growth V K σ data.features} {made : Nat × Growth V K σ data.features},
      fuel ≤ fuel' → buildNode p params data classes fuel indices depth s = some made →
      buildNode p params data classes fuel' indices depth s = some made
  | 0, _, _, _, _, _, _, h => by cases h
  | fuel + 1, 0, _, _, _, _, hle, _ => absurd hle (Nat.not_succ_le_zero fuel)
  | fuel + 1, fuel' + 1, indices, depth, s, made, hle, h => by
      rw [buildNode] at h ⊢
      dsimp only at h ⊢
      split at h
      · exact h
      · obtain ⟨⟨left, s₁⟩, h₁, h⟩ := Option.bind_eq_some_iff.mp h
        obtain ⟨⟨right, s₂⟩, h₂, h⟩ := Option.bind_eq_some_iff.mp h
        rw [buildNode_le (Nat.le_of_succ_le_succ hle) h₁, Option.bind_eq_bind, Option.bind_some,
          buildNode_le (Nat.le_of_succ_le_succ hle) h₂]
        exact h

/-- Where all samples of a node go to the left, the node is never made. -/
theorem buildNode_eq_none
    (hsplit : ∀ depth rng, ∃ b, (nodeSplit p params data classes indices depth
      (nodeImpurity p params (classCounts classes (indices.map fun i => data.y.get i))
        indices.length) rng).1 = some b ∧ b.left = indices) :
    ∀ (fuel : Nat) (depth : Int) (s : Growth V K σ data.features),
      buildNode p params data classes fuel indices depth s = none
  | 0, _, _ => rfl
  | fuel + 1, depth, s => by
      obtain ⟨b, hb, hleft⟩ := hsplit depth s.rng
      rw [buildNode]
      dsimp only
      rw [hb]
      simp only [hleft, buildNode_eq_none hsplit fuel, Option.bind_eq_bind, Option.bind_none]

/-- Unlimited trees of data with the values `S` are done growing: every split has samples on both
sides, and every node is made, with what is below it. -/
def Grows (p : Platform V K σ) (S : Set V) : Prop :=
  ∀ (params : TreeParams K) (data : Dataset V) (classes : Nat),
    params.maxDepth < 0 → 1 ≤ params.minSamplesLeaf →
    (∀ (i : Fin data.samples) (feature : Fin data.features), (data.x.get i).get feature ∈ S) →
    (∀ indices parentImpurity rng s,
      (findBestSplit p params data classes indices parentImpurity rng).1 = some s →
        s.left ≠ [] ∧ s.right ≠ []) ∧
    ∀ indices depth s, ∃ fuel, (buildNode p params data classes fuel indices depth s).isSome

/-- The middle of two values separates them: the lower one is `<=`, and the upper one is not. -/
def Separates (p : Platform V K σ) (S : Set V) : Prop :=
  ∀ a ∈ S, ∀ b ∈ S, a < b → a ≤ p.mid a b ∧ p.mid a b < b

/-- The middle of two values that occur separates them. -/
def SeparatesRows (p : Platform V K σ) (data : Dataset V) : Prop :=
  ∀ (i j : Fin data.samples) (feature : Fin data.features),
    (data.x.get i).get feature < (data.x.get j).get feature →
      (data.x.get i).get feature ≤ p.mid ((data.x.get i).get feature) ((data.x.get j).get feature) ∧
        p.mid ((data.x.get i).get feature) ((data.x.get j).get feature) < (data.x.get j).get feature

theorem SeparatesRows.sides (hsep : SeparatesRows p data) (indices : List (Fin data.samples))
    (parentImpurity : K) (rng : σ) (s : Split V K data.samples data.features)
    (h : (findBestSplit p params data classes indices parentImpurity rng).1 = some s) :
    s.left ≠ [] ∧ s.right ≠ [] := by
  obtain ⟨⟨i, hi, j, hj, hlt, hmid⟩, hl, hr⟩ := findBestSplit_some h
  obtain ⟨hle, hgt⟩ := hsep i j s.feature hlt
  refine ⟨List.ne_nil_of_mem (a := i) ?_, List.ne_nil_of_mem (a := j) ?_⟩
  · rw [hl, hmid]
    exact List.mem_filter.mpr ⟨hi, decide_eq_true hle⟩
  · rw [hr, hmid]
    exact List.mem_filter.mpr ⟨hj, decide_eq_true hgt.not_ge⟩

omit [Field K] [LinearOrder K] in
theorem Separates.rows (hsep : Separates p S)
    (hdata : ∀ (i : Fin data.samples) (feature : Fin data.features),
      (data.x.get i).get feature ∈ S) : SeparatesRows p data :=
  fun i j feature hlt => hsep _ (hdata i feature) _ (hdata j feature) hlt

theorem Separates.grows (hsep : Separates p S) : Grows p S := by
  intro params data classes _ _ hdata
  have hsides : ∀ indices parentImpurity rng s,
      (findBestSplit p params data classes indices parentImpurity rng).1 = some s →
        s.left ≠ [] ∧ s.right ≠ [] := (hsep.rows hdata).sides
  exact ⟨hsides, fun indices depth s =>
    ⟨indices.length + 1, buildNode_isSome hsides _ indices depth s (Nat.lt_succ_self _)⟩⟩

/-! ## Two samples -/

/-- Two samples with one feature and a class each. -/
def twoSamples (a b : V) : Dataset V := ⟨2, 1, #v[#v[a], #v[b]], #v[0, 1], nofun⟩

/-- The defaults, without a limit on the depth. -/
def unlimited : TreeParams K := ⟨-1, 1, 2, 0, .gini, -1⟩

variable {a b : V}

/-- Both samples. -/
def both (a b : V) : List (Fin (twoSamples a b).samples) := List.finRange 2

theorem sortedPairs_twoSamples (hab : a < b) :
    sortedPairs (twoSamples a b) (both a b) (0 : Fin 1) = [(a, 0), (b, 1)] := by
  have hle : pairLe (a, 0) (b, 1) := .inl hab
  show List.insertionSort pairLe [(a, 0), (b, 1)] = _
  simp [hle]

/-- The two samples told apart by the middle of their values. -/
def cut (p : Platform V K σ) (a b : V) :
    Split V K (twoSamples a b).samples (twoSamples a b).features where
  feature := (0 : Fin 1)
  threshold := p.mid a b
  decrease := 1 / 2
  left := (both a b).filter fun i => ((twoSamples a b).x.get i).get (0 : Fin 1) ≤ p.mid a b
  right := (both a b).filter fun i => ¬ ((twoSamples a b).x.get i).get (0 : Fin 1) ≤ p.mid a b

omit [LinearOrder V] in
/-- What is said of both samples is said of their values. -/
theorem forall_both (P : V → Prop) :
    (∀ i ∈ both a b, P (((twoSamples a b).x.get i).get (0 : Fin 1))) ↔ P a ∧ P b := by
  refine ⟨fun h => ⟨h (0 : Fin 2) (List.mem_finRange _), h (1 : Fin 2) (List.mem_finRange _)⟩, ?_⟩
  rintro ⟨ha, hb⟩ i -
  match i with
  | ⟨0, _⟩ => exact ha
  | ⟨1, _⟩ => exact hb

omit [LinearOrder V] in
theorem mem_twoSamples (ha : a ∈ S) (hb : b ∈ S) (i : Fin (twoSamples a b).samples)
    (feature : Fin (twoSamples a b).features) : ((twoSamples a b).x.get i).get feature ∈ S := by
  obtain rfl : feature = (0 : Fin 1) := @Subsingleton.elim (Fin 1) _ _ _
  exact (forall_both (· ∈ S)).mpr ⟨ha, hb⟩ i (List.mem_finRange _)

omit [LinearOrder K] in
theorem cut_left_eq_nil (hab : a < b) : (cut p a b).left = [] ↔ p.mid a b < a := by
  have hnone := forall_both (a := a) (b := b) fun v => p.mid a b < v
  have hboth : p.mid a b < a ∧ p.mid a b < b ↔ p.mid a b < a :=
    and_iff_left_of_imp fun h => h.trans hab
  rw [← hboth, ← hnone]
  simp only [cut, List.filter_eq_nil_iff, decide_eq_true_eq, not_le]

omit [LinearOrder K] in
theorem cut_right_eq_nil (hab : a < b) : (cut p a b).right = [] ↔ b ≤ p.mid a b := by
  have hnone := forall_both (a := a) (b := b) fun v => v ≤ p.mid a b
  have hboth : a ≤ p.mid a b ∧ b ≤ p.mid a b ↔ b ≤ p.mid a b :=
    and_iff_right_of_imp hab.le.trans
  rw [← hboth, ← hnone]
  simp only [cut, List.filter_eq_nil_iff, decide_eq_true_eq, not_not]

omit [LinearOrder K] in
theorem cut_left_eq_both (hab : a < b) (hmid : b ≤ p.mid a b) : (cut p a b).left = both a b :=
  List.filter_eq_self.mpr fun i hi =>
    decide_eq_true ((forall_both fun v => v ≤ p.mid a b).mpr ⟨hab.le.trans hmid, hmid⟩ i hi)

/-- The one split there is between two samples. -/
theorem findBestSplit_twoSamples [IsStrictOrderedRing K] (p : Platform V K σ) (hab : a < b)
    (rng : σ) :
    findBestSplit p unlimited (twoSamples a b) 2 (both a b) (1 / 2 : K) rng =
      (some (cut p a b), rng) := by
  have hfeatures : candidateFeatures p (unlimited : TreeParams K) 1 rng = ([0], rng) := by
    simp [candidateFeatures, unlimited, List.finRange]
  have hsweep : sweep p (unlimited : TreeParams K) (classCounts 2 [0, 1]) 2 (1 / 2 : K) (0 : Fin 1)
      [(a, 0), (b, 1)] [0, 0] 0 ⟨none, 0⟩ = ⟨some (0, p.mid a b), 1 / 2⟩ := by
    simp [sweep, hab.ne, unlimited, nodeImpurity, classCounts]
  refine findBestSplit_eq hfeatures ?_
  show sweep p _ _ _ _ _ (sortedPairs (twoSamples a b) (both a b) (0 : Fin 1)) _ _ _ = _
  rw [sortedPairs_twoSamples hab]
  exact hsweep

/-- Where the middle is not below the upper value, both samples go to the left, again and
again. -/
theorem buildNode_twoSamples [IsStrictOrderedRing K] (p : Platform V K σ) (hab : a < b)
    (hmid : b ≤ p.mid a b) (fuel : Nat) (depth : Int)
    (s : Growth V K σ (twoSamples a b).features) :
    buildNode p (unlimited : TreeParams K) (twoSamples a b) 2 fuel (both a b) depth s = none := by
  have himpurity : nodeImpurity p (unlimited : TreeParams K) [1, 1] 2 = 1 / 2 := by
    norm_num [nodeImpurity, unlimited]
  refine buildNode_eq_none (fun depth rng => ⟨cut p a b, ?_, cut_left_eq_both hab hmid⟩)
    fuel depth s
  show (nodeSplit p _ _ _ _ _ (nodeImpurity p _ [1, 1] 2) _).1 = _
  rw [himpurity]
  exact nodeSplit_eq ⟨.inl (Int.negSucc_lt_zero 0), le_rfl, one_half_pos⟩
    (congrArg Prod.fst (findBestSplit_twoSamples p hab rng)) one_half_pos.le

/-- **Trees are done growing exactly where the middle separates.** -/
theorem grows_iff_separates [IsStrictOrderedRing K] [Inhabited σ] (p : Platform V K σ)
    (S : Set V) : Grows p S ↔ Separates p S := by
  refine ⟨fun h a ha b hb hab => ?_, Separates.grows⟩
  obtain ⟨hgrows, -⟩ :=
    h unlimited (twoSamples a b) 2 (Int.negSucc_lt_zero 0) le_rfl (mem_twoSamples ha hb)
  obtain ⟨hleft, hright⟩ := hgrows _ _ _ _
    (congrArg Prod.fst (findBestSplit_twoSamples p hab default))
  exact ⟨not_lt.mp (mt (cut_left_eq_nil hab).mpr hleft),
    not_le.mp (mt (cut_right_eq_nil hab).mpr hright)⟩

/-! ## Middles that are exact, and middles of floats -/

/-- The middle of two rationals. The Gini impurity has no logarithm, and without `max_features`
nothing is drawn. -/
def rational : Platform ℚ ℚ Unit := ⟨fun a b => (a + b) / 2, fun _ => 0, fun lo _ _ => (lo, ())⟩

theorem grows_rational : Grows rational Set.univ :=
  (grows_iff_separates rational Set.univ).mpr fun a _ b _ hab => by
    show a ≤ (a + b) / 2 ∧ (a + b) / 2 < b
    exact ⟨by linarith, by linarith⟩

/-- The floats from 1 to 2 by their significands. Twice the middle has a bit more than a
significand has: where it is odd, the sum is rounded to the one of its neighbours that is twice an
even number. -/
def nearest : Platform Int ℚ Unit where
  mid a b := if (a + b) % 2 = 0 ∨ (a + b) / 2 % 2 = 0 then (a + b) / 2 else (a + b) / 2 + 1
  log2 _ := 0
  pick lo _ _ := (lo, ())

theorem nearest_between {a b : Int} (hab : a < b) :
    a ≤ nearest.mid a b ∧ nearest.mid a b ≤ b := by
  simp only [nearest]
  split_ifs <;> omega

/-- The middle of `1 + 2 ^ -23` and `1 + 2 ^ -22` is rounded up. -/
theorem not_grows_nearest :
    (¬ ∀ p : Platform Int ℚ Unit, (∀ a b, a < b → a ≤ p.mid a b ∧ p.mid a b ≤ b) →
      Grows p (Set.Ico (2 ^ 23) (2 ^ 24))) ∧
    (findBestSplit nearest unlimited (twoSamples 8388609 8388610) 2 (both 8388609 8388610)
      (1 / 2) ()).1.map (fun s => (s.threshold, s.left, s.right)) =
        some (8388610, both 8388609 8388610, []) ∧
    ∀ fuel, fit nearest unlimited (twoSamples 8388609 8388610) () fuel = none := by
  have hlt : (8388609 : Int) < 8388610 := by norm_num
  have hmid : nearest.mid 8388609 8388610 = 8388610 := by decide
  refine ⟨fun h => ?_, ?_, fun fuel => buildNode_twoSamples nearest hlt hmid.ge fuel 0 _⟩
  · have ha : (8388609 : Int) ∈ Set.Ico (2 ^ 23) (2 ^ 24) := by norm_num
    have hb : (8388610 : Int) ∈ Set.Ico (2 ^ 23) (2 ^ 24) := by norm_num
    have hgrows := h nearest fun a b hab => nearest_between hab
    obtain ⟨hsides, -⟩ := hgrows unlimited (twoSamples 8388609 8388610) 2 (by decide) le_rfl
      (mem_twoSamples ha hb)
    obtain ⟨-, hright⟩ := hsides _ _ _ _
      (congrArg Prod.fst (findBestSplit_twoSamples nearest hlt ()))
    exact hright ((cut_right_eq_nil hlt).mpr hmid.ge)
  · rw [findBestSplit_twoSamples nearest hlt, Option.map_some, cut_left_eq_both hlt hmid.ge,
      (cut_right_eq_nil hlt).mpr hmid.ge]
    rfl

end CrossMachine.Ml
