import CrossMachine.Lib.Best
import CrossMachine.Ml.Growth
import Mathlib.Data.List.Induction

/-!
# The split that is found

The sweep counts along the sorted values of a feature, and with every class it moves from the
right to the left. What it computes at a place between two values is the gain of the samples told
apart at their middle (`sweep_eq`), where the middle separates the two. So the search goes
through the cuts of all features in order, and ends with the first of those that gain most
(`findBestSplit_cut`).
-/

namespace CrossMachine.Ml

open Lib

/-! ## Counting classes -/

theorem classCounts_append (n : Nat) (labels : List Nat) (c : Nat) :
    classCounts n (labels ++ [c]) = (classCounts n labels).modify c (· + 1) := by
  rw [classCounts, List.foldl_append]
  rfl

theorem classCounts_eq (n : Nat) (labels : List Nat) :
    classCounts n labels = (List.range n).map fun c => labels.count c := by
  induction labels using List.reverseRecOn with
  | nil => simp [classCounts]
  | append_singleton labels c ih =>
      rw [classCounts_append, ih]
      refine List.ext_getElem? fun i => ?_
      rw [List.getElem?_modify, List.getElem?_map, List.getElem?_map]
      by_cases hi : i < n
      · rw [List.getElem?_range hi]
        by_cases hc : c = i <;> simp [hc, List.count_append, List.count_cons]
      · rw [List.getElem?_eq_none (by rwa [List.length_range, ← Nat.not_lt])]
        rfl

theorem classCounts_perm {n : Nat} {l l' : List Nat} (h : l.Perm l') :
    classCounts n l = classCounts n l' := by
  simp only [classCounts_eq, h.count_eq]

/-- What is not on the left is on the right. -/
theorem zipWith_classCounts (n : Nat) (l r : List Nat) :
    List.zipWith (· - ·) (classCounts n (l ++ r)) (classCounts n l) = classCounts n r := by
  simp only [classCounts_eq, List.zipWith_map, List.zipWith_self, List.count_append,
    Nat.add_sub_cancel_left]

/-- No class occurs more often than the majority class. -/
theorem count_le_majority {n : Nat} {labels : List Nat} (hn : 0 < n) (h : ∀ c ∈ labels, c < n)
    (c : Nat) : labels.count c ≤ labels.count (majorityClass (classCounts n labels)) := by
  rw [classCounts_eq]
  generalize hcounts : (List.range n).map (fun c => labels.count c) = counts
  have hne : counts ≠ [] := by
    rw [← hcounts]
    simpa using hn.ne'
  have hmax : counts.foldl max 0 = counts.max hne := by
    rw [List.foldl_max_eq_max hne, Nat.zero_max]
  have hidx : counts.idxOf (counts.max hne) < counts.length :=
    List.idxOf_lt_length_of_mem (List.max_mem hne)
  have hmajority : labels.count (majorityClass counts) = counts.max hne := by
    have hget := List.getElem_idxOf hidx
    simp only [← hcounts, List.getElem_map, List.getElem_range] at hget
    rw [majorityClass, hmax]
    simpa only [hcounts] using hget
  rw [hmajority]
  by_cases hc : c < n
  · refine List.le_max_of_mem ?_
    rw [← hcounts]
    exact List.mem_map_of_mem (List.mem_range.mpr hc)
  · rw [List.count_eq_zero.mpr fun hmem => hc (h c hmem)]
    exact Nat.zero_le _

variable {V K σ : Type} [LinearOrder V] [Field K] [LinearOrder K]

/-! ## Cuts -/

section

variable (p : Platform V K σ) (params : TreeParams K) (data : Dataset V) (classes : Nat)

/-- The samples on either side of a cut. -/
def below (rows : List (Fin data.samples)) (cut : Fin data.features × V) :
    List (Fin data.samples) :=
  rows.filter fun i => (data.x.get i).get cut.1 ≤ cut.2

def above (rows : List (Fin data.samples)) (cut : Fin data.features × V) :
    List (Fin data.samples) :=
  rows.filter fun i => ¬ (data.x.get i).get cut.1 ≤ cut.2

def labelsOf (rows : List (Fin data.samples)) : List Nat := rows.map fun i => data.y.get i

def impurityOf (rows : List (Fin data.samples)) : K :=
  nodeImpurity p params (classCounts classes (labelsOf data rows)) rows.length

/-- How much of the impurity is gone on the two sides of a cut. -/
def gain (rows : List (Fin data.samples)) (cut : Fin data.features × V) : K :=
  impurityOf p params data classes rows -
    ((below data rows cut).length * impurityOf p params data classes (below data rows cut) +
      (above data rows cut).length * impurityOf p params data classes (above data rows cut)) /
        rows.length

/-- The middles of neighbours that differ. -/
def middles : List (V × Nat) → List V
  | x :: y :: rest =>
      if x.1 = y.1 then middles (y :: rest) else p.mid x.1 y.1 :: middles (y :: rest)
  | _ => []

/-- A cut leaves enough samples on both sides. -/
def Leaves (rows : List (Fin data.samples)) (cut : Fin data.features × V) : Prop :=
  params.minSamplesLeaf ≤ (below data rows cut).length ∧
    params.minSamplesLeaf ≤ (above data rows cut).length

instance (rows : List (Fin data.samples)) : DecidablePred (Leaves params data rows) := fun _ =>
  inferInstanceAs (Decidable (_ ∧ _))

/-- The cuts of a feature, from the lowest to the highest. -/
def cutsOf (rows : List (Fin data.samples)) (feature : Fin data.features)
    (l : List (V × Nat)) : List (Fin data.features × V) :=
  ((middles p l).map (feature, ·)).filter (Leaves params data rows)

/-- The cuts of some features. -/
def cuts (candidates : List (Fin data.features)) (rows : List (Fin data.samples)) :
    List (Fin data.features × V) :=
  candidates.flatMap fun feature =>
    cutsOf p params data rows feature (sortedPairs data rows feature)

end

variable {p : Platform V K σ} {params : TreeParams K} {data : Dataset V} {classes : Nat}
  {rows : List (Fin data.samples)} {feature : Fin data.features}

theorem below_append_above (cut : Fin data.features × V) :
    (below data rows cut ++ above data rows cut).Perm rows := by
  have h := List.filter_append_perm (fun i => decide ((data.x.get i).get cut.1 ≤ cut.2)) rows
  simpa only [below, above, decide_not] using h

theorem length_below_add_above (rows : List (Fin data.samples)) (cut : Fin data.features × V) :
    (below data rows cut).length + (above data rows cut).length = rows.length := by
  rw [← List.length_append, (below_append_above cut).length_eq]

theorem pairLe.fst_le {a b : V × Nat} (h : pairLe a b) : a.1 ≤ b.1 := by
  rcases h with h | ⟨h, _⟩
  · exact h.le
  · exact h.le

/-- Along sorted values, those up to `x` are at most the middle, and those from `y` on are not. -/
theorem le_middle_iff {l front rest : List (V × Nat)} {x y z : V × Nat} {t : V}
    (hsorted : l.Pairwise pairLe) (hl : l = (front ++ [x]) ++ y :: rest) (hle : x.1 ≤ t)
    (hlt : t < y.1) : (z ∈ front ++ [x] → z.1 ≤ t) ∧ (z ∈ y :: rest → ¬ z.1 ≤ t) := by
  subst hl
  obtain ⟨hfront, hrest, -⟩ := List.pairwise_append.mp hsorted
  obtain ⟨-, -, hx⟩ := List.pairwise_append.mp hfront
  refine ⟨fun hz => ?_, fun hz => not_le.mpr (hlt.trans_le ?_)⟩
  · rcases List.mem_append.mp hz with hz | hz
    · exact (hx z hz x (List.mem_singleton_self x)).fst_le.trans hle
    · rw [List.mem_singleton.mp hz]
      exact hle
  · rcases List.mem_cons.mp hz with rfl | hz
    · exact le_rfl
    · exact ((List.pairwise_cons.mp hrest).1 z hz).fst_le

/-- At the middle of neighbours, the samples below are those that come first, and the samples
above are the others. -/
theorem sides_middle {front rest : List (V × Nat)} {x y : V × Nat} {t : V}
    (hsorted : sortedPairs data rows feature = (front ++ [x]) ++ y :: rest) (hle : x.1 ≤ t)
    (hlt : t < y.1) :
    ((below data rows (feature, t)).map fun i => ((data.x.get i).get feature, data.y.get i)).Perm
        (front ++ [x]) ∧
      ((above data rows (feature, t)).map fun i => ((data.x.get i).get feature, data.y.get i)).Perm
        (y :: rest) := by
  have hpairs := List.pairwise_insertionSort pairLe
    (rows.map fun i => ((data.x.get i).get feature, data.y.get i))
  have hperm : (rows.map fun i => ((data.x.get i).get feature, data.y.get i)).Perm
      ((front ++ [x]) ++ y :: rest) :=
    hsorted ▸ (List.perm_insertionSort pairLe _).symm
  have hside {z : V × Nat} := le_middle_iff (z := z) hpairs hsorted hle hlt
  constructor
  · have hfront : (front ++ [x]).filter (fun z => z.1 ≤ t) = front ++ [x] :=
      List.filter_eq_self.mpr fun z hz => decide_eq_true (hside.1 hz)
    have hback : (y :: rest).filter (fun z => z.1 ≤ t) = [] :=
      List.filter_eq_nil_iff.mpr fun z hz => by simpa using hside.2 hz
    have h := hperm.filter fun z => z.1 ≤ t
    rwa [List.filter_append, hfront, hback, List.append_nil, List.filter_map] at h
  · have hfront : (front ++ [x]).filter (fun z => ¬ z.1 ≤ t) = [] :=
      List.filter_eq_nil_iff.mpr fun z hz => by simpa using hside.1 hz
    have hback : (y :: rest).filter (fun z => ¬ z.1 ≤ t) = y :: rest :=
      List.filter_eq_self.mpr fun z hz => decide_eq_true (hside.2 hz)
    have h := hperm.filter fun z => ¬ z.1 ≤ t
    rwa [List.filter_append, hfront, hback, List.nil_append, List.filter_map] at h

/-! ## The sweep -/

/-- The samples of a node by class, along the sorted values. -/
theorem classCounts_sorted {l : List (V × Nat)} (h : sortedPairs data rows feature = l) :
    classCounts classes (labelsOf data rows) = classCounts classes (l.map Prod.snd) := by
  refine classCounts_perm ?_
  have hperm := (List.perm_insertionSort pairLe
    (rows.map fun i => ((data.x.get i).get feature, data.y.get i))).symm.map Prod.snd
  rw [List.map_map] at hperm
  exact h ▸ hperm

/-- What is computed between two neighbours is the gain of the cut at their middle. -/
theorem gain_middle {front rest : List (V × Nat)} {x y : V × Nat} {t : V}
    (hsorted : sortedPairs data rows feature = (front ++ [x]) ++ y :: rest) (hle : x.1 ≤ t)
    (hlt : t < y.1) :
    (below data rows (feature, t)).length = front.length + 1 ∧
      (above data rows (feature, t)).length = rows.length - (front.length + 1) ∧
      impurityOf p params data classes (below data rows (feature, t)) =
        nodeImpurity p params (classCounts classes ((front ++ [x]).map Prod.snd))
          (front.length + 1) ∧
      impurityOf p params data classes (above data rows (feature, t)) =
        nodeImpurity p params (List.zipWith (· - ·) (classCounts classes (labelsOf data rows))
          (classCounts classes ((front ++ [x]).map Prod.snd)))
          (rows.length - (front.length + 1)) := by
  obtain ⟨hbelow, habove⟩ := sides_middle hsorted hle hlt
  have hlength : (below data rows (feature, t)).length = front.length + 1 := by
    have h := hbelow.length_eq
    rwa [List.length_map, List.length_append, List.length_singleton] at h
  have hrest : (above data rows (feature, t)).length = rows.length - (front.length + 1) := by
    have := length_below_add_above rows (feature, t)
    omega
  have hleft := classCounts_perm (n := classes) (hbelow.map Prod.snd)
  have hright := classCounts_perm (n := classes) (habove.map Prod.snd)
  rw [List.map_map] at hleft hright
  refine ⟨hlength, hrest, ?_, ?_⟩
  · rw [impurityOf, hlength, ← hleft]
    rfl
  · rw [impurityOf, hrest, classCounts_sorted hsorted, List.map_append, zipWith_classCounts,
      ← hright]
    rfl

/-- What the sweep keeps is the better of the best and the cuts it goes past. -/
theorem sweep_eq (hsep : SeparatesRows p data) (l front : List (V × Nat))
    (hsorted : sortedPairs data rows feature = front ++ l) (best : Best V K data.features) :
    sweep p params (classCounts classes (labelsOf data rows)) rows.length
        (impurityOf p params data classes rows) feature l
        (classCounts classes (front.map Prod.snd)) front.length best =
      let end' := (cutsOf p params data rows feature l).foldl
        (improve (gain p params data classes rows)) (best.split, best.decrease)
      ⟨end'.1, end'.2⟩ := by
  induction l generalizing front best with
  | nil => rfl
  | cons x l ih =>
      cases l with
      | nil => rfl
      | cons y rest =>
          have hnext := ih (front ++ [x]) (by rw [hsorted, List.append_assoc]; rfl)
          rw [List.map_append, List.map_singleton, classCounts_append, List.length_append,
            List.length_singleton] at hnext
          rw [sweep]
          dsimp only
          by_cases heq : x.1 = y.1
          · rw [if_pos heq, hnext, cutsOf, cutsOf, middles, if_pos heq]
          · have hinfix : [x, y] <:+: sortedPairs data rows feature :=
              ⟨front, rest, by rw [hsorted, List.append_assoc]; rfl⟩
            obtain ⟨i, -, j, -, hi, hj, hlt⟩ := sortedPairs_split hinfix heq
            obtain ⟨hle, hlt⟩ := hsep i j feature (hi ▸ hj ▸ hlt)
            rw [hi, hj] at hle hlt
            obtain ⟨hbelow, habove, hleft, hright⟩ :=
              @gain_middle V K σ _ _ _ p params data classes rows feature front rest x y _
                (by rw [hsorted, List.append_assoc]; rfl) hle hlt
            have hgain := gain.eq_1 p params data classes rows (feature, p.mid x.1 y.1)
            rw [hbelow, habove, hleft, hright, List.map_append, List.map_singleton,
              classCounts_append] at hgain
            have hcuts : cutsOf p params data rows feature (x :: y :: rest) =
                if Leaves params data rows (feature, p.mid x.1 y.1) then
                  (feature, p.mid x.1 y.1) :: cutsOf p params data rows feature (y :: rest)
                else cutsOf p params data rows feature (y :: rest) := by
              rw [cutsOf, middles, if_neg heq, List.map_cons, List.filter_cons]
              simp only [decide_eq_true_eq, cutsOf]
            rw [if_neg heq, hnext, hcuts]
            by_cases hleaves : Leaves params data rows (feature, p.mid x.1 y.1)
            · have henough := hleaves
              rw [Leaves, hbelow, habove] at henough
              rw [if_pos hleaves, List.foldl_cons, if_neg (by omega), ← hgain, improve]
              split
              · rfl
              · rfl
            · have hfew := hleaves
              rw [Leaves, hbelow, habove] at hfew
              rw [if_neg hleaves, if_pos (by omega)]

theorem bestOf_eq (hsep : SeparatesRows p data) (candidates : List (Fin data.features))
    (best : Best V K data.features) :
    bestOf p params data classes rows (impurityOf p params data classes rows) candidates best =
      let end' := (cuts p params data candidates rows).foldl
        (improve (gain p params data classes rows)) (best.split, best.decrease)
      ⟨end'.1, end'.2⟩ := by
  induction candidates generalizing best with
  | nil => rfl
  | cons feature candidates ih =>
      have hsweep := @sweep_eq V K σ _ _ _ p params data classes rows feature hsep
        (sortedPairs data rows feature) [] rfl best
      have hzero : classCounts classes (List.map Prod.snd ([] : List (V × Nat))) =
          List.replicate classes 0 := rfl
      rw [hzero, List.length_nil] at hsweep
      rw [cuts, List.flatMap_cons, List.foldl_append]
      rw [bestOf, List.foldl_cons, ← bestOf, ← labelsOf, hsweep, ih]
      rfl

/-- What is found is the first of the cuts that gain most, and the samples told apart by it. -/
theorem findBestSplit_cut (hsep : SeparatesRows p data) (rng : σ) :
    let candidates := (candidateFeatures p params data.features rng).1
    let found := findBestSplit p params data classes rows
      (impurityOf p params data classes rows) rng
    (found.1 = none ∧ ∀ cut ∈ cuts p params data candidates rows,
        gain p params data classes rows cut ≤ 0) ∨
      ∃ cut, FirstBest (gain p params data classes rows) 0
          (cuts p params data candidates rows) cut ∧
        found.1 = some ⟨cut.1, cut.2, gain p params data classes rows cut,
          below data rows cut, above data rows cut⟩ := by
  dsimp only
  unfold findBestSplit
  dsimp only
  rw [bestOf_eq hsep]
  dsimp only
  have hends := @foldl_improve _ _ _ (gain p params data classes rows)
    (cuts p params data (candidateFeatures p params data.features rng).1 rows) (none, 0)
  rcases hends with ⟨hsame, hall⟩ | ⟨cut, hend, hcut⟩
  · rw [hsame]
    exact .inl ⟨rfl, hall⟩
  · rw [hend]
    exact .inr ⟨cut, hcut, rfl⟩

/-- A node that is split has the samples and the impurity for it, and its split is the first of the
cuts that gain most. -/
theorem nodeSplit_cut (hsep : SeparatesRows p data) {depth : Int} {rng : σ}
    {b : Split V K data.samples data.features}
    (h : (nodeSplit p params data classes rows depth
      (impurityOf p params data classes rows) rng).1 = some b) :
    (params.maxDepth < 0 ∨ depth < params.maxDepth) ∧
      ∃ cut, FirstBest (gain p params data classes rows) 0
          (cuts p params data (candidateFeatures p params data.features rng).1 rows) cut ∧
        b = ⟨cut.1, cut.2, gain p params data classes rows cut,
          below data rows cut, above data rows cut⟩ := by
  have hfound := nodeSplit_some h
  unfold nodeSplit at h
  split at h
  · rename_i hcan
    have hends := @findBestSplit_cut V K σ _ _ _ p params data classes rows hsep rng
    rcases hends with ⟨hnone, -⟩ | ⟨cut, hbest, hsome⟩
    · rw [hnone] at hfound
      cases hfound
    · exact ⟨hcan.1, cut, hbest, Option.some.inj (hfound.symm.trans hsome)⟩
  · cases h

omit [Field K] [LinearOrder K] in
/-- Every cut leaves enough samples. -/
theorem leaves_of_mem_cuts {candidates : List (Fin data.features)} {cut : Fin data.features × V}
    (h : cut ∈ cuts p params data candidates rows) : Leaves params data rows cut := by
  obtain ⟨feature, -, h⟩ := List.mem_flatMap.mp h
  exact of_decide_eq_true (List.mem_filter.mp h).2

end CrossMachine.Ml
