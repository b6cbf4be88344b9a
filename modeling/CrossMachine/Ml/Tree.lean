import CrossMachine.Lib.Preorder
import CrossMachine.Ml.Splits

/-!
# The tree that is grown

`build_node` appends a node, then what is below it, and at last gives the node the positions of
its children. So the array is a binary tree in preorder (`buildNode_placed`), whose nodes stand
for sets of samples: the root for all of them, and the children of a node for the two sides of its
cut. What is said of a tree that is `Grown` is then said of the array by what the walks of
`predict_one` and `depth` are on a tree in preorder.
-/

namespace CrossMachine.Ml

open Lib

/-- The samples of every node, and the cuts. -/
abbrev RowTree {V : Type} (data : Dataset V) :=
  BinTree (List (Fin data.samples)) (Fin data.features × V)

variable {V K σ : Type} [LinearOrder V]

/-! ## Where a row goes -/

/-- A row goes left. -/
def goesLeft {features : Nat} (row : Vector V features) (cut : Fin features × V) : Bool :=
  row.get cut.1 ≤ cut.2

/-- The children of a node have the two sides of its cut. -/
def Routed (data : Dataset V) : RowTree data → Prop
  | .leaf _ => True
  | .node rows cut l r => l.label = below data rows cut ∧ r.label = above data rows cut ∧
      Routed data l ∧ Routed data r

variable {data : Dataset V} {t : RowTree data} {i : Fin data.samples} {pos k : Nat}
  {rows : List (Fin data.samples)} {cut : Fin data.features × V}

theorem mem_below : i ∈ below data rows cut ↔ i ∈ rows ∧ goesLeft (data.x.get i) cut = true :=
  List.mem_filter

theorem mem_above : i ∈ above data rows cut ↔ i ∈ rows ∧ ¬ goesLeft (data.x.get i) cut = true := by
  rw [above, List.mem_filter, goesLeft]
  simp only [decide_not, Bool.not_eq_true', decide_eq_false_iff_not, decide_eq_true_eq]

theorem Routed.leaf_subset (h : Routed data t) (hk : (k, rows) ∈ t.leavesAt pos) :
    rows ⊆ t.label := by
  induction t generalizing pos with
  | leaf _ =>
      obtain ⟨-, rfl⟩ := Prod.mk.inj (List.mem_singleton.mp hk)
      exact List.Subset.refl _
  | node all cut l r ihl ihr =>
      obtain ⟨hl, hr, hrl, hrr⟩ := h
      rcases List.mem_append.mp hk with hk | hk
      · exact fun i hi => (mem_below.mp (hl ▸ ihl hrl hk hi)).1
      · exact fun i hi => (mem_above.mp (hr ▸ ihr hrr hk hi)).1

/-- A sample is in the leaf that its row comes to, and in no other. -/
theorem Routed.mem_iff (h : Routed data t) (hi : i ∈ t.label)
    (hk : (k, rows) ∈ t.leavesAt pos) :
    i ∈ rows ↔ (t.descend (goesLeft (data.x.get i)) pos).1 = k := by
  induction t generalizing pos with
  | leaf _ =>
      obtain ⟨rfl, rfl⟩ := Prod.mk.inj (List.mem_singleton.mp hk)
      exact iff_of_true hi rfl
  | node all cut l r ihl ihr =>
      obtain ⟨hl, hr, hrl, hrr⟩ := h
      have hleft := l.descend_bounds (goesLeft (data.x.get i)) (pos + 1)
      have hright := r.descend_bounds (goesLeft (data.x.get i)) (pos + 1 + l.size)
      rw [BinTree.descend]
      by_cases hgo : goesLeft (data.x.get i) cut = true
      · have hil : i ∈ l.label := hl ▸ mem_below.mpr ⟨hi, hgo⟩
        rw [if_pos hgo]
        rcases List.mem_append.mp hk with hk | hk
        · exact ihl hrl hil hk
        · refine iff_of_false (fun hmem => ?_) (by have := BinTree.leavesAt_bounds hk; omega)
          exact (mem_above.mp (hr ▸ hrr.leaf_subset hk hmem)).2 hgo
      · have hir : i ∈ r.label := hr ▸ mem_above.mpr ⟨hi, hgo⟩
        rw [if_neg hgo]
        rcases List.mem_append.mp hk with hk | hk
        · refine iff_of_false (fun hmem => ?_) (by have := BinTree.leavesAt_bounds hk; omega)
          exact hgo (mem_below.mp (hl ▸ hrl.leaf_subset hk hmem)).2
        · exact ihr hrr hir hk

/-! ## Walks over the array -/

section

variable {α : Type*} {features : Nat} {cell : α → Option ((Fin features × V) × Nat × Nat) →
  TreeNode V K features}

/-- The array has the positions that a tree in preorder has. -/
def Shows (cell : α → Option ((Fin features × V) × Nat × Nat) → TreeNode V K features) : Prop :=
  ∀ a inner, (cell a inner).inner = inner.map fun (cut, l, r) => (cut.1, cut.2, l, r)

variable {nodes : List (TreeNode V K features)} {t : BinTree α (Fin features × V)}

theorem leafIdx_placed (hcell : Shows cell) {row : Vector V features} (h : t.Placed cell nodes pos)
    {fuel : Nat} (hfuel : t.depth < fuel) :
    leafIdx nodes row fuel pos = some (t.descend (goesLeft row) pos).1 := by
  induction t generalizing pos fuel with
  | leaf a =>
      obtain ⟨fuel, rfl⟩ := Nat.exists_eq_succ_of_ne_zero (Nat.ne_zero_of_lt hfuel)
      have hcell : (cell a none).inner = none := hcell a none
      simp only [leafIdx, show nodes[pos]? = _ from h, Option.bind_eq_bind, Option.bind_some, hcell]
      rfl
  | node a cut l r ihl ihr =>
      obtain ⟨fuel, rfl⟩ := Nat.exists_eq_succ_of_ne_zero (Nat.ne_zero_of_lt hfuel)
      obtain ⟨hnode, hl, hr⟩ := h
      have hinner := hcell a (some (cut, pos + 1, pos + 1 + l.size))
      rw [BinTree.depth] at hfuel
      simp only [leafIdx, hnode, Option.bind_eq_bind, Option.bind_some, hinner, Option.map_some]
      rw [BinTree.descend, goesLeft]
      by_cases hgo : row.get cut.1 ≤ cut.2
      · rw [if_pos hgo, if_pos (decide_eq_true hgo)]
        exact ihl hl (by omega)
      · rw [if_neg hgo, if_neg (by simpa using hgo)]
        exact ihr hr (by omega)

omit [LinearOrder V] in
/-- The loop goes through a tree and then on with the rest of the stack. It writes depths inside
the tree only. -/
theorem depthLoop_placed (hcell : Shows cell) (h : t.Placed cell nodes pos) {fuel d m : Nat}
    {stack nodeDepth : List Nat} (hlength : nodeDepth.length = nodes.length)
    (hd : nodeDepth[pos]? = some d) :
    ∃ nodeDepth', depthLoop nodes (fuel + t.size) (pos :: stack) nodeDepth m =
        depthLoop nodes fuel stack nodeDepth' (max m (d + t.depth)) ∧
      nodeDepth'.length = nodes.length ∧
      ∀ j, j ≤ pos ∨ pos + t.size ≤ j → nodeDepth'[j]? = nodeDepth[j]? := by
  induction t generalizing pos fuel d m stack nodeDepth with
  | leaf a =>
      have hcell : (cell a none).inner = none := hcell a none
      refine ⟨nodeDepth, ?_, hlength, fun _ _ => rfl⟩
      simp only [depthLoop, BinTree.size, show nodes[pos]? = _ from h, hd, hcell,
        Option.bind_eq_bind, Option.bind_some, BinTree.depth, Nat.add_zero]
  | node a cut l r ihl ihr =>
      obtain ⟨hnode, hl, hr⟩ := h
      have hinner := hcell a (some (cut, pos + 1, pos + 1 + l.size))
      have hlpos := l.size_pos
      have hrpos := r.size_pos
      have hbound : pos + 1 + l.size < nodeDepth.length := by
        obtain ⟨_, hlabel⟩ := hr.label
        rw [hlength]
        exact (List.getElem?_eq_some_iff.mp hlabel).1
      -- the right child is popped first
      obtain ⟨afterRight, hrun, hlen, hsame⟩ := @ihr _ hr (fuel + l.size) (d + 1) (max m d)
        ((pos + 1) :: stack) ((nodeDepth.set (pos + 1) (d + 1)).set (pos + 1 + l.size) (d + 1))
        (by rw [List.length_set, List.length_set, hlength])
        (by rw [List.getElem?_set_self (by rwa [List.length_set])])
      obtain ⟨afterLeft, hrun', hlen', hsame'⟩ := @ihl _ hl fuel (d + 1)
        (max (max m d) (d + 1 + r.depth)) stack afterRight hlen (by
          rw [hsame _ (.inl (by omega)), List.getElem?_set_ne (by omega),
            List.getElem?_set_self (by omega)])
      refine ⟨afterLeft, ?_, hlen', fun j hj => ?_⟩
      · have hfuel : fuel + (BinTree.node a cut l r).size = fuel + l.size + r.size + 1 := by
          rw [BinTree.size]
          omega
        have hmax : max (max (max m d) (d + 1 + r.depth)) (d + 1 + l.depth) =
            max m (d + (BinTree.node a cut l r).depth) := by
          rw [BinTree.depth]
          omega
        rw [hfuel, depthLoop]
        simp only [hnode, hd, Option.bind_eq_bind, Option.bind_some, hinner, Option.map_some]
        rw [hrun, hrun', hmax]
      · rw [BinTree.size] at hj
        rw [hsame' j (by omega), hsame j (by omega), List.getElem?_set_ne (by omega),
          List.getElem?_set_ne (by omega)]

omit [LinearOrder V] in
theorem depth_flatten (hcell : Shows cell) {fuel : Nat} (hfuel : t.size ≤ fuel) :
    depth (t.flatten cell 0) fuel = some t.depth := by
  have hpos := t.size_pos
  have hroot : (List.replicate (t.flatten cell 0).length 0)[0]? = some 0 := by
    rw [List.getElem?_replicate, if_pos (by rwa [BinTree.length_flatten])]
  obtain ⟨nodeDepth, hrun, -⟩ := @depthLoop_placed _ _ _ _ _ _ _ _ hcell t.placed_flatten
    (fuel - t.size) 0 0 [] _ List.length_replicate hroot
  rw [depth, ← Nat.sub_add_cancel hfuel, hrun, depthLoop, Nat.zero_max, Nat.zero_add]

end

/-! ## Growing -/

section

variable [Field K] [LinearOrder K] (p : Platform V K σ) (params : TreeParams K)
  (data : Dataset V) (classes : Nat)

/-- What the array has for a node with some samples. -/
def cellOf (rows : List (Fin data.samples))
    (inner : Option ((Fin data.features × V) × Nat × Nat)) : TreeNode V K data.features where
  predictedClass := majorityClass (classCounts classes (labelsOf data rows))
  nSamples := rows.length
  impurity := impurityOf p params data classes rows
  inner := inner.map fun (cut, l, r) => (cut.1, cut.2, l, r)

/-- A tree that `build_node` grows at some depth. -/
inductive Grown : Int → RowTree data → Prop
  | leaf {depth : Int} {rows : List (Fin data.samples)} (rng : σ)
      (h : (nodeSplit p params data classes rows depth
        (impurityOf p params data classes rows) rng).1 = none) :
      Grown depth (.leaf rows)
  | node {depth : Int} {rows : List (Fin data.samples)} {l r : RowTree data} (rng : σ)
      (b : Split V K data.samples data.features)
      (h : (nodeSplit p params data classes rows depth
        (impurityOf p params data classes rows) rng).1 = some b)
      (hleft : l.label = b.left) (hright : r.label = b.right)
      (hl : Grown (depth + 1) l) (hr : Grown (depth + 1) r) :
      Grown depth (.node rows (b.feature, b.threshold) l r)

end

variable [Field K] [LinearOrder K] {p : Platform V K σ} {params : TreeParams K} {classes : Nat}

omit [LinearOrder V] in
theorem shows_cellOf : Shows (cellOf p params data classes) := fun _ _ => rfl

theorem modify_at_length {α : Type*} (front back : List α) (a : α) (f : α → α) :
    (front ++ a :: back).modify front.length f = front ++ f a :: back := by
  rw [List.modify_eq_take_cons_drop (by simp)]
  simp

theorem buildNode_placed : ∀ (fuel : Nat) (rows : List (Fin data.samples)) (depth : Int)
    (s : Growth V K σ data.features) (i : Nat) (s' : Growth V K σ data.features),
    buildNode p params data classes fuel rows depth s = some (i, s') →
      ∃ t : RowTree data, t.label = rows ∧ Grown p params data classes depth t ∧
        i = s.nodes.length ∧
        s'.nodes = s.nodes ++ t.flatten (cellOf p params data classes) s.nodes.length
  | 0, _, _, _, _, _, h => by cases h
  | fuel + 1, rows, depth, s, i, s', h => by
      rw [buildNode] at h
      dsimp only at h
      split at h
      · rename_i hnone
        obtain ⟨rfl, rfl⟩ := Prod.mk.inj (Option.some.inj h)
        exact ⟨.leaf rows, rfl, .leaf s.rng hnone, rfl, rfl⟩
      · rename_i b hb
        obtain ⟨⟨left, s₁⟩, h₁, h⟩ := Option.bind_eq_some_iff.mp h
        obtain ⟨⟨right, s₂⟩, h₂, h⟩ := Option.bind_eq_some_iff.mp h
        obtain ⟨rfl, rfl⟩ := Prod.mk.inj (Option.some.inj h)
        obtain ⟨l, hl, hgl, rfl, hn₁⟩ := buildNode_placed fuel _ _ _ _ _ h₁
        obtain ⟨r, hr, hgr, rfl, hn₂⟩ := buildNode_placed fuel _ _ _ _ _ h₂
        refine ⟨.node rows (b.feature, b.threshold) l r, rfl,
          .node s.rng b hb hl hr hgl hgr, rfl, ?_⟩
        -- the node has been appended first, and its position is below those of its children
        rw [hn₂, hn₁, List.append_assoc, List.append_assoc, List.singleton_append, modify_at_length]
        simp only [List.length_append, List.length_singleton, BinTree.length_flatten,
          BinTree.flatten]
        rfl

/-! ## What is said of a grown tree -/

variable {level : Int}

theorem Grown.routed (hsep : SeparatesRows p data) (h : Grown p params data classes level t) :
    Routed data t := by
  induction h with
  | leaf => exact trivial
  | node rng b h hleft hright _ _ ihl ihr =>
      obtain ⟨-, cut, -, rfl⟩ := nodeSplit_cut hsep h
      exact ⟨hleft, hright, ihl, ihr⟩

/-- No node is deeper than `max_depth`. -/
theorem Grown.depth_le (hsep : SeparatesRows p data) (h : Grown p params data classes level t)
    (hmax : 0 ≤ params.maxDepth) (hlevel : level ≤ params.maxDepth) :
    level + t.depth ≤ params.maxDepth := by
  induction h with
  | leaf => simpa only [BinTree.depth, Nat.cast_zero, add_zero] using hlevel
  | node rng b h _ _ _ _ ihl ihr =>
      obtain ⟨hcan, -⟩ := nodeSplit_cut hsep h
      have hl := ihl (by omega)
      have hr := ihr (by omega)
      rw [BinTree.depth]
      omega

theorem Grown.enough (hsep : SeparatesRows p data) (h : Grown p params data classes level t)
    (hlabel : params.minSamplesLeaf ≤ t.label.length) (hk : (k, rows) ∈ t.leavesAt pos) :
    params.minSamplesLeaf ≤ rows.length := by
  induction h generalizing pos with
  | leaf =>
      obtain ⟨-, rfl⟩ := Prod.mk.inj (List.mem_singleton.mp hk)
      exact hlabel
  | node rng b h hleft hright _ _ ihl ihr =>
      obtain ⟨-, cut, hbest, rfl⟩ := nodeSplit_cut hsep h
      obtain ⟨hl, hr⟩ := leaves_of_mem_cuts hbest.mem
      rcases List.mem_append.mp hk with hk | hk
      · exact ihl (hleft ▸ hl) hk
      · exact ihr (hright ▸ hr) hk

/-- Only a root that has no children may have fewer samples than `min_samples_leaf`. -/
theorem Grown.enough_or_leaf (hsep : SeparatesRows p data)
    (h : Grown p params data classes level t) :
    t = .leaf t.label ∨
      ∀ k rows, (k, rows) ∈ t.leavesAt pos → params.minSamplesLeaf ≤ rows.length := by
  cases h with
  | leaf => exact .inl rfl
  | node rng b h hleft hright hl hr =>
      obtain ⟨-, cut, hbest, rfl⟩ := nodeSplit_cut hsep h
      obtain ⟨hbelow, habove⟩ := leaves_of_mem_cuts hbest.mem
      refine .inr fun k rows hk => ?_
      rcases List.mem_append.mp hk with hk | hk
      · exact hl.enough hsep (hleft ▸ hbelow) hk
      · exact hr.enough hsep (hright ▸ habove) hk

/-! ## The fitted tree -/

/-- `n_classes_` -/
def numClasses (data : Dataset V) : Nat := data.y.toList.foldl max 0 + 1

omit [LinearOrder V] in
theorem label_lt_numClasses {c : Nat} (h : c ∈ labelsOf data rows) : c < numClasses data := by
  obtain ⟨i, -, rfl⟩ := List.mem_map.mp h
  have hmem : data.y.get i ∈ data.y.toList := Vector.mem_toList_iff.mpr (Vector.getElem_mem i.2)
  rw [numClasses, List.foldl_max_eq_max (List.ne_nil_of_mem hmem), Nat.zero_max]
  exact Nat.lt_succ_of_le (List.le_max_of_mem hmem)

/-- What an array of nodes has to be for a data set. -/
structure FittedTree (p : Platform V K σ) (params : TreeParams K) (data : Dataset V)
    (nodes : List (TreeNode V K data.features)) (t : RowTree data) : Prop where
  /-- The array is the tree in preorder: its root is node 0. -/
  preorder : nodes = t.flatten (cellOf p params data (numClasses data)) 0
  root : t.label = List.finRange data.samples
  routed : Routed data t
  enough : t = .leaf (List.finRange data.samples) ∨
    ∀ k rows, (k, rows) ∈ t.leavesAt 0 → params.minSamplesLeaf ≤ rows.length
  depth : ∃ d, (∀ fuel, nodes.length ≤ fuel → depth nodes fuel = some d) ∧
    (0 ≤ params.maxDepth → d ≤ params.maxDepth)
  /-- `predict_one` ends at a leaf for every row. -/
  ends : ∀ row : Vector V data.features, ∃ k rows, (k, rows) ∈ t.leavesAt 0 ∧
    ∀ fuel, nodes.length ≤ fuel → leafIdx nodes row fuel 0 = some k ∧
      predictOne nodes row fuel =
        some (majorityClass (classCounts (numClasses data) (labelsOf data rows)))
  /-- A training row comes to the leaf that has it. -/
  routes : ∀ (i : Fin data.samples) (k : Nat) (rows : List (Fin data.samples)),
    (k, rows) ∈ t.leavesAt 0 →
      ∀ fuel, nodes.length ≤ fuel → (i ∈ rows ↔ leafIdx nodes (data.x.get i) fuel 0 = some k)
  majority : ∀ k rows, (k, rows) ∈ t.leavesAt 0 → ∃ node, nodes[k]? = some node ∧
    node.inner = none ∧ node.nSamples = rows.length ∧
    ∀ c, (labelsOf data rows).count c ≤ (labelsOf data rows).count node.predictedClass

theorem Grown.fitted (hsep : SeparatesRows p data)
    (h : Grown p params data (numClasses data) 0 t) (hroot : t.label = List.finRange data.samples) :
    FittedTree p params data (t.flatten (cellOf p params data (numClasses data)) 0) t := by
  have hplaced : t.Placed (cellOf p params data (numClasses data)) _ 0 := t.placed_flatten
  have hwalk {row : Vector V data.features} {fuel : Nat}
      (hfuel : (t.flatten (cellOf p params data (numClasses data)) 0).length ≤ fuel) :
      leafIdx (t.flatten (cellOf p params data (numClasses data)) 0) row fuel 0 =
        some (t.descend (goesLeft row) 0).1 :=
    leafIdx_placed shows_cellOf hplaced
      (t.depth_lt_size.trans_le (by rwa [BinTree.length_flatten] at hfuel))
  refine ⟨rfl, hroot, h.routed hsep, hroot ▸ h.enough_or_leaf hsep, ⟨t.depth, ?_, ?_⟩, ?_, ?_, ?_⟩
  · exact fun fuel hfuel => depth_flatten shows_cellOf (by rwa [BinTree.length_flatten] at hfuel)
  · intro hmax
    simpa only [zero_add] using h.depth_le hsep hmax hmax
  · intro row
    refine ⟨_, _, t.descend_mem 0, fun fuel hfuel => ⟨hwalk hfuel, ?_⟩⟩
    rw [predictOne, hwalk hfuel, Option.bind_eq_bind, Option.bind_some,
      hplaced.leaf (t.descend_mem 0)]
    rfl
  · intro i k rows hk fuel hfuel
    rw [hwalk hfuel, Option.some.injEq]
    exact (h.routed hsep).mem_iff (hroot ▸ List.mem_finRange i) hk
  · intro k rows hk
    refine ⟨_, hplaced.leaf hk, rfl, rfl, ?_⟩
    exact count_le_majority (Nat.succ_pos _) fun c hc => label_lt_numClasses hc

/-- `fit` ends, and the array it leaves is the fitted tree. -/
theorem fit_fitted (hsep : SeparatesRows p data) (rng : σ) :
    ∃ (g : Growth V K σ data.features) (t : RowTree data),
      (∀ fuel, data.samples < fuel → fit p params data rng fuel = some (0, g)) ∧
        FittedTree p params data g.nodes t ∧ Grown p params data (numClasses data) 0 t := by
  have henough : (List.finRange data.samples).length < data.samples + 1 := by
    rw [List.length_finRange]
    exact Nat.lt_succ_self _
  have hends : (fit p params data rng (data.samples + 1)).isSome :=
    buildNode_isSome hsep.sides _ _ 0 _ henough
  obtain ⟨⟨i, g⟩, hmade⟩ := Option.isSome_iff_exists.mp hends
  obtain ⟨t, hroot, hgrown, rfl, hnodes⟩ := buildNode_placed _ _ _ _ _ _ hmade
  refine ⟨g, t, fun fuel hfuel => buildNode_le hfuel hmade, ?_, hgrown⟩
  rw [hnodes]
  exact hgrown.fitted hsep hroot

/-- Exact values: the middle of two rationals is what it is. -/
def exact (log2 : ℚ → ℚ) (pick : Nat → Nat → σ → Nat × σ) : Platform ℚ ℚ σ :=
  ⟨fun a b => (a + b) / 2, log2, pick⟩

theorem separatesRows_exact (log2 : ℚ → ℚ) (pick : Nat → Nat → σ → Nat × σ) (data : Dataset ℚ) :
    SeparatesRows (exact log2 pick) data := by
  intro i j feature h
  show _ ≤ (_ + _) / 2 ∧ (_ + _) / 2 < _
  exact ⟨by linarith, by linarith⟩

/-- **What `fit` makes of a data set is a tree over it.** -/
theorem fit_tree (log2 : ℚ → ℚ) (pick : Nat → Nat → σ → Nat × σ) (params : TreeParams ℚ)
    (data : Dataset ℚ) (rng : σ) :
    ∃ (g : Growth ℚ ℚ σ data.features) (t : RowTree data),
      (∀ fuel, data.samples < fuel →
        fit (exact log2 pick) params data rng fuel = some (0, g)) ∧
      FittedTree (exact log2 pick) params data g.nodes t := by
  obtain ⟨g, t, hfit, hfitted, -⟩ := fit_fitted (separatesRows_exact log2 pick data) rng
  exact ⟨g, t, hfit, hfitted⟩

end CrossMachine.Ml
