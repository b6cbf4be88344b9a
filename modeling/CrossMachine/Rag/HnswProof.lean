import CrossMachine.Rag.Search

/-!
# The links of the graph

A neighbour on a layer is a point that has this layer. So a search that starts at a point with
the layer stays on such points (`Search`), and the searches of `insert` and `query_knn`, which
start where the search of the layer above ended, never read a layer that is not there.

While a point is inserted it already has its layers, and its neighbours link back to it on those
that are done. Nothing links to it on the layers below, so the search there does not come to it,
and it does not become its own neighbour. When a neighbour links back it is therefore not in
that neighbour's list yet either.
-/

namespace CrossMachine.Rag

open Knn Lib

variable {n m : Nat} {params : Params} {nodes nodes' : Nodes m}

/-- The most neighbours that a node has on a layer. -/
def cap (params : Params) (lc : Nat) : Nat := if lc = 0 then params.M * 2 else params.M

/-- What the neighbours of `v` on the layer `lc` are like. -/
structure Neighbours (params : Params) (nodes : Nodes m) (v : Fin m) (lc : Nat)
    (L : List (Fin m)) : Prop where
  cap : L.length ≤ cap params lc
  nodup : L.Nodup
  noLoop : v ∉ L
  level : ∀ u ∈ L, lc < (nodes u).length

/-- All neighbours are like that. -/
def Linked (params : Params) (nodes : Nodes m) : Prop :=
  ∀ v lc L, nodes.layer v lc = some L → Neighbours params nodes v lc L

/-- On the layer `lc` nothing links to `idx`. -/
def Unlinked (nodes : Nodes m) (idx : Fin m) (lc : Nat) : Prop :=
  ∀ v L, nodes.layer v lc = some L → idx ∉ L

/-- All points have as many layers as before. -/
def SameLevels (nodes nodes' : Nodes m) : Prop :=
  ∀ v, (nodes' v).length = (nodes v).length

/-- What a turn of a loop does to the graph: only the points `vs` get new links, and these on
the layer `lc`. -/
structure Relinked (params : Params) (nodes nodes' : Nodes m) (vs : List (Fin m)) (lc : Nat) :
    Prop where
  linked : Linked params nodes'
  levels : SameLevels nodes nodes'
  others : ∀ v l, ¬ (v ∈ vs ∧ l = lc) → nodes'.layer v l = nodes.layer v l

variable {v : Fin m} {ep : List (Fin m)} {hi : Nat} {h : HNSW m}

theorem Nodes.layer_of_lt {lc : Nat} (h : lc < (nodes v).length) :
    ∃ L, nodes.layer v lc = some L := ⟨_, List.getElem?_eq_getElem h⟩

/-! ## Assigning to a layer -/

theorem Neighbours.sameLevels {lc : Nat} {L : List (Fin m)} (h : Neighbours params nodes v lc L)
    (hsame : SameLevels nodes nodes') : Neighbours params nodes' v lc L :=
  { h with level := fun u hu => (hsame u).symm ▸ h.level u hu }

theorem sameLevels_setLayer (v : Fin m) (lc : Nat) (L : List (Fin m)) :
    SameLevels nodes (nodes.setLayer v lc L) := by
  intro u
  by_cases hu : u = v
  · subst hu
    simp [Nodes.setLayer]
  · simp [Nodes.setLayer, hu]

theorem layer_setLayer {lc : Nat} (L : List (Fin m)) (h : lc < (nodes v).length) (u : Fin m)
    (l : Nat) :
    (nodes.setLayer v lc L).layer u l = if u = v ∧ l = lc then some L else nodes.layer u l := by
  by_cases hu : u = v
  · subst hu
    by_cases hl : l = lc
    · subst hl
      simp [Nodes.setLayer, Nodes.layer, h]
    · simp [Nodes.setLayer, Nodes.layer, hl, List.getElem?_set_ne (Ne.symm hl)]
  · simp [Nodes.setLayer, Nodes.layer, hu]

theorem relinked_setLayer {lc : Nat} {L : List (Fin m)} (h : Linked params nodes)
    (hv : lc < (nodes v).length) (hL : Neighbours params nodes v lc L) :
    Relinked params nodes (nodes.setLayer v lc L) [v] lc := by
  have hsame : SameLevels nodes (nodes.setLayer v lc L) := sameLevels_setLayer v lc L
  refine ⟨fun u l L' hlayer => ?_, hsame, fun u l hul => ?_⟩
  · rw [layer_setLayer L hv] at hlayer
    refine Neighbours.sameLevels ?_ hsame
    split at hlayer
    · rename_i heq
      obtain ⟨rfl, rfl⟩ := heq
      obtain rfl := Option.some.inj hlayer
      exact hL
    · exact h u l L' hlayer
  · rw [layer_setLayer L hv, if_neg]
    simpa using hul

theorem Relinked.trans {nodes'' : Nodes m} {vs vs' : List (Fin m)} {lc : Nat}
    (h : Relinked params nodes nodes' vs lc) (h' : Relinked params nodes' nodes'' vs' lc) :
    Relinked params nodes nodes'' (vs ++ vs') lc := by
  refine ⟨h'.linked, fun v => (h'.levels v).trans (h.levels v), fun v l hvl => ?_⟩
  have h₁ := h.others v l fun hv => hvl ⟨List.mem_append_left _ hv.1, hv.2⟩
  have h₂ := h'.others v l fun hv => hvl ⟨List.mem_append_right _ hv.1, hv.2⟩
  exact h₂.trans h₁

/-! ## Selecting neighbours -/

section Select

variable {K : Type} [LinearOrder K] {sort : DistSort K m} {M : Nat}

theorem selectNeighborsSimple_natCast (cs : List (NeighborResult K m)) :
    selectNeighborsSimple sort cs M = some (nearest sort cs M) := by
  rw [selectNeighborsSimple]
  split
  · rw [if_neg (by omega), Int.toNat_natCast]
  · rw [nearest, List.take_of_length_le (by have := (sort.perm cs).length_eq; omega)]

theorem nearest_length (cs : List (NeighborResult K m)) :
    (nearest sort cs M).length ≤ M := by
  simp [nearest]

theorem nearest_mem {cs : List (NeighborResult K m)} {u : Fin m}
    (h : u ∈ nearest sort cs M) : u ∈ cs.map NeighborResult.index := by
  obtain ⟨r, hr, rfl⟩ := List.mem_map.mp h
  exact List.mem_map_of_mem ((sort.perm cs).mem_iff.mp (List.mem_of_mem_take hr))

theorem nearest_nodup {cs : List (NeighborResult K m)}
    (h : (cs.map NeighborResult.index).Nodup) : (nearest sort cs M).Nodup := by
  have hrun : ((sort.run cs).map NeighborResult.index).Nodup :=
    ((sort.perm cs).map _).nodup_iff.mpr h
  exact hrun.sublist ((List.take_sublist M _).map _)

end Select

/-! ## Linking back -/

variable {K : Type} [LinearOrder K] [Zero K] [Add K] [Sub K] [Mul K]
variable (ops : Ops K m) (points : Features K n m)
variable {idx nb : Fin m} {lc : Nat}

theorem linkCap_eq (hfits : params.M < 2 ^ 30) (lc : Nat) : linkCap params lc = cap params lc := by
  rw [linkCap, cap]
  split
  · rw [int32_of_nonneg (by omega) (by omega)]
    rfl
  · rfl

theorem link_eq (hfits : params.M < 2 ^ 30) :
    link ops params points idx lc nodes nb = (nodes.layer nb lc).bind fun L =>
      some (nodes.setLayer nb lc (if (L ++ [idx]).length > cap params lc then
        nearest ops.sort ((L ++ [idx]).map (candidate points (points.get nb))) (cap params lc)
        else L ++ [idx])) := by
  simp only [link, linkCap_eq hfits, selectNeighborsSimple_natCast, Option.bind_eq_bind,
    Option.bind_some, gt_iff_lt, Nat.cast_lt]
  refine congrArg _ (funext fun L => ?_)
  split <;> rfl

/-- A link back is new, and may push out another one. -/
theorem link_relinked (hfits : params.M < 2 ^ 30) (h : Linked params nodes)
    (hidx : lc < (nodes idx).length)
    (hnb : lc < (nodes nb).length) (hne : idx ≠ nb)
    (hnew : ∀ L, nodes.layer nb lc = some L → idx ∉ L) :
    ∃ nodes', link ops params points idx lc nodes nb = some nodes' ∧
      Relinked params nodes nodes' [nb] lc := by
  obtain ⟨L, hlayer⟩ := Nodes.layer_of_lt hnb
  have hold := h nb lc L hlayer
  have hnodup : (L ++ [idx]).Nodup :=
    (List.perm_append_singleton idx L).nodup_iff.mpr
      (List.nodup_cons.mpr ⟨hnew L hlayer, hold.nodup⟩)
  have hmem : ∀ u ∈ L ++ [idx], u ≠ nb ∧ lc < (nodes u).length := by
    intro u hu
    rcases List.mem_append.mp hu with hu | hu
    · exact ⟨fun heq => hold.noLoop (heq ▸ hu), hold.level u hu⟩
    · obtain rfl := List.mem_singleton.mp hu
      exact ⟨hne, hidx⟩
  rw [link_eq ops points hfits, hlayer, Option.bind_some]
  refine ⟨_, rfl, relinked_setLayer h hnb ?_⟩
  split
  · have hindex : ((L ++ [idx]).map (candidate points (points.get nb))).map NeighborResult.index =
        L ++ [idx] := by
      rw [List.map_map]
      exact List.map_id _
    have hsub : ∀ u ∈ nearest ops.sort
        ((L ++ [idx]).map (candidate points (points.get nb))) (cap params lc), u ∈ L ++ [idx] :=
      fun u hu => hindex ▸ nearest_mem hu
    exact
      { cap := nearest_length _
        nodup := nearest_nodup (hindex.symm ▸ hnodup)
        noLoop := fun hin => (hmem nb (hsub nb hin)).1 rfl
        level := fun u hu => (hmem u (hsub u hu)).2 }
  · rename_i hle
    exact
      { cap := Nat.le_of_not_lt hle
        nodup := hnodup
        noLoop := fun hin => (hmem nb hin).1 rfl
        level := fun u hu => (hmem u hu).2 }

theorem links_relinked (hfits : params.M < 2 ^ 30) {selected : List (Fin m)}
    (h : Linked params nodes)
    (hidx : lc < (nodes idx).length) (hlt : ∀ nb ∈ selected, lc < (nodes nb).length)
    (hne : idx ∉ selected) (hnodup : selected.Nodup)
    (hnew : ∀ nb ∈ selected, ∀ L, nodes.layer nb lc = some L → idx ∉ L) :
    ∃ nodes', selected.foldlM (link ops params points idx lc) nodes = some nodes' ∧
      Relinked params nodes nodes' selected lc := by
  induction selected generalizing nodes with
  | nil => exact ⟨nodes, rfl, h, fun _ => rfl, fun _ _ _ => rfl⟩
  | cons nb selected ih =>
      obtain ⟨hnb, hlt⟩ := List.forall_mem_cons.mp hlt
      obtain ⟨hnewnb, hnew⟩ := List.forall_mem_cons.mp hnew
      obtain ⟨hnotin, hnodup⟩ := List.nodup_cons.mp hnodup
      obtain ⟨hidxnb, hne⟩ := not_or.mp (List.mem_cons.not.mp hne)
      obtain ⟨nodes₁, hlink, hre⟩ := link_relinked ops points hfits h hidx hnb hidxnb hnewnb
      -- the lists of the neighbours to come are as before
      have hnew : ∀ u ∈ selected, ∀ L, nodes₁.layer u lc = some L → idx ∉ L := by
        intro u hu L hL
        rw [hre.others u lc] at hL
        · exact hnew u hu L hL
        · rintro ⟨hunb, -⟩
          exact hnotin (List.mem_singleton.mp hunb ▸ hu)
      obtain ⟨nodes', hrun, hre'⟩ := ih hre.linked ((hre.levels idx).symm ▸ hidx)
        (fun u hu => (hre.levels u).symm ▸ hlt u hu) hne hnodup hnew
      refine ⟨nodes', ?_, hre.trans hre'⟩
      rw [List.foldlM_cons, hlink, Option.bind_eq_bind, Option.bind_some, hrun]

/-! ## A new point -/

/-- The points of a layer are closed. -/
theorem Linked.closed (h : Linked params nodes) (lc : Nat) :
    Closed nodes lc fun v => lc < (nodes v).length := by
  intro v hv
  obtain ⟨L, hL⟩ := Nodes.layer_of_lt hv
  exact ⟨L, hL, (h v lc L hL).level⟩

/-- They are also without a point that nothing links to. -/
theorem Linked.closed_of_unlinked (h : Linked params nodes) (hidx : Unlinked nodes idx lc) :
    Closed nodes lc fun v => lc < (nodes v).length ∧ v ≠ idx := by
  rintro v ⟨hv, -⟩
  obtain ⟨L, hL⟩ := Nodes.layer_of_lt hv
  exact ⟨L, hL, fun u hu => ⟨(h v lc L hL).level u hu, fun heq => hidx v L hL (heq ▸ hu)⟩⟩

/-- What the search of a layer may start from when `idx` is inserted: points with that many
layers. -/
structure Entries (nodes : Nodes m) (idx : Fin m) (layers : Nat) (ep : List (Fin m)) : Prop where
  ne_nil : ep ≠ []
  nodup : ep.Nodup
  all : ∀ v ∈ ep, layers ≤ (nodes v).length ∧ v ≠ idx

theorem Entries.down {t : Nat} (h : Entries nodes idx (t + 1) ep) : Entries nodes idx t ep :=
  { h with all := fun v hv => ⟨(Nat.le_succ t).trans (h.all v hv).1, (h.all v hv).2⟩ }

theorem insertLayer_relinked (hfits : params.M < 2 ^ 30) (h : Linked params nodes)
    (hidx : lc < (nodes idx).length) (hnew : Unlinked nodes idx lc)
    (hep : Entries nodes idx (lc + 1) ep) :
    ∃ nodes' ep' vs, insertLayer ops params points idx (nodes, ep) lc = some (nodes', ep') ∧
      Relinked params nodes nodes' vs lc ∧ Entries nodes' idx (lc + 1) ep' := by
  obtain ⟨cs, hsearch, hfinds⟩ :=
    searchLayer_finds ops points (points.get idx) params.efConstruction
      (h.closed_of_unlinked hnew) hep.ne_nil hep.nodup hep.all
  have hcs : ∀ u ∈ cs.map NeighborResult.index, lc < (nodes u).length ∧ u ≠ idx := by
    intro u hu
    obtain ⟨r, hr, rfl⟩ := List.mem_map.mp hu
    exact hfinds.all r hr
  let selected := nearest ops.sort cs (cap params lc)
  have hselected : ∀ u ∈ selected, lc < (nodes u).length ∧ u ≠ idx :=
    fun u hu => hcs u (nearest_mem hu)
  have hnodup : selected.Nodup := nearest_nodup hfinds.nodup
  have hnotin : idx ∉ selected := fun hin => (hselected idx hin).2 rfl
  have hset : Relinked params nodes (nodes.setLayer idx lc selected) [idx] lc :=
    relinked_setLayer h hidx
      { cap := nearest_length cs
        nodup := hnodup
        noLoop := hnotin
        level := fun u hu => (hselected u hu).1 }
  obtain ⟨L, hlayer⟩ := Nodes.layer_of_lt hidx
  obtain ⟨nodes', hrun, hlinks⟩ := links_relinked ops points hfits hset.linked
    ((hset.levels idx).symm ▸ hidx) (fun u hu => (hset.levels u).symm ▸ (hselected u hu).1)
    hnotin hnodup fun u hu L' hL' => hnew u L' (hset.others u lc (fun hu' =>
      (hselected u hu).2 (List.mem_singleton.mp hu'.1)) ▸ hL')
  have hre := hset.trans hlinks
  refine ⟨nodes', cs.map NeighborResult.index, _, ?_, hre, ?_⟩
  · simp only [insertLayer, hsearch, hlayer, linkCap_eq hfits, selectNeighborsSimple_natCast,
      Option.bind_eq_bind, Option.bind_some]
    rw [hrun, Option.bind_some]
  · refine ⟨fun hnil => hfinds.ne_nil (List.map_eq_nil_iff.mp hnil), hfinds.nodup, fun u hu => ?_⟩
    exact ⟨(hre.levels u).symm ▸ (hcs u hu).1, (hcs u hu).2⟩

/-- From the top layer of the new point down. -/
theorem insertLayers_linked (hfits : params.M < 2 ^ 30) {t : Nat} (h : Linked params nodes)
    (hidx : t ≤ (nodes idx).length) (hnew : ∀ l < t, Unlinked nodes idx l)
    (hep : Entries nodes idx t ep) :
    ∃ nodes' ep', (List.range t).reverse.foldlM (insertLayer ops params points idx) (nodes, ep) =
        some (nodes', ep') ∧ Linked params nodes' ∧ SameLevels nodes nodes' := by
  induction t generalizing nodes ep with
  | zero => exact ⟨nodes, ep, rfl, h, fun _ => rfl⟩
  | succ t ih =>
      obtain ⟨nodes₁, ep₁, vs, hlayer, hre, hep₁⟩ :=
        insertLayer_relinked ops points hfits h hidx (hnew t (Nat.lt_succ_self t)) hep
      -- nothing happened on the layers below
      have hnew₁ : ∀ l < t, Unlinked nodes₁ idx l := by
        intro l hl v L hL
        rw [hre.others v l fun hvl => hl.ne hvl.2] at hL
        exact hnew l (hl.trans (Nat.lt_succ_self t)) v L hL
      obtain ⟨nodes', ep', hrun, hlinked, hsame⟩ :=
        ih hre.linked ((hre.levels idx).symm ▸ (Nat.le_succ t).trans hidx) hnew₁ hep₁.down
      refine ⟨nodes', ep', ?_, hlinked, fun v => (hsame v).trans (hre.levels v)⟩
      rw [List.range_succ, List.reverse_append, List.reverse_singleton, List.singleton_append,
        List.foldlM_cons, hlayer, Option.bind_eq_bind, Option.bind_some, hrun]

/-! ## Going down -/

theorem layersDown_of_le {lo : Nat} (h : hi ≤ lo) : layersDown hi lo = [] := by
  rw [layersDown, Nat.sub_eq_zero_of_le h, List.range'_zero, List.reverse_nil]

theorem layersDown_succ {lo : Nat} (h : lo ≤ hi) :
    layersDown (hi + 1) lo = (hi + 1) :: layersDown hi lo := by
  have hsub : hi + 1 - lo = (hi - lo) + 1 := by omega
  have hlast : lo + 1 + 1 * (hi - lo) = hi + 1 := by omega
  rw [layersDown, hsub, List.range'_concat, List.reverse_append, hlast]
  rfl

/-- The descent from `hi` ends in a point that has the layer `lo`, or `hi` if that is lower. -/
theorem descend_reaches (h : Linked params nodes) (query : Point K n) (lo : Nat) {e : Fin m}
    (he : hi < (nodes e).length) :
    ∃ v, descend ops points query nodes (layersDown hi lo) [e] = some [v] ∧
      min lo hi < (nodes v).length := by
  induction hi generalizing e with
  | zero => exact ⟨e, by rw [layersDown_of_le (Nat.zero_le lo)]; rfl, by simpa using he⟩
  | succ hi ih =>
      rcases Nat.lt_or_ge hi lo with hlo | hlo
      · refine ⟨e, by rw [layersDown_of_le hlo]; rfl, ?_⟩
        exact (Nat.min_le_right lo (hi + 1)).trans_lt he
      · obtain ⟨rs, hsearch, hfinds⟩ :=
          searchLayer_finds ops points query 1 (h.closed (hi + 1))
            (List.cons_ne_nil e []) (List.nodup_singleton e)
            fun v hv => (List.mem_singleton.mp hv).symm ▸ he
        obtain ⟨r, rs, rfl⟩ := List.exists_cons_of_ne_nil hfinds.ne_nil
        have hr : hi + 1 < (nodes r.index).length := hfinds.all r List.mem_cons_self
        obtain ⟨v, hrun, hv⟩ := ih ((Nat.lt_succ_self hi).trans hr)
        refine ⟨v, ?_, by omega⟩
        rw [layersDown_succ hlo, descend, List.foldlM_cons, hsearch]
        exact hrun

/-! ## The graph -/

/-- What holds of the graph between two insertions. -/
structure HNSW.Ok (params : Params) (h : HNSW m) : Prop where
  linked : Linked params h.nodes
  /-- There is an entry point once there is a point, -/
  entry : h.entryPoint = none → ∀ v, h.nodes v = []
  /-- and no point has more layers. -/
  highest : ∀ e, h.entryPoint = some e →
    (h.nodes e).length = h.maxLayer + 1 ∧ ∀ v, (h.nodes v).length ≤ h.maxLayer + 1

theorem HNSW.Ok.empty : HNSW.Ok params (⟨fun _ => [], none, 0⟩ : HNSW m) where
  linked v lc L hL := by simp [Nodes.layer] at hL
  entry _ _ := rfl
  highest e he := by simp at he

theorem resize_length (level : Nat) (hidx : nodes idx = []) (v : Fin m) :
    ((nodes.resize idx level) v).length = if v = idx then level + 1 else (nodes v).length := by
  by_cases hv : v = idx
  · subst hv
    simp [Nodes.resize, hidx]
  · simp [Nodes.resize, hv]

/-- New layers have no links, and no links lead to them. -/
theorem Linked.resize (level : Nat) (h : Linked params nodes) (hidx : nodes idx = []) :
    Linked params (nodes.resize idx level) ∧ ∀ l, Unlinked (nodes.resize idx level) idx l := by
  have hlayer : ∀ v l L, (nodes.resize idx level).layer v l = some L →
      L = [] ∨ v ≠ idx ∧ nodes.layer v l = some L := by
    intro v l L hL
    by_cases hv : v = idx
    · subst hv
      left
      have hmem := List.mem_of_getElem? hL
      simp only [Nodes.resize, hidx, Function.update_self, List.take_nil, List.nil_append] at hmem
      exact List.eq_of_mem_replicate hmem
    · right
      simpa [Nodes.resize, Nodes.layer, hv] using hL
  have hnot : ∀ v l L, nodes.layer v l = some L → idx ∉ L := by
    intro v l L hL hin
    have hlt := (h v l L hL).level idx hin
    rw [hidx] at hlt
    exact absurd hlt (Nat.not_lt_zero _)
  refine ⟨fun v l L hL => ?_, fun l v L hL => ?_⟩
  · rcases hlayer v l L hL with rfl | ⟨-, hold⟩
    · exact ⟨Nat.zero_le _, List.nodup_nil, List.not_mem_nil, by simp⟩
    · refine { h v l L hold with level := fun u hu => ?_ }
      have hne : u ≠ idx := fun heq => hnot v l L hold (heq ▸ hu)
      rw [resize_length level hidx, if_neg hne]
      exact (h v l L hold).level u hu
  · rcases hlayer v l L hL with rfl | ⟨-, hold⟩
    · exact List.not_mem_nil
    · exact hnot v l L hold

/-- Where the descent of an insertion ends is where the search of its layers may start. -/
theorem insert_entries (level : Nat) (hok : h.Ok params) (hidx : h.nodes idx = []) {e : Fin m}
    (hentry : h.entryPoint = some e) :
    ∃ v, descend ops points (points.get idx) h.nodes (layersDown h.maxLayer level) [e] = some [v] ∧
      Entries (h.nodes.resize idx level) idx (min level h.maxLayer + 1) [v] ∧
      min level h.maxLayer + 1 ≤ ((h.nodes.resize idx level) idx).length := by
  have hlen := resize_length level hidx
  have hlt : h.maxLayer < (h.nodes e).length := (hok.highest e hentry).1 ▸ Nat.lt_succ_self _
  obtain ⟨v, hdescend, hv⟩ := descend_reaches ops points hok.linked (points.get idx) level hlt
  have hne : v ≠ idx := by
    rintro rfl
    rw [hidx] at hv
    exact absurd hv (Nat.not_lt_zero _)
  refine ⟨v, hdescend, ⟨List.cons_ne_nil v [], List.nodup_singleton v, fun u hu => ?_⟩, ?_⟩
  · obtain rfl := List.mem_singleton.mp hu
    rw [hlen, if_neg hne]
    exact ⟨hv, hne⟩
  · rw [hlen, if_pos rfl]
    omega

theorem insert_ok (hfits : params.M < 2 ^ 30) (level : Nat) (hok : h.Ok params)
    (hidx : h.nodes idx = []) :
    ∃ h', insert ops params points level h idx = some h' ∧ h'.Ok params ∧
      ∀ v, (h'.nodes v).length = if v = idx then level + 1 else (h.nodes v).length := by
  obtain ⟨hlinked, hnew⟩ := hok.linked.resize level hidx
  have hlen := resize_length level hidx
  unfold insert
  split
  · rename_i hentry
    refine ⟨_, rfl, ⟨hlinked, by simp, ?_⟩, hlen⟩
    intro e he
    obtain rfl : idx = e := by simpa using he
    refine ⟨by rw [hlen, if_pos rfl], fun v => ?_⟩
    rw [hlen, hok.entry hentry v]
    split <;> simp
  · rename_i e hentry
    obtain ⟨he, hmax⟩ := hok.highest e hentry
    obtain ⟨v, hdescend, hep, htop⟩ := insert_entries ops points level hok hidx hentry
    obtain ⟨nodes', ep', hrun, hlinked', hsame⟩ :=
      insertLayers_linked ops points hfits hlinked htop (fun l _ => hnew l) hep
    have hlen' : ∀ u, (nodes' u).length = if u = idx then level + 1 else (h.nodes u).length :=
      fun u => (hsame u).trans (hlen u)
    rw [hdescend, Option.bind_eq_bind, Option.bind_some, hrun, Option.bind_eq_bind,
      Option.bind_some]
    simp only
    split
    · refine ⟨_, rfl, ⟨hlinked', by simp, ?_⟩, hlen'⟩
      intro e' he'
      obtain rfl : idx = e' := by simpa using he'
      refine ⟨by rw [hlen', if_pos rfl], fun u => ?_⟩
      have := hmax u
      rw [hlen']
      split <;> simp only <;> omega
    · refine ⟨_, rfl, ⟨hlinked', by simp [hentry], ?_⟩, hlen'⟩
      intro e' he'
      obtain rfl : e = e' := by simpa [hentry] using he'
      have hene : e ≠ idx := by
        rintro rfl
        rw [hidx] at he
        exact absurd he (by simp)
      refine ⟨by rw [hlen', if_neg hene, he], fun u => ?_⟩
      have := hmax u
      rw [hlen']
      split <;> simp only <;> omega

theorem construct_ok (hfits : params.M < 2 ^ 30) (levels : Fin m → Nat) {is : List (Fin m)}
    (hok : h.Ok params) (hnodup : is.Nodup) (hnew : ∀ i ∈ is, h.nodes i = []) :
    ∃ h', is.foldlM (fun h i => insert ops params points (levels i) h i) h = some h' ∧
      h'.Ok params ∧
      ∀ v, (h'.nodes v).length = if v ∈ is then levels v + 1 else (h.nodes v).length := by
  induction is generalizing h with
  | nil => exact ⟨h, rfl, hok, fun v => by simp⟩
  | cons i is ih =>
      obtain ⟨hnotin, hnodup⟩ := List.nodup_cons.mp hnodup
      obtain ⟨hi, hnew⟩ := List.forall_mem_cons.mp hnew
      obtain ⟨h₁, hinsert, hok₁, hlen₁⟩ := insert_ok ops points hfits (levels i) hok hi
      have hnew₁ : ∀ j ∈ is, h₁.nodes j = [] := by
        intro j hj
        have hji : j ≠ i := fun heq => hnotin (heq ▸ hj)
        rw [← List.length_eq_zero_iff, hlen₁, if_neg hji, hnew j hj, List.length_nil]
      obtain ⟨h', hrun, hok', hlen'⟩ := ih hok₁ hnodup hnew₁
      refine ⟨h', ?_, hok', fun v => ?_⟩
      · rw [List.foldlM_cons, hinsert, Option.bind_eq_bind, Option.bind_some, hrun]
      · rw [hlen', hlen₁]
        by_cases hv : v = i
        · subst hv
          simp [hnotin]
        · simp [hv]

/-- The first points of the constructor's loop. -/
theorem construct_take_ok (hfits : params.M < 2 ^ 30) (levels : Fin m → Nat) (j : Nat) :
    ∃ h, construct ops params points levels ((List.finRange m).take j) = some h ∧ h.Ok params ∧
      ∀ v, (h.nodes v).length = if v.val < j then levels v + 1 else 0 := by
  have hnodup : ((List.finRange m).take j).Nodup :=
    (List.nodup_finRange m).sublist (List.take_sublist j _)
  have hempty : HNSW.Ok params (⟨fun _ => [], none, 0⟩ : HNSW m) := .empty
  obtain ⟨h, hrun, hok, hlen⟩ :=
    construct_ok ops points hfits levels hempty hnodup fun _ _ => rfl
  refine ⟨h, hrun, hok, fun v => ?_⟩
  have hmem : v ∈ (List.finRange m).take j ↔ v.val < j := by
    rw [List.mem_take_iff_getElem]
    constructor
    · rintro ⟨i, hi, rfl⟩
      simp only [List.getElem_finRange]
      simp only [List.length_finRange] at hi
      simp
      omega
    · intro hv
      exact ⟨v.val, by simp [hv], by simp⟩
  rw [hlen]
  simp [hmem]

/-- What a query is to give. -/
structure Nearby (points : Features K n m) (query : Point K n) (k : Nat)
    (rs : List (NeighborResult K m)) : Prop where
  length : rs.length ≤ k
  nodup : (rs.map NeighborResult.index).Nodup
  distSq : ∀ r ∈ rs, r = candidate points query r.index
  sorted : rs.Pairwise fun a b => a.distSq ≤ b.distSq

theorem queryKnn_nearby (hok : h.Ok params) (query : Point K n) (k : Nat) :
    ∃ rs, queryKnn ops params points h query k = some rs ∧ Nearby points query k rs := by
  unfold queryKnn
  split
  · exact ⟨[], rfl, ⟨Nat.zero_le k, List.nodup_nil, by simp, List.Pairwise.nil⟩⟩
  · rename_i e hentry
    have hlt : h.maxLayer < (h.nodes e).length :=
      (hok.highest e hentry).1 ▸ Nat.lt_succ_self _
    obtain ⟨v, hdescend, hv⟩ := descend_reaches ops points hok.linked query 0 hlt
    obtain ⟨rs, hsearch, hfinds⟩ :=
      searchLayer_finds ops points query (max params.efSearch k)
        (hok.linked.closed 0) (List.cons_ne_nil v []) (List.nodup_singleton v)
        fun u hu => (List.mem_singleton.mp hu).symm ▸ (Nat.zero_min _ ▸ hv)
    refine ⟨rs.take k, ?_, ?_⟩
    · rw [hdescend, Option.bind_eq_bind, Option.bind_some, hsearch, Option.bind_eq_bind,
        Option.bind_some]
    · exact
        { length := List.length_take_le k rs
          nodup := hfinds.nodup.sublist ((List.take_sublist k rs).map _)
          distSq := fun r hr => hfinds.distSq r (List.mem_of_mem_take hr)
          sorted := hfinds.sorted.sublist (List.take_sublist k rs) }

/-- **After each insertion the graph is well linked, its entry point is on top, and every query
is answered**, if twice `M` is an `int`. -/
theorem construct_serves (ops : Ops K m) (hfits : params.M < 2 ^ 30) (points : Features K n m)
    (levels : Fin m → Nat) (j : Nat) :
    ∃ h, construct ops params points levels ((List.finRange m).take j) = some h ∧
      h.Ok params ∧
      (∀ v, (h.nodes v).length = if v.val < j then levels v + 1 else 0) ∧
      ∀ query k, ∃ rs, queryKnn ops params points h query k = some rs ∧
        Nearby points query k rs := by
  obtain ⟨h, hrun, hok, hlen⟩ := construct_take_ok ops points hfits levels j
  exact ⟨h, hrun, hok, hlen, fun query k => queryKnn_nearby ops points hok query k⟩

/-- Heaps that are sorted lists, and a stable sort. -/
def sortedOps : Ops Int m := ⟨HeapOps.descending _, HeapOps.descending _, Sorter.stable _⟩

/-- Two points, both on layer 0. -/
theorem construct_serves_two :
    ∃ h, construct sortedOps ⟨1, 1, 1⟩ (#v[#v[0], #v[5]] : Features Int 1 2) (fun _ => 0)
        ((List.finRange 2).take 2) = some h ∧ h.Ok ⟨1, 1, 1⟩ := by
  have hfits : (⟨1, 1, 1⟩ : Params).M < 2 ^ 30 := by decide
  obtain ⟨h, hrun, hok, -⟩ := construct_serves sortedOps hfits
    (#v[#v[0], #v[5]] : Features Int 1 2) (fun _ => 0) 2
  exact ⟨h, hrun, hok⟩

/-- Twice `M` is negative here, and the second insertion throws. -/
theorem construct_throws :
    construct sortedOps ⟨2 ^ 30, 1, 1⟩ (#v[#v[0], #v[5]] : Features Int 1 2) (fun _ => 0)
      ((List.finRange 2).take 2) = none := by
  decide +kernel

end CrossMachine.Rag
