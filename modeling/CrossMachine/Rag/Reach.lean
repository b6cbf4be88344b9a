import CrossMachine.Lib.Instances
import CrossMachine.Lib.Loops
import CrossMachine.Rag.Exhaustive

/-!
# What can be reached on layer 0

A new point is linked to the closest points found and they are linked back to it, so a graph
in which every point reaches every other stays one, unless a list that is now too long is cut.
A cut drops a link in one direction, and with the link the last way to a point may go
(`far_point_lost`). As long as no link of layer 0 is dropped (`Lossless`), every point is
reached from every other (`construct_complete`); nothing can be dropped while there are at most
`2 * M + 1` points, since a list has at most the other ones in it.

A query is bound to what can be reached from where its descent ends. If it asks for as many
results as there are points, it gets exactly that.
-/

namespace CrossMachine.Rag

open Knn Lib

variable {n m : Nat} {params : Params} {nodes nodes' : Nodes m} {idx : Fin m} {lc : Nat}
variable {K : Type} [LinearOrder K] [Zero K] [Add K] [Sub K] [Mul K]
variable (ops : Ops K m) (points : Features K n m)

/-! ## Links back -/

/-- A link back changes the one list, by adding to it if there is room. -/
theorem link_eq_some (hfits : params.M < 2 ^ 30) {nb : Fin m}
    (h : link ops params points idx lc nodes nb = some nodes') :
    ∃ L L', nodes.layer nb lc = some L ∧ (L.length < cap params lc → L' = L ++ [idx]) ∧
      ∀ v, nodes'.layer v lc = if v = nb then some L' else nodes.layer v lc := by
  rw [link_eq ops points hfits] at h
  obtain ⟨L, hL, h⟩ := Option.bind_eq_some_iff.mp h
  have hlt : lc < (nodes nb).length := (List.getElem?_eq_some_iff.mp hL).1
  have hset : ∀ L' v, (nodes.setLayer nb lc L').layer v lc =
      if v = nb then some L' else nodes.layer v lc := fun L' v => by
    rw [layer_setLayer L' hlt]
    simp only [and_true]
  obtain rfl := Option.some.inj h
  refine ⟨L, _, hL, fun hroom => if_neg (Nat.not_lt.mpr ?_), hset _⟩
  rw [List.length_append, List.length_singleton]
  exact hroom

/-- The list of a point that is not among the neighbours stays as it is. -/
theorem links_other (hfits : params.M < 2 ^ 30) {selected : List (Fin m)} {v : Fin m}
    (hrun : selected.foldlM (link ops params points idx lc) nodes = some nodes')
    (hv : v ∉ selected) : nodes'.layer v lc = nodes.layer v lc := by
  induction selected generalizing nodes with
  | nil => rw [Option.some.inj hrun]
  | cons nb selected ih =>
      obtain ⟨nodes₁, hlink, hrest⟩ := foldlM_cons_eq_some.mp hrun
      obtain ⟨L, L', -, -, hset⟩ := link_eq_some ops points hfits hlink
      obtain ⟨hne, hv⟩ := not_or.mp (List.mem_cons.not.mp hv)
      rw [ih hrest hv, hset, if_neg hne]

/-- With room in all lists, every link back is added and nothing is dropped. -/
theorem links_uncut (hfits : params.M < 2 ^ 30) {selected : List (Fin m)} {v : Fin m}
    {L : List (Fin m)}
    (hrun : selected.foldlM (link ops params points idx lc) nodes = some nodes')
    (hnodup : selected.Nodup) (hv : v ∈ selected) (hL : nodes.layer v lc = some L)
    (hroom : L.length < cap params lc) : nodes'.layer v lc = some (L ++ [idx]) := by
  induction selected generalizing nodes with
  | nil => exact absurd hv List.not_mem_nil
  | cons nb selected ih =>
      obtain ⟨hnotin, hnodup⟩ := List.nodup_cons.mp hnodup
      obtain ⟨nodes₁, hlink, hrest⟩ := foldlM_cons_eq_some.mp hrun
      obtain ⟨L₀, L', hL₀, hadd, hset⟩ := link_eq_some ops points hfits hlink
      by_cases hnb : v = nb
      · subst hnb
        obtain rfl := Option.some.inj (hL₀.symm.trans hL)
        rw [links_other ops points hfits hrest hnotin, hset, if_pos rfl, hadd hroom]
      · refine ih hrest hnodup ((List.mem_cons.mp hv).resolve_left hnb) ?_
        rw [hset, if_neg hnb, hL]

/-! ## Layer 0 after an insertion -/

/-- What an insertion does to layer 0: the new point has the neighbours `selected`, and a list with
room has a link back added if it is one of theirs, and otherwise stays as it is. -/
structure Grounded (params : Params) (nodes nodes' : Nodes m) (idx : Fin m)
    (selected : List (Fin m)) : Prop where
  own : nodes'.layer idx 0 = some selected
  ne_nil : 1 ≤ params.M → selected ≠ []
  uncut : ∀ v L, v ≠ idx → nodes.layer v 0 = some L → L.length < cap params 0 →
    nodes'.layer v 0 = some (if v ∈ selected then L ++ [idx] else L)

omit [Zero K] [Add K] [Sub K] [Mul K] in
theorem nearest_ne_nil {sort : DistSort K m} {M : Nat}
    {cs : List (NeighborResult K m)} (hM : 1 ≤ M) (hcs : cs ≠ []) :
    nearest sort cs M ≠ [] := by
  intro hnil
  have hlen := congrArg List.length hnil
  have hpos := List.length_pos_of_ne_nil hcs
  rw [nearest, List.length_map, List.length_take, (sort.perm cs).length_eq,
    List.length_nil] at hlen
  omega

theorem insertLayer_grounded (hfits : params.M < 2 ^ 30) {ep ep' : List (Fin m)}
    (h : Linked params nodes)
    (hidx : 0 < (nodes idx).length) (hnew : Unlinked nodes idx 0) (hep : Entries nodes idx 1 ep)
    (hrun : insertLayer ops params points idx (nodes, ep) 0 = some (nodes', ep')) :
    ∃ selected, Grounded params nodes nodes' idx selected := by
  obtain ⟨cs, hsearch, hfinds⟩ :=
    searchLayer_finds ops points (points.get idx) params.efConstruction
      (h.closed_of_unlinked hnew) hep.ne_nil hep.nodup hep.all
  have hnotin : idx ∉ nearest ops.sort cs (cap params 0) := fun hin => by
    obtain ⟨r, hr, hindex⟩ := List.mem_map.mp (nearest_mem hin)
    exact (hfinds.all r hr).2 hindex
  obtain ⟨L, hlayer⟩ := Nodes.layer_of_lt hidx
  simp only [insertLayer, hsearch, hlayer, linkCap_eq hfits, selectNeighborsSimple_natCast,
    Option.bind_eq_bind, Option.bind_some] at hrun
  obtain ⟨nodes₁, hlinks, heq⟩ := Option.bind_eq_some_iff.mp hrun
  obtain ⟨rfl, -⟩ := Prod.mk.inj (Option.some.inj heq)
  have hset := layer_setLayer (nearest ops.sort cs (cap params 0)) hidx
  refine ⟨nearest ops.sort cs (cap params 0), ?_,
    fun hM => nearest_ne_nil ?_ hfinds.ne_nil, fun v L hv hL hroom => ?_⟩
  · rw [links_other ops points hfits hlinks hnotin, hset, if_pos ⟨rfl, rfl⟩]
  · rw [cap, if_pos rfl]
    omega
  · have hL' := (hset v 0).trans ((if_neg fun h => hv h.1).trans hL)
    split
    · next hin =>
        exact links_uncut ops points hfits hlinks (nearest_nodup hfinds.nodup) hin hL' hroom
    · next hout => rw [links_other ops points hfits hlinks hout, hL']

/-- The layers above do not matter. -/
theorem insertLayers_grounded (hfits : params.M < 2 ^ 30) {t : Nat} {ep ep' : List (Fin m)}
    (h : Linked params nodes)
    (hidx : t + 1 ≤ (nodes idx).length) (hnew : ∀ l < t + 1, Unlinked nodes idx l)
    (hep : Entries nodes idx (t + 1) ep)
    (hrun : (List.range (t + 1)).reverse.foldlM (insertLayer ops params points idx) (nodes, ep) =
      some (nodes', ep')) :
    ∃ selected, Grounded params nodes nodes' idx selected := by
  induction t generalizing nodes ep with
  | zero =>
      obtain ⟨⟨nodes₁, ep₁⟩, hlayer, hrest⟩ := foldlM_cons_eq_some.mp hrun
      obtain ⟨rfl, rfl⟩ := Prod.mk.inj (Option.some.inj hrest)
      exact insertLayer_grounded ops points hfits h hidx (hnew 0 Nat.zero_lt_one) hep hlayer
  | succ t ih =>
      rw [List.range_succ, List.reverse_append, List.reverse_singleton,
        List.singleton_append] at hrun
      obtain ⟨⟨nodes₁, ep₁⟩, hlayer, hrest⟩ := foldlM_cons_eq_some.mp hrun
      obtain ⟨nodes₂, ep₂, vs, hlayer', hre, hep₁⟩ :=
        insertLayer_relinked ops points hfits h hidx (hnew (t + 1) (Nat.lt_succ_self _)) hep
      obtain ⟨rfl, rfl⟩ := Prod.mk.inj (Option.some.inj (hlayer.symm.trans hlayer'))
      have hsame : ∀ v l, l < t + 1 → nodes₁.layer v l = nodes.layer v l :=
        fun v l hl => hre.others v l fun hvl => hl.ne hvl.2
      obtain ⟨selected, hown, hne, huncut⟩ :=
        ih hre.linked ((hre.levels idx).symm ▸ (Nat.le_succ _).trans hidx)
          (fun l hl v L hL => hnew l (hl.trans (Nat.lt_succ_self _)) v L (hsame v l hl ▸ hL))
          hep₁.down hrest
      exact ⟨selected, hown, hne, fun v L hv hL =>
        huncut v L hv ((hsame v 0 (Nat.succ_pos t)).trans hL)⟩

theorem insert_grounded (hfits : params.M < 2 ^ 30) (level : Nat) {h h' : HNSW m}
    (hok : h.Ok params)
    (hidx : h.nodes idx = []) {e : Fin m} (hentry : h.entryPoint = some e)
    (hrun : insert ops params points level h idx = some h') :
    ∃ selected, Grounded params h.nodes h'.nodes idx selected := by
  obtain ⟨v, hdescend, hep, htop⟩ := insert_entries ops points level hok hidx hentry
  obtain ⟨hlinked, hnew⟩ := hok.linked.resize level hidx
  simp only [insert, hentry, hdescend, Option.bind_eq_bind, Option.bind_some] at hrun
  obtain ⟨⟨nodes', ep'⟩, hlayers, hrest⟩ := Option.bind_eq_some_iff.mp hrun
  have hnodes : h'.nodes = nodes' := by
    simp only at hrest
    split at hrest <;> rw [← Option.some.inj hrest]
  obtain ⟨selected, hown, hne, huncut⟩ :=
    insertLayers_grounded ops points hfits hlinked htop (fun l _ => hnew l) hep hlayers
  rw [hnodes]
  refine ⟨selected, hown, hne, fun u L hu hL => huncut u L hu ?_⟩
  rw [← hL]
  simp [Nodes.layer, Nodes.resize, hu]

/-! ## Insertions that drop no link -/

/-- No link of layer 0 is dropped, and the neighbours of the new point link back to it. -/
structure Lossless (nodes nodes' : Nodes m) (idx : Fin m) : Prop where
  kept : ∀ u v, nodes.Leads 0 u v → nodes'.Leads 0 u v
  back : ∀ v, nodes'.Leads 0 idx v → nodes'.Leads 0 v idx

/-- On layer 0 every point reaches every other. -/
def Joined (nodes : Nodes m) : Prop :=
  ∀ u v, 0 < (nodes u).length → 0 < (nodes v).length → nodes.Reaches 0 u v

theorem insert_joined (hfits : params.M < 2 ^ 30) (level : Nat) {h h' : HNSW m} (hok : h.Ok params)
    (hidx : h.nodes idx = [])
    (hM : 1 ≤ params.M) (hrun : insert ops params points level h idx = some h')
    (hloss : Lossless h.nodes h'.nodes idx) (hjoined : Joined h.nodes) : Joined h'.nodes := by
  obtain ⟨h₁, hrun₁, hok', hlen⟩ := insert_ok ops points hfits level hok hidx
  obtain rfl := Option.some.inj (hrun.symm.trans hrun₁)
  have hold : ∀ u, u ≠ idx → 0 < (h'.nodes u).length → 0 < (h.nodes u).length := fun u hu hpos => by
    rwa [hlen, if_neg hu] at hpos
  have hkept : ∀ u v, h.nodes.Reaches 0 u v → h'.nodes.Reaches 0 u v :=
    Relation.ReflTransGen.mono hloss.kept
  rcases hentry : h.entryPoint with - | e
  · -- the first point is alone
    have halone : ∀ u, 0 < (h'.nodes u).length → u = idx := fun u hpos => by
      by_contra hu
      have hpos := hold u hu hpos
      rw [hok.entry hentry u] at hpos
      exact absurd hpos (Nat.lt_irrefl 0)
    intro u v hu hv
    rw [halone u hu, halone v hv]
    exact .refl
  · -- there is a way to the new point and back through one of its neighbours
    obtain ⟨selected, hground⟩ := insert_grounded ops points hfits level hok hidx hentry hrun
    obtain ⟨w, hw⟩ := List.exists_mem_of_ne_nil selected (hground.ne_nil hM)
    have hnbrs := hok'.linked idx 0 selected hground.own
    have hwidx : w ≠ idx := fun heq => hnbrs.noLoop (heq ▸ hw)
    have hwpos := hold w hwidx (hnbrs.level w hw)
    have hout : h'.nodes.Leads 0 idx w := ⟨selected, hground.own, hw⟩
    have hback : h'.nodes.Leads 0 w idx := hloss.back w hout
    intro u v hu hv
    by_cases hui : u = idx
    · subst hui
      by_cases hvi : v = u
      · exact hvi ▸ .refl
      · exact .head hout (hkept _ _ (hjoined w v hwpos (hold v hvi hv)))
    · have hin := (hkept _ _ (hjoined u w (hold u hui hu) hwpos)).tail hback
      by_cases hvi : v = idx
      · exact hvi ▸ hin
      · exact hkept _ _ (hjoined u v (hold u hui hu) (hold v hvi hv))

/-- With room in all lists of layer 0 an insertion drops no link. -/
theorem insert_lossless (hfits : params.M < 2 ^ 30) (level : Nat) {h h' : HNSW m}
    (hok : h.Ok params)
    (hidx : h.nodes idx = []) (hrun : insert ops params points level h idx = some h')
    (hroom : ∀ v L, h.nodes.layer v 0 = some L → L.length < cap params 0) :
    Lossless h.nodes h'.nodes idx := by
  obtain ⟨h₁, hrun₁, hok', hlen⟩ := insert_ok ops points hfits level hok hidx
  obtain rfl := Option.some.inj (hrun.symm.trans hrun₁)
  rcases hentry : h.entryPoint with - | e
  · have hnone : ∀ u L, h.nodes.layer u 0 ≠ some L := fun u L hL => by
      rw [Nodes.layer, hok.entry hentry u] at hL
      cases hL
    refine ⟨fun u v hlead => ?_, fun v hlead => ?_⟩
    · obtain ⟨L, hL, -⟩ := hlead
      exact absurd hL (hnone u L)
    · -- the neighbours of the first point would be points
      obtain ⟨L, hL, hv⟩ := hlead
      have hnbrs := hok'.linked idx 0 L hL
      have hvidx : v ≠ idx := fun heq => hnbrs.noLoop (heq ▸ hv)
      have hpos := hnbrs.level v hv
      rw [hlen, if_neg hvidx, hok.entry hentry v] at hpos
      exact absurd hpos (Nat.lt_irrefl 0)
  · obtain ⟨selected, hground⟩ := insert_grounded ops points hfits level hok hidx hentry hrun
    refine ⟨fun u v hlead => ?_, fun v hlead => ?_⟩
    · obtain ⟨L, hL, hv⟩ := hlead
      have hu : u ≠ idx := by
        rintro rfl
        rw [Nodes.layer, hidx] at hL
        cases hL
      refine ⟨_, hground.uncut u L hu hL (hroom u L hL), ?_⟩
      split
      · exact List.mem_append_left _ hv
      · exact hv
    · obtain ⟨L, hL, hv⟩ := hlead
      obtain rfl := Option.some.inj (hL.symm.trans hground.own)
      have hnbrs := hok'.linked idx 0 L hL
      have hvidx : v ≠ idx := fun heq => hnbrs.noLoop (heq ▸ hv)
      have hpos := hnbrs.level v hv
      rw [hlen, if_neg hvidx] at hpos
      obtain ⟨L', hL'⟩ := Nodes.layer_of_lt hpos
      refine ⟨_, hground.uncut v L' hvidx hL' (hroom v L' hL'), ?_⟩
      rw [if_pos hv]
      exact List.mem_append_right _ List.mem_cons_self

/-! ## The constructor's loop -/

/-- The graph after `j` insertions. -/
abbrev built (params : Params) (points : Features K n m) (levels : Fin m → Nat) (j : Nat) :
    Option (HNSW m) :=
  construct ops params points levels ((List.finRange m).take j)

/-- None of the first `j` insertions drops a link of layer 0. -/
def KeepsLinks (params : Params) (points : Features K n m) (levels : Fin m → Nat) (j : Nat) :
    Prop :=
  ∀ i : Fin m, i.val < j → ∀ h h', built ops params points levels i.val = some h →
    insert ops params points (levels i) h i = some h' → Lossless h.nodes h'.nodes i

/-- The next graph comes from an insertion into the last. -/
theorem built_succ (levels : Fin m → Nat) {j : Nat} (hj : j < m) :
    built ops params points levels (j + 1) =
      (built ops params points levels j).bind fun h =>
        insert ops params points (levels ⟨j, hj⟩) h ⟨j, hj⟩ := by
  have htake : (List.finRange m).take (j + 1) = (List.finRange m).take j ++ [⟨j, hj⟩] := by
    rw [List.take_add_one, List.getElem?_eq_getElem (by simpa using hj)]
    simp
  rw [built, built, htake, construct, List.foldlM_append, construct]
  simp

/-- All points have been inserted after `m` insertions. -/
theorem built_of_le (levels : Fin m → Nat) {j : Nat} (hj : m ≤ j) :
    built ops params points levels (j + 1) = built ops params points levels j := by
  have hlen : (List.finRange m).length ≤ j := by simpa using hj
  rw [built, built, List.take_of_length_le hlen,
    List.take_of_length_le (hlen.trans (Nat.le_succ j))]

/-- There is room for one more in all lists while there are few points. -/
theorem room_of_le {h : HNSW m} {i : Nat} (hok : h.Ok params) (hi : i ≤ 2 * params.M)
    (hlen : ∀ v, 0 < (h.nodes v).length → v.val < i) (v : Fin m) (L : List (Fin m))
    (hL : h.nodes.layer v 0 = some L) : L.length < cap params 0 := by
  have hnbrs := hok.linked v 0 L hL
  have hv : v.val < i := hlen v (List.getElem?_eq_some_iff.mp hL).1
  -- the neighbours and `v` are different points
  have hnodup : ((v :: L).map Fin.val).Nodup :=
    (List.nodup_cons.mpr ⟨hnbrs.noLoop, hnbrs.nodup⟩).map Fin.val_injective
  have hsub : (v :: L).map Fin.val ⊆ List.range i := by
    intro x hx
    obtain ⟨u, hu, rfl⟩ := List.mem_map.mp hx
    refine List.mem_range.mpr ?_
    rcases List.mem_cons.mp hu with rfl | hu
    · exact hv
    · exact hlen u (hnbrs.level u hu)
  have hle := (hnodup.subperm hsub).length_le
  rw [List.length_map, List.length_cons, List.length_range] at hle
  rw [cap, if_pos rfl]
  omega

theorem keepsLinks_of_le (hfits : params.M < 2 ^ 30) (levels : Fin m → Nat) {j : Nat}
    (hj : j ≤ 2 * params.M + 1) :
    KeepsLinks ops params points levels j := by
  intro i hi h h' hbuilt hrun
  obtain ⟨h₁, hbuilt₁, hok, hlen⟩ := construct_take_ok ops points hfits levels i.val
  obtain rfl := Option.some.inj (hbuilt.symm.trans hbuilt₁)
  have hi' : i.val ≤ 2 * params.M := by omega
  refine insert_lossless ops points hfits (levels i) hok ?_ hrun (room_of_le hok hi' ?_)
  · rw [← List.length_eq_zero_iff, hlen, if_neg (Nat.lt_irrefl _)]
  · intro v hpos
    by_contra hv
    rw [hlen, if_neg hv] at hpos
    exact absurd hpos (Nat.lt_irrefl 0)

/-- The run of the constructor's loop: every point reaches every other. -/
theorem built_joined (hfits : params.M < 2 ^ 30) (levels : Fin m → Nat) (hM : 1 ≤ params.M)
    {j : Nat}
    (hkeeps : KeepsLinks ops params points levels j) :
    ∀ h, built ops params points levels j = some h → Joined h.nodes := by
  induction j with
  | zero =>
      intro h hbuilt u v hu
      obtain rfl := Option.some.inj hbuilt
      exact absurd hu (Nat.lt_irrefl 0)
  | succ j ih =>
      intro h' hbuilt'
      obtain ⟨h, hbuilt, hok, hlen⟩ := construct_take_ok ops points hfits levels j
      change built ops params points levels j = some h at hbuilt
      have hjoined := ih (fun i hi => hkeeps i (hi.trans (Nat.lt_succ_self j))) h hbuilt
      rcases Nat.lt_or_ge j m with hj | hj
      · rw [built_succ ops points levels hj, hbuilt, Option.bind_some] at hbuilt'
        refine insert_joined ops points hfits _ hok ?_ hM hbuilt' ?_ hjoined
        · rw [← List.length_eq_zero_iff, hlen, if_neg (Nat.lt_irrefl _)]
        · exact hkeeps ⟨j, hj⟩ (Nat.lt_succ_self j) h h' hbuilt hbuilt'
      · rw [built_of_le ops points levels hj, hbuilt] at hbuilt'
        exact Option.some.inj hbuilt' ▸ hjoined

/-- **A query that asks for as many results as there are points** gets the points that can be
reached on layer 0 from where its descent ends. While no insertion drops a link of that layer, and
so in any case while there are at most `2 * M + 1` points, these are all of them, and the entry
point reaches them. Twice `M` is taken to be an `int`. -/
theorem construct_complete (ops : Ops K m) (hfits : params.M < 2 ^ 30) (points : Features K n m)
    (levels : Fin m → Nat) (j : Nat) :
    ∃ h, construct ops params points levels ((List.finRange m).take j) = some h ∧
      (j ≤ 2 * params.M + 1 → KeepsLinks ops params points levels j) ∧
      (1 ≤ params.M → KeepsLinks ops params points levels j →
        ∀ e u, h.entryPoint = some e → u.val < j → h.nodes.Reaches 0 e u) ∧
      ∀ query k, j ≤ k → ∃ rs, queryKnn ops params points h query k = some rs ∧
        (∀ u, u ∈ rs.map NeighborResult.index ↔ ∃ e v, h.entryPoint = some e ∧
          descend ops points query h.nodes (layersDown h.maxLayer 0) [e] = some [v] ∧
          h.nodes.Reaches 0 v u) ∧
        (1 ≤ params.M → KeepsLinks ops params points levels j →
          ∀ u, u ∈ rs.map NeighborResult.index ↔ u.val < j) := by
  obtain ⟨h, hbuilt, hok, hlen⟩ := construct_take_ok ops points hfits levels j
  have hpos : ∀ v, 0 < (h.nodes v).length ↔ v.val < j := fun v => by
    rw [hlen]
    split <;> simp [*]
  have hjoined := fun hM hkeeps => built_joined ops points hfits levels hM hkeeps h hbuilt
  refine ⟨h, hbuilt, keepsLinks_of_le ops points hfits levels, fun hM hkeeps e u he hu => ?_,
    fun query k hk => ?_⟩
  · exact hjoined hM hkeeps e u ((hok.highest e he).1 ▸ Nat.succ_pos _) ((hpos u).mpr hu)
  rcases hentry : h.entryPoint with - | e
  · refine ⟨[], by rw [queryKnn, hentry], fun u => by simp, fun _ _ u => ?_⟩
    rw [← hpos, hok.entry hentry u]
    simp
  · have hfew : Few (fun v => 0 < (h.nodes v).length) k := fun vs hvs hall => by
      have hsub : vs.map Fin.val ⊆ List.range j := fun x hx => by
        obtain ⟨v, hv, rfl⟩ := List.mem_map.mp hx
        exact List.mem_range.mpr ((hpos v).mp (hall v hv))
      have hle := ((hvs.map Fin.val_injective).subperm hsub).length_le
      rw [List.length_map, List.length_range] at hle
      exact hle.trans hk
    obtain ⟨v, rs, hdescend, hv, hrun, hreach⟩ := queryKnn_reaches ops hok hentry query hfew
    refine ⟨rs, hrun, fun u => ?_, fun hM hkeeps u => ?_⟩
    · rw [hreach]
      refine ⟨fun hu => ⟨e, v, rfl, hdescend, hu⟩, fun hany => ?_⟩
      obtain ⟨e', v', he', hd', hu⟩ := hany
      obtain rfl := Option.some.inj he'
      obtain rfl := List.singleton_inj.mp (Option.some.inj (hdescend.symm.trans hd'))
      exact hu
    · rw [hreach, ← hpos]
      refine ⟨fun hu => ?_, hjoined hM hkeeps v u hv⟩
      -- only points are reached
      induction hu with
      | refl => exact hv
      | tail _ hlead _ =>
          obtain ⟨L, hL, hu⟩ := hlead
          exact (hok.linked _ 0 L hL).level _ hu

/-- Three points on one layer. -/
theorem construct_complete_three :
    ∃ h, construct sortedOps ⟨1, 1, 1⟩ (#v[#v[0], #v[5], #v[2]] : Features Int 1 3) (fun _ => 0)
        ((List.finRange 3).take 3) = some h ∧
      KeepsLinks sortedOps ⟨1, 1, 1⟩ (#v[#v[0], #v[5], #v[2]] : Features Int 1 3) (fun _ => 0) 3 ∧
      ∀ e u, h.entryPoint = some e → h.nodes.Reaches 0 e u := by
  have hfits : (⟨1, 1, 1⟩ : Params).M < 2 ^ 30 := by decide
  obtain ⟨h, hbuilt, hkeeps, hreach, -⟩ := construct_complete sortedOps hfits
    (#v[#v[0], #v[5], #v[2]] : Features Int 1 3) (fun _ => 0) 3
  have hkeeps := hkeeps (by decide)
  exact ⟨h, hbuilt, hkeeps, fun e u he => hreach (by decide) hkeeps e u he u.isLt⟩

/-- Four points on a line: the second one, far away, is dropped by all others. -/
theorem far_point_lost :
    ∃ (ops : Ops Int 4) (points : Features Int 1 4) (h : HNSW 4),
      construct ops ⟨1, 4, 4⟩ points (fun _ => 0) ((List.finRange 4).take 4) = some h ∧
      h.entryPoint = some 0 ∧ ¬ h.nodes.Reaches 0 0 1 ∧
      (queryKnn ops ⟨1, 4, 4⟩ points h #v[100] 4).map (·.map NeighborResult.index) =
        some [2, 3, 0] := by
  let ops : Ops Int 4 := sortedOps
  let points : Features Int 1 4 := #v[#v[0], #v[100], #v[2], #v[1]]
  let nodes : Nodes 4 := fun v => [#v[[3, 2], [0, 2], [3, 0], [0, 2]][v]]
  have hmap : (construct ops ⟨1, 4, 4⟩ points (fun _ => 0) ((List.finRange 4).take 4)).map
      (fun h => (h.nodes, h.entryPoint)) = some (nodes, some 0) := by decide +kernel
  obtain ⟨h, hbuilt, heq⟩ := Option.map_eq_some_iff.mp hmap
  obtain ⟨hnodes, hentry⟩ := Prod.mk.inj heq
  have hquery : ((construct ops ⟨1, 4, 4⟩ points (fun _ => 0) ((List.finRange 4).take 4)).bind
      fun h => queryKnn ops ⟨1, 4, 4⟩ points h #v[100] 4).map (·.map NeighborResult.index) =
      some [2, 3, 0] := by decide +kernel
  rw [hbuilt, Option.bind_some] at hquery
  refine ⟨ops, points, h, hbuilt, hentry, fun hreach => ?_, hquery⟩
  -- no list has it
  have hlost : ∀ u, 1 ∉ (nodes.layer u 0).getD [] := by decide
  rcases hreach.cases_tail with heq | ⟨u, -, L, hL, hin⟩
  · exact absurd heq (by decide)
  · rw [hnodes] at hL
    refine hlost u ?_
    rwa [hL, Option.getD_some]

end CrossMachine.Rag
