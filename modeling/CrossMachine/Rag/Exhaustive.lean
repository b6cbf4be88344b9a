import CrossMachine.Rag.HnswProof
import Mathlib.Logic.Relation

/-!
# A search that has room for everything

When no more than `ef` points can be reached, `search_layer` never has to choose: whatever it
visits it also finds, and it does not stop before it has looked at the links of all of them.
So it finds the points that can be reached from where it starts, and no others
(`searchLayer_reaches`). A query that asks for as many results as there are points is such a
search of layer 0, from the point that the descent ends in (`queryKnn_reaches`).
-/

namespace CrossMachine.Rag

open Knn Lib

variable {n m : Nat} {nodes : Nodes m} {lc : Nat} {u v : Fin m}

/-- `u` has `v` as a neighbour on the layer. -/
def Nodes.Leads (nodes : Nodes m) (lc : Nat) (u v : Fin m) : Prop :=
  ∃ L, nodes.layer u lc = some L ∧ v ∈ L

/-- The links of the layer lead from `u` to `v`. -/
def Nodes.Reaches (nodes : Nodes m) (lc : Nat) (u v : Fin m) : Prop :=
  Relation.ReflTransGen (nodes.Leads lc) u v

/-- No more than `ef` points satisfy `P`. -/
def Few (P : Fin m → Prop) (ef : Nat) : Prop :=
  ∀ vs : List (Fin m), vs.Nodup → (∀ v ∈ vs, P v) → vs.length ≤ ef

variable {K : Type} {s s' s'' : Search K m}

/-- Whatever was visited has been found. -/
def Search.AllFound (s : Search K m) : Prop :=
  ∀ v ∈ s.visited, v ∈ s.found.map NeighborResult.index

/-- Nothing is forgotten, and what is newly visited is a candidate. -/
structure Search.Spreads (s s' : Search K m) : Prop where
  visited : ∀ v ∈ s.visited, v ∈ s'.visited
  candidates : ∀ r ∈ s.candidates, r ∈ s'.candidates
  fresh : ∀ v ∈ s'.visited, v ∈ s.visited ∨ v ∈ s'.candidates.map NeighborResult.index

theorem Search.Spreads.refl (s : Search K m) : s.Spreads s :=
  ⟨fun _ hv => hv, fun _ hr => hr, fun _ hv => .inl hv⟩

theorem Search.Spreads.trans (h : s.Spreads s') (h' : s'.Spreads s'') : s.Spreads s'' where
  visited v hv := h'.visited v (h.visited v hv)
  candidates r hr := h'.candidates r (h.candidates r hr)
  fresh v hv := by
    rcases h'.fresh v hv with hv | hv
    · refine (h.fresh v hv).imp_right fun hc => ?_
      obtain ⟨r, hr, rfl⟩ := List.mem_map.mp hc
      exact List.mem_map_of_mem (h'.candidates r hr)
    · exact .inr hv

/-- Every point that was visited is still a candidate or has only visited neighbours. -/
def Search.Done (nodes : Nodes m) (lc : Nat) (s : Search K m) : Prop :=
  ∀ u ∈ s.visited, u ∈ s.candidates.map NeighborResult.index ∨
    ∀ v, nodes.Leads lc u v → v ∈ s.visited

variable [LinearOrder K] [Zero K] [Add K] [Sub K] [Mul K]
variable (ops : Ops K m) {points : Features K n m} {query : Point K n} {P : Fin m → Prop}
variable (ef : Nat)

/-- While a point is missing, there is room for it. -/
theorem Search.Ok.room (h : s.Ok points query P) (hfew : Few P ef) (hv : P v)
    (hnew : v ∉ s.found.map NeighborResult.index) : s.found.length < ef := by
  have hle := hfew (v :: s.found.map NeighborResult.index)
    (List.nodup_cons.mpr ⟨hnew, h.found_nodup⟩) (List.forall_mem_cons.mpr ⟨hv, fun u hu => by
      obtain ⟨r, hr, rfl⟩ := List.mem_map.mp hu
      exact h.all _ (h.found_visited r hr)⟩)
  rw [List.length_cons, List.length_map] at hle
  omega

/-- A point that is new is visited, found and a candidate. -/
theorem spreads_add (points : Features K n m) (query : Point K n) (hall : s.AllFound) (v : Fin m) :
    Search.AllFound ⟨ops.closest.enqueue s.candidates (candidate points query v),
        ops.farthest.enqueue s.found (candidate points query v), v :: s.visited⟩ ∧
      s.Spreads ⟨ops.closest.enqueue s.candidates (candidate points query v),
        ops.farthest.enqueue s.found (candidate points query v), v :: s.visited⟩ := by
  have hc := ops.closest.enqueue_perm s.candidates (candidate points query v)
  have hf := ops.farthest.enqueue_perm s.found (candidate points query v)
  refine ⟨fun u hu => ?_, fun u hu => List.mem_cons_of_mem _ hu,
    fun r hr => hc.mem_iff.mpr (List.mem_cons_of_mem _ hr), fun u hu => ?_⟩
  · refine ((hf.map _).mem_iff).mpr ?_
    rcases List.mem_cons.mp hu with rfl | hu
    · exact List.mem_cons_self
    · exact List.mem_cons_of_mem _ (hall u hu)
  · rcases List.mem_cons.mp hu with rfl | hu
    · exact .inr (((hc.map _).mem_iff).mpr List.mem_cons_self)
    · exact .inl hu

theorem visit_spreads (h : s.Ok points query P) (hall : s.AllFound) (hfew : Few P ef) (hv : P v) :
    (visit ops points query ef s v).AllFound ∧ s.Spreads (visit ops points query ef s v) ∧
      v ∈ (visit ops points query ef s v).visited := by
  unfold visit
  split
  · next hmem => exact ⟨hall, .refl s, hmem⟩
  · next hnew =>
      -- it has not been found either, so nothing has to make room for it
      have hroom : s.found.length < ef := h.room ef hfew hv fun hmem => by
        obtain ⟨r, hr, rfl⟩ := List.mem_map.mp hmem
        exact hnew (h.found_visited r hr)
      have hlen := (ops.farthest.enqueue_perm s.found (candidate points query v)).length_eq
      rw [List.length_cons] at hlen
      have hfit : ¬ (ops.farthest.enqueue s.found (candidate points query v)).length > ef := by
        omega
      simp only [hroom, true_or, if_true, if_neg hfit]
      obtain ⟨hall', hspreads⟩ := spreads_add ops points query hall v
      exact ⟨hall', hspreads, List.mem_cons_self⟩

theorem visits_spreads {L : List (Fin m)} (h : s.Ok points query P) (hall : s.AllFound)
    (hfew : Few P ef) (hL : ∀ v ∈ L, P v) :
    (L.foldl (visit ops points query ef) s).AllFound ∧
      s.Spreads (L.foldl (visit ops points query ef) s) ∧
      ∀ v ∈ L, v ∈ (L.foldl (visit ops points query ef) s).visited := by
  induction L generalizing s with
  | nil => exact ⟨hall, .refl s, fun v hv => absurd hv List.not_mem_nil⟩
  | cons v L ih =>
      obtain ⟨hv, hL⟩ := List.forall_mem_cons.mp hL
      obtain ⟨hall₁, hspreads₁, hmem⟩ := visit_spreads ops ef h hall hfew hv
      obtain ⟨hall₂, hspreads₂, hmem₂⟩ := ih (visit_ok ops ef h hv).1 hall₁ hL
      refine ⟨hall₂, hspreads₁.trans hspreads₂, List.forall_mem_cons.mpr ⟨?_, hmem₂⟩⟩
      exact hspreads₂.visited v hmem

/-- When the loop ends, all points that satisfy `P` have been found, or those that have been
found have no other neighbours. -/
theorem searchLoop_spreads {fuel : Nat} (hclosed : Closed nodes lc P) (hfew : Few P ef)
    (h : s.Ok points query P) (hall : s.AllFound) (hdone : s.Done nodes lc)
    (hrun : searchLoop ops points query ef nodes lc fuel s = some s') :
    (∀ v ∈ s.visited, v ∈ s'.visited) ∧ s'.AllFound ∧
      ((∀ v, P v → v ∈ s'.found.map NeighborResult.index) ∨
        ∀ u ∈ s'.visited, ∀ v, nodes.Leads lc u v → v ∈ s'.visited) := by
  induction fuel generalizing s with
  | zero => cases hrun
  | succ fuel ih =>
      rw [searchLoop] at hrun
      split at hrun
      · next hnil =>
          cases hrun
          refine ⟨fun _ hv => hv, hall, .inr fun u hu => (hdone u hu).resolve_left ?_⟩
          rw [hnil]
          exact List.not_mem_nil
      · next c cs hs =>
          obtain ⟨hok, -⟩ := h.takeClosest ops hs
          obtain ⟨hperm, -⟩ := ops.closest.dequeue_spec (hs ▸ h.candidates_heap)
          simp only at hrun
          split at hrun
          · next hfull =>
              -- as many as can be have been found
              cases hrun
              refine ⟨fun _ hv => hv, hall, .inl fun v hv => ?_⟩
              by_contra hnew
              have hroom := h.room ef hfew hv hnew
              omega
          · have hc : c.index ∈ s.visited := h.candidates_visited c (hs ▸ List.mem_cons_self)
            obtain ⟨L, hlayer, hL⟩ := hclosed c.index (h.all _ hc)
            rw [hlayer, Option.bind_eq_bind, Option.bind_some] at hrun
            obtain ⟨hall', hspreads, hmem⟩ := visits_spreads ops ef hok hall hfew hL
            have hdone' : Search.Done nodes lc (L.foldl (visit ops points query ef)
                { s with candidates := ops.closest.dequeue s.candidates }) := by
              intro u hu
              rcases hspreads.fresh u hu with hold | hnew
              · rcases hdone u hold with hcand | hdone
                · rw [hs, List.map_cons, List.mem_cons] at hcand
                  rcases hcand with rfl | hcand
                  · -- the candidate itself: its neighbours are `L`
                    refine .inr fun v hv => ?_
                    obtain ⟨L', hL', hv⟩ := hv
                    obtain rfl := Option.some.inj (hlayer.symm.trans hL')
                    exact hmem v hv
                  · refine .inl ?_
                    obtain ⟨r, hr, rfl⟩ := List.mem_map.mp hcand
                    refine List.mem_map_of_mem (hspreads.candidates r ?_)
                    rw [hs]
                    exact hperm.mem_iff.mpr hr
                · exact .inr fun v hv => hspreads.visited v (hdone v hv)
              · exact .inl hnew
            obtain ⟨hkeep, hrest⟩ := ih (visits_ok ops ef hok hL).1 hall' hdone' hrun
            exact ⟨fun v hv => hkeep v (hspreads.visited v hv), hrest⟩

/-- The entry points are visited, found and candidates. -/
theorem starts_spreads (points : Features K n m) (query : Point K n) {eps : List (Fin m)}
    (hall : s.AllFound) (hnodup : eps.Nodup) (hnew : ∀ v ∈ eps, v ∉ s.visited) :
    (eps.foldl (start ops points query) s).AllFound ∧
      s.Spreads (eps.foldl (start ops points query) s) ∧
      ∀ v, v ∈ (eps.foldl (start ops points query) s).visited ↔ v ∈ eps ∨ v ∈ s.visited := by
  induction eps generalizing s with
  | nil => exact ⟨hall, .refl s, fun v => by simp⟩
  | cons v eps ih =>
      obtain ⟨hv, hnew⟩ := List.forall_mem_cons.mp hnew
      obtain ⟨hnotin, hnodup⟩ := List.nodup_cons.mp hnodup
      obtain ⟨hall₁, hspreads₁⟩ := spreads_add ops points query hall v
      rw [List.foldl_cons, start, List.insert_of_not_mem hv]
      obtain ⟨hall₂, hspreads₂, hmem⟩ := ih hall₁ hnodup fun u hu hin => by
        rcases List.mem_cons.mp hin with rfl | hin
        · exact hnotin hu
        · exact hnew u hu hin
      refine ⟨hall₂, hspreads₁.trans hspreads₂, fun u => ?_⟩
      rw [hmem, List.mem_cons, List.mem_cons]
      tauto

/-- **A search with room for everything** finds the points that can be reached. -/
theorem searchLayer_reaches (points : Features K n m) {eps : List (Fin m)} (query : Point K n)
    (hclosed : Closed nodes lc P) (hfew : Few P ef) (hnodup : eps.Nodup)
    (hP : ∀ v ∈ eps, P v) :
    ∃ rs, searchLayer ops points query ef nodes eps lc = some rs ∧
      ∀ v, v ∈ rs.map NeighborResult.index ↔ ∃ e ∈ eps, nodes.Reaches lc e v := by
  let R : Fin m → Prop := fun v => ∃ e ∈ eps, nodes.Reaches lc e v
  have hsub : ∀ v, R v → P v := by
    rintro v ⟨e, he, hreach⟩
    induction hreach with
    | refl => exact hP e he
    | tail _ hlead ih =>
        obtain ⟨L, hL, hv⟩ := hlead
        obtain ⟨L', hL', hall⟩ := hclosed _ ih
        obtain rfl := Option.some.inj (hL.symm.trans hL')
        exact hall _ hv
  have hclosed' : Closed nodes lc R := by
    rintro v ⟨e, he, hreach⟩
    obtain ⟨L, hL, -⟩ := hclosed v (hsub v ⟨e, he, hreach⟩)
    exact ⟨L, hL, fun u hu => ⟨e, he, hreach.tail ⟨L, hL, hu⟩⟩⟩
  have hfew' : Few R ef := fun vs hvs hall => hfew vs hvs fun v hv => hsub v (hall v hv)
  have hstart : ∀ v ∈ eps, R v := fun v hv => ⟨v, hv, .refl⟩
  have hempty : Search.Ok points query R ⟨[], [], []⟩ := .empty
  obtain ⟨hok, hleads, -⟩ := starts_ok ops hempty hstart hnodup (by simp)
  obtain ⟨hall, hspreads, hvisited⟩ := starts_spreads ops (s := ⟨[], [], []⟩) points query
    (fun v hv => absurd hv List.not_mem_nil) hnodup (by simp)
  have hdone : Search.Done nodes lc (eps.foldl (start ops points query) ⟨[], [], []⟩) :=
    fun u hu => .inl ((hspreads.fresh u hu).resolve_left List.not_mem_nil)
  have hlen := hok.visited_length
  have hsum := hleads.candidates
  simp only [List.length_nil, Nat.add_zero, Nat.zero_add] at hsum
  obtain ⟨s', hrun, hok', -⟩ := searchLoop_ok ops ef hclosed' hok (show _ < m + 1 by omega)
  obtain ⟨hkeep, hall', hend⟩ := searchLoop_spreads ops ef hclosed' hfew' hok hall hdone hrun
  have hperm : (ops.sort.run (ops.farthest.drain s'.found.length s'.found)).Perm s'.found :=
    (ops.sort.perm _).trans (ops.farthest.drain_perm hok'.found_heap (le_refl _))
  refine ⟨_, by rw [searchLayer, hrun, Option.bind_eq_bind, Option.bind_some], fun v => ?_⟩
  rw [(hperm.map _).mem_iff]
  constructor
  · intro hv
    obtain ⟨r, hr, rfl⟩ := List.mem_map.mp hv
    exact hok'.all _ (hok'.found_visited r hr)
  · intro hv
    rcases hend with hfound | hstays
    · exact hfound v hv
    · obtain ⟨e, he, hreach⟩ := hv
      refine hall' v ?_
      induction hreach with
      | refl => exact hkeep e ((hvisited e).mpr (.inl he))
      | tail _ hlead ih => exact hstays _ ih _ hlead

/-- A query that asks for as many points as there are gets those that can be reached on layer 0
from where the descent ends. -/
theorem queryKnn_reaches {params : Params} {h : HNSW m} (hok : h.Ok params) {e : Fin m}
    (hentry : h.entryPoint = some e) (query : Point K n) {k : Nat}
    (hfew : Few (fun v => 0 < (h.nodes v).length) k) :
    ∃ v rs, descend ops points query h.nodes (layersDown h.maxLayer 0) [e] = some [v] ∧
      0 < (h.nodes v).length ∧ queryKnn ops params points h query k = some rs ∧
      ∀ u, u ∈ rs.map NeighborResult.index ↔ h.nodes.Reaches 0 v u := by
  have hlt : h.maxLayer < (h.nodes e).length := (hok.highest e hentry).1 ▸ Nat.lt_succ_self _
  obtain ⟨v, hdescend, hv⟩ := descend_reaches ops points hok.linked query 0 hlt
  rw [Nat.zero_min] at hv
  have hclosed := hok.linked.closed 0
  have hfew' : Few (fun v => 0 < (h.nodes v).length) (max params.efSearch k) :=
    fun vs hvs hall => (hfew vs hvs hall).trans (Nat.le_max_right _ _)
  have hstart : ∀ u ∈ [v], 0 < (h.nodes u).length :=
    fun u hu => (List.mem_singleton.mp hu).symm ▸ hv
  obtain ⟨rs, hsearch, hreach⟩ := searchLayer_reaches ops _ points query hclosed hfew'
    (List.nodup_singleton v) hstart
  obtain ⟨rs', hsearch', hfinds⟩ := searchLayer_finds ops points query (max params.efSearch k)
    hclosed (List.cons_ne_nil v []) (List.nodup_singleton v) hstart
  obtain rfl := Option.some.inj (hsearch.symm.trans hsearch')
  -- there are at most `k` results, so none of them is cut off
  have hlen : rs.length ≤ k := by
    have hle := hfew _ hfinds.nodup fun u hu => by
      obtain ⟨r, hr, rfl⟩ := List.mem_map.mp hu
      exact hfinds.all r hr
    rwa [List.length_map] at hle
  refine ⟨v, rs, hdescend, hv, ?_, fun u => ?_⟩
  · rw [queryKnn, hentry]
    simp only [hdescend, hsearch, Option.bind_eq_bind, Option.bind_some,
      List.take_of_length_le hlen]
  · rw [hreach]
    simp

end CrossMachine.Rag
