import CrossMachine.Rag.Hnsw
import Mathlib.Data.Fintype.Card

/-!
# A search of one layer

`search_layer` goes from point to point along the links of one layer. Give it points that
satisfy `P`, on a layer where `P` leads to `P` only, and it never reads a layer that is not
there, and what it finds satisfies `P`. It ends since a point becomes a candidate at most once:
the candidates and the points that have not been visited get fewer together.
-/

namespace CrossMachine.Rag

open Knn Lib

variable {K : Type} [LinearOrder K] {n m : Nat}

/-- All points that satisfy `P` are on the layer and have only neighbours there that do. -/
def Closed (nodes : Nodes m) (lc : Nat) (P : Fin m → Prop) : Prop :=
  ∀ v, P v → ∃ L, nodes.layer v lc = some L ∧ ∀ u ∈ L, P u

variable [Zero K] [Add K] [Sub K] [Mul K]

/-- What a search finds. -/
structure Finds (points : Features K n m) (query : Point K n) (P : Fin m → Prop)
    (rs : List (NeighborResult K m)) : Prop where
  ne_nil : rs ≠ []
  nodup : (rs.map NeighborResult.index).Nodup
  all : ∀ r ∈ rs, P r.index
  distSq : ∀ r ∈ rs, r = candidate points query r.index
  sorted : rs.Pairwise fun a b => a.distSq ≤ b.distSq

/-- What holds between any two turns of a loop of a search. -/
structure Search.Ok (points : Features K n m) (query : Point K n) (P : Fin m → Prop)
    (s : Search K m) : Prop where
  candidates_heap : IsHeap (fun r => OrderDual.toDual r.distSq) s.candidates
  found_heap : IsHeap NeighborResult.distSq s.found
  candidates_visited : ∀ r ∈ s.candidates, r.index ∈ s.visited
  found_visited : ∀ r ∈ s.found, r.index ∈ s.visited
  found_nodup : (s.found.map NeighborResult.index).Nodup
  found_distSq : ∀ r ∈ s.found, r = candidate points query r.index
  visited_nodup : s.visited.Nodup
  all : ∀ v ∈ s.visited, P v

omit [Zero K] [Add K] [Sub K] [Mul K] [LinearOrder K] in
/-- What no turn undoes: nothing is lost of what was found, and a new candidate is also new
among the visited points. -/
structure Search.Leads (s s' : Search K m) : Prop where
  found : s.found.length ≤ s'.found.length
  candidates : s'.candidates.length + s.visited.length ≤
    s.candidates.length + s'.visited.length

omit [Zero K] [Add K] [Sub K] [Mul K] [LinearOrder K] in
theorem Search.Leads.refl (s : Search K m) : s.Leads s := ⟨le_refl _, le_refl _⟩

omit [Zero K] [Add K] [Sub K] [Mul K] [LinearOrder K] in
theorem Search.Leads.trans {s s' s'' : Search K m} (h : s.Leads s') (h' : s'.Leads s'') :
    s.Leads s'' := by
  have hfound := h.found.trans h'.found
  have h₁ := h.candidates
  have h₂ := h'.candidates
  exact ⟨hfound, by omega⟩

variable (ops : Ops K m) {points : Features K n m} {query : Point K n} {P : Fin m → Prop}
variable {s : Search K m} {v : Fin m}

theorem Search.Ok.empty : Search.Ok points query P ⟨[], [], []⟩ where
  candidates_heap := .nil
  found_heap := .nil
  candidates_visited := by simp
  found_visited := by simp
  found_nodup := by simp
  found_distSq := by simp
  visited_nodup := by simp
  all := by simp

theorem Search.Ok.visited_length (h : s.Ok points query P) : s.visited.length ≤ m := by
  simpa using h.visited_nodup.length_le_card

/-- A point that has not been visited is visited now. -/
theorem Search.Ok.mark (h : s.Ok points query P) (hv : P v) (hnew : v ∉ s.visited) :
    Search.Ok points query P { s with visited := v :: s.visited } :=
  { h with
    candidates_visited := fun r hr => List.mem_cons_of_mem _ (h.candidates_visited r hr)
    found_visited := fun r hr => List.mem_cons_of_mem _ (h.found_visited r hr)
    visited_nodup := List.nodup_cons.mpr ⟨hnew, h.visited_nodup⟩
    all := List.forall_mem_cons.mpr ⟨hv, h.all⟩ }

/-- And it becomes a candidate. -/
theorem Search.Ok.add (h : s.Ok points query P) (hv : P v) (hnew : v ∉ s.visited) :
    Search.Ok points query P
      ⟨ops.closest.enqueue s.candidates (candidate points query v),
        ops.farthest.enqueue s.found (candidate points query v), v :: s.visited⟩ := by
  have hc := ops.closest.enqueue_perm s.candidates (candidate points query v)
  have hf := ops.farthest.enqueue_perm s.found (candidate points query v)
  have hmark := h.mark hv hnew
  refine
    { hmark with
      candidates_heap := ops.closest.isHeap_enqueue h.candidates_heap
      found_heap := ops.farthest.isHeap_enqueue h.found_heap
      candidates_visited := fun r hr => ?candidates_visited
      found_visited := fun r hr => ?found_visited
      found_nodup := (hf.map _).nodup_iff.mpr ?found_nodup
      found_distSq := fun r hr => ?found_distSq }
  case candidates_visited =>
    rcases List.mem_cons.mp (hc.mem_iff.mp hr) with rfl | hr
    · exact List.mem_cons_self
    · exact hmark.candidates_visited r hr
  case found_visited =>
    rcases List.mem_cons.mp (hf.mem_iff.mp hr) with rfl | hr
    · exact List.mem_cons_self
    · exact hmark.found_visited r hr
  case found_nodup =>
    refine List.nodup_cons.mpr ⟨fun hmem => ?_, h.found_nodup⟩
    obtain ⟨r, hr, hindex⟩ := List.mem_map.mp hmem
    have hindex : r.index = v := hindex
    exact hnew (hindex ▸ h.found_visited r hr)
  case found_distSq =>
    rcases List.mem_cons.mp (hf.mem_iff.mp hr) with rfl | hr
    · rfl
    · exact h.found_distSq r hr

/-- The farthest one that was found is dropped. -/
theorem Search.Ok.dropFarthest (h : s.Ok points query P) (hne : s.found ≠ []) :
    Search.Ok points query P { s with found := ops.farthest.dequeue s.found } ∧
      (ops.farthest.dequeue s.found).length + 1 = s.found.length := by
  obtain ⟨top, rest, hs⟩ := List.exists_cons_of_ne_nil hne
  obtain ⟨hperm, hheap⟩ := ops.farthest.dequeue_spec (hs ▸ h.found_heap)
  rw [← hs] at hperm hheap
  have hmem : ∀ r ∈ ops.farthest.dequeue s.found, r ∈ s.found := by
    intro r hr
    rw [hs]
    exact List.mem_cons_of_mem _ (hperm.mem_iff.mp hr)
  have hnodup : (rest.map NeighborResult.index).Nodup := by
    have := h.found_nodup
    rw [hs, List.map_cons] at this
    exact this.of_cons
  refine ⟨{ h with
    found_heap := hheap
    found_visited := fun r hr => h.found_visited r (hmem r hr)
    found_nodup := (hperm.map _).nodup_iff.mpr hnodup
    found_distSq := fun r hr => h.found_distSq r (hmem r hr) }, ?_⟩
  rw [hperm.length_eq, hs, List.length_cons]

/-- The closest candidate is taken out. -/
theorem Search.Ok.takeClosest {c : NeighborResult K m} {cs : List (NeighborResult K m)}
    (h : s.Ok points query P) (hs : s.candidates = c :: cs) :
    Search.Ok points query P { s with candidates := ops.closest.dequeue s.candidates } ∧
      (ops.closest.dequeue s.candidates).length + 1 = s.candidates.length := by
  obtain ⟨hperm, hheap⟩ := ops.closest.dequeue_spec (hs ▸ h.candidates_heap)
  rw [← hs] at hperm hheap
  refine ⟨{ h with
    candidates_heap := hheap
    candidates_visited := fun r hr => h.candidates_visited r ?_ }, ?_⟩
  · rw [hs]
    exact List.mem_cons_of_mem _ (hperm.mem_iff.mp hr)
  · rw [hperm.length_eq, hs, List.length_cons]

/-! ## The loops -/

theorem start_ok (h : s.Ok points query P) (hv : P v) (hnew : v ∉ s.visited) :
    (start ops points query s v).Ok points query P ∧ s.Leads (start ops points query s v) ∧
      (start ops points query s v).found ≠ [] ∧
      ∀ u, u ∈ (start ops points query s v).visited ↔ u = v ∨ u ∈ s.visited := by
  have hc := ops.closest.enqueue_perm s.candidates (candidate points query v)
  have hf := ops.farthest.enqueue_perm s.found (candidate points query v)
  rw [start, List.insert_of_not_mem hnew]
  refine ⟨h.add ops hv hnew, ⟨?_, ?_⟩, ?_, fun u => List.mem_cons⟩
  · simp [hf.length_eq]
  · simp only [hc.length_eq, List.length_cons]
    omega
  · exact List.ne_nil_of_length_pos (hf.length_eq ▸ Nat.succ_pos _)

theorem starts_ok {eps : List (Fin m)} (h : s.Ok points query P) (hP : ∀ v ∈ eps, P v)
    (hnodup : eps.Nodup) (hnew : ∀ v ∈ eps, v ∉ s.visited) :
    (eps.foldl (start ops points query) s).Ok points query P ∧
      s.Leads (eps.foldl (start ops points query) s) ∧
      (eps ≠ [] → (eps.foldl (start ops points query) s).found ≠ []) := by
  induction eps generalizing s with
  | nil => exact ⟨h, .refl s, fun hne => absurd rfl hne⟩
  | cons v eps ih =>
      obtain ⟨hv, hP⟩ := List.forall_mem_cons.mp hP
      obtain ⟨hv', hnew⟩ := List.forall_mem_cons.mp hnew
      obtain ⟨hnotin, hnodup⟩ := List.nodup_cons.mp hnodup
      obtain ⟨hok, hleads, hfound, hvisited⟩ := start_ok ops h hv hv'
      have hnew : ∀ u ∈ eps, u ∉ (start ops points query s v).visited := by
        intro u hu hmem
        rcases (hvisited u).mp hmem with rfl | hmem
        · exact hnotin hu
        · exact hnew u hu hmem
      obtain ⟨hok', hleads', -⟩ := ih hok hP hnodup hnew
      refine ⟨hok', hleads.trans hleads', fun _ hnil => ?_⟩
      have hle := hleads'.found
      rw [List.foldl_cons] at hnil
      rw [hnil, List.length_nil, Nat.le_zero, List.length_eq_zero_iff] at hle
      exact hfound hle

variable (ef : Nat)

theorem visit_ok (h : s.Ok points query P) (hv : P v) :
    (visit ops points query ef s v).Ok points query P ∧
      s.Leads (visit ops points query ef s v) := by
  unfold visit
  split
  · exact ⟨h, .refl s⟩
  rename_i hnew
  simp only
  split
  · have hc := (ops.closest.enqueue_perm s.candidates (candidate points query v)).length_eq
    have hf := (ops.farthest.enqueue_perm s.found (candidate points query v)).length_eq
    have hadd := h.add ops hv hnew
    rw [List.length_cons] at hc hf
    split
    · have hne : ops.farthest.enqueue s.found (candidate points query v) ≠ [] :=
        List.ne_nil_of_length_pos (hf ▸ Nat.succ_pos _)
      obtain ⟨hok, hlen⟩ := hadd.dropFarthest ops hne
      refine ⟨hok, ⟨?_, ?_⟩⟩ <;> simp only [List.length_cons] at hlen ⊢ <;> omega
    · refine ⟨hadd, ⟨?_, ?_⟩⟩ <;> simp only [List.length_cons] <;> omega
  · exact ⟨h.mark hv hnew, ⟨le_refl _, by simp only [List.length_cons]; omega⟩⟩

theorem visits_ok {L : List (Fin m)} (h : s.Ok points query P) (hL : ∀ v ∈ L, P v) :
    (L.foldl (visit ops points query ef) s).Ok points query P ∧
      s.Leads (L.foldl (visit ops points query ef) s) := by
  induction L generalizing s with
  | nil => exact ⟨h, .refl s⟩
  | cons v L ih =>
      obtain ⟨hv, hL⟩ := List.forall_mem_cons.mp hL
      obtain ⟨hok, hleads⟩ := visit_ok ops ef h hv
      obtain ⟨hok', hleads'⟩ := ih hok hL
      exact ⟨hok', hleads.trans hleads'⟩

/-- The loop ends with what it was given at least, if the fuel covers the candidates and the
points that have not been visited. -/
theorem searchLoop_ok {nodes : Nodes m} {lc fuel : Nat} (hclosed : Closed nodes lc P)
    (h : s.Ok points query P) (hfuel : s.candidates.length + (m - s.visited.length) < fuel) :
    ∃ s', searchLoop ops points query ef nodes lc fuel s = some s' ∧ s'.Ok points query P ∧
      s.found.length ≤ s'.found.length := by
  induction fuel generalizing s with
  | zero => exact absurd hfuel (Nat.not_lt_zero _)
  | succ fuel ih =>
      rw [searchLoop]
      split
      · exact ⟨s, rfl, h, le_refl _⟩
      rename_i c cs hs
      obtain ⟨hok, hlen⟩ := h.takeClosest ops hs
      simp only
      split
      · exact ⟨_, rfl, hok, le_refl _⟩
      -- the candidate was visited, so its neighbours are there
      have hc : c.index ∈ s.visited := h.candidates_visited c (hs ▸ List.mem_cons_self)
      obtain ⟨L, hlayer, hL⟩ := hclosed c.index (h.all _ hc)
      obtain ⟨hok', hleads⟩ := visits_ok ops ef hok hL
      have hvisited := hok'.visited_length
      have hsum := hleads.candidates
      simp only at hsum
      obtain ⟨s', hrun, hok'', hfound⟩ := ih hok' (by omega)
      refine ⟨s', ?_, hok'', hleads.found.trans hfound⟩
      rw [hlayer, Option.bind_eq_bind, Option.bind_some, hrun]

/-- **A search of a closed layer finds something, and only points that satisfy `P`.** -/
theorem searchLayer_finds (points : Features K n m) (query : Point K n) (ef : Nat)
    {nodes : Nodes m} {lc : Nat} {eps : List (Fin m)}
    (hclosed : Closed nodes lc P) (hne : eps ≠ []) (hnodup : eps.Nodup) (hP : ∀ v ∈ eps, P v) :
    ∃ rs, searchLayer ops points query ef nodes eps lc = some rs ∧ Finds points query P rs := by
  have hempty : Search.Ok points query P ⟨[], [], []⟩ := .empty
  obtain ⟨hok, hleads, hfound⟩ :=
    starts_ok ops hempty hP hnodup (by simp)
  have hvisited := hok.visited_length
  have hsum := hleads.candidates
  simp only [List.length_nil, Nat.add_zero, Nat.zero_add] at hsum
  obtain ⟨s', hrun, hok', hle⟩ :=
    searchLoop_ok ops ef hclosed hok (show _ < m + 1 by omega)
  have hperm : (ops.sort.run (ops.farthest.drain s'.found.length s'.found)).Perm s'.found :=
    (ops.sort.perm _).trans (ops.farthest.drain_perm hok'.found_heap (le_refl _))
  refine ⟨_, by rw [searchLayer, hrun, Option.bind_eq_bind, Option.bind_some], ?_⟩
  refine
    { ne_nil := fun hnil => ?ne_nil
      nodup := (hperm.map _).nodup_iff.mpr hok'.found_nodup
      all := fun r hr => hok'.all _ (hok'.found_visited r (hperm.mem_iff.mp hr))
      distSq := fun r hr => hok'.found_distSq r (hperm.mem_iff.mp hr)
      sorted := ops.sort.sorted _ }
  case ne_nil =>
    have hlen := hperm.length_eq
    rw [hnil, List.length_nil] at hlen
    have hpos := List.length_pos_of_ne_nil (hfound hne)
    omega

end CrossMachine.Rag
