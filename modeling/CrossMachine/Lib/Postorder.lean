import CrossMachine.Lib.ReverseMode

/-!
# Depth first, operands first

A depth-first visit of a directed acyclic graph that puts a node into the order once all of its
operands are in it. Backwards, the order has every node before its operands, and it holds exactly
what the visited nodes reach (`postorder_from`).

A node that is visited and not yet in the order is being worked on, so its number is larger than
that of the node at hand: the visit never meets it again before it is done.
-/

namespace CrossMachine.Lib.Dag

/-- The visit of node `n`, on what has been visited and the order so far. The recursion goes no
deeper than the fuel; it is `none` if that does not suffice. -/
def postorder (slots : Nat → List Nat) : Nat → Nat → List Nat × List Nat →
    Option (List Nat × List Nat)
  | 0, _, _ => none
  | fuel + 1, n, (visited, order) =>
      if n ∈ visited then some (visited, order)
      else do
        let (visited, order) ←
          (slots n).foldlM (fun s p => postorder slots fuel p s) (n :: visited, order)
        some (visited, order ++ [n])

variable {ι F : Type*} {d : Dag ι F} {s s' s'' : List Nat × List Nat} {u v n : Nat}

/-- There is a path from `u` down to `v`. -/
def Reaches (d : Dag ι F) (u v : Nat) : Prop := ∃ q, d.IsPath u v q

theorem Reaches.refl (d : Dag ι F) (u : Nat) : d.Reaches u u := ⟨[], .nil⟩

theorem Reaches.slot {p : Nat} (hp : p ∈ d.slots u) (h : d.Reaches p v) : d.Reaches u v := by
  obtain ⟨i, hi⟩ := List.mem_iff_getElem?.mp hp
  obtain ⟨q, hq⟩ := h
  exact ⟨_, .cons hi hq⟩

theorem Reaches.le (h : d.Reaches u v) : v ≤ u := by
  obtain ⟨q, hq⟩ := h
  induction hq with
  | nil => exact le_rfl
  | cons hs _ ih => exact ih.trans (d.lt _ _ (List.mem_of_getElem? hs)).le

/-- What the nodes of an order reach is in the order. -/
theorem Topological.closed {L : List Nat} (h : d.Topological L) (hu : u ∈ L)
    (hr : d.Reaches u v) : v ∈ L := by
  have hslot : ∀ {L : List Nat}, d.Topological L → ∀ u ∈ L, ∀ p ∈ d.slots u, p ∈ L := by
    intro L h
    induction h with
    | nil => exact fun u hu => absurd hu List.not_mem_nil
    | cons _ hslots _ ih =>
        intro u hu p hp
        rcases List.mem_cons.mp hu with rfl | hu
        · exact List.mem_cons_of_mem _ (hslots p hp)
        · exact List.mem_cons_of_mem _ (ih u hu p hp)
  obtain ⟨q, hq⟩ := hr
  induction hq with
  | nil => exact hu
  | cons hs _ ih => exact ih (hslot h _ hu _ (List.mem_of_getElem? hs))

/-! ## What a visit does -/

/-- What holds between visits: an order, backwards, of visited nodes. -/
structure Ordered (d : Dag ι F) (s : List Nat × List Nat) : Prop where
  sub : ∀ x ∈ s.2, x ∈ s.1
  topo : d.Topological s.2.reverse

/-- What visits do that get to the nodes of `R`. The nodes that they leave visited and not in the
order were so before. -/
structure Sorts (R : Nat → Prop) (s s' : List Nat × List Nat) : Prop where
  visits : ∀ x ∈ s.1, x ∈ s'.1
  keeps : ∀ x ∈ s.2, x ∈ s'.2
  adds : ∀ x ∈ s'.2, x ∈ s.2 ∨ x ∉ s.1 ∧ R x
  opens : ∀ x ∈ s'.1, x ∉ s'.2 → x ∈ s.1 ∧ x ∉ s.2

theorem Sorts.refl (R : Nat → Prop) (s : List Nat × List Nat) : Sorts R s s :=
  ⟨fun _ hx => hx, fun _ hx => hx, fun _ hx => .inl hx, fun _ hx hout => ⟨hx, hout⟩⟩

theorem Sorts.mono {R R' : Nat → Prop} (h : Sorts R s s') (hR : ∀ x, R x → R' x) :
    Sorts R' s s' where
  visits := h.visits
  keeps := h.keeps
  adds x hx := (h.adds x hx).imp_right fun hnew => ⟨hnew.1, hR x hnew.2⟩
  opens := h.opens

theorem Sorts.trans {R : Nat → Prop} (h : Sorts R s s') (h' : Sorts R s' s'') :
    Sorts R s s'' where
  visits x hx := h'.visits x (h.visits x hx)
  keeps x hx := h'.keeps x (h.keeps x hx)
  adds x hx := by
    rcases h'.adds x hx with hold | ⟨hnew, hin⟩
    · exact h.adds x hold
    · exact .inr ⟨fun hx => hnew (h.visits x hx), hin⟩
  opens x hx hout := by
    obtain ⟨hx', hout'⟩ := h'.opens x hx hout
    exact h.opens x hx' hout'

/-- The loop over the operands, from what the visits do. -/
theorem foldlM_postorder {fuel : Nat}
    (hcall : ∀ p < n, ∀ s, d.Ordered s → (∀ x ∈ s.1, x ∉ s.2 → p < x) →
      ∃ s', postorder d.slots fuel p s = some s' ∧ d.Ordered s' ∧ p ∈ s'.2 ∧
        Sorts (d.Reaches p) s s')
    (ps : List Nat) (hps : ∀ p ∈ ps, p < n) (s : List Nat × List Nat) (hs : d.Ordered s)
    (hopen : ∀ x ∈ s.1, x ∉ s.2 → n ≤ x) :
    ∃ s', ps.foldlM (fun s p => postorder d.slots fuel p s) s = some s' ∧ d.Ordered s' ∧
      (∀ p ∈ ps, p ∈ s'.2) ∧ Sorts (fun x => ∃ p ∈ ps, d.Reaches p x) s s' := by
  induction ps generalizing s with
  | nil => exact ⟨s, rfl, hs, fun p hp => absurd hp List.not_mem_nil, .refl _ s⟩
  | cons p ps ih =>
      have hp : p < n := hps p List.mem_cons_self
      obtain ⟨s₁, hs₁, hok₁, hmem, hsorts₁⟩ := hcall p hp s hs fun x hx hout =>
        Nat.lt_of_lt_of_le hp (hopen x hx hout)
      have hopen₁ : ∀ x ∈ s₁.1, x ∉ s₁.2 → n ≤ x := fun x hx hout =>
        hopen x (hsorts₁.opens x hx hout).1 (hsorts₁.opens x hx hout).2
      obtain ⟨s₂, hs₂, hok₂, hmems, hsorts₂⟩ :=
        ih (fun q hq => hps q (List.mem_cons_of_mem _ hq)) s₁ hok₁ hopen₁
      refine ⟨s₂, ?_, hok₂, fun q hq => ?_, ?_⟩
      · simp only [List.foldlM_cons, hs₁, Option.bind_eq_bind, Option.bind_some]
        exact hs₂
      · rcases List.mem_cons.mp hq with rfl | hq
        · exact hsorts₂.keeps q hmem
        · exact hmems q hq
      · exact (hsorts₁.mono fun x hx => ⟨p, List.mem_cons_self, hx⟩).trans
          (hsorts₂.mono fun x ⟨q, hq, hx⟩ => ⟨q, List.mem_cons_of_mem _ hq, hx⟩)

/-- **The visit sorts**, whatever is shared. The nodes that are visited and not yet in the
order are those being worked on, all of them consumers of `n`. -/
theorem postorder_spec (d : Dag ι F) (fuel n : Nat) (hfuel : n < fuel)
    (s : List Nat × List Nat) (hs : d.Ordered s) (hopen : ∀ x ∈ s.1, x ∉ s.2 → n < x) :
    ∃ s', postorder d.slots fuel n s = some s' ∧ d.Ordered s' ∧ n ∈ s'.2 ∧
      Sorts (d.Reaches n) s s' := by
  induction fuel generalizing n s with
  | zero => omega
  | succ fuel ih =>
      obtain ⟨visited, order⟩ := s
      rw [postorder]
      by_cases hn : n ∈ visited
      · rw [if_pos hn]
        refine ⟨_, rfl, hs, ?_, .refl _ _⟩
        by_contra hout
        exact absurd (hopen n hn hout) (Nat.lt_irrefl n)
      have hnorder : n ∉ order := fun hx => hn (hs.sub n hx)
      -- `n` is open while its operands are visited
      have hstart : d.Ordered (n :: visited, order) :=
        ⟨fun x hx => List.mem_cons_of_mem _ (hs.sub x hx), hs.topo⟩
      have hopen' : ∀ x ∈ n :: visited, x ∉ order → n ≤ x := by
        intro x hx hout
        rcases List.mem_cons.mp hx with rfl | hx
        · exact Nat.le_refl x
        · exact Nat.le_of_lt (hopen x hx hout)
      obtain ⟨s', hs', hok, hparents, hsorts⟩ := foldlM_postorder
        (fun p hp s hs ho => ih p (by omega) s hs ho) (d.slots n)
        (fun p hp => d.lt n p hp) (n :: visited, order) hstart hopen'
      obtain ⟨visited', order'⟩ := s'
      have hfresh : n ∉ order' := by
        intro hx
        rcases hsorts.adds n hx with hold | ⟨hnew, -⟩
        · exact hnorder hold
        · exact hnew List.mem_cons_self
      have hnvisited : n ∈ visited' := hsorts.visits n List.mem_cons_self
      rw [if_neg hn, hs']
      refine ⟨(visited', order' ++ [n]), rfl, ⟨fun x hx => ?_, ?_⟩, by simp, ?_⟩
      · rcases List.mem_append.mp hx with hx | hx
        · exact hok.sub x hx
        · exact List.mem_singleton.mp hx ▸ hnvisited
      · rw [List.reverse_concat]
        refine .cons (fun hx => hfresh (List.mem_reverse.mp hx)) (fun p hp => ?_) hok.topo
        exact List.mem_reverse.mpr (hparents p hp)
      · refine
          { visits := fun x hx => hsorts.visits x (List.mem_cons_of_mem _ hx)
            keeps := fun x hx => List.mem_append_left _ (hsorts.keeps x hx)
            adds := fun x hx => ?adds
            opens := fun x hx hout => ?opens }
        case adds =>
          rcases List.mem_append.mp hx with hx | hx
          · rcases hsorts.adds x hx with hold | ⟨hnew, p, hp, hreach⟩
            · exact .inl hold
            · exact .inr ⟨fun hx => hnew (List.mem_cons_of_mem _ hx), hreach.slot hp⟩
          · rw [List.mem_singleton.mp hx]
            exact .inr ⟨hn, .refl d n⟩
        case opens =>
          rw [List.mem_append, not_or, List.mem_singleton] at hout
          obtain ⟨hx', hout'⟩ := hsorts.opens x hx hout.1
          exact ⟨(List.mem_cons.mp hx').resolve_left hout.2, hout'⟩

/-- A visit from nothing: the order, backwards, of what the node reaches. -/
theorem postorder_from (d : Dag ι F) (n : Nat) :
    ∃ visited order, postorder d.slots (n + 1) n ([], []) = some (visited, order) ∧
      d.Topological order.reverse ∧ ∀ x, x ∈ order.reverse ↔ d.Reaches n x := by
  obtain ⟨⟨visited, order⟩, horder, hok, hmem, hsorts⟩ :=
    d.postorder_spec (n + 1) n (Nat.lt_succ_self n) ([], []) ⟨fun _ hx => hx, .nil⟩
      fun x hx => absurd hx List.not_mem_nil
  refine ⟨visited, order, horder, hok.topo, fun x => ⟨fun hx => ?_, fun hx => ?_⟩⟩
  · rcases hsorts.adds x (List.mem_reverse.mp hx) with hold | ⟨-, hreach⟩
    · exact absurd hold List.not_mem_nil
    · exact hreach
  · exact hok.topo.closed (List.mem_reverse.mpr hmem) hx

end CrossMachine.Lib.Dag
