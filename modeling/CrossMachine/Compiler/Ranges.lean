import CrossMachine.Compiler.Plan
import CrossMachine.Compiler.Trace
import CrossMachine.Lib.Instances

/-!
# Live ranges after rematerialisation

A clone is a value of its own, and it reads what the operation it copies has read, at a later
point. So rematerialisation can keep a value for longer than before, and it can make two
copies of one value that are there together. It does neither when the range of ticks in which
a value of the final block is live stays inside the range of the value it comes from, and when
no copy is made while another one is still read. Both can be read off the function before the
pass (`RangesKept`), for the values that have bytes; what counts as bytes is left open.
-/

namespace CrossMachine.Compiler

open Lib

variable {κ : Type} (below : Nat → Bool) (userSorter : (time : Nat → Nat) → Sorter time)

/-- A tensor of sixteen bytes. -/
def sixteen : Ty := .tensor [some 4] (.float 32)

/-- The end of the interval of result `k` of an operation. -/
def lastUseOf (body : List (Op κ)) (op k : Nat) : Nat :=
  lastUse body (.res op k) (timeOf body op)

/-- Result `k` of the operation has bytes. -/
def HasBytes (size : Ty → Nat) (o : Op κ) (k : Nat) : Prop :=
  ∃ ty, o.results[k]? = some ty ∧ 0 < size ty

/-- Rematerialisation keeps the live ranges of the block. -/
structure RangesKept (size : Ty → Nat) (body : List (Op κ)) : Prop where
  /-- Where an operation is rematerialised, the clones read nothing past its end. -/
  operands : ∀ z ∈ body, Rematted below body z.id → ∀ x ∈ body, ∀ k, HasBytes size x k →
    .res x.id k ∈ z.operands → lastUseOf body z.id 0 ≤ lastUseOf body x.id k
  /-- and where such an operand is itself rematerialised, no clone of it falls into the time
  in which the clones read it. -/
  siblings : ∀ z ∈ body, Rematted below body z.id → ∀ x ∈ body, Rematted below body x.id →
    HasBytes size x 0 → .res x.id 0 ∈ z.operands → ∀ u ∈ users body (.res x.id 0),
      timeOf body u ≤ timeOf body z.id ∨ lastUseOf body z.id 0 < timeOf body u
  /-- No far user reads the result twice. -/
  once : ∀ z ∈ body, Rematted below body z.id → HasBytes size z 0 →
    (farUsers userSorter body z.id).Nodup

section Ranges

variable {below userSorter} {size : Ty → Nat} {nargs k t : Nat} {orig body : List (Op κ)}
  {done : List (Nat × Nat)} {g : Nat → Mark} {q r x y : Op κ}

theorem timeOf_le_lastUseOf {op u : Nat} (hu : u ∈ users body (.res op k)) :
    timeOf body u ≤ lastUseOf body op k :=
  le_lastUse.mpr (Or.inr ⟨u, hu, le_rfl⟩)

theorem timeOf_le_lastUseOf_self {op : Nat} :
    timeOf body op ≤ lastUseOf body op k :=
  le_lastUse.mpr (Or.inl le_rfl)

/-- The time between the definition and the planned end is time the value is live. -/
theorem liveAt_of_le (hnodup : (ids orig).Nodup) (hx : x ∈ orig) (hle : timeOf orig x.id ≤ t)
    (hlast : t ≤ lastUseOf orig x.id k) : LiveAt orig x k t := by
  refine ⟨_, getElem_timeOf hnodup hx, hle, ?_⟩
  rcases le_lastUse.mp hlast with hdef | ⟨u, hu, htu⟩
  · exact Or.inl (le_antisymm hdef hle)
  · obtain ⟨p, hp, rfl, hv⟩ := mem_users.mp hu
    exact Or.inr ⟨_, htu, p, getElem_timeOf hnodup hp, hv⟩

theorem Traced.tick_mono (h : Traced nargs orig done g body) {i j : Nat} (hij : i ≤ j)
    (hq : body[i]? = some q) (hr : body[j]? = some r) :
    tick (timeOf orig) (g q.id) ≤ tick (timeOf orig) (g r.id) := by
  rcases eq_or_lt_of_le hij with rfl | hlt
  · rw [Option.some.inj (hq.symm.trans hr)]
  · obtain ⟨hi, rfl⟩ := List.getElem?_eq_some_iff.mp hq
    obtain ⟨hj, rfl⟩ := List.getElem?_eq_some_iff.mp hr
    exact List.pairwise_iff_getElem.mp h.ticks i j hi hj hlt

/-- What an operation of the final block reads, its origin read from the origin of that. -/
theorem Traced.reads (h : Traced nargs orig done g body) (hr : r ∈ body) {i : Nat}
    (hv : .res i k ∈ r.operands) :
    ∃ y ∈ orig, y.id = (g r.id).1 ∧ .res (g i).1 k ∈ y.operands ∧
      if ((g i).1, y.id) ∈ done then (g i).2 = some y.id else i = (g i).1 := by
  obtain ⟨y, hy, horg, -, -, hpieces⟩ := h.ops r hr
  obtain ⟨w, hw, hpiece⟩ := exists_of_forall₂ hpieces hv
  cases w with
  | arg j => exact absurd hpiece (by simp [Piece])
  | res x k' =>
      obtain ⟨j, heq, hx, hsite⟩ := hpiece
      obtain ⟨rfl, rfl⟩ := Val.res.inj heq
      subst hx
      exact ⟨y, hy, horg, hw, hsite⟩

theorem HasBytes.lt {size : Ty → Nat} (h : HasBytes size x k) : k < x.results.length := by
  obtain ⟨ty, hty, -⟩ := h
  exact (List.getElem?_eq_some_iff.mp hty).1

theorem Rematted.cheap (hnodup : (ids orig).Nodup) (h : Rematted below orig x.id)
    (hx : x ∈ orig) : isCheapToRecompute x.kind = true := by
  obtain ⟨o, ho, hid, hcheap⟩ := exists_of_mem_candidates h.1
  rwa [eq_of_id hnodup ho hx hid] at hcheap

/-- The one result of an operation that is rematerialised. -/
theorem Rematted.result_eq (hssa : Ssa nargs orig) (hsingle : CheapSingle orig)
    (h : Rematted below orig x.id) (hx : x ∈ orig) (hbytes : HasBytes size x k) : k = 0 := by
  have := hbytes.lt
  rw [hsingle x hx (h.cheap hssa.nodup hx)] at this
  omega

theorem mem_users_of_far {u z : Nat} (h : u ∈ farUsers userSorter orig z) :
    u ∈ users orig (.res z 0) :=
  (userSorter (timeOf orig)).mem_run.mp (List.mem_of_mem_tail h)

/-- The final block with all its insertions traced. -/
abbrev FullyTraced (below : Nat → Bool) (userSorter : (time : Nat → Nat) → Sorter time)
    (nargs : Nat) (orig : List (Op κ)) (g : Nat → Mark) (body : List (Op κ)) : Prop :=
  Traced nargs orig (insertions below userSorter orig (candidates orig)) g body

/-- Every reader of a value ticks before the end of its range. -/
theorem Traced.tick_reader (h : FullyTraced below userSorter nargs orig g body)
    (hkept : RangesKept below userSorter size orig) (hx : x ∈ orig) (hbytes : HasBytes size x k)
    {i : Nat} (hi : (g i).1 = x.id) (hr : r ∈ body) (hv : .res i k ∈ r.operands) :
    tick (timeOf orig) (g r.id) ≤ 2 * lastUseOf orig x.id k + 1 := by
  obtain ⟨y, hy, horg, hread, -⟩ := h.reads hr hv
  rw [hi] at hread
  cases hsite : (g r.id).2 with
  | none =>
      have := timeOf_le_lastUseOf (mem_users.mpr ⟨y, hy, rfl, hread⟩)
      simp only [tick, hsite, ← horg]
      omega
  | some w =>
      have hmade := h.made r hr w hsite
      rw [← horg] at hmade
      obtain ⟨-, hremat, hfar⟩ := (mem_insertions ..).mp hmade
      have hw := timeOf_le_lastUseOf (mem_users_of_far hfar)
      have hend := hkept.operands y hy hremat x hx k hbytes hread
      simp only [tick, hsite]
      omega

/-- A value of the final block ticks inside its range. -/
theorem Traced.tick_self (h : FullyTraced below userSorter nargs orig g body)
    (hssa : Ssa nargs orig) (hsingle : CheapSingle orig) (hx : x ∈ orig)
    (hbytes : HasBytes size x k)
    (hq : q ∈ body) (hi : (g q.id).1 = x.id) :
    2 * timeOf orig x.id + 1 ≤ tick (timeOf orig) (g q.id) ∧
      tick (timeOf orig) (g q.id) ≤ 2 * lastUseOf orig x.id k + 1 := by
  cases hsite : (g q.id).2 with
  | none =>
      have : timeOf orig x.id ≤ lastUseOf orig x.id k := timeOf_le_lastUseOf_self
      simp only [tick, hsite, hi]
      omega
  | some w =>
      have hmade := h.made q hq w hsite
      rw [hi] at hmade
      obtain ⟨-, hremat, hfar⟩ := (mem_insertions ..).mp hmade
      have hw := mem_users_of_far hfar
      obtain ⟨p, hp, rfl, hread⟩ := mem_users.mp hw
      have hlt := hssa.timeOf_lt hp hread
      have hle := timeOf_le_lastUseOf hw
      obtain rfl := hremat.result_eq hssa hsingle hx hbytes
      simp only [tick, hsite]
      omega

/-- While a value of the final block is live the clock is inside its range. -/
theorem Traced.tick_live (h : FullyTraced below userSorter nargs orig g body)
    (hssa : Ssa nargs orig) (hsingle : CheapSingle orig)
    (hkept : RangesKept below userSorter size orig)
    (hx : x ∈ orig) (hbytes : HasBytes size x k) (hi : (g q.id).1 = x.id)
    (hlive : LiveAt body q k t) :
    ∃ r, body[t]? = some r ∧ 2 * timeOf orig x.id + 1 ≤ tick (timeOf orig) (g r.id) ∧
      tick (timeOf orig) (g r.id) ≤ 2 * lastUseOf orig x.id k + 1 := by
  obtain ⟨d, hd, hle, hlast⟩ := hlive
  have hself := h.tick_self hssa hsingle hx hbytes (List.mem_of_getElem? hd) hi
  rcases hlast with rfl | ⟨u, htu, p, hp, hv⟩
  · exact ⟨q, hd, hself⟩
  · have hlt : t < body.length :=
      lt_of_le_of_lt htu (List.getElem?_eq_some_iff.mp hp).1
    have ht := List.getElem?_eq_getElem hlt
    refine ⟨body[t], ht, hself.1.trans (h.tick_mono hle hd ht), (h.tick_mono htu ht hp).trans ?_⟩
    exact h.tick_reader hkept hx hbytes hi (List.mem_of_getElem? hp) hv

/-- The reader of a piece of `x` that ticks before the clone for `u` reads no later than it:
its origin comes before `u`, and so do all clones of its origin. -/
theorem Traced.tick_before_clone (h : FullyTraced below userSorter nargs orig g body)
    (hssa : Ssa nargs orig) (hsingle : CheapSingle orig)
    (hkept : RangesKept below userSorter size orig)
    (hx : x ∈ orig) (hbytes : HasBytes size x k) (hremat : Rematted below orig x.id) {i u : Nat}
    (hfar : u ∈ farUsers userSorter orig x.id) (hi : (g i).1 = x.id)
    (hearlier : tick (timeOf orig) (g i) < 2 * timeOf orig u) (hr : r ∈ body)
    (hv : .res i k ∈ r.operands) : tick (timeOf orig) (g r.id) < 2 * timeOf orig u := by
  obtain ⟨y, hy, horg, hread, hpiece⟩ := h.reads hr hv
  rw [hi] at hread hpiece
  obtain rfl := hremat.result_eq hssa hsingle hx hbytes
  have huser : y.id ∈ users orig (.res x.id 0) := mem_users.mpr ⟨y, hy, rfl, hread⟩
  have hlt : timeOf orig y.id < timeOf orig u := by
    split at hpiece
    case isTrue =>
      simp only [tick, hpiece] at hearlier
      omega
    case isFalse hnot =>
      -- the nearest user, which has kept the operation itself
      refine (userSorter (timeOf orig)).lt_of_notMem_tail ?_ huser (fun hin => hnot ?_) hfar
      · intro a ha b hb htime
        obtain ⟨p, hp, rfl, -⟩ := mem_users.mp ha
        obtain ⟨p', hp', rfl, -⟩ := mem_users.mp hb
        rw [timeOf_inj hssa.nodup hp hp' htime]
      · exact (mem_insertions ..).mpr ⟨hremat.1, hremat, hin⟩
  cases hsite : (g r.id).2 with
  | none => simp only [tick, hsite, ← horg]; omega
  | some w =>
      have hmade := h.made r hr w hsite
      rw [← horg] at hmade
      obtain ⟨-, hyremat, hwfar⟩ := (mem_insertions ..).mp hmade
      have hw := timeOf_le_lastUseOf (mem_users_of_far hwfar)
      have := hkept.siblings y hy hyremat x hx hremat hbytes hread u (mem_users_of_far hfar)
      simp only [tick, hsite]
      omega

/-- Two pieces of one value are not live at one time. -/
theorem Traced.pieces_apart (h : FullyTraced below userSorter nargs orig g body)
    (hssa : Ssa nargs orig) (hsingle : CheapSingle orig)
    (hkept : RangesKept below userSorter size orig)
    (hx : x ∈ orig) (hbytes : HasBytes size x k) {q' : Op κ} (hi : (g q.id).1 = x.id)
    (hi' : (g q'.id).1 = x.id)
    (htick : tick (timeOf orig) (g q.id) < tick (timeOf orig) (g q'.id))
    (hlive : LiveAt body q k t) (hlive' : LiveAt body q' k t) : False := by
  obtain ⟨d, hd, hdt, hlast⟩ := hlive
  obtain ⟨d', hd', hdt', -⟩ := hlive'
  have hq' := List.mem_of_getElem? hd'
  have hdd' : d < d' := by
    by_contra hge
    exact absurd (h.tick_mono (not_lt.mp hge) hd' hd) (by omega)
  -- the later piece is a clone
  have hself := (h.tick_self hssa hsingle hx hbytes (List.mem_of_getElem? hd) hi).1
  cases hsite : (g q'.id).2 with
  | none =>
      simp only [tick, hsite, hi'] at htick
      exact absurd htick (by simp only [tick] at hself; omega)
  | some u =>
      have hmade := h.made q' hq' u hsite
      rw [hi'] at hmade
      obtain ⟨-, hremat, hfar⟩ := (mem_insertions ..).mp hmade
      have hclone : tick (timeOf orig) (g q'.id) = 2 * timeOf orig u := by simp only [tick, hsite]
      rw [hclone] at htick
      rcases hlast with rfl | ⟨v, htv, r, hr, hread⟩
      · omega
      · have hbefore := h.tick_before_clone hssa hsingle hkept hx hbytes hremat hfar hi htick
          (List.mem_of_getElem? hr) hread
        have hafter := h.tick_mono (hdt'.trans htv) hd' hr
        omega

theorem count_insertions {ops : List Nat} {z u : Nat} (hnodup : ops.Nodup)
    (hfar : (farUsers userSorter orig z).Nodup) :
    (insertions below userSorter orig ops).count (z, u) ≤ 1 := by
  induction ops with
  | nil => simp [insertions]
  | cons y ops ih =>
      obtain ⟨hy, hrest⟩ := List.nodup_cons.mp hnodup
      rw [insertions, List.flatMap_cons, List.count_append, ← insertions]
      by_cases hyz : y = z
      · subst hyz
        have hzero : (insertions below userSorter orig ops).count (y, u) = 0 :=
          List.count_eq_zero.mpr fun hin => hy ((mem_insertions ..).mp hin).1
        have hone : (if Rematted below orig y then
            (farUsers userSorter orig y).map fun u => (y, u) else []).count (y, u) ≤ 1 := by
          split
          · exact List.nodup_iff_count_le_one.mp
              (hfar.map fun a b hab => (Prod.mk.inj hab).2) _
          · simp
        omega
      · have hzero : (if Rematted below orig y then
            (farUsers userSorter orig y).map fun u => (y, u) else []).count (z, u) = 0 := by
          refine List.count_eq_zero.mpr fun hin => ?_
          split at hin
          · obtain ⟨_, -, heq⟩ := List.mem_map.mp hin
            exact hyz (Prod.mk.inj heq).1
          · exact absurd hin (by simp)
        have := ih hrest
        omega

/-- Two pieces of one value never tick together. -/
theorem Traced.tick_ne (h : FullyTraced below userSorter nargs orig g body)
    (hssa : Ssa nargs orig) (hsingle : CheapSingle orig)
    (hkept : RangesKept below userSorter size orig)
    (hx : x ∈ orig) (hbytes : HasBytes size x k) {q' : Op κ} (hq : q ∈ body) (hq' : q' ∈ body)
    (hne : q.id ≠ q'.id) (hi : (g q.id).1 = x.id) (hi' : (g q'.id).1 = x.id) :
    tick (timeOf orig) (g q.id) ≠ tick (timeOf orig) (g q'.id) := by
  intro heq
  cases hsite : (g q.id).2 with
  | none =>
      cases hsite' : (g q'.id).2 with
      | none => exact hne (by rw [← h.kept q hq hsite, ← h.kept q' hq' hsite', hi, hi'])
      | some u' => simp only [tick, hsite, hsite'] at heq; omega
  | some u =>
      cases hsite' : (g q'.id).2 with
      | none => simp only [tick, hsite, hsite'] at heq; omega
      | some u' =>
          have hmade := h.made q hq u hsite
          have hmade' := h.made q' hq' u' hsite'
          rw [hi] at hmade
          rw [hi'] at hmade'
          obtain ⟨-, hremat, hfar⟩ := (mem_insertions ..).mp hmade
          obtain ⟨-, -, hfar'⟩ := (mem_insertions ..).mp hmade'
          obtain ⟨p, hp, rfl, -⟩ := mem_users.mp (mem_users_of_far hfar)
          obtain ⟨p', hp', rfl, -⟩ := mem_users.mp (mem_users_of_far hfar')
          simp only [tick, hsite, hsite'] at heq
          obtain rfl : p = p' := timeOf_inj hssa.nodup hp hp' (by omega)
          -- two clones for one user, although no user reads the value twice
          have htwice := h.once q hq q' hq' hne x.id p.id (Prod.ext hi hsite)
            (Prod.ext hi' hsite')
          have hcand : (candidates orig).Nodup :=
            hssa.nodup.sublist (List.filter_sublist.map _)
          obtain rfl := hremat.result_eq hssa hsingle hx hbytes
          have hcount : (insertions below userSorter orig (candidates orig)).count
              (x.id, p.id) ≤ 1 := count_insertions hcand (hkept.once x hx hremat hbytes)
          omega

end Ranges

end CrossMachine.Compiler
