import CrossMachine.Compiler.MemPlanning
import Mathlib.Data.Int.ModEq
import Mathlib.Algebra.BigOperators.Ring.Finset

/-!
# The memory plan of a function

The sweep seen from the function: its intervals come from the operations, the attributes it
sets are the places it gave out, and two results that are live at one time have intervals
that overlap. `byteSize` computes in 64 bits; as long as the total of the function fits, no
size has lost anything to the wrap.
-/

namespace CrossMachine.Compiler

open Lib

variable {κ : Type} (sorter : Sorter Extent.offset)

/-! ## Sizes -/

/-- The bytes of a shape, with no bound on the arithmetic. -/
def trueSize (dims : List Nat) (e : Elem) : Nat := dims.prod * e.bytes

def Ty.trueSize? (ty : Ty) : Option Nat := ty.static?.map fun p => trueSize p.1 p.2

/-- The bytes of all planned results, with no bound on the arithmetic. -/
def totalBytes (body : List (Op κ)) : Nat :=
  (body.flatMap fun o => o.results.filterMap Ty.trueSize?).sum

theorem wrap64_modEq (x : Int) : wrap64 x ≡ x [ZMOD 2 ^ 64] := Int.bmod_emod (m := 2 ^ 64)

theorem wrap64_bounds (x : Int) : -(2 ^ 63) ≤ wrap64 x ∧ wrap64 x < 2 ^ 63 := by
  have hlow := Int.le_bmod (x := x) (m := 2 ^ 64) (by decide)
  have hhigh := Int.bmod_lt (x := x) (m := 2 ^ 64) (by decide)
  rw [wrap64]
  omega

/-- The product of the dimensions, as the loop computes it. -/
theorem foldl_wrap64_modEq (dims : List Nat) (x : Int) :
    dims.foldl (fun (elems : Int) (d : Nat) => wrap64 (elems * d)) x ≡
      x * dims.prod [ZMOD 2 ^ 64] := by
  induction dims generalizing x with
  | nil => simp [Int.ModEq]
  | cons d dims ih =>
      rw [List.foldl_cons, List.prod_cons, Nat.cast_mul, ← mul_assoc]
      exact (ih _).trans ((wrap64_modEq _).mul_right _)

/-- What fits in 64 bits comes out right, whatever wrapped on the way. -/
theorem byteSize_eq {dims : List Nat} {e : Elem} (h : (trueSize dims e : Int) ≤ int64Max) :
    byteSize dims e = trueSize dims e := by
  have hmod : byteSize dims e ≡ trueSize dims e [ZMOD 2 ^ 64] := by
    refine (wrap64_modEq _).trans ?_
    rw [trueSize, Nat.cast_mul]
    exact ((foldl_wrap64_modEq dims 1).trans (by rw [one_mul])).mul_right _
  have hbounds : -(2 ^ 63) ≤ byteSize dims e ∧ byteSize dims e < 2 ^ 63 := wrap64_bounds _
  rw [int64Max] at h
  have hdvd := hmod.dvd
  omega

/-! ## The intervals of a block -/

section Intervals

variable {body : List (Op κ)} {o : Op κ} {k t : Nat} {size : Int} {iv : Interval}

theorem mem_planned : (k, size) ∈ planned o ↔
    ∃ ty, o.results[k]? = some ty ∧ ty.byteSize? = some size := by
  simp only [planned, List.mem_filterMap, Option.map_eq_some_iff, Prod.mk.injEq]
  refine ⟨fun ⟨p, hp, _, hsize, hk, heq⟩ => ?_, fun ⟨ty, hty, hsize⟩ => ?_⟩
  · exact ⟨p.1, hk ▸ List.mem_zipIdx_iff_getElem?.mp hp, heq ▸ hsize⟩
  · exact ⟨(ty, k), List.mem_zipIdx_iff_getElem?.mpr hty, size, hsize, rfl, rfl⟩

theorem mem_intervals : iv ∈ intervals body ↔ ∃ o t k size, body[t]? = some o ∧
    (k, size) ∈ planned o ∧ iv = intervalOf body o t k size := by
  simp only [intervals, List.mem_flatMap, List.mem_map]
  refine ⟨fun ⟨p, hp, r, hr, heq⟩ => ?_, fun ⟨o, t, k, size, ho, hk, heq⟩ => ?_⟩
  · exact ⟨p.1, p.2, r.1, r.2, List.mem_zipIdx_iff_getElem?.mp hp, hr, heq.symm⟩
  · exact ⟨(o, t), List.mem_zipIdx_iff_getElem?.mpr ho, (k, size), hk, heq.symm⟩

theorem mem_sweepOrder (ho : body[t]? = some o) (hk : (k, size) ∈ planned o) :
    intervalOf body o t k size ∈ sweepOrder body :=
  (Sorter.stable Interval.defTime).mem_run.mpr
    (mem_intervals.mpr ⟨o, t, k, size, ho, hk, rfl⟩)

theorem le_foldl_max {xs : List Nat} {d : Nat} :
    t ≤ xs.foldl max d ↔ t ≤ d ∨ ∃ x ∈ xs, t ≤ x := by
  induction xs generalizing d with
  | nil => simp
  | cons x xs ih => simp [ih, or_assoc]

theorem le_lastUse {v : Val} {d : Nat} :
    t ≤ lastUse body v d ↔ t ≤ d ∨ ∃ u ∈ users body v, t ≤ timeOf body u := by
  simp [lastUse, le_foldl_max]

/-- A value is live inside its interval only. -/
theorem LiveAt.bounds (hnodup : (ids body).Nodup) (h : LiveAt body o k t) :
    ∃ d, body[d]? = some o ∧ d ≤ t ∧ t ≤ lastUse body (.res o.id k) d := by
  obtain ⟨d, hd, hle, hlast⟩ := h
  refine ⟨d, hd, hle, le_lastUse.mpr ?_⟩
  rcases hlast with rfl | ⟨u, htu, p, hp, hv⟩
  · exact Or.inl le_rfl
  · refine Or.inr ⟨p.id, mem_users.mpr ⟨p, List.mem_of_getElem? hp, rfl, hv⟩, ?_⟩
    rw [timeOf_getElem hnodup hp]
    exact htu

/-- Every operation has at most one result that is planned. -/
def OnePlanned (body : List (Op κ)) : Prop :=
  ∀ o ∈ body, (o.results.filterMap Ty.static?).length ≤ 1

instance (body : List (Op κ)) : Decidable (OnePlanned body) :=
  inferInstanceAs (Decidable (∀ o ∈ body, _))

theorem planned_sizes : (planned o).map Prod.snd = o.results.filterMap Ty.byteSize? := by
  have hsnd : ∀ p : Ty × Nat, ((p.1.byteSize?.map fun size => (p.2, size)).map Prod.snd) =
      p.1.byteSize? := fun p => by cases p.1.byteSize? <;> rfl
  simp only [planned, List.map_filterMap, hsnd]
  have hfst := List.filterMap_map (f := Prod.fst) (g := Ty.byteSize?) (l := o.results.zipIdx)
  rw [List.zipIdx_map_fst] at hfst
  exact hfst.symm

theorem planned_length : (planned o).length = (o.results.filterMap Ty.static?).length := by
  rw [← List.length_map Prod.snd, planned_sizes]
  induction o.results with
  | nil => rfl
  | cons ty tys ih => cases h : ty.static? <;> simp [Ty.byteSize?, h, ih]

/-- What can be said of an interval without its time can be read off the operations. -/
theorem intervals_map {β : Type*} {g : Interval → β} {h : Op κ → Nat × Int → β}
    (hg : ∀ o t r, g (intervalOf body o t r.1 r.2) = h o r) :
    (intervals body).map g = body.flatMap fun o => (planned o).map (h o) := by
  simp only [intervals, List.map_flatMap, List.map_map, Function.comp_def, hg]
  have hfst := List.flatMap_map (f := Prod.fst) (fun o : Op κ => (planned o).map (h o))
    body.zipIdx
  rw [List.zipIdx_map_fst] at hfst
  exact hfst.symm

theorem intervals_ops_nodup (hnodup : (ids body).Nodup) (hone : OnePlanned body) :
    ((intervals body).map Interval.definingOp).Nodup := by
  rw [intervals_map (h := fun o _ => o.id) fun o t r => rfl]
  refine List.nodup_flatMap.mpr ⟨fun o ho => ?_, ?_⟩
  · refine List.Nodup.map_on (fun a ha b hb _ => ?_) (List.Nodup.of_map Prod.fst ?_)
    all_goals
      have hlen := hone o ho
      rw [← planned_length] at hlen
      rcases hp : planned o with _ | ⟨r, _ | ⟨r', rest⟩⟩ <;> simp_all
  · refine (List.pairwise_map.mp hnodup).imp fun {a b} hab => ?_
    intro i hi hj
    obtain ⟨_, -, rfl⟩ := List.mem_map.mp hi
    obtain ⟨_, -, hid⟩ := List.mem_map.mp hj
    exact hab hid.symm

theorem byteSize?_eq {ty : Ty} (ho : o ∈ body) (hty : ty ∈ o.results)
    (htotal : (totalBytes body : Int) ≤ int64Max) :
    ty.byteSize? = ty.trueSize?.map (Nat.cast : Nat → Int) := by
  rw [Ty.byteSize?, Ty.trueSize?]
  cases hs : ty.static? with
  | none => rfl
  | some p =>
      have hmem : trueSize p.1 p.2 ∈ body.flatMap fun o => o.results.filterMap Ty.trueSize? :=
        List.mem_flatMap.mpr ⟨o, ho, List.mem_filterMap.mpr ⟨ty, hty, by simp [Ty.trueSize?, hs]⟩⟩
      have hle : trueSize p.1 p.2 ≤ totalBytes body := List.single_le_sum (by simp) _ hmem
      rw [Option.map_some, Option.map_some, Option.map_some, byteSize_eq (by omega)]

theorem intervals_total (htotal : (totalBytes body : Int) ≤ int64Max) :
    ((intervals body).map Interval.size).sum = totalBytes body := by
  rw [intervals_map (h := fun _ r => r.2) fun o t r => rfl, totalBytes]
  have heq : ∀ o ∈ body, (planned o).map (fun r => r.2) =
      (o.results.filterMap Ty.trueSize?).map (Nat.cast : Nat → Int) := by
    intro o ho
    rw [planned_sizes, List.map_filterMap]
    exact List.filterMap_congr fun ty hty => byteSize?_eq ho hty htotal
  rw [List.flatMap_congr heq, ← List.map_flatMap, ← Nat.cast_list_sum]

/-- The intervals of a block whose sizes fit are what the sweep needs. -/
theorem sweepOrder_orderly (hnodup : (ids body).Nodup) (hone : OnePlanned body)
    (htotal : (totalBytes body : Int) ≤ int64Max) : Orderly (sweepOrder body) := by
  have hperm := (Sorter.stable Interval.defTime).perm (intervals body)
  have hops := intervals_ops_nodup hnodup hone
  have hvalues : ((intervals body).map Interval.value).Nodup := by
    refine List.Nodup.of_map (Val.rec (fun _ => 0) fun op _ => op) ?_
    rw [List.map_map]
    refine (List.map_congr_left fun iv hiv => ?_) ▸ hops
    obtain ⟨o, t, k, size, -, -, rfl⟩ := mem_intervals.mp hiv
    rfl
  refine { sorted := (Sorter.stable Interval.defTime).sorted _, values := ?_, ops := ?_,
           sizes := fun iv hiv => ?_ }
  · exact (hperm.map Interval.value).nodup_iff.mpr hvalues
  · exact (hperm.map Interval.definingOp).nodup_iff.mpr hops
  · obtain ⟨o, t, k, size, ho, hk, rfl⟩ := mem_intervals.mp (hperm.mem_iff.mp hiv)
    obtain ⟨ty, hty, hsize⟩ := mem_planned.mp hk
    rw [byteSize?_eq (List.mem_of_getElem? ho) (List.mem_of_getElem? hty) htotal] at hsize
    obtain ⟨n, -, rfl⟩ := Option.map_eq_some_iff.mp hsize
    exact Int.natCast_nonneg n

theorem sweepOrder_total (htotal : (totalBytes body : Int) ≤ int64Max) :
    totalSize (sweepOrder body) = totalBytes body := by
  have hperm := (Sorter.stable Interval.defTime).perm (intervals body)
  rw [totalSize, sweepOrder, (hperm.map Interval.size).sum_eq, intervals_total htotal]

end Intervals

/-! ## What the pass promises -/

/-- The bytes of result `k` of an operation, according to its attribute. -/
def slot (o : Op κ) (k : Nat) : Option Extent :=
  (o.results[k]?.bind Ty.byteSize?).bind fun size =>
    o.bufferOffset.map fun offset => ⟨offset, size⟩

/-- Two results that are live at the same time have no byte in common. -/
def PlanApart (body : List (Op κ)) : Prop :=
  ∀ o ∈ body, ∀ o' ∈ body, ∀ k k' t, (o.id, k) ≠ (o'.id, k') →
    LiveAt body o k t → LiveAt body o' k' t →
    ∀ e e', slot o k = some e → slot o' k' = some e' → e.Apart e'

/-- The planned ranges of a block. -/
def slots (body : List (Op κ)) : List Extent :=
  body.flatMap fun o => (planned o).filterMap fun r => slot o r.1

/-- The free blocks and the live ranges of a state, in the words of the design: no two free
blocks share a byte, none shares a byte with a live range, and all together are the arena. -/
structure Sweep.Tiled (s : Sweep) : Prop where
  free : s.freeList.Pairwise Extent.Apart
  live : ∀ b ∈ s.freeList, ∀ iv ∈ s.live, b.Apart (s.range iv)
  covers : ∀ p, (∃ b ∈ s.freeList ++ s.live.map s.range, b.Holds p) ↔ 0 ≤ p ∧ p < int64Max

/-- The sweep has placed `ivs` and is about to place `iv`. -/
def Reached (body : List (Op κ)) (ivs : List Interval) (iv : Interval) (s : Sweep) : Prop :=
  ivs ++ [iv] <+: sweepOrder body ∧ sweep sorter body ivs = some s

/-- What the pass is for. -/
structure MeetsPlan (f : Func κ) : Prop where
  /-- Every search of the sweep finds a block. -/
  finds : ∀ ivs iv s, Reached sorter f.body ivs iv s →
    ∃ fit, firstFit (releaseExpired sorter s iv.defTime).freeList iv.size = some fit
  /-- Every state of the sweep tiles the arena, before and after the release. -/
  tiled : ∀ ivs iv s, Reached sorter f.body ivs iv s →
    s.Tiled ∧ (releaseExpired sorter s iv.defTime).Tiled
  /-- The pass ends, in a state that tiles the arena, and has planned every value. -/
  plans : ∃ f' s, memPlanningPass sorter f = some f' ∧
    sweep sorter f.body (sweepOrder f.body) = some s ∧ s.Tiled ∧
    (∀ o ∈ f'.body, ∀ k size, (k, size) ∈ planned o → ∃ e, slot o k = some e) ∧
    PlanApart f'.body ∧
    f'.peakMemoryBytes = some (((slots f'.body).map fun e => e.offset + e.size).foldl max 0)

section Pass

variable {body : List (Op κ)} {o : Op κ} {k t now : Nat} {size : Int} {s : Sweep}
  {ivs : List Interval} {iv : Interval} {offsets : Nat → Option Int} {f : Func κ}

theorem Swept.tiled (h : Swept ivs now s) : s.Tiled := by
  have hpair := List.pairwise_append.mp h.tiles.pairwise_apart
  exact { free := hpair.1, covers := h.tiles.holds_iff,
          live := fun b hb iv hiv => hpair.2.2 b hb _ (List.mem_map_of_mem hiv) }

/-- The attribute that the pass sets is the place of the value in the arena. -/
theorem slot_setOffsets (h : Swept (sweepOrder body) now s) (ho : body[t]? = some o)
    (hk : (k, size) ∈ planned o) : slot { o with bufferOffset := s.offsets o.id } k =
      some (s.range (intervalOf body o t k size)) := by
  have hmem := mem_sweepOrder ho hk
  have hoffset : s.offsets o.id = _ := h.offsets _ hmem
  obtain ⟨ty, hty, hsize⟩ := mem_planned.mp hk
  have hrange : (s.range (intervalOf body o t k size)).size = size := h.size _ hmem
  simp only [slot, hty, Option.bind_some, hsize, hoffset, Option.map_some, Option.some.injEq]
  exact hrange ▸ rfl

theorem LiveAt.of_setOffsets (hnodup : (ids body).Nodup) (ho : o ∈ body)
    (h : LiveAt (setOffsets offsets body) { o with bufferOffset := offsets o.id } k t) :
    LiveAt body o k t := by
  obtain ⟨d, hd, hle, hlast⟩ := h
  rw [setOffsets, List.getElem?_map] at hd
  obtain ⟨p, hp, heq⟩ := Option.map_eq_some_iff.mp hd
  have hid := congrArg Op.id heq
  obtain rfl : p = o := eq_of_id hnodup (List.mem_of_getElem? hp) ho hid
  refine ⟨d, hp, hle, hlast.imp_right ?_⟩
  rintro ⟨u, hu, q, hq, hv⟩
  rw [setOffsets, List.getElem?_map] at hq
  obtain ⟨r, hr, rfl⟩ := Option.map_eq_some_iff.mp hq
  exact ⟨u, hu, r, hr, hv⟩

/-- A planned range comes from an interval of the sweep. -/
theorem slot_eq_some {e : Extent} (h : Swept (sweepOrder body) now s) (ho : body[t]? = some o)
    (he : slot { o with bufferOffset := s.offsets o.id } k = some e) :
    ∃ size, (k, size) ∈ planned o ∧ e = s.range (intervalOf body o t k size) := by
  obtain ⟨size, hsize, -⟩ := Option.bind_eq_some_iff.mp he
  obtain ⟨ty, hty, hbytes⟩ := Option.bind_eq_some_iff.mp hsize
  have hk : (k, size) ∈ planned o := mem_planned.mpr ⟨ty, hty, hbytes⟩
  refine ⟨size, hk, ?_⟩
  rw [slot_setOffsets h ho hk] at he
  exact (Option.some.inj he).symm

theorem pairwise_either {α : Type*} {R : α → α → Prop} {xs : List α} {a b : α}
    (h : xs.Pairwise R) (ha : a ∈ xs) (hb : b ∈ xs) (hne : a ≠ b) : R a b ∨ R b a := by
  have : Std.Symm fun a b => R a b ∨ R b a := ⟨fun _ _ => Or.symm⟩
  exact (h.imp (S := fun a b => R a b ∨ R b a) Or.inl).forall ha hb hne

theorem Swept.planApart (hnodup : (ids body).Nodup) (h : Swept (sweepOrder body) now s) :
    PlanApart (setOffsets s.offsets body) := by
  intro p hp p' hp' k k' t hne hlive hlive' e e' he he'
  obtain ⟨o, ho, rfl⟩ := List.mem_map.mp hp
  obtain ⟨o', ho', rfl⟩ := List.mem_map.mp hp'
  obtain ⟨d, hd, hdt, htlast⟩ := (hlive.of_setOffsets hnodup ho).bounds hnodup
  obtain ⟨d', hd', hdt', htlast'⟩ := (hlive'.of_setOffsets hnodup ho').bounds hnodup
  obtain ⟨size, hk, rfl⟩ := slot_eq_some h hd he
  obtain ⟨size', hk', rfl⟩ := slot_eq_some h hd' he'
  have hivs : intervalOf body o d k size ≠ intervalOf body o' d' k' size' := fun heq => by
    have hval : Val.res o.id k = Val.res o'.id k' := congrArg Interval.value heq
    exact hne (by simpa using hval)
  -- both intervals hold the time `t`, so neither has ended when the other begins
  have heither := pairwise_either h.apart (mem_sweepOrder hd hk) (mem_sweepOrder hd' hk') hivs
  simp only [intervalOf] at heither
  rcases heither with (hlt | hap) | hlt | hap
  · omega
  · exact hap
  · omega
  · exact hap.symm

theorem Swept.slots_eq (h : Swept (sweepOrder body) now s) :
    slots (setOffsets s.offsets body) = (intervals body).map s.range := by
  rw [intervals_map (h := fun o r => s.range (intervalOf body o 0 r.1 r.2)) fun o t r => rfl]
  rw [slots, setOffsets, List.flatMap_map]
  refine List.flatMap_congr fun o ho => ?_
  obtain ⟨t, ht⟩ := List.mem_iff_getElem?.mp ho
  rw [← List.filterMap_eq_map]
  exact List.filterMap_congr fun r hr => (slot_setOffsets h ht hr).trans rfl

theorem Swept.peak_eq (h : Swept (sweepOrder body) now s) :
    s.peak = ((slots (setOffsets s.offsets body)).map fun e => e.offset + e.size).foldl max 0 := by
  have hperm := (Sorter.stable Interval.defTime).perm (intervals body)
  have hsizes : (sweepOrder body).map (fun iv => (s.range iv).offset + iv.size) =
      (sweepOrder body).map fun iv => (s.range iv).offset + (s.range iv).size :=
    List.map_congr_left fun iv hiv => by rw [h.size iv hiv]
  rw [h.peak, h.slots_eq, List.map_map, hsizes]
  have : RightCommutative (max : Int → Int → Int) := ⟨max_right_comm⟩
  exact (hperm.map _).foldl_eq 0

/-- Some block is free whenever a value is placed. -/
def Room (body : List (Op κ)) : Prop :=
  ∀ ivs iv s, Reached sorter body ivs iv s → (releaseExpired sorter s iv.defTime).freeList ≠ []

theorem sweep_snoc : sweep sorter body (ivs ++ [iv]) =
    (sweep sorter body ivs).bind fun s => place sorter s iv := by
  rw [sweep, List.foldlM_append]
  exact congrArg _ (funext fun s => by simp)

theorem exists_swept (horder : Orderly (sweepOrder body))
    (hs : sweep sorter body (sweepOrder body) = some s) :
    ∃ now, Swept (sweepOrder body) now s :=
  ⟨((sweepOrder body).map Interval.defTime).foldl max 0, swept_of_sweep sorter horder
    (fun _ hiv => le_foldl_max.mpr (Or.inr ⟨_, List.mem_map_of_mem hiv, le_rfl⟩)) hs⟩

/-- With room at every step the sweep goes on to its end. -/
theorem sweep_isSome (horder : Orderly (sweepOrder body))
    (htotal : totalSize (sweepOrder body) ≤ int64Max) (hroom : Room sorter body)
    (hpre : ivs <+: sweepOrder body) : ∃ s, sweep sorter body ivs = some s := by
  induction ivs using List.reverseRecOn with
  | nil => exact ⟨_, rfl⟩
  | append_singleton ivs iv ih =>
      obtain ⟨s, hs⟩ := ih ((List.prefix_append ivs [iv]).trans hpre)
      have hivs : Orderly (ivs ++ [iv]) := horder.sublist hpre.sublist
      have hswept := swept_of_sweep sorter hivs.init hivs.before hs
      have hle : totalSize ivs + iv.size ≤ int64Max := by
        rw [← totalSize_singleton iv, ← totalSize_append]
        exact (horder.totalSize_le hpre).trans htotal
      obtain ⟨s', hs'⟩ := hswept.place_isSome sorter le_rfl hivs.size_last hle
        (hroom ivs iv s ⟨hpre, hs⟩)
      exact ⟨s', by rw [sweep_snoc, hs, Option.bind_some, hs']⟩

/-- With room at every step there is a plan for the whole block. -/
theorem exists_plan (hnodup : (ids body).Nodup) (hone : OnePlanned body)
    (htotal : (totalBytes body : Int) ≤ int64Max) (hroom : Room sorter body) :
    ∃ s now, sweep sorter body (sweepOrder body) = some s ∧ Swept (sweepOrder body) now s := by
  have horder := sweepOrder_orderly hnodup hone htotal
  obtain ⟨s, hs⟩ := sweep_isSome sorter horder (by rw [sweepOrder_total htotal]; exact htotal)
    hroom List.prefix_rfl
  obtain ⟨now, hswept⟩ := exists_swept sorter horder hs
  exact ⟨s, now, hs, hswept⟩

/-- The free list runs empty only when every byte is taken, so there is room whenever some
byte is left for no value, -/
theorem room_of_lt (hnodup : (ids body).Nodup) (hone : OnePlanned body)
    (htotal : (totalBytes body : Int) < int64Max) : Room sorter body := by
  intro ivs iv s ⟨hpre, hs⟩ hempty
  have horder := sweepOrder_orderly hnodup hone htotal.le
  have hivs : Orderly (ivs ++ [iv]) := horder.sublist hpre.sublist
  have hr := (swept_of_sweep sorter hivs.init hivs.before hs).release sorter le_rfl
  have hle := horder.totalSize_le ((List.prefix_append ivs [iv]).trans hpre)
  rw [sweepOrder_total htotal.le] at hle
  obtain ⟨b, hb, -⟩ := hr.tail (by omega)
  rw [hempty] at hb
  exact absurd hb (by simp)

/-- and whenever no value is empty. -/
theorem room_of_pos (hnodup : (ids body).Nodup) (hone : OnePlanned body)
    (htotal : (totalBytes body : Int) ≤ int64Max)
    (hpos : ∀ o ∈ body, ∀ k size, (k, size) ∈ planned o → 0 < size) : Room sorter body := by
  intro ivs iv s ⟨hpre, hs⟩ hempty
  have horder := sweepOrder_orderly hnodup hone htotal
  have hivs : Orderly (ivs ++ [iv]) := horder.sublist hpre.sublist
  have hr := (swept_of_sweep sorter hivs.init hivs.before hs).release sorter le_rfl
  have hle := horder.totalSize_le hpre
  rw [sweepOrder_total htotal, totalSize_append, totalSize_singleton] at hle
  have hiv : iv ∈ sweepOrder body := hpre.subset (by simp)
  have hsize : 0 < iv.size := by
    obtain ⟨o, t, k, size, ho, hk, rfl⟩ :=
      mem_intervals.mp ((Sorter.stable Interval.defTime).mem_run.mp hiv)
    exact hpos o (List.mem_of_getElem? ho) k size hk
  obtain ⟨b, hb, -⟩ := hr.tail (by omega)
  rw [hempty] at hb
  exact absurd hb (by simp)

end Pass

/-- The pass keeps its promises exactly when no value is placed into an empty free list. -/
theorem memPlanning_sound_iff (f : Func κ) (hssa : Ssa f.args.length f.body)
    (hone : OnePlanned f.body) (htotal : (totalBytes f.body : Int) ≤ int64Max) :
    MeetsPlan sorter f ↔ Room sorter f.body := by
  have horder := sweepOrder_orderly hssa.nodup hone htotal
  refine ⟨fun h ivs iv s hreached hempty => ?_, fun hroom => ?_⟩
  · obtain ⟨fit, hfit⟩ := h.finds ivs iv s hreached
    rw [hempty] at hfit
    exact absurd hfit (by simp [firstFit])
  have hsome : ∀ ivs, ivs <+: sweepOrder f.body → ∃ s, sweep sorter f.body ivs = some s :=
    fun ivs hpre => sweep_isSome sorter horder
      (by rw [sweepOrder_total htotal]; exact htotal) hroom hpre
  refine { finds := ?_, tiled := ?_, plans := ?_ }
  · rintro ivs iv s ⟨hpre, hs⟩
    obtain ⟨s', hs'⟩ := hsome _ hpre
    rw [sweep_snoc, hs, Option.bind_some, place] at hs'
    obtain ⟨fit, hfit, -⟩ := Option.map_eq_some_iff.mp hs'
    exact ⟨fit, hfit⟩
  · rintro ivs iv s ⟨hpre, hs⟩
    have hivs : Orderly (ivs ++ [iv]) := horder.sublist hpre.sublist
    have hswept := swept_of_sweep sorter hivs.init hivs.before hs
    exact ⟨hswept.tiled, (hswept.release sorter le_rfl).tiled⟩
  · obtain ⟨s, now, hs, hswept⟩ := exists_plan sorter hssa.nodup hone htotal hroom
    refine ⟨_, s, by rw [memPlanningPass, hs]; rfl, hs, hswept.tiled, ?_,
      hswept.planApart hssa.nodup, congrArg some hswept.peak_eq⟩
    intro p hp k size hk
    obtain ⟨o, ho, rfl⟩ := List.mem_map.mp hp
    obtain ⟨t, ht⟩ := List.mem_iff_getElem?.mp ho
    exact ⟨_, slot_setOffsets hswept ht hk⟩


/-- Two values of four bytes that are live together, and one after them. -/
def planExample : Func Nat where
  args := [.tensor [some 4] (.int 8)]
  body :=
    [{ id := 0, kind := .relu, operands := [.arg 0], results := [.tensor [some 4] (.int 8)],
       bufferOffset := none },
     { id := 1, kind := .other 0, operands := [.res 0 0], results := [.tensor [some 4] (.int 8)],
       bufferOffset := none },
     { id := 2, kind := .other 0, operands := [.res 1 0], results := [.tensor [some 4] (.int 8)],
       bufferOffset := none },
     { id := 3, kind := .other 1, operands := [.res 2 0], results := [], bufferOffset := none }]
  peakMemoryBytes := none
  rematOpsInserted := none

theorem memPlanning_sound_iff_reuse : MeetsPlan (Sorter.stable Extent.offset) planExample :=
  (memPlanning_sound_iff _ planExample (by decide +kernel) (by decide +kernel)
    (by decide +kernel)).mpr (room_of_lt _ (by decide +kernel) (by decide +kernel)
    (by decide +kernel))

/-- A value that takes the whole arena, and while it is live a value of no bytes. -/
def fullArena : Func Nat where
  args := [.tensor [some 1] (.int 8)]
  body :=
    [{ id := 0, kind := .other 0, operands := [.arg 0],
       results := [.tensor [some 9223372036854775807] (.int 8)], bufferOffset := none },
     { id := 1, kind := .other 0, operands := [.arg 0], results := [.tensor [some 0] (.int 8)],
       bufferOffset := none },
     { id := 2, kind := .other 1, operands := [.res 0 0, .res 1 0], results := [],
       bufferOffset := none }]
  peakMemoryBytes := none
  rematOpsInserted := none

theorem fullArena_no_block :
    Ssa fullArena.args.length fullArena.body ∧ OnePlanned fullArena.body ∧
      (totalBytes fullArena.body : Int) ≤ int64Max ∧
      memPlanningPass (Sorter.stable Extent.offset) fullArena = none ∧
      ¬ MeetsPlan (Sorter.stable Extent.offset) fullArena := by
  have hnone : memPlanningPass (Sorter.stable Extent.offset) fullArena = none := by
    decide +kernel
  refine ⟨by decide +kernel, by decide +kernel, by decide +kernel, hnone, fun h => ?_⟩
  obtain ⟨f', s, hsome, -⟩ := h.plans
  rw [hnone] at hsome
  exact absurd hsome (by simp)

end CrossMachine.Compiler
