import CrossMachine.Compiler.Ranges

/-!
# Memory planning followed by rematerialisation

The AOT pipeline plans the memory of a function first and rematerialises afterwards. A clone
is a copy with all attributes, so it carries the offset of the operation it copies, and it
reads the operands of that operation at a later point. The plan knows of neither: an operand
is then kept past the end of its interval, where its bytes may belong to another value, and
two clones of one value are two values in the same bytes.

The plan survives when the range of ticks in which a value of the final block is live stays
inside the interval that the plan was made for, and when no two copies of one value are live
together. Both can be read off the function before the passes.
-/

namespace CrossMachine.Compiler

open Lib

variable {κ : Type} (below : Nat → Bool) (sorter : Sorter Extent.offset)
  (userSorter : (time : Nat → Nat) → Sorter time)

/-- The two stages of `AotCompiler::compile`. -/
def planThenRemat (f : Func κ) : Option (Func κ) :=
  (memPlanningPass sorter f).map (rematPass below userSorter)

/-! ## When the plan survives -/

/-- Result `k` of the operation is planned and has bytes. -/
def Occupies (o : Op κ) (k : Nat) : Prop := ∃ size, (k, size) ∈ planned o ∧ 0 < size

/-- Rematerialisation keeps to the plan of the block. -/
structure PlanKept (body : List (Op κ)) : Prop where
  /-- Where an operation is rematerialised, the clones read nothing past its planned end. -/
  operands : ∀ z ∈ body, Rematted below body z.id → ∀ x ∈ body, ∀ k, Occupies x k →
    .res x.id k ∈ z.operands → lastUseOf body z.id 0 ≤ lastUseOf body x.id k
  /-- and where such an operand is itself rematerialised, no clone of it falls into the time
  in which the clones read it. -/
  siblings : ∀ z ∈ body, Rematted below body z.id → ∀ x ∈ body, Rematted below body x.id →
    Occupies x 0 → .res x.id 0 ∈ z.operands → ∀ u ∈ users body (.res x.id 0),
      timeOf body u ≤ timeOf body z.id ∨ lastUseOf body z.id 0 < timeOf body u
  /-- No far user reads the result twice. -/
  once : ∀ z ∈ body, Rematted below body z.id → Occupies z 0 →
    (farUsers userSorter body z.id).Nodup

section Survives

variable {below userSorter} {nargs k t : Nat} {orig body : List (Op κ)} {done : List (Nat × Nat)}
  {g : Nat → Mark} {q r x y : Op κ}

/-- What the plan charges for a value of a type. -/
def plannedBytes (ty : Ty) : Nat := (ty.byteSize?.getD 0).toNat

theorem occupies_iff : Occupies x k ↔ HasBytes plannedBytes x k := by
  constructor
  · rintro ⟨bytes, hk, hpos⟩
    obtain ⟨ty, hty, hsize⟩ := mem_planned.mp hk
    refine ⟨ty, hty, ?_⟩
    rw [plannedBytes, hsize, Option.getD_some]
    omega
  · rintro ⟨ty, hty, hpos⟩
    rw [plannedBytes] at hpos
    cases hsize : ty.byteSize? with
    | none => simp [hsize] at hpos
    | some bytes =>
        rw [hsize, Option.getD_some] at hpos
        exact ⟨bytes, mem_planned.mpr ⟨ty, hty, hsize⟩, by omega⟩

theorem PlanKept.ranges (h : PlanKept below userSorter orig) :
    RangesKept below userSorter plannedBytes orig where
  operands := fun z hz hr x hx k hbytes => h.operands z hz hr x hx k (occupies_iff.mpr hbytes)
  siblings := fun z hz hr x hx hr' hbytes =>
    h.siblings z hz hr x hx hr' (occupies_iff.mpr hbytes)
  once := fun z hz hr hbytes => h.once z hz hr (occupies_iff.mpr hbytes)

/-- A range that is given in the final block was given to the operation it comes from. -/
theorem Traced.slot_orig (h : Traced nargs orig done g body) (hq : q ∈ body) :
    ∃ x ∈ orig, (g q.id).1 = x.id ∧ ∀ k, slot q k = slot x k := by
  obtain ⟨x, hx, horg, hres, hoff, -⟩ := h.ops q hq
  exact ⟨x, hx, horg.symm, fun k => by rw [slot, slot, hres, hoff]⟩

theorem occupies_of_slot {e : Extent} (h : slot x k = some e) (hpos : 0 < e.size) :
    Occupies x k := by
  obtain ⟨size, hsize, heq⟩ := Option.bind_eq_some_iff.mp h
  obtain ⟨ty, hty, hbytes⟩ := Option.bind_eq_some_iff.mp hsize
  obtain ⟨offset, -, rfl⟩ := Option.map_eq_some_iff.mp heq
  exact ⟨size, mem_planned.mpr ⟨ty, hty, hbytes⟩, hpos⟩

/-- Of one operation at most one result has bytes. -/
theorem OnePlanned.unique (h : OnePlanned orig) (hx : x ∈ orig) {k' : Nat} (hk : Occupies x k)
    (hk' : Occupies x k') : k = k' := by
  obtain ⟨size, hmem, -⟩ := hk
  obtain ⟨size', hmem', -⟩ := hk'
  have hlen := h x hx
  rw [← planned_length] at hlen
  rcases hp : planned x with _ | ⟨r, _ | ⟨r', rest⟩⟩
  · rw [hp] at hmem
    exact absurd hmem (by simp)
  · rw [hp] at hmem hmem'
    have heq := (List.mem_singleton.mp hmem).trans (List.mem_singleton.mp hmem').symm
    exact congrArg Prod.fst heq
  · rw [hp] at hlen
    exact absurd hlen (by simp)

/-- A plan of the original block is one of the final block. -/
theorem Traced.planApart (h : FullyTraced below userSorter nargs orig g body)
    (hssa : Ssa nargs orig) (hsingle : CheapSingle orig) (hone : OnePlanned orig)
    (hkept : PlanKept below userSorter orig) (hplan : PlanApart orig) : PlanApart body := by
  intro q hq q' hq' k k' t hne hlive hlive' e e' he he'
  obtain ⟨x, hx, hi, hslot⟩ := h.slot_orig hq
  obtain ⟨x', hx', hi', hslot'⟩ := h.slot_orig hq'
  rw [hslot] at he
  rw [hslot'] at he'
  have hranges := hkept.ranges
  by_cases hpos : 0 < e.size
  · by_cases hpos' : 0 < e'.size
    · have hocc := occupies_of_slot he hpos
      have hocc' := occupies_of_slot he' hpos'
      have hbytes := occupies_iff.mp hocc
      have hbytes' := occupies_iff.mp hocc'
      by_cases hsame : x.id = x'.id
      · -- two pieces of one value
        obtain rfl : x = x' := eq_of_id hssa.nodup hx hx' hsame
        obtain rfl : k = k' := hone.unique hx hocc hocc'
        have hids : q.id ≠ q'.id := fun heq => hne (by rw [heq])
        rcases lt_or_gt_of_ne (h.tick_ne hssa hsingle hranges hx hbytes hq hq' hids hi hi')
          with hlt | hlt
        · exact (h.pieces_apart hssa hsingle hranges hx hbytes hi hi' hlt hlive hlive').elim
        · exact (h.pieces_apart hssa hsingle hranges hx hbytes hi' hi hlt hlive' hlive).elim
      · -- pieces of two values, which are live together in the original block
        obtain ⟨r, hr, hlow, hhigh⟩ := h.tick_live hssa hsingle hranges hx hbytes hi hlive
        obtain ⟨r', hr', hlow', hhigh'⟩ := h.tick_live hssa hsingle hranges hx' hbytes' hi' hlive'
        obtain rfl : r = r' := Option.some.inj (hr.symm.trans hr')
        have hself : timeOf orig x.id ≤ lastUseOf orig x.id k := timeOf_le_lastUseOf_self
        have hself' : timeOf orig x'.id ≤ lastUseOf orig x'.id k' := timeOf_le_lastUseOf_self
        refine hplan x hx x' hx' k k' (max (timeOf orig x.id) (timeOf orig x'.id))
          (fun heq => hsame (Prod.mk.inj heq).1) ?_ ?_ e e' he he'
        · exact liveAt_of_le hssa.nodup hx (le_max_left ..) (max_le hself (by omega))
        · exact liveAt_of_le hssa.nodup hx' (le_max_right ..) (max_le (by omega) hself')
    · exact (Extent.apart_of_empty (not_lt.mp hpos')).symm
  · exact Extent.apart_of_empty (not_lt.mp hpos)

end Survives

/-! ## The two passes together -/

section SetOffsets

variable {offsets : Nat → Option Int} {body : List (Op κ)} {nargs : Nat}

theorem users_setOffsets (v : Val) : users (setOffsets offsets body) v = users body v := by
  rw [users, setOffsets, List.flatMap_map]
  rfl

theorem timeOf_setOffsets : timeOf (setOffsets offsets body) = timeOf body := by
  funext op
  rw [timeOf, setOffsets, List.findIdx?_map]
  rfl

theorem ids_setOffsets : ids (setOffsets offsets body) = ids body := by
  rw [ids, setOffsets, List.map_map]
  rfl

theorem candidates_setOffsets : candidates (setOffsets offsets body) = candidates body := by
  rw [candidates, setOffsets, List.filter_map, ids, List.map_map]
  rfl

theorem rematted_setOffsets {op : Nat} :
    Rematted below (setOffsets offsets body) op ↔ Rematted below body op := by
  simp only [Rematted, candidates_setOffsets, users_setOffsets, timeOf_setOffsets]

theorem lastUseOf_setOffsets {op k : Nat} :
    lastUseOf (setOffsets offsets body) op k = lastUseOf body op k := by
  simp only [lastUseOf, lastUse, users_setOffsets, timeOf_setOffsets]

theorem farUsers_setOffsets {op : Nat} :
    farUsers userSorter (setOffsets offsets body) op = farUsers userSorter body op := by
  rw [farUsers, farUsers, users_setOffsets, timeOf_setOffsets]

theorem definedFirst_setOffsets {seen : List (Op κ)} (h : DefinedFirst nargs seen body) :
    DefinedFirst nargs (setOffsets offsets seen) (setOffsets offsets body) := by
  induction body generalizing seen with
  | nil => trivial
  | cons o body ih =>
      refine ⟨fun v hv => (h.1 v hv).mono fun q hq => ?_, ?_⟩
      · exact ⟨_, List.mem_map_of_mem hq, rfl, rfl⟩
      · have hrest := ih h.2
        rw [setOffsets, List.map_append] at hrest
        exact hrest

/-- Only the attribute changes, so the block stays in SSA form, -/
theorem Ssa.setOffsets (h : Ssa nargs body) : Ssa nargs (setOffsets offsets body) where
  nodup := by
    rw [ids_setOffsets]
    exact h.nodup
  first := definedFirst_setOffsets h.first

/-- and keeps to the plan as before. -/
theorem PlanKept.setOffsets (h : PlanKept below userSorter body) :
    PlanKept below userSorter (setOffsets offsets body) := by
  refine { operands := fun z hz hr x hx k hocc hv => ?_,
           siblings := fun z hz hr x hx hr' hocc hv u hu => ?_,
           once := fun z hz hr hocc => ?_ }
  all_goals obtain ⟨y, hy, rfl⟩ := List.mem_map.mp hz
  · obtain ⟨w, hw, rfl⟩ := List.mem_map.mp hx
    rw [lastUseOf_setOffsets, lastUseOf_setOffsets]
    exact h.operands y hy ((rematted_setOffsets below).mp hr) w hw k hocc hv
  · obtain ⟨w, hw, rfl⟩ := List.mem_map.mp hx
    rw [timeOf_setOffsets, lastUseOf_setOffsets]
    rw [users_setOffsets] at hu
    exact h.siblings y hy ((rematted_setOffsets below).mp hr) w hw
      ((rematted_setOffsets below).mp hr') hocc hv u hu
  · rw [farUsers_setOffsets]
    exact h.once y hy ((rematted_setOffsets below).mp hr) hocc

end SetOffsets

/-- The plan survives rematerialisation when no clone reads past the planned end of what it
reads, and no two copies of one value are there at once. -/
theorem planThenRemat_apart (f : Func κ) (hssa : Ssa f.args.length f.body)
    (hsingle : CheapSingle f.body) (hone : OnePlanned f.body)
    (htotal : (totalBytes f.body : Int) ≤ int64Max) (hroom : Room sorter f.body)
    (hkept : PlanKept below userSorter f.body) :
    ∃ f', planThenRemat below sorter userSorter f = some f' ∧ PlanApart f'.body := by
  obtain ⟨s, now, hs, hswept⟩ := exists_plan sorter hssa.nodup hone htotal hroom
  have hplan := hswept.planApart hssa.nodup
  refine ⟨_, by rw [planThenRemat, memPlanningPass, hs, Option.map_some, Option.map_some], ?_⟩
  generalize hf : ({ f with body := setOffsets s.offsets f.body, peakMemoryBytes := some s.peak }
    : Func κ) = f₁
  have hbody : f₁.body = setOffsets s.offsets f.body := by rw [← hf]
  have hssa₁ : Ssa f.args.length f₁.body := hbody ▸ hssa.setOffsets
  have hsingle₁ : CheapSingle f₁.body := hbody ▸ List.forall_mem_map.mpr hsingle
  have hone₁ : OnePlanned f₁.body := hbody ▸ List.forall_mem_map.mpr hone
  obtain ⟨g, hg⟩ := rematPass_traced below userSorter f₁ hssa₁ hsingle₁
  refine hg.planApart hssa₁ hsingle₁ hone₁ ?_ (hbody ▸ hplan)
  rw [hbody]
  exact hkept.setOffsets below userSorter

/-- A far user that reads an operation on the arguments. -/
def keptExample : Func Nat where
  args := [.tensor [some 4] (.float 32)]
  body :=
    [{ id := 0, kind := .relu, operands := [.arg 0], results := [.tensor [some 4] (.float 32)],
       bufferOffset := none },
     { id := 1, kind := .other 0, operands := [.res 0 0],
       results := [.tensor [some 4] (.float 32)], bufferOffset := none },
     { id := 2, kind := .add, operands := [.res 0 0, .res 1 0],
       results := [.tensor [some 4] (.float 32)], bufferOffset := none },
     { id := 3, kind := .other 1, operands := [.res 2 0], results := [], bufferOffset := none }]
  peakMemoryBytes := none
  rematOpsInserted := none

theorem keptExample_operands : ∀ z ∈ keptExample.body,
    Rematted (fun n => n < 2) keptExample.body z.id → z.operands = [.arg 0] := by
  decide +kernel

theorem planThenRemat_apart_kept :
    Rematted (fun n => n < 2) keptExample.body 0 ∧
      ∃ f', planThenRemat (fun n => n < 2) (Sorter.stable Extent.offset) Sorter.stable
        keptExample = some f' ∧ PlanApart f'.body := by
  refine ⟨by decide +kernel, planThenRemat_apart _ _ _ keptExample (by decide +kernel)
    (by decide +kernel) (by decide +kernel) (by decide +kernel)
    (room_of_lt _ (by decide +kernel) (by decide +kernel) (by decide +kernel)) ?_⟩
  refine { operands := fun z hz hr x hx k hocc hv => ?_,
           siblings := fun z hz hr x hx hr' hocc hv u hu => ?_,
           once := fun z hz hr hocc => ?_ }
  · rw [keptExample_operands z hz hr] at hv
    exact absurd hv (by simp)
  · rw [keptExample_operands z hz hr] at hv
    exact absurd hv (by simp)
  · have hnodup : ∀ z ∈ keptExample.body, (farUsers Sorter.stable keptExample.body z.id).Nodup := by
      decide +kernel
    exact hnodup z hz

/-- Operations that read result `2` and give none, one for each of the times `3` to `8`. -/
def keepers : List (Op Nat) :=
  [3, 4, 5, 6, 7, 8].map fun i =>
    { id := i, kind := .other 1, operands := [.res 2 0], results := [], bufferOffset := none }

/-- Operation `1` is read at times `2` and `9`; its own operand `0` is not read after it, and
its bytes go to `2`. -/
def movedExample : Func Nat where
  args := [sixteen]
  body :=
    [{ id := 0, kind := .other 0, operands := [.arg 0], results := [sixteen],
       bufferOffset := none },
     { id := 1, kind := .relu, operands := [.res 0 0], results := [sixteen],
       bufferOffset := none },
     { id := 2, kind := .other 0, operands := [.res 1 0], results := [sixteen],
       bufferOffset := none }] ++ keepers ++
    [{ id := 9, kind := .add, operands := [.res 1 0, .res 2 0], results := [sixteen],
       bufferOffset := none },
     { id := 10, kind := .other 2, operands := [.res 9 0], results := [], bufferOffset := none }]
  peakMemoryBytes := none
  rematOpsInserted := none

/-- What the two passes make of it: the clone `11` reads `0` long after `2` was written into
the bytes of `0`. -/
def movedBody : List (Op Nat) :=
  [{ id := 0, kind := .other 0, operands := [.arg 0], results := [sixteen],
     bufferOffset := some 0 },
   { id := 1, kind := .relu, operands := [.res 0 0], results := [sixteen],
     bufferOffset := some 16 },
   { id := 2, kind := .other 0, operands := [.res 1 0], results := [sixteen],
     bufferOffset := some 0 }] ++ keepers ++
  [{ id := 11, kind := .relu, operands := [.res 0 0], results := [sixteen],
     bufferOffset := some 16 },
   { id := 9, kind := .add, operands := [.res 11 0, .res 2 0], results := [sixteen],
     bufferOffset := some 32 },
   { id := 10, kind := .other 2, operands := [.res 9 0], results := [], bufferOffset := none }]

theorem movedExample_clash :
    Ssa 1 movedExample.body ∧ CheapSingle movedExample.body ∧ OnePlanned movedExample.body ∧
      (totalBytes movedExample.body : Int) ≤ int64Max ∧
      ∃ f', planThenRemat (fun n => n < 8) (Sorter.stable Extent.offset) Sorter.stable
        movedExample = some f' ∧ ¬ PlanApart f'.body := by
  refine ⟨by decide +kernel, by decide +kernel, by decide +kernel, by decide +kernel, ?_⟩
  have hrun : (planThenRemat (fun n => n < 8) (Sorter.stable Extent.offset) Sorter.stable
      movedExample).map Func.body = some movedBody := by decide +kernel
  obtain ⟨f', hf', hbody⟩ := Option.map_eq_some_iff.mp hrun
  refine ⟨f', hf', fun hapart => ?_⟩
  rw [hbody] at hapart
  have hclash := hapart _ (List.mem_of_getElem? (i := 0) rfl) _ (List.mem_of_getElem? (i := 2) rfl)
    0 0 9 (by decide) ⟨0, rfl, by decide, .inr ⟨9, le_rfl, _, rfl, by decide⟩⟩
    ⟨2, rfl, by decide, .inr ⟨10, by decide, _, rfl, by decide⟩⟩ ⟨0, 16⟩ ⟨0, 16⟩
    (by decide +kernel) (by decide +kernel)
  exact hclash 0 (by decide)

end CrossMachine.Compiler
