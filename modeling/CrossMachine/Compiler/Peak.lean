import CrossMachine.Compiler.Ranges
import CrossMachine.Lib.Sum

/-!
# The peak of live bytes after rematerialisation

`RematPass` clones whatever is cheap and kept for long. What it saves is the operation's own
range; what it costs, it does not ask. A clone keeps the operands of the operation it copies
up to the place where it stands, and a clone of an operation with two operands can cost twice
what it saves.

Where the ranges of the function are kept (`NoneLonger`), every value that is live at a point
of the final block comes from a value that is live at the point of the original block that
the clock shows, and no two of them come from the same one. So the peak cannot rise.
-/

namespace CrossMachine.Compiler

open Lib

variable {κ : Type} (below : Nat → Bool) (userSorter : (time : Nat → Nat) → Sorter time)
  (argSize size : Ty → Nat)

/-! ## Live bytes -/

/-- The values of a function with their types. -/
def values (f : Func κ) : List (Val × Ty) :=
  (f.args.zipIdx.map fun p => (.arg p.2, p.1)) ++
    f.body.flatMap fun o => o.results.zipIdx.map fun p => (.res o.id p.2, p.1)

/-- An argument is there from the beginning. -/
def Val.defTime (body : List (Op κ)) : Val → Nat
  | .arg _ => 0
  | .res op _ => timeOf body op

/-- A value is live from its definition to its last use. -/
def Val.Live (body : List (Op κ)) (v : Val) (t : Nat) : Prop :=
  v.defTime body ≤ t ∧ t ≤ lastUse body v (v.defTime body)

instance (body : List (Op κ)) (v : Val) (t : Nat) : Decidable (v.Live body t) :=
  inferInstanceAs (Decidable (_ ∧ _))

/-- What a value counts. The arguments may be charged in another way than the results. -/
def charge : Val × Ty → Nat
  | (.arg _, ty) => argSize ty
  | (.res _ _, ty) => size ty

def liveBytes (f : Func κ) (t : Nat) : Nat :=
  ((values f).map fun p => if p.1.Live f.body t then charge argSize size p else 0).sum

def peakBytes (f : Func κ) : Nat :=
  ((List.range f.body.length).map (liveBytes argSize size f)).foldl max 0

/-- No clone keeps anything longer than it was kept before, and no two copies of one value
are there at once. -/
structure NoneLonger (f : Func κ) : Prop extends RangesKept below userSorter size f.body where
  args : ∀ z ∈ f.body, Rematted below f.body z.id → ∀ i ty, f.args[i]? = some ty →
    0 < argSize ty → .arg i ∈ z.operands → lastUseOf f.body z.id 0 ≤ lastUse f.body (.arg i) 0

section Values

variable {argSize size} {f : Func κ} {body : List (Op κ)} {o : Op κ} {k t : Nat} {ty : Ty}

theorem live_iff (hnodup : (ids body).Nodup) (ho : o ∈ body) :
    (Val.res o.id k).Live body t ↔ LiveAt body o k t := by
  constructor
  · rintro ⟨hle, hlast⟩
    exact liveAt_of_le hnodup ho hle hlast
  · intro hlive
    obtain ⟨d, hd, hle, hlast⟩ := hlive.bounds hnodup
    have htime := timeOf_getElem hnodup hd
    exact ⟨by rw [Val.defTime, htime]; exact hle, by rw [Val.defTime, htime]; exact hlast⟩

theorem mem_values {p : Val × Ty} : p ∈ values f ↔
    (∃ i, p.1 = .arg i ∧ f.args[i]? = some p.2) ∨
      ∃ o ∈ f.body, ∃ k, p.1 = .res o.id k ∧ o.results[k]? = some p.2 := by
  obtain ⟨v, ty⟩ := p
  simp only [values, List.mem_append, List.mem_map, List.mem_flatMap, Prod.mk.injEq]
  constructor
  · rintro (⟨p, hp, rfl, rfl⟩ | ⟨o, ho, p, hp, rfl, rfl⟩)
    · exact .inl ⟨p.2, rfl, List.mem_zipIdx_iff_getElem?.mp hp⟩
    · exact .inr ⟨o, ho, p.2, rfl, List.mem_zipIdx_iff_getElem?.mp hp⟩
  · rintro (⟨i, rfl, hi⟩ | ⟨o, ho, k, rfl, hk⟩)
    · exact .inl ⟨(ty, i), List.mem_zipIdx_iff_getElem?.mpr hi, rfl, rfl⟩
    · exact .inr ⟨o, ho, (ty, k), List.mem_zipIdx_iff_getElem?.mpr hk, rfl, rfl⟩

theorem nodup_zipIdx {α β : Type*} {xs : List α} {h : Nat → β} (hinj : Function.Injective h) :
    (xs.zipIdx.map fun p => h p.2).Nodup := by
  have hsnd : xs.zipIdx.map (fun p => h p.2) = (List.range xs.length).map h := by
    rw [List.range_eq_range', ← List.zipIdx_map_snd 0 xs, List.map_map]
    rfl
  rw [hsnd]
  exact List.nodup_range.map hinj

/-- A value occurs once. -/
theorem values_nodup (hnodup : (ids f.body).Nodup) : ((values f).map Prod.fst).Nodup := by
  rw [values, List.map_append, List.map_map, List.map_flatMap]
  refine List.nodup_append.mpr ⟨?_, ?_, ?_⟩
  · exact nodup_zipIdx fun i j hij => Val.arg.inj hij
  · refine List.nodup_flatMap.mpr ⟨fun o _ => ?_, ?_⟩
    · rw [List.map_map]
      exact nodup_zipIdx fun i j hij => (Val.res.inj hij).2
    · refine (List.pairwise_map.mp hnodup).imp fun {a b} hab => ?_
      intro v hv hv'
      simp only [List.map_map, List.mem_map, Function.comp_apply] at hv hv'
      obtain ⟨_, -, rfl⟩ := hv
      obtain ⟨_, -, heq⟩ := hv'
      exact hab (Val.res.inj heq).1.symm
  · intro v hv w hw heq
    simp only [List.mem_map, List.mem_flatMap, Function.comp_apply] at hv hw
    obtain ⟨_, -, rfl⟩ := hv
    obtain ⟨_, _, _, ⟨_, -, rfl⟩, rfl⟩ := hw
    cases heq

/-- Only a live value counts. -/
theorem live_of_counted {v : Val} {n : Nat} (h : 0 < if v.Live body t then n else 0) :
    v.Live body t ∧ 0 < n := by
  split at h
  · exact ⟨‹_›, h⟩
  · exact absurd h (Nat.lt_irrefl 0)

theorem liveBytes_le_peak (ht : t < f.body.length) :
    liveBytes argSize size f t ≤ peakBytes argSize size f :=
  le_foldl_max.mpr (.inr ⟨_, List.mem_map_of_mem (List.mem_range.mpr ht), le_rfl⟩)

theorem peak_le {n : Nat} (h : ∀ t < f.body.length, liveBytes argSize size f t ≤ n) :
    peakBytes argSize size f ≤ n := by
  rw [peakBytes]
  by_contra hlt
  rcases le_foldl_max.mp (Nat.succ_le_of_lt (not_le.mp hlt)) with hzero | ⟨b, hb, hle⟩
  · omega
  · obtain ⟨t, ht, rfl⟩ := List.mem_map.mp hb
    exact absurd (h t (List.mem_range.mp ht)) (by omega)

end Values

/-! ## Where the live values come from -/

section Origin

variable {below userSorter argSize size} {f : Func κ} {body : List (Op κ)} {g : Nat → Mark}
  {q r : Op κ} {k t i : Nat} {ty : Ty}

/-- The value of the original block that one of the final block comes from. -/
def origin (g : Nat → Mark) : Val → Val
  | .arg i => .arg i
  | .res q k => .res (g q).1 k

/-- The clock shows the time of an operation of the original block. -/
theorem Traced.time_lt (h : FullyTraced below userSorter f.args.length f.body g body)
    (hssa : Ssa f.args.length f.body) (hr : r ∈ body) :
    tick (timeOf f.body) (g r.id) / 2 < f.body.length := by
  have hlt : ∀ o ∈ f.body, timeOf f.body o.id < f.body.length := fun o ho =>
    (List.getElem?_eq_some_iff.mp (getElem_timeOf hssa.nodup ho)).1
  cases hsite : (g r.id).2 with
  | none =>
      obtain ⟨y, hy, horg, -⟩ := h.ops r hr
      have := hlt y hy
      simp only [tick, hsite, ← horg]
      omega
  | some u =>
      obtain ⟨-, -, hfar⟩ := (mem_insertions ..).mp (h.made r hr u hsite)
      obtain ⟨p, hp, rfl, -⟩ := mem_users.mp (mem_users_of_far hfar)
      have := hlt p hp
      simp only [tick, hsite]
      omega

/-- An argument is read no later than before. -/
theorem Traced.arg_live (h : FullyTraced below userSorter f.args.length f.body g body)
    (hssa : Ssa f.args.length f.body) (hkept : NoneLonger below userSorter argSize size f)
    (hi : f.args[i]? = some ty) (hpos : 0 < argSize ty) (hr : body[t]? = some r)
    (hlive : (Val.arg i).Live body t) :
    (Val.arg i).Live f.body (tick (timeOf f.body) (g r.id) / 2) := by
  refine ⟨Nat.zero_le _, ?_⟩
  rw [Val.defTime]
  rcases le_lastUse.mp hlive.2 with hzero | ⟨u, hu, htu⟩
  · -- nothing comes before the first operation of the original block
    obtain rfl : t = 0 := Nat.le_zero.mp hzero
    have hbody := List.mem_of_getElem? hr
    obtain ⟨y, hy, -⟩ := h.ops r hbody
    obtain ⟨o, ho⟩ : ∃ o, f.body[0]? = some o :=
      ⟨_, List.getElem?_eq_getElem (List.length_pos_of_ne_nil (List.ne_nil_of_mem hy))⟩
    have hmem : o ∈ f.body := List.mem_of_getElem? ho
    obtain ⟨o', ho', hid, -⟩ := h.pres.ops o hmem
    obtain ⟨j, hj⟩ := List.mem_iff_getElem?.mp ho'
    have hle := h.tick_mono (Nat.zero_le j) hr hj
    have hone : tick (timeOf f.body) (g o'.id) = 1 := by
      rw [hid, h.own o.id (mem_ids hmem), tick, timeOf_getElem hssa.nodup ho]
    omega
  · obtain ⟨p, hp, rfl, hv⟩ := mem_users.mp hu
    obtain ⟨j, hj⟩ := List.mem_iff_getElem?.mp hp
    rw [timeOf_getElem h.pres.ssa.nodup hj] at htu
    have hle := h.tick_mono htu hr hj
    obtain ⟨y, hy, horg, -, -, hpieces⟩ := h.ops p hp
    obtain ⟨w, hw, hpiece⟩ := exists_of_forall₂ hpieces hv
    have hread : Val.arg i ∈ y.operands := by
      cases w with
      | arg j => rwa [show Val.arg i = .arg j from hpiece]
      | res x k =>
          obtain ⟨_, heq, -⟩ := hpiece
          cases heq
    cases hsite : (g p.id).2 with
    | none =>
        have huse : timeOf f.body y.id ≤ lastUse f.body (.arg i) 0 :=
          le_lastUse.mpr (.inr ⟨y.id, mem_users.mpr ⟨y, hy, rfl, hread⟩, le_rfl⟩)
        have hclock : tick (timeOf f.body) (g p.id) = 2 * timeOf f.body y.id + 1 := by
          simp only [tick, hsite, horg]
        omega
    | some w =>
        have hmade := h.made p hp w hsite
        rw [← horg] at hmade
        obtain ⟨-, hremat, hfar⟩ := (mem_insertions ..).mp hmade
        have huse := timeOf_le_lastUseOf (mem_users_of_far hfar)
        have hend := hkept.args y hy hremat i ty hi hpos hread
        have hclock : tick (timeOf f.body) (g p.id) = 2 * timeOf f.body w := by
          simp only [tick, hsite]
        omega

/-- The result that a live result comes from is live when the clock says. -/
theorem Traced.result_live (h : FullyTraced below userSorter f.args.length f.body g body)
    (hssa : Ssa f.args.length f.body) (hsingle : CheapSingle f.body)
    (hkept : RangesKept below userSorter size f.body) (hq : q ∈ body)
    (hty : q.results[k]? = some ty) (hpos : 0 < size ty) (hr : body[t]? = some r)
    (hlive : (Val.res q.id k).Live body t) :
    ∃ x ∈ f.body, x.id = (g q.id).1 ∧ x.results[k]? = some ty ∧ HasBytes size x k ∧
      (Val.res x.id k).Live f.body (tick (timeOf f.body) (g r.id) / 2) := by
  obtain ⟨x, hx, horg, hres, -⟩ := h.ops q hq
  rw [hres] at hty
  have hbytes : HasBytes size x k := ⟨ty, hty, hpos⟩
  obtain ⟨r', hr', hlow, hhigh⟩ := h.tick_live hssa hsingle hkept hx hbytes horg.symm
    ((live_iff h.pres.ssa.nodup hq).mp hlive)
  obtain rfl : r = r' := Option.some.inj (hr.symm.trans hr')
  refine ⟨x, hx, horg, hty, hbytes, ?_, ?_⟩
  · rw [Val.defTime]
    omega
  · rw [Val.defTime, ← lastUseOf]
    omega

/-- No two values that are live together come from the same one. -/
theorem Traced.origin_ne (h : FullyTraced below userSorter f.args.length f.body g body)
    (hssa : Ssa f.args.length f.body) (hsingle : CheapSingle f.body)
    (hkept : RangesKept below userSorter size f.body) {q' : Op κ} (hq : q ∈ body)
    (hq' : q' ∈ body) (hne : q.id ≠ q'.id) (hty : q.results[k]? = some ty) (hpos : 0 < size ty)
    (hlive : (Val.res q.id k).Live body t) (hlive' : (Val.res q'.id k).Live body t) :
    (g q.id).1 ≠ (g q'.id).1 := by
  intro heq
  obtain ⟨x, hx, horg, hres, -⟩ := h.ops q hq
  have hbytes : HasBytes size x k := ⟨ty, hres ▸ hty, hpos⟩
  have hat := (live_iff h.pres.ssa.nodup hq).mp hlive
  have hat' := (live_iff h.pres.ssa.nodup hq').mp hlive'
  have horg' : x.id = (g q'.id).1 := horg.trans heq
  rcases lt_or_gt_of_ne (h.tick_ne hssa hsingle hkept hx hbytes hq hq' hne horg.symm horg'.symm)
    with hlt | hlt
  · exact h.pieces_apart hssa hsingle hkept hx hbytes horg.symm horg'.symm hlt hat hat'
  · exact h.pieces_apart hssa hsingle hkept hx hbytes horg'.symm horg.symm hlt hat' hat

/-- What is live at a point of the final block counts no more than what was live at the point
that the clock shows. -/
theorem Traced.liveBytes_le (h : FullyTraced below userSorter f.args.length f.body g body)
    (hssa : Ssa f.args.length f.body) (hsingle : CheapSingle f.body)
    (hkept : NoneLonger below userSorter argSize size f) {f' : Func κ}
    (hargs : f'.args = f.args) (hbody : f'.body = body) (hr : body[t]? = some r) :
    liveBytes argSize size f' t ≤
      liveBytes argSize size f (tick (timeOf f.body) (g r.id) / 2) := by
  subst hbody
  rw [liveBytes, liveBytes]
  refine sum_map_le_of_pairwise (f := fun p => (origin g p.1, p.2)) ?_ ?_
  · rintro ⟨v, ty⟩ hmem hcount
    obtain ⟨hlive, hcount⟩ := live_of_counted hcount
    rw [if_pos hlive]
    rcases mem_values.mp hmem with ⟨i, rfl, hi⟩ | ⟨q, hq, k, rfl, hty⟩
    · rw [hargs] at hi
      refine ⟨mem_values.mpr (.inl ⟨i, rfl, hi⟩), ?_⟩
      rw [origin, if_pos (h.arg_live hssa hkept hi hcount hr hlive)]
    · obtain ⟨x, hx, horg, hxty, -, hxlive⟩ :=
        h.result_live hssa hsingle hkept.toRangesKept hq hty hcount hr hlive
      rw [origin, ← horg]
      exact ⟨mem_values.mpr (.inr ⟨x, hx, k, rfl, hxty⟩), (if_pos hxlive).ge⟩
  · have hnodup := List.pairwise_map.mp (values_nodup (f := f') h.pres.ssa.nodup)
    refine hnodup.imp_of_mem ?_
    rintro ⟨v, ty⟩ ⟨v', ty'⟩ hmem hmem' hne hcount hcount' heq
    obtain ⟨hlive, hcount⟩ := live_of_counted hcount
    obtain ⟨hlive', -⟩ := live_of_counted hcount'
    obtain ⟨horigin, -⟩ := Prod.mk.inj heq
    rcases mem_values.mp hmem with ⟨i, rfl, -⟩ | ⟨q, hq, k, rfl, hty⟩
    · rcases mem_values.mp hmem' with ⟨j, rfl, -⟩ | ⟨q', hq', k', rfl, -⟩
      · exact hne (by rw [origin, origin] at horigin; exact horigin)
      · cases horigin
    · rcases mem_values.mp hmem' with ⟨j, rfl, -⟩ | ⟨q', hq', k', rfl, -⟩
      · cases horigin
      · obtain ⟨hsame, rfl⟩ := Val.res.inj horigin
        have hids : q.id ≠ q'.id := fun hid => hne (by rw [hid])
        exact h.origin_ne hssa hsingle hkept.toRangesKept hq hq' hids hty hcount hlive hlive' hsame

end Origin

/-- Rematerialisation does not raise the peak of live bytes when it makes no value live
longer and no two copies of a value are live together. -/
theorem rematPass_peak_le (f : Func κ) (hssa : Ssa f.args.length f.body)
    (hsingle : CheapSingle f.body) (hkept : NoneLonger below userSorter argSize size f) :
    peakBytes argSize size (rematPass below userSorter f) ≤ peakBytes argSize size f := by
  obtain ⟨g, h⟩ := rematPass_traced below userSorter f hssa hsingle
  refine peak_le fun t ht => ?_
  have hr := List.getElem?_eq_getElem ht
  calc liveBytes argSize size (rematPass below userSorter f) t
      ≤ liveBytes argSize size f _ := Traced.liveBytes_le h hssa hsingle hkept rfl rfl hr
    _ ≤ peakBytes argSize size f :=
        liveBytes_le_peak (Traced.time_lt h hssa (List.mem_of_getElem? hr))

/-- The bytes of a tensor, and none for what is not known before the run. -/
def staticBytes (ty : Ty) : Nat := ty.trueSize?.getD 0

/-- The far user comes while the argument is still needed. -/
def spareExample : Func Nat where
  args := [sixteen]
  body :=
    [{ id := 0, kind := .relu, operands := [.arg 0], results := [sixteen], bufferOffset := none },
     { id := 1, kind := .other 0, operands := [.res 0 0], results := [sixteen],
       bufferOffset := none },
     { id := 2, kind := .add, operands := [.res 0 0, .res 1 0], results := [sixteen],
       bufferOffset := none },
     { id := 3, kind := .other 1, operands := [.res 2 0, .arg 0], results := [],
       bufferOffset := none }]
  peakMemoryBytes := none
  rematOpsInserted := none

theorem rematPass_peak_le_spare :
    Rematted (fun n => n < 2) spareExample.body 0 ∧
      peakBytes staticBytes staticBytes (rematPass (fun n => n < 2) Sorter.stable spareExample) ≤
        peakBytes staticBytes staticBytes spareExample := by
  have hoperands : ∀ z ∈ spareExample.body, Rematted (fun n => n < 2) spareExample.body z.id →
      z.operands = [.arg 0] ∧
        lastUseOf spareExample.body z.id 0 ≤ lastUse spareExample.body (.arg 0) 0 ∧
        (farUsers Sorter.stable spareExample.body z.id).Nodup := by decide +kernel
  refine ⟨by decide +kernel, rematPass_peak_le _ _ _ _ spareExample (by decide +kernel)
    (by decide +kernel) ?_⟩
  exact {
    operands := fun z hz hr x hx k _ hv => by
      rw [(hoperands z hz hr).1] at hv
      exact absurd hv (by simp)
    siblings := fun z hz hr x hx _ _ hv => by
      rw [(hoperands z hz hr).1] at hv
      exact absurd hv (by simp)
    once := fun z hz hr _ => (hoperands z hz hr).2.2
    args := fun z hz hr i ty _ _ hv => by
      obtain ⟨hops, hend, -⟩ := hoperands z hz hr
      rw [hops] at hv
      obtain rfl : i = 0 := by simpa using hv
      exact hend }

/-- Operation `2` reads two tensors that nobody needs after it, and is read at the times `3`
and `10`. -/
def costlyExample : Func Nat where
  args := [sixteen]
  body :=
    [{ id := 0, kind := .other 0, operands := [.arg 0], results := [sixteen],
       bufferOffset := none },
     { id := 1, kind := .other 0, operands := [.arg 0], results := [sixteen],
       bufferOffset := none },
     { id := 2, kind := .add, operands := [.res 0 0, .res 1 0], results := [sixteen],
       bufferOffset := none },
     { id := 3, kind := .other 0, operands := [.res 2 0], results := [sixteen],
       bufferOffset := none }] ++
    ([4, 5, 6, 7, 8, 9].map fun i =>
      { id := i, kind := .other 1, operands := [.res 3 0], results := [],
        bufferOffset := none }) ++
    [{ id := 10, kind := .mul, operands := [.res 2 0, .res 3 0], results := [sixteen],
       bufferOffset := none },
     { id := 11, kind := .other 2, operands := [.res 10 0], results := [], bufferOffset := none }]
  peakMemoryBytes := none
  rematOpsInserted := none

/-- The clone in front of the far user keeps both of them, and the peak goes from three tensors
to four. -/
theorem costlyExample_peak :
    Ssa 1 costlyExample.body ∧ CheapSingle costlyExample.body ∧
      peakBytes staticBytes staticBytes costlyExample = 48 ∧
      peakBytes staticBytes staticBytes
        (rematPass (fun n => n < 8) Sorter.stable costlyExample) = 64 ∧
      ¬ peakBytes staticBytes staticBytes
          (rematPass (fun n => n < 8) Sorter.stable costlyExample) ≤
        peakBytes staticBytes staticBytes costlyExample := by
  have hbefore : peakBytes staticBytes staticBytes costlyExample = 48 := by decide +kernel
  have hafter : peakBytes staticBytes staticBytes
      (rematPass (fun n => n < 8) Sorter.stable costlyExample) = 64 := by decide +kernel
  refine ⟨by decide +kernel, by decide +kernel, hbefore, hafter, ?_⟩
  rw [hbefore, hafter]
  decide

end CrossMachine.Compiler
