import CrossMachine.Alloc.Arena

/-!
# The arena in 64 bits

`Arena::alloc` with addresses and sizes that wrap. Rounding the cursor up and adding the size
are the two sums that can pass `2 ^ 64`, and the test against the end only sees what is left of
them. Where neither does, `alloc` is that of the exact model; where one does and the rest is
above the end, both refuse. What remains is where the code goes wrong (`alloc_fits_iff`): it
hands out a block that leaves the slab and puts the cursor in front of it.
-/

namespace CrossMachine.Alloc.Words

/-- The addresses are `uintptr_t`. -/
structure Arena where
  base : UInt64
  cursor : UInt64
  stop : UInt64
  deriving DecidableEq, Repr

/-- A power of two. -/
structure Align where
  value : UInt64
  pow : ∃ k < 64, value.toNat = 2 ^ k

namespace Arena

/-- The arena on the slab that `mmap` returned, or null. -/
def create (base capacity : UInt64) : Arena :=
  ⟨base, base, if base ≠ 0 then base + capacity else 0⟩

def alignUp (p align : UInt64) : UInt64 := (p + align - 1) &&& ~~~(align - 1)

def alloc (a : Arena) (size align : UInt64) : UInt64 × Arena :=
  let p := alignUp a.cursor align
  if p + size > a.stop then (0, a) else (p, { a with cursor := p + size })

def reset (a : Arena) : Arena := { a with cursor := a.base }

/-- The addresses without a bound. -/
def exact (a : Arena) : Slab.Arena := ⟨a.base.toNat, a.cursor.toNat, a.stop.toNat⟩

end Arena

inductive Call where
  | alloc (size : UInt64) (align : Align)
  | reset

def Arena.step (a : Arena) : Call → Arena
  | .alloc size align => (a.alloc size align.value).2
  | .reset => a.reset

/-! ## Rounding up -/

variable {a : Arena} {size : UInt64} {align : Align}

theorem toNat_land_not (x m : UInt64) : (x &&& ~~~m).toNat = Nat.ldiff x.toNat m.toNat := by
  refine Nat.eq_of_testBit_eq fun i => ?_
  have hm := m.toNat_lt
  rw [UInt64.toNat_and, UInt64.toNat_not, Nat.testBit_and, Nat.testBit_ldiff]
  have hnot : UInt64.size - 1 - m.toNat = 2 ^ 64 - (m.toNat + 1) := by
    rw [UInt64.size]
    omega
  by_cases hi : i < 64
  · rw [hnot, Nat.testBit_two_pow_sub_succ hm, decide_eq_true hi, Bool.true_and]
  · have hx : x.toNat.testBit i = false := Nat.testBit_lt_two_pow
      (x.toNat_lt.trans_le (Nat.pow_le_pow_right (by decide) (by omega)))
    rw [hx, Bool.false_and, Bool.false_and]

/-- The cursor is rounded up, and wraps. -/
theorem toNat_alignUp (p : UInt64) (align : Align) :
    (Arena.alignUp p align.value).toNat =
      Slab.Arena.alignUp p.toNat align.value.toNat % 2 ^ 64 := by
  obtain ⟨k, hk, hpow⟩ := align.pow
  have hpos := Nat.two_pow_pos k
  have hp := p.toNat_lt
  have hlt : 2 ^ k < 2 ^ 64 := Nat.pow_lt_pow_right (by decide) hk
  have hmask : (align.value - 1).toNat = 2 ^ k - 1 := by
    rw [UInt64.toNat_sub_of_le _ _ (by rw [UInt64.le_iff_toNat_le, hpow]; exact hpos), hpow]
    rfl
  have hsum : (p + align.value - 1).toNat = (p.toNat + 2 ^ k - 1) % 2 ^ 64 := by
    have hone : (1 : UInt64).toNat = 1 := rfl
    rw [UInt64.toNat_sub, UInt64.toNat_add, hpow, hone]
    omega
  have hword : 2 ^ 64 = 2 ^ k * 2 ^ (64 - k) := by rw [← Nat.pow_add]; congr 1; omega
  rw [Arena.alignUp, toNat_land_not, hmask, hsum, Lib.ldiff_two_pow_pred,
    Slab.Arena.alignUp, hpow,
    Lib.ldiff_two_pow_pred, hword, Nat.mod_mul_right_div_self, Nat.mul_mod_mul_left]

/-- The cursor rounded up, without a bound. -/
def Arena.top (a : Arena) (align : Align) : Nat :=
  Slab.Arena.alignUp a.cursor.toNat align.value.toNat

theorem Arena.top_spec (a : Arena) (align : Align) :
    a.cursor.toNat ≤ a.top align ∧ align.value.toNat ∣ a.top align ∧ a.top align ≤ 2 ^ 64 ∧
      a.top align < a.cursor.toNat + align.value.toNat := by
  obtain ⟨k, hk, hpow⟩ := align.pow
  have hpos := Nat.two_pow_pos k
  have hc := a.cursor.toNat_lt
  have hup : a.top align = 2 ^ k * ((a.cursor.toNat + 2 ^ k - 1) / 2 ^ k) := by
    rw [top, Slab.Arena.alignUp, hpow, Lib.ldiff_two_pow_pred]
  have hmod := Nat.div_add_mod (a.cursor.toNat + 2 ^ k - 1) (2 ^ k)
  have hlt := Nat.mod_lt (a.cursor.toNat + 2 ^ k - 1) hpos
  rw [hpow, hup]
  refine ⟨by omega, Nat.dvd_mul_right _ _, ?_, by omega⟩
  -- `2 ^ 64` is a multiple of the alignment, and less than one step above the cursor's last
  have hword : 2 ^ 64 = 2 ^ k * 2 ^ (64 - k) := by rw [← Nat.pow_add]; congr 1; omega
  rw [hword] at hc ⊢
  refine Nat.mul_le_mul_left _ (Nat.lt_succ_iff.mp ?_)
  rw [Nat.div_lt_iff_lt_mul hpos, Nat.succ_mul, Nat.mul_comm]
  omega

/-! ## One allocation -/

namespace Arena

/-- The cursor is in the slab; a slab that could not be mapped is empty. -/
structure Bounded (a : Arena) : Prop where
  base_le : a.base.toNat ≤ a.cursor.toNat
  le_stop : a.cursor.toNat ≤ a.stop.toNat
  null : a.base = 0 → a.stop = 0

/-- What `alloc` is to do: it returns null and leaves the cursor, or it returns an aligned block
of the slab; and the cursor goes up, to the end of the slab at most. -/
def Fits (a : Arena) (size : UInt64) (align : Align) : Prop :=
  ((a.alloc size align.value).1 = 0 ∧ (a.alloc size align.value).2.cursor = a.cursor ∨
    (a.alloc size align.value).1 ≠ 0 ∧
      align.value.toNat ∣ (a.alloc size align.value).1.toNat ∧
      a.base.toNat ≤ (a.alloc size align.value).1.toNat ∧
      (a.alloc size align.value).1.toNat + size.toNat ≤ a.stop.toNat) ∧
  a.cursor.toNat ≤ (a.alloc size align.value).2.cursor.toNat ∧
  (a.alloc size align.value).2.cursor.toNat ≤ a.stop.toNat

/-- The aligned cursor and the size stay below `2 ^ 64`, or what is left of their sum is
above the end, or the cursor is rounded up to `0` and the size is what it was before. -/
def NoWrap (a : Arena) (size : UInt64) (align : Align) : Prop :=
  a.top align + size.toNat < 2 ^ 64 ∨
  a.stop.toNat + 2 ^ 64 < a.top align + size.toNat ∨
  a.top align = 2 ^ 64 ∧ size = a.cursor

/-- What `alloc` computes. -/
theorem alloc_cases (a : Arena) (size : UInt64) (align : Align) :
    (a.stop.toNat < (a.top align + size.toNat) % 2 ^ 64 ∧ a.alloc size align.value = (0, a)) ∨
    ∃ p q, (a.top align + size.toNat) % 2 ^ 64 ≤ a.stop.toNat ∧
      a.alloc size align.value = (p, { a with cursor := q }) ∧
      p.toNat = a.top align % 2 ^ 64 ∧ q.toNat = (a.top align + size.toNat) % 2 ^ 64 := by
  have hp : (Arena.alignUp a.cursor align.value).toNat = a.top align % 2 ^ 64 :=
    toNat_alignUp _ _
  have hq : (Arena.alignUp a.cursor align.value + size).toNat =
      (a.top align + size.toNat) % 2 ^ 64 := by
    rw [UInt64.toNat_add, hp, Nat.mod_add_mod]
  unfold alloc
  by_cases hfull : Arena.alignUp a.cursor align.value + size > a.stop
  · have hlt := UInt64.lt_iff_toNat_lt.mp hfull
    rw [hq] at hlt
    exact .inl ⟨hlt, if_pos hfull⟩
  · have hle := mt UInt64.lt_iff_toNat_lt.mpr hfull
    rw [hq] at hle
    exact .inr ⟨_, _, Nat.not_lt.mp hle, if_neg hfull, hp, hq⟩

variable {a : Arena} {size : UInt64} {align : Align}

/-- **When an allocation is right**: exactly when neither sum wraps, or what is left of it is
above the end, or it leaves the cursor where it was. -/
theorem alloc_fits_iff (h : a.Bounded) : a.Fits size align ↔ a.NoWrap size align := by
  obtain ⟨hup, hdvd, hword, -⟩ := a.top_spec align
  have hsize := size.toNat_lt
  have hstop := a.stop.toNat_lt
  have hcursor := a.cursor.toNat_lt
  have hbase := h.base_le
  have hle := h.le_stop
  unfold NoWrap
  generalize htop : a.top align = top at hup hdvd hword ⊢
  rcases a.alloc_cases size align with ⟨hlt, heq⟩ | ⟨p, q, hfit, heq, hp, hq⟩
  · -- refused
    rw [htop] at hlt
    have hfits : a.Fits size align := by
      rw [Fits, heq]
      exact ⟨.inl ⟨rfl, rfl⟩, Nat.le_refl _, hle⟩
    exact iff_of_true hfits (by omega)
  · rw [htop] at hfit hp hq
    rw [Fits, heq]
    by_cases hnone : top + size.toNat < 2 ^ 64
    · -- neither sum wraps
      rw [Nat.mod_eq_of_lt hnone] at hfit hq
      rw [Nat.mod_eq_of_lt (by omega)] at hp
      refine iff_of_true ⟨?_, by rw [hq]; omega, by rw [hq]; exact hfit⟩ (.inl hnone)
      by_cases hnull : p = 0
      · refine .inl ⟨hnull, UInt64.toNat_inj.mp ?_⟩
        have hzero : p.toNat = 0 := by rw [hnull]; rfl
        have hb : a.base = 0 := UInt64.toNat_inj.mp (by rw [UInt64.toNat_zero]; omega)
        have hs : a.stop.toNat = 0 := by rw [h.null hb]; rfl
        rw [hq]
        omega
      · exact .inr ⟨hnull, hp ▸ hdvd, by rw [hp]; omega, by rw [hp]; exact hfit⟩
    · -- the sum wraps, and what is left of it is in the slab
      have hq' : q.toNat = top + size.toNat - 2 ^ 64 := by omega
      constructor
      · rintro ⟨⟨hnull, hsame⟩ | ⟨hne, -, -, hin⟩, hup', -⟩
        · refine .inr (.inr ?_)
          have hzero : p.toNat = 0 := congrArg UInt64.toNat hnull
          have htop' : top = 2 ^ 64 := by omega
          refine ⟨htop', UInt64.toNat_inj.mp ?_⟩
          have hcur : q.toNat = a.cursor.toNat := congrArg UInt64.toNat hsame
          omega
        · have hpos : p.toNat ≠ 0 := fun hz => hne (UInt64.toNat_inj.mp hz)
          simp only at hin hup'
          omega
      · rintro (hlt | hlt | ⟨htop', hsame⟩)
        · exact absurd hlt hnone
        · omega
        · have hq'' : q.toNat = a.cursor.toNat := by rw [hq', htop', hsame]; omega
          refine ⟨.inl ⟨UInt64.toNat_inj.mp ?_, UInt64.toNat_inj.mp hq''⟩, by rw [hq''],
            by rw [hq'']; exact hle⟩
          rw [hp, htop']
          rfl

/-- Where neither sum wraps, or what is left is above the end, it is the exact allocation. -/
theorem alloc_exact (h : a.Bounded) (hno : a.NoWrap size align) :
    (a.alloc size align.value).1.toNat = (a.exact.alloc size.toNat align.value.toNat).1 ∧
      (a.alloc size align.value).2.exact = (a.exact.alloc size.toNat align.value.toNat).2 := by
  obtain ⟨-, -, hword, -⟩ := a.top_spec align
  have hsize := size.toNat_lt
  have hstop := a.stop.toNat_lt
  have hle := h.le_stop
  have htop : Slab.Arena.alignUp a.exact.cursor align.value.toNat = a.top align := rfl
  have hend : a.exact.stop = a.stop.toNat := rfl
  unfold NoWrap at hno
  unfold Slab.Arena.alloc
  rw [htop, hend]
  rcases a.alloc_cases size align with ⟨hlt, heq⟩ | ⟨p, q, hfit, heq, hp, hq⟩
  · rw [heq, if_pos (by omega)]
    exact ⟨rfl, rfl⟩
  · rw [heq]
    by_cases hnone : a.top align + size.toNat < 2 ^ 64
    · rw [Nat.mod_eq_of_lt hnone] at hfit hq
      rw [Nat.mod_eq_of_lt (by omega)] at hp
      rw [if_neg (by omega)]
      exact ⟨hp, congrArg (Slab.Arena.mk a.base.toNat · a.stop.toNat) hq⟩
    · rcases hno with hlt | hlt | ⟨hfull, rfl⟩
      · exact absurd hlt hnone
      · omega
      · -- the exact arena is full here
        have hcur : q.toNat = a.cursor.toNat := by omega
        rw [if_pos (by omega), hp, hfull]
        exact ⟨rfl, congrArg (Slab.Arena.mk a.base.toNat · a.stop.toNat) hcur⟩

/-! ## A run -/

theorem Bounded.create {base capacity : UInt64}
    (hfit : base.toNat + capacity.toNat < 2 ^ 64) : (create base capacity).Bounded := by
  unfold Arena.create
  split
  · next hne =>
      have hsum : (base + capacity).toNat = base.toNat + capacity.toNat := by
        rw [UInt64.toNat_add, Nat.mod_eq_of_lt hfit]
      exact ⟨Nat.le_refl _, by simp only [hsum]; omega, fun hnull => absurd hnull hne⟩
  · next hnull =>
      rw [not_not] at hnull
      exact ⟨Nat.le_refl _, by simp only [hnull]; exact Nat.le_refl _, fun _ => rfl⟩

theorem Bounded.reset (h : a.Bounded) : a.reset.Bounded :=
  ⟨Nat.le_refl _, h.base_le.trans h.le_stop, h.null⟩

theorem Bounded.alloc (h : a.Bounded) (hfits : a.Fits size align) :
    (a.alloc size align.value).2.Bounded := by
  obtain ⟨-, hup, hend⟩ := hfits
  rcases a.alloc_cases size align with ⟨-, heq⟩ | ⟨p, q, -, heq, -⟩
  · rw [heq]
    exact h
  · rw [heq] at hup hend ⊢
    exact ⟨h.base_le.trans hup, hend, h.null⟩

/-- Every allocation of a sequence of calls satisfies `P`, with the arena as it is before it. -/
def Always (P : Arena → UInt64 → Align → Prop) (a : Arena) : List Call → Prop
  | [] => True
  | .alloc size align :: cs => P a size align ∧ Always P (a.step (.alloc size align)) cs
  | .reset :: cs => Always P (a.step .reset) cs

theorem always_fits_iff {cs : List Call} (h : a.Bounded) :
    Always Fits a cs ↔ Always NoWrap a cs := by
  induction cs generalizing a with
  | nil => exact Iff.rfl
  | cons c cs ih =>
      cases c with
      | alloc size align =>
          simp only [Always]
          rw [alloc_fits_iff h]
          exact and_congr_right fun hno => ih (h.alloc ((alloc_fits_iff h).mpr hno))
      | reset => exact ih h.reset

/-- The cursor is in the slab after every such run. -/
theorem Bounded.run {cs : List Call} (h : a.Bounded) (hall : Always Fits a cs) :
    (cs.foldl step a).Bounded := by
  induction cs generalizing a with
  | nil => exact h
  | cons c cs ih =>
      cases c with
      | alloc size align => exact ih (h.alloc hall.1) hall.2
      | reset => exact ih h.reset hall

/-- **Which runs are right.** On any slab, every allocation of a run returns null and leaves the
cursor, or returns an aligned block of the slab, with the cursor going up to the end at most,
exactly when no sum of the run wraps into the slab; and then the cursor ends up in the slab. -/
theorem run_fits_iff {base capacity : UInt64} (hfit : base.toNat + capacity.toNat < 2 ^ 64)
    (cs : List Call) :
    (Always Fits (create base capacity) cs ∧ (cs.foldl step (create base capacity)).Bounded) ↔
      Always NoWrap (create base capacity) cs := by
  have hbounded := Bounded.create hfit
  rw [← always_fits_iff hbounded]
  exact ⟨And.left, fun hall => ⟨hall, hbounded.run hall⟩⟩

/-- `alignof(std::max_align_t)`. -/
def maxAlign : Align := ⟨16, 4, by decide, rfl⟩

theorem noWrap_of_le (h : a.cursor.toNat + align.value.toNat + size.toNat ≤ 2 ^ 64) :
    a.NoWrap size align := by
  obtain ⟨-, -, -, hlt⟩ := a.top_spec align
  exact .inl (by omega)

/-- A block, one that does not fit, and one after a reset. -/
theorem run_fits_page :
    Always Fits (create 4096 4096) [.alloc 100 maxAlign, .alloc 5000 maxAlign, .reset,
      .alloc 4096 maxAlign] ∧
    ([.alloc 100 maxAlign, .alloc 5000 maxAlign, .reset, .alloc 4096 maxAlign].foldl step
      (create 4096 4096)).Bounded :=
  (run_fits_iff (by decide) _).mpr ⟨noWrap_of_le (by decide), noWrap_of_le (by decide +kernel),
    noWrap_of_le (by decide +kernel), trivial⟩

/-- A size that takes the cursor to `2 ^ 64`: the block starts at the slab and does not end in
it, and the cursor is `0`. -/
theorem alloc_wraps :
    (create 4096 4096).alloc 0xfffffffffffff000 maxAlign.value = (4096, ⟨4096, 0, 8192⟩) ∧
      ¬ Always Fits (create 4096 4096) [.alloc 0xfffffffffffff000 maxAlign] := by
  have halloc : (create 4096 4096).alloc 0xfffffffffffff000 maxAlign.value =
      (4096, ⟨4096, 0, 8192⟩) := by decide +kernel
  refine ⟨halloc, fun hall => ?_⟩
  have hup := hall.1.2.1
  rw [halloc] at hup
  exact absurd hup (by decide)

end Arena

end CrossMachine.Alloc.Words
