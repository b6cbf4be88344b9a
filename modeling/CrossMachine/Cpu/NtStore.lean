import Mathlib.Algebra.Order.Ring.Nat
import Mathlib.Data.List.Range
import Mathlib.Tactic.Common

/-!
# Non-temporal stores

`nt_memset` and `nt_memcpy` of `nt_store.h`: bytes up to the first aligned address, four vectors at
a time, one vector at a time, and bytes again. Where a phase ends is computed by masking what is
left. All of them push the same boundary upwards: what is below it has been written, and nothing
else has (`Upto`).

The two are one routine here that reads the bytes it writes from somewhere, `nt_memset` from its
fill byte, and the AVX and SSE2 paths differ in the width of a vector, `2 ^ e` bytes. Addresses are
numbers: a buffer does not wrap around the end of memory. The stores are recorded.
-/

namespace CrossMachine.Cpu

abbrev Bytes := Nat → UInt8

/-- Memory, the stores that have been made with their widths, and the two pointers. -/
structure Cursor where
  mem : Bytes
  stores : List (Nat × Nat)
  d : Nat
  s : Nat

/-- A store of `n` bytes, which are loaded before, and both pointers moved on. -/
def Cursor.put (read : Bytes → Bytes) (n : Nat) (c : Cursor) : Cursor where
  mem x := if c.d ≤ x ∧ x < c.d + n then read c.mem (c.s + (x - c.d)) else c.mem x
  stores := c.stores ++ [(c.d, n)]
  d := c.d + n
  s := c.s + n

section

variable (read : Bytes → Bytes) (e finish : Nat)

/-- `while (p < end && (p & (width - 1)) != 0)` -/
def headLoop (c : Cursor) : Cursor :=
  if c.d < finish ∧ c.d &&& (2 ^ e - 1) ≠ 0 then headLoop (c.put read 1) else c
termination_by finish - c.d
decreasing_by
  simp only [Cursor.put]
  omega

/-- Four vectors at a time. -/
def mainLoop (limit : Nat) (c : Cursor) : Cursor :=
  if c.d < limit then
    mainLoop limit
      ((((c.put read (2 ^ e)).put read (2 ^ e)).put read (2 ^ e)).put read (2 ^ e))
  else c
termination_by limit - c.d
decreasing_by
  have := Nat.two_pow_pos e
  simp only [Cursor.put]
  omega

/-- One vector at a time. -/
def blockLoop (limit : Nat) (c : Cursor) : Cursor :=
  if c.d < limit then blockLoop limit (c.put read (2 ^ e)) else c
termination_by limit - c.d
decreasing_by
  have := Nat.two_pow_pos e
  simp only [Cursor.put]
  omega

def tailLoop (c : Cursor) : Cursor :=
  if c.d < finish then tailLoop (c.put read 1) else c
termination_by finish - c.d
decreasing_by
  simp only [Cursor.put]
  omega

/-- The four phases. -/
def streamed (size : Nat) (c : Cursor) : Cursor :=
  if size = 0 then c
  else
    let finish := c.d + size
    let c := headLoop read e finish c
    let c := mainLoop read e (finish - ((finish - c.d) &&& (2 ^ (e + 2) - 1))) c
    let c := blockLoop read e (finish - ((finish - c.d) &&& (2 ^ e - 1))) c
    tailLoop read finish c

end

inductive Isa where
  | avx
  | sse2

/-- A vector has `2 ^ 5` or `2 ^ 4` bytes. -/
def Isa.logWidth : Isa → Nat
  | avx => 5
  | sse2 => 4

def ntMemset (isa : Isa) (mem : Bytes) (dst : Nat) (fillByte : UInt8) (size : Nat) : Cursor :=
  streamed (fun _ _ => fillByte) isa.logWidth size ⟨mem, [], dst, 0⟩

def ntMemcpy (isa : Isa) (mem : Bytes) (dst src size : Nat) : Cursor :=
  streamed (fun mem => mem) isa.logWidth size ⟨mem, [], dst, src⟩

/-- `std::memset` -/
def memset (mem : Bytes) (dst : Nat) (fillByte : UInt8) (size : Nat) : Bytes := fun x =>
  if dst ≤ x ∧ x < dst + size then fillByte else mem x

/-- `std::memcpy` -/
def memcpy (mem : Bytes) (dst src size : Nat) : Bytes := fun x =>
  if dst ≤ x ∧ x < dst + size then mem (src + (x - dst)) else mem x

/-! ## The boundary -/

/-- The bytes from `dst` to the pointer have been written, with what was to be read at first, and
no others; wide stores are aligned. -/
structure Upto (read : Bytes → Bytes) (e dst src size : Nat) (mem : Bytes) (c : Cursor) : Prop where
  ge : dst ≤ c.d
  le : c.d ≤ dst + size
  source : c.s = src + (c.d - dst)
  mem : ∀ x, c.mem x = if dst ≤ x ∧ x < c.d then read mem (src + (x - dst)) else mem x
  written : ∀ x, (∃ st ∈ c.stores, st.1 ≤ x ∧ x < st.1 + st.2) ↔ dst ≤ x ∧ x < c.d
  wide : ∀ st ∈ c.stores, st.2 ≠ 1 → st.2 = 2 ^ e ∧ 2 ^ e ∣ st.1

/-- What is read does not depend on the destination. -/
def Apart (read : Bytes → Bytes) (dst src size : Nat) : Prop :=
  ∀ mem mem' : Bytes, (∀ x, ¬ (dst ≤ x ∧ x < dst + size) → mem x = mem' x) →
    ∀ o < size, read mem (src + o) = read mem' (src + o)

variable {read : Bytes → Bytes} {e dst src size : Nat} {mem : Bytes} {c : Cursor}

/-- A store inside the destination moves the boundary. -/
theorem Upto.put (h : Upto read e dst src size mem c) (hread : Apart read dst src size) {n : Nat}
    (hle : c.d + n ≤ dst + size) (hwide : n ≠ 1 → n = 2 ^ e ∧ 2 ^ e ∣ c.d) :
    Upto read e dst src size mem (c.put read n) := by
  have hge := h.ge
  have hsame : ∀ o < size, read c.mem (src + o) = read mem (src + o) := by
    refine hread c.mem mem fun x hx => ?_
    have := h.le
    rw [h.mem x, if_neg (by omega)]
  refine ⟨Nat.le_add_right_of_le hge, hle, ?_, fun x => ?_, fun x => ?_, fun st hst hone => ?_⟩
  · simp only [Cursor.put, h.source]
    omega
  · show (if c.d ≤ x ∧ x < c.d + n then read c.mem (c.s + (x - c.d)) else c.mem x) =
      if dst ≤ x ∧ x < c.d + n then read mem (src + (x - dst)) else mem x
    by_cases hx : c.d ≤ x ∧ x < c.d + n
    · rw [if_pos hx, if_pos (by omega), h.source,
        show src + (c.d - dst) + (x - c.d) = src + (x - dst) by omega]
      exact hsame _ (by omega)
    · rw [if_neg hx, h.mem x]
      exact if_congr (by omega) rfl rfl
  · simp only [Cursor.put, List.mem_append, List.mem_singleton, or_and_right, exists_or,
      exists_eq_left, h.written x]
    omega
  · rcases List.mem_append.mp hst with hst | hst
    · exact h.wide st hst hone
    · obtain rfl := List.mem_singleton.mp hst
      exact hwide hone

/-! ## The phases -/

/-- The head stops at the end, or at an aligned address. -/
theorem headLoop_upto (hread : Apart read dst src size) (h : Upto read e dst src size mem c) :
    Upto read e dst src size mem (headLoop read e (dst + size) c) ∧
      ((headLoop read e (dst + size) c).d = dst + size ∨
        2 ^ e ∣ (headLoop read e (dst + size) c).d) := by
  fun_induction headLoop read e (dst + size) c with
  | case1 c hmore ih => exact ih (h.put hread hmore.1 fun hone => absurd rfl hone)
  | case2 c hstop =>
      refine ⟨h, ?_⟩
      have hle := h.le
      rw [Nat.and_two_pow_sub_one_eq_mod] at hstop
      by_cases hlt : c.d < dst + size
      · exact .inr (Nat.dvd_of_mod_eq_zero (by_contra fun hne => hstop ⟨hlt, hne⟩))
      · exact .inl (by omega)

/-- A store of a vector at an aligned address. -/
theorem Upto.putVector (h : Upto read e dst src size mem c) (hread : Apart read dst src size)
    (haligned : 2 ^ e ∣ c.d) (hle : c.d + 2 ^ e ≤ dst + size) :
    Upto read e dst src size mem (c.put read (2 ^ e)) ∧ 2 ^ e ∣ (c.put read (2 ^ e)).d :=
  ⟨h.put hread hle fun _ => ⟨rfl, haligned⟩, Nat.dvd_add haligned (Nat.dvd_refl _)⟩

theorem blockLoop_upto (hread : Apart read dst src size) (k : Nat)
    (h : Upto read e dst src size mem c) (hle : c.d + k * 2 ^ e ≤ dst + size)
    (haligned : k ≠ 0 → 2 ^ e ∣ c.d) :
    Upto read e dst src size mem (blockLoop read e (c.d + k * 2 ^ e) c) ∧
      (blockLoop read e (c.d + k * 2 ^ e) c).d = c.d + k * 2 ^ e := by
  induction k generalizing c with
  | zero =>
      rw [blockLoop, if_neg (by omega)]
      exact ⟨h, by omega⟩
  | succ k ih =>
      have hwidth := Nat.two_pow_pos e
      have hsplit : c.d + (k + 1) * 2 ^ e = (c.put read (2 ^ e)).d + k * 2 ^ e := by
        simp only [Cursor.put, Nat.succ_mul]
        omega
      have hmore : c.d < c.d + (k + 1) * 2 ^ e := by
        rw [Nat.succ_mul]
        omega
      obtain ⟨hput, hdvd⟩ := h.putVector hread (haligned k.succ_ne_zero)
        (by rw [Nat.succ_mul] at hle; omega)
      rw [blockLoop, if_pos hmore, hsplit]
      exact ih hput (hsplit ▸ hle) fun _ => hdvd

theorem mainLoop_upto (hread : Apart read dst src size) (k : Nat)
    (h : Upto read e dst src size mem c) (hle : c.d + k * 2 ^ (e + 2) ≤ dst + size)
    (haligned : k ≠ 0 → 2 ^ e ∣ c.d) :
    Upto read e dst src size mem (mainLoop read e (c.d + k * 2 ^ (e + 2)) c) ∧
      (mainLoop read e (c.d + k * 2 ^ (e + 2)) c).d = c.d + k * 2 ^ (e + 2) := by
  induction k generalizing c with
  | zero =>
      rw [mainLoop, if_neg (by omega)]
      exact ⟨h, by omega⟩
  | succ k ih =>
      have hwidth := Nat.two_pow_pos e
      have hfour : (k + 1) * 2 ^ (e + 2) = k * 2 ^ (e + 2) + 4 * 2 ^ e := by
        rw [Nat.succ_mul, Nat.pow_add, Nat.mul_comm (2 ^ e)]
      -- each of the four stores keeps the invariant and the alignment
      obtain ⟨h₁, hd₁⟩ := h.putVector hread (haligned k.succ_ne_zero) (by omega)
      obtain ⟨h₂, hd₂⟩ := h₁.putVector hread hd₁ (by simp only [Cursor.put]; omega)
      obtain ⟨h₃, hd₃⟩ := h₂.putVector hread hd₂ (by simp only [Cursor.put]; omega)
      obtain ⟨h₄, hd₄⟩ := h₃.putVector hread hd₃ (by simp only [Cursor.put]; omega)
      have hsplit : c.d + (k + 1) * 2 ^ (e + 2) =
          ((((c.put read (2 ^ e)).put read (2 ^ e)).put read (2 ^ e)).put read (2 ^ e)).d +
            k * 2 ^ (e + 2) := by
        simp only [Cursor.put]
        omega
      rw [mainLoop, if_pos (by omega), hsplit]
      exact ih h₄ (hsplit ▸ hle) fun _ => hd₄

theorem tailLoop_upto (hread : Apart read dst src size) (h : Upto read e dst src size mem c) :
    Upto read e dst src size mem (tailLoop read (dst + size) c) ∧
      (tailLoop read (dst + size) c).d = dst + size := by
  fun_induction tailLoop read (dst + size) c with
  | case1 c hmore ih => exact ih (h.put hread hmore fun hone => absurd rfl hone)
  | case2 c hstop => exact ⟨h, Nat.le_antisymm h.le (Nat.le_of_not_lt hstop)⟩

/-- What masking leaves is a whole number of blocks. -/
theorem sub_and_mask (finish d n : Nat) (hle : d ≤ finish) :
    finish - ((finish - d) &&& (2 ^ n - 1)) = d + (finish - d) / 2 ^ n * 2 ^ n := by
  have hdiv := Nat.div_add_mod (finish - d) (2 ^ n)
  rw [Nat.and_two_pow_sub_one_eq_mod, Nat.mul_comm]
  omega

theorem streamed_upto (hread : Apart read dst src size) (h : Upto read e dst src size mem c)
    (hd : c.d = dst) :
    Upto read e dst src size mem (streamed read e size c) ∧
      (streamed read e size c).d = dst + size := by
  unfold streamed
  by_cases hsize : size = 0
  · rw [if_pos hsize]
    exact ⟨h, by omega⟩
  · rw [if_neg hsize, hd]
    dsimp only
    obtain ⟨h₁, hstop⟩ := headLoop_upto hread h
    generalize headLoop read e (dst + size) c = c₁ at h₁ hstop ⊢
    -- where the head has stopped at the end there is nothing for the vectors to do
    have haligned {n : Nat} (hk : (dst + size - c₁.d) / n ≠ 0) : 2 ^ e ∣ c₁.d := by
      rcases hstop with hend | hdvd
      · exact absurd (by rw [hend, Nat.sub_self, Nat.zero_div]) hk
      · exact hdvd
    have hmask₁ := sub_and_mask (dst + size) c₁.d (e + 2) h₁.le
    obtain ⟨h₂, hd₂⟩ := mainLoop_upto hread _ h₁ (hmask₁ ▸ Nat.sub_le _ _) haligned
    rw [hmask₁]
    generalize mainLoop read e _ c₁ = c₂ at h₂ hd₂ ⊢
    have hmask₂ := sub_and_mask (dst + size) c₂.d e h₂.le
    have haligned₂ (hk : (dst + size - c₂.d) / 2 ^ e ≠ 0) : 2 ^ e ∣ c₂.d := by
      rw [hd₂]
      refine Nat.dvd_add ?_ (Dvd.dvd.mul_left (Nat.pow_dvd_pow 2 (by omega)) _)
      rcases hstop with hend | hdvd
      · refine absurd ?_ hk
        rw [hd₂, hend, Nat.sub_self, Nat.zero_div, Nat.zero_mul, Nat.add_zero, Nat.sub_self,
          Nat.zero_div]
      · exact hdvd
    obtain ⟨h₃, -⟩ := blockLoop_upto hread _ h₂ (hmask₂ ▸ Nat.sub_le _ _) haligned₂
    rw [hmask₂]
    exact tailLoop_upto hread h₃

/-! ## The plain routines -/

/-- The bytes of the destination and no others have been written, memory is as `plain` says, and
wide stores are aligned and inside. -/
structure Faithful (width dst size : Nat) (plain : Bytes) (c : Cursor) : Prop where
  mem : c.mem = plain
  written : ∀ x, (∃ st ∈ c.stores, st.1 ≤ x ∧ x < st.1 + st.2) ↔ dst ≤ x ∧ x < dst + size
  wide : ∀ st ∈ c.stores, st.2 ≠ 1 →
    st.2 = width ∧ width ∣ st.1 ∧ dst ≤ st.1 ∧ st.1 + st.2 ≤ dst + size

/-- What is written at `x` is what was to be read for it. -/
theorem streamed_faithful (hread : Apart read dst src size) :
    Faithful (2 ^ e) dst size
      (fun x => if dst ≤ x ∧ x < dst + size then read mem (src + (x - dst)) else mem x)
      (streamed read e size ⟨mem, [], dst, src⟩) := by
  obtain ⟨h, hd⟩ := streamed_upto (c := ⟨mem, [], dst, src⟩) (e := e) hread
    ⟨Nat.le_refl dst, Nat.le_add_right _ _, by simp,
      fun x => (if_neg fun hx => Nat.not_lt.mpr hx.1 hx.2).symm, fun x => by simp, by simp⟩ rfl
  have hwritten := h.written
  rw [hd] at hwritten
  refine ⟨funext fun x => ?_, hwritten, fun st hst hone => ?_⟩
  · rw [h.mem, hd]
  · obtain ⟨hwidth, hdvd⟩ := h.wide st hst hone
    have hpos := Nat.two_pow_pos e
    -- the first and the last byte of the store are in the destination
    have hfirst := (hwritten st.1).mp ⟨st, hst, Nat.le_refl _, by omega⟩
    have hlast := (hwritten (st.1 + st.2 - 1)).mp ⟨st, hst, by omega, by omega⟩
    exact ⟨hwidth, hdvd, hfirst.1, by omega⟩

/-- The routines that go around the cache do what the plain ones do, at any alignment of either
pointer and any size. -/
theorem ntStore_plain (isa : Isa) (mem : Bytes) (dst size : Nat) :
    (∀ fillByte, Faithful (2 ^ isa.logWidth) dst size (memset mem dst fillByte size)
      (ntMemset isa mem dst fillByte size)) ∧
    (∀ src, dst + size ≤ src ∨ src + size ≤ dst →
      Faithful (2 ^ isa.logWidth) dst size (memcpy mem dst src size)
        (ntMemcpy isa mem dst src size)) := by
  refine ⟨fun fillByte => ?_, fun src hdisjoint => ?_⟩
  · have hread : Apart (fun _ _ => fillByte) dst 0 size := fun _ _ _ _ _ => rfl
    exact streamed_faithful hread
  · have hread : Apart (fun mem => mem) dst src size :=
      fun mem mem' hsame o ho => hsame _ (by omega)
    exact streamed_faithful hread

/-- Four bytes up to an aligned address, four vectors, one vector, and three bytes. -/
theorem ntStore_plain_phases :
    Faithful (2 ^ Isa.sse2.logWidth) 60 87 (memcpy (fun x => UInt8.ofNat x) 60 200 87)
      (ntMemcpy .sse2 (fun x => UInt8.ofNat x) 60 200 87) :=
  (ntStore_plain .sse2 (fun x => UInt8.ofNat x) 60 87).2 200 (.inl (by decide))

end CrossMachine.Cpu
