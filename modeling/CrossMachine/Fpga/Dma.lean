import Mathlib.Data.BitVec
import Mathlib.Logic.Function.Basic
import Mathlib.Tactic.Common
import Mathlib.Tactic.IntervalCases

/-!
# A DMA engine

`dma_controller.v`, clocked together with a synchronous memory. The controller copies word by word:
a word has been read and is in the buffer before it is written. A word takes five edges
(`copy_word`), and at the end of the fifth the memory has it, so the transfer is the copy of one
word after the other (`run_words`).

Both processes look at what the registers hold before the edge. The memory registers what is read
on the edge after `mem_rden`, and commits what is written on the edge after `mem_wren`.
-/

namespace CrossMachine.Fpga

/-- The values of `state`; the last is the code that has no name. -/
inductive DmaState where
  | idle
  | read
  | readWait1
  | readWait2
  | write
  | next
  | done
  | unnamed
  deriving DecidableEq

/-- The registers of `dma_controller`. -/
structure Dma (aw dw lw : Nat) where
  state : DmaState
  curSrc : BitVec aw
  curDst : BitVec aw
  remaining : BitVec lw
  wordBuf : BitVec dw
  busy : Bool
  done : Bool
  memAddr : BitVec aw
  memWdata : BitVec dw
  memRden : Bool
  memWren : Bool

/-- Its inputs other than the clock and `mem_rdata`. -/
structure Control (aw lw : Nat) where
  rstN : Bool
  start : Bool
  srcAddr : BitVec aw
  dstAddr : BitVec aw
  length : BitVec lw

variable {aw dw lw : Nat}

/-- An edge of the clock. -/
def Dma.posedge (r : Dma aw dw lw) (i : Control aw lw) (memRdata : BitVec dw) : Dma aw dw lw :=
  if !i.rstN then
    { r with
      state := .idle, busy := false, done := false, memAddr := 0, memWdata := 0
      memRden := false, memWren := false }
  else
    let r' := { r with done := false, memRden := false, memWren := false }
    match r.state with
    | .idle =>
        if i.start then
          { r' with
            curSrc := i.srcAddr, curDst := i.dstAddr, remaining := i.length
            busy := true, state := .read }
        else { r' with busy := false }
    | .read => { r' with memAddr := r.curSrc, memRden := true, state := .readWait1 }
    | .readWait1 => { r' with state := .readWait2 }
    | .readWait2 => { r' with wordBuf := memRdata, state := .write }
    | .write => { r' with
        memAddr := r.curDst, memWdata := r.wordBuf, memWren := true, state := .next }
    | .next =>
        { r' with
          curSrc := r.curSrc + 1, curDst := r.curDst + 1, remaining := r.remaining - 1
          state := if r.remaining = 1 then .done else .read }
    | .done => { r' with busy := false, done := true, state := .idle }
    | .unnamed => { r' with state := .idle }

/-- A synchronous memory with one port. -/
structure Memory (aw dw : Nat) where
  cells : BitVec aw → BitVec dw
  rdata : BitVec dw

def Memory.posedge (m : Memory aw dw) (addr : BitVec aw) (wdata : BitVec dw) (rden wren : Bool) :
    Memory aw dw where
  cells := if wren then Function.update m.cells addr wdata else m.cells
  rdata := if rden then m.cells addr else m.rdata

structure System (aw dw lw : Nat) where
  dma : Dma aw dw lw
  mem : Memory aw dw

def System.posedge (s : System aw dw lw) (i : Control aw lw) : System aw dw lw where
  dma := s.dma.posedge i s.mem.rdata
  mem := s.mem.posedge s.dma.memAddr s.dma.memWdata s.dma.memRden s.dma.memWren

/-- The states after a reset: registers and memory hold anything before it. -/
inductive Reachable : System aw dw lw → Prop
  | reset (s : System aw dw lw) (i : Control aw lw) (h : i.rstN = false) : Reachable (s.posedge i)
  | edge (s : System aw dw lw) (i : Control aw lw) (h : Reachable s) : Reachable (s.posedge i)

/-- The state after some edges. -/
def System.run (s : System aw dw lw) (inputs : Nat → Control aw lw) : Nat → System aw dw lw
  | 0 => s
  | k + 1 => (s.run inputs k).posedge (inputs k)

/-- Copying word by word, in increasing order. Addresses wrap. -/
def copyWords : Nat → BitVec aw → BitVec aw → (BitVec aw → BitVec dw) → BitVec aw → BitVec dw
  | 0, _, _, cells => cells
  | n + 1, src, dst, cells =>
      copyWords n (src + 1) (dst + 1) (Function.update cells dst (cells src))

/-! ## The port -/

/-- A read is requested in `S_READ` only, and a write in `S_WRITE` only. -/
structure PortInv (r : Dma aw dw lw) : Prop where
  rden : r.memRden = true → r.state = .readWait1
  wren : r.memWren = true → r.state = .next

theorem PortInv.posedge (r : Dma aw dw lw) (i : Control aw lw) (memRdata : BitVec dw) :
    PortInv (r.posedge i memRdata) := by
  unfold Dma.posedge
  split
  · exact ⟨nofun, nofun⟩
  · dsimp only
    split
    · split <;> exact ⟨nofun, nofun⟩
    · exact ⟨fun _ => rfl, nofun⟩
    · exact ⟨nofun, nofun⟩
    · exact ⟨nofun, nofun⟩
    · exact ⟨nofun, fun _ => rfl⟩
    · exact ⟨nofun, nofun⟩
    · exact ⟨nofun, nofun⟩
    · exact ⟨nofun, nofun⟩

theorem Reachable.portInv {s : System aw dw lw} (h : Reachable s) : PortInv s.dma := by
  cases h with
  | reset s i _ => exact .posedge s.dma i s.mem.rdata
  | edge s i _ => exact .posedge s.dma i s.mem.rdata

theorem PortInv.not_both {r : Dma aw dw lw} (h : PortInv r) :
    ¬ (r.memRden = true ∧ r.memWren = true) := by
  rintro ⟨hrden, hwren⟩
  have := (h.rden hrden).symm.trans (h.wren hwren)
  cases this

/-! ## A word -/

/-- The controller is about to fetch the next of `n` words, or, where `state` is `S_DONE`, about to
say that there are no more. Nothing is requested of the memory. -/
structure BetweenWords (s : System aw dw lw) (state : DmaState) (src dst : BitVec aw) (n : Nat)
    (cells : BitVec aw → BitVec dw) : Prop where
  state : s.dma.state = state
  curSrc : s.dma.curSrc = src
  curDst : s.dma.curDst = dst
  remaining : s.dma.remaining.toNat = n
  cells : s.mem.cells = cells
  rden : s.dma.memRden = false
  wren : s.dma.memWren = false
  busy : s.dma.busy = true
  done : s.dma.done = false

variable {s : System aw dw lw} {inputs : Nat → Control aw lw} {src dst : BitVec aw} {n : Nat}
  {cells : BitVec aw → BitVec dw}

/-- The counter of words. -/
theorem count_down {remaining : BitVec lw} (h : remaining.toNat = n + 1) :
    (remaining = 1 ↔ n = 0) ∧ (remaining - 1).toNat = n := by
  have hlt := h ▸ remaining.isLt
  have hone : (1 : BitVec lw).toNat = 1 := by
    show (BitVec.ofNat lw 1).toNat = 1
    rw [BitVec.toNat_ofNat, Nat.mod_eq_of_lt (by omega)]
  constructor
  · rw [← BitVec.toNat_inj, h, hone, Nat.add_eq_right]
  · rw [BitVec.toNat_sub_of_le (by rw [BitVec.le_def, h, hone]; omega), h, hone,
      Nat.add_sub_cancel]

/-- Five edges copy a word. -/
theorem copy_word (h : BetweenWords s .read src dst (n + 1) cells)
    (hrst : ∀ k < 5, (inputs k).rstN = true) :
    BetweenWords (s.run inputs 5) (if n = 0 then .done else .read) (src + 1) (dst + 1) n
        (Function.update cells dst (cells src)) ∧
      ∀ k ≤ 5, (s.run inputs k).dma.done = false ∧ (s.run inputs k).dma.busy = true := by
  obtain ⟨⟨state, curSrc, curDst, remaining, wordBuf, busy, done, memAddr, memWdata, memRden,
    memWren⟩, ⟨cells', rdata⟩⟩ := s
  obtain ⟨hstate, hsrc, hdst, hremaining, hcells, hrden, hwren, hbusy, hdone⟩ := h
  dsimp only at hstate hsrc hdst hremaining hcells hrden hwren hbusy hdone
  subst hstate hsrc hdst hcells hrden hwren hbusy hdone
  have h₀ := hrst 0 (by omega)
  have h₁ := hrst 1 (by omega)
  have h₂ := hrst 2 (by omega)
  have h₃ := hrst 3 (by omega)
  have h₄ := hrst 4 (by omega)
  refine ⟨?_, fun k hk => ?_⟩
  · obtain ⟨hlast, hless⟩ := count_down hremaining
    constructor <;>
      simp only [System.run, System.posedge, Dma.posedge, Memory.posedge, h₀, h₁, h₂, h₃, h₄,
        Bool.not_true, Bool.false_eq_true, if_false, if_true, hlast, hless]
  · interval_cases k <;>
      simp only [System.run, System.posedge, Dma.posedge, Memory.posedge, h₀, h₁, h₂, h₃, h₄,
        Bool.not_true, Bool.false_eq_true, if_false, if_true, and_self]

/-! ## A transfer -/

theorem run_add (s : System aw dw lw) (inputs : Nat → Control aw lw) (j k : Nat) :
    s.run inputs (j + k) = (s.run inputs j).run (fun i => inputs (j + i)) k := by
  induction k with
  | zero => rfl
  | succ k ih => exact congrArg (System.posedge · (inputs (j + k))) ih

theorem run_words {n : Nat} {s : System aw dw lw} {inputs : Nat → Control aw lw}
    {src dst : BitVec aw} {cells : BitVec aw → BitVec dw}
    (h : BetweenWords s .read src dst (n + 1) cells)
    (hrst : ∀ k < 5 * (n + 1), (inputs k).rstN = true) :
    (∃ src' dst', BetweenWords (s.run inputs (5 * (n + 1))) .done src' dst' 0
        (copyWords (n + 1) src dst cells)) ∧
      ∀ k ≤ 5 * (n + 1), (s.run inputs k).dma.done = false ∧ (s.run inputs k).dma.busy = true := by
  induction n generalizing s inputs src dst cells with
  | zero =>
      obtain ⟨hword, hquiet⟩ := copy_word h hrst
      exact ⟨⟨_, _, hword⟩, hquiet⟩
  | succ n ih =>
      obtain ⟨hword, hquiet⟩ := copy_word h fun k hk => hrst k (by omega)
      rw [if_neg (Nat.succ_ne_zero n)] at hword
      obtain ⟨⟨src', dst', hlast⟩, hrest⟩ := ih hword fun k hk => hrst (5 + k) (by omega)
      have hsplit : 5 * (n + 1 + 1) = 5 + 5 * (n + 1) := by omega
      refine ⟨⟨src', dst', ?_⟩, fun k hk => ?_⟩
      · rw [hsplit, run_add]
        exact hlast
      · rcases Nat.le_total k 5 with hlow | hhigh
        · exact hquiet k hlow
        · obtain ⟨j, rfl⟩ := Nat.exists_eq_add_of_le hhigh
          rw [run_add]
          exact hrest j (by omega)

/-- A start is accepted in `S_IDLE`. -/
theorem accept {i : Control aw lw} (hport : PortInv s.dma) (hidle : s.dma.state = .idle)
    (hrst : i.rstN = true) (hstart : i.start = true) :
    BetweenWords (s.posedge i) .read i.srcAddr i.dstAddr i.length.toNat s.mem.cells := by
  have hwren : s.dma.memWren = false := by
    by_contra h
    have := hidle.symm.trans (hport.wren (by simpa using h))
    cases this
  constructor <;>
    simp only [System.posedge, Dma.posedge, Memory.posedge, hidle, hrst, hstart, hwren,
      Bool.not_true, Bool.false_eq_true, if_false, if_true]

/-- `S_DONE` raises `done` and touches nothing else. -/
theorem finish {i : Control aw lw} (h : BetweenWords s .done src dst n cells)
    (hrst : i.rstN = true) :
    (s.posedge i).dma.done = true ∧ (s.posedge i).dma.busy = false ∧
      (s.posedge i).dma.state = .idle ∧ (s.posedge i).mem.cells = cells := by
  simp only [System.posedge, Dma.posedge, Memory.posedge, h.state, hrst, h.wren, h.cells,
    Bool.not_true, Bool.false_eq_true, if_false, and_self]

/-- An idle controller that is not started stays idle. -/
theorem rest {i : Control aw lw} (hidle : s.dma.state = .idle) (hstart : i.start = false) :
    (s.posedge i).dma.state = .idle ∧ (s.posedge i).dma.done = false := by
  simp only [System.posedge, Dma.posedge, hidle, hstart]
  split <;> exact ⟨rfl, rfl⟩

theorem copyWords_frame {a : BitVec aw} (h : ∀ j < n, a ≠ dst + BitVec.ofNat aw j) :
    copyWords n src dst cells a = cells a := by
  induction n generalizing src dst cells with
  | zero => rfl
  | succ n ih =>
      have hfirst : a ≠ dst := by simpa using h 0 (Nat.succ_pos n)
      rw [copyWords, ih fun j hj => ?_, Function.update_of_ne hfirst]
      have hnext := h (j + 1) (Nat.succ_lt_succ hj)
      rwa [Nat.add_comm j 1, BitVec.ofNat_add, ← BitVec.add_assoc] at hnext

/-- **A transfer copies word by word, and says so once.** The first input is the one that is
accepted; after it `start` and the rest of the control inputs may be anything until `done`. -/
theorem dma_copies {s : System aw dw lw} {inputs : Nat → Control aw lw} {n : Nat}
    (hs : Reachable s) (hidle : s.dma.state = .idle) (hstart : (inputs 0).start = true)
    (hn : (inputs 0).length.toNat = n) (hpos : 1 ≤ n)
    (hrst : ∀ k < 5 * n + 2, (inputs k).rstN = true) :
    (s.run inputs (5 * n + 2)).mem.cells =
        copyWords n (inputs 0).srcAddr (inputs 0).dstAddr s.mem.cells ∧
      (∀ a, (∀ j < n, a ≠ (inputs 0).dstAddr + BitVec.ofNat aw j) →
        (s.run inputs (5 * n + 2)).mem.cells a = s.mem.cells a) ∧
      (∀ k, 1 ≤ k → (∀ j, 5 * n + 2 ≤ j → j < k → (inputs j).start = false) →
        ((s.run inputs k).dma.done = true ↔ k = 5 * n + 2)) ∧
      ∀ s' : System aw dw lw, Reachable s' → ¬ (s'.dma.memRden = true ∧ s'.dma.memWren = true) := by
  obtain ⟨m, rfl⟩ : ∃ m, n = m + 1 := ⟨n - 1, by omega⟩
  have haccept := accept hs.portInv hidle (hrst 0 (by omega)) hstart
  rw [hn] at haccept
  have hwords : ∀ k < 5 * (m + 1), (inputs (1 + k)).rstN = true :=
    fun k hk => hrst (1 + k) (by omega)
  obtain ⟨⟨src', dst', hlast⟩, hquiet⟩ := run_words haccept hwords
  have hshift (k : Nat) : s.run inputs (1 + k) =
      (s.posedge (inputs 0)).run (fun i => inputs (1 + i)) k := run_add s inputs 1 k
  rw [← hshift] at hlast
  have hend : 5 * (m + 1) + 2 = 1 + 5 * (m + 1) + 1 := by omega
  have hraise : (inputs (1 + 5 * (m + 1))).rstN = true := hrst _ (by omega)
  obtain ⟨hdone, -, hidle', hcells⟩ := finish hlast hraise
  rw [hend]
  refine ⟨hcells, fun a ha => ?_, fun k hk hquiet' => ?_, fun s' hs' => hs'.portInv.not_both⟩
  · exact (congrFun hcells a).trans (copyWords_frame ha)
  · rcases Nat.lt_trichotomy k (1 + 5 * (m + 1) + 1) with hlow | rfl | hhigh
    · -- while the words are copied
      obtain ⟨j, rfl⟩ := Nat.exists_eq_add_of_le hk
      have hbusy := (hquiet j (by omega)).1
      rw [← hshift] at hbusy
      rw [hbusy]
      exact iff_of_false Bool.false_ne_true hlow.ne
    · exact iff_of_true hdone rfl
    · -- idle again
      obtain ⟨j, rfl⟩ := Nat.exists_eq_add_of_lt hhigh
      have hrest : ∀ i ≤ j, (s.run inputs (1 + 5 * (m + 1) + 1 + i + 1)).dma.state = .idle ∧
          (s.run inputs (1 + 5 * (m + 1) + 1 + i + 1)).dma.done = false := by
        intro i
        induction i with
        | zero => exact fun _ => rest hidle' (hquiet' _ (by omega) (by omega))
        | succ i ih =>
            exact fun hi => rest (ih (by omega)).1 (hquiet' _ (by omega) (by omega))
      rw [(hrest j le_rfl).2]
      exact iff_of_false Bool.false_ne_true (by omega)

/-- A system that has been reset: the memory has its own addresses. -/
def afterReset : System 4 8 4 :=
  System.posedge ⟨⟨.unnamed, 3, 5, 7, 9, true, true, 0, 0, true, false⟩, ⟨BitVec.setWidth 8, 0⟩⟩
    ⟨false, true, 1, 2, 3⟩

/-- Two words from 0 to 15, so that the second goes to 0; `start` stays up. -/
def copyTwo (_ : Nat) : Control 4 4 := ⟨true, true, 0, 15, 2⟩

theorem dma_copies_two :
    (afterReset.run copyTwo 12).mem.cells = copyWords 2 0 15 afterReset.mem.cells ∧
      (∀ a, (∀ j < 2, a ≠ 15 + BitVec.ofNat 4 j) →
        (afterReset.run copyTwo 12).mem.cells a = afterReset.mem.cells a) ∧
      (∀ k, 1 ≤ k → (∀ j, 12 ≤ j → j < k → (copyTwo j).start = false) →
        ((afterReset.run copyTwo k).dma.done = true ↔ k = 12)) ∧
      ∀ s' : System 4 8 4, Reachable s' → ¬ (s'.dma.memRden = true ∧ s'.dma.memWren = true) :=
  dma_copies (.reset _ _ rfl) rfl rfl rfl one_le_two fun _ _ => rfl

end CrossMachine.Fpga
