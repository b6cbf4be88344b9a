import CrossMachine.Lib.Instances
import Mathlib.Algebra.BigOperators.Group.List.Basic
import Mathlib.Algebra.Order.Field.Basic
import Mathlib.Algebra.Order.Field.Rat
import Mathlib.Data.List.Induction
import Mathlib.Tactic.Linarith
import Mathlib.Tactic.Ring

/-!
# The token bucket

`TokenBucket` of `backpressure.cpp`. The clock is a parameter of the calls, which the mutex puts in
an order; tokens and times are in a field, without rounding.

What the bucket is for says nothing of tokens: in every window of time, what has been granted is at
most `capacity` and what comes in at `refillPerSec` while the window lasts. It refuses a request
only when granting it would break this for some window that ends now (`tryAcquire_iff`), and it
never breaks it (`granted_le`).
-/

namespace CrossMachine.Flow

variable {K : Type*} [Field K] [LinearOrder K] [IsStrictOrderedRing K]

structure TokenBucket (K : Type*) where
  capacity : K
  refillPerSec : K
  tokens : K
  lastRefill : K
  deriving DecidableEq

namespace TokenBucket

/-- The constructor, at time `now`. -/
def new (capacity refillPerSec now : K) : TokenBucket K := ⟨capacity, refillPerSec, capacity, now⟩

def refillLocked (b : TokenBucket K) (now : K) : TokenBucket K :=
  let elapsedSec := now - b.lastRefill
  { b with tokens := min b.capacity (b.tokens + elapsedSec * b.refillPerSec), lastRefill := now }

def tryAcquire (b : TokenBucket K) (now tokens : K) : TokenBucket K × Bool :=
  let b := b.refillLocked now
  if b.tokens < tokens then (b, false) else ({ b with tokens := b.tokens - tokens }, true)

def available (b : TokenBucket K) (now : K) : TokenBucket K × K :=
  let b := b.refillLocked now
  (b, b.tokens)

/-! ## Histories of calls -/

inductive Call (K : Type*)
  | tryAcquire (tokens : K)
  | available
  deriving DecidableEq

/-- A bucket, and of each call the time and what it was granted. The constructor is the first. -/
structure History (K : Type*) where
  bucket : TokenBucket K
  log : List (K × K)

def start (capacity refillPerSec now : K) : History K := ⟨new capacity refillPerSec now, [(now, 0)]⟩

def perform (h : History K) (c : K × Call K) : History K :=
  match c.2 with
  | .tryAcquire tokens =>
      let r := h.bucket.tryAcquire c.1 tokens
      ⟨r.1, h.log ++ [(c.1, if r.2 then tokens else 0)]⟩
  | .available => ⟨(h.bucket.available c.1).1, h.log ++ [(c.1, 0)]⟩

def run (capacity refillPerSec now : K) (calls : List (K × Call K)) : History K :=
  calls.foldl perform (start capacity refillPerSec now)

/-- What the calls of a part of the log were granted. -/
def granted (log : List (K × K)) : K := (log.map Prod.snd).sum

omit [LinearOrder K] [IsStrictOrderedRing K] in
theorem granted_append (l l' : List (K × K)) : granted (l ++ l') = granted l + granted l' := by
  unfold granted
  rw [List.map_append, List.sum_append]

omit [LinearOrder K] [IsStrictOrderedRing K] in
theorem granted_singleton (e : K × K) : granted [e] = e.2 := by
  unfold granted
  rw [List.map_singleton, List.sum_singleton]

/-- Granting `x` more at time `now` breaks no window that ends there. -/
def Fits (capacity refillPerSec : K) (log : List (K × K)) (now x : K) : Prop :=
  ∀ pre e suf, log = pre ++ e :: suf →
    granted (e :: suf) + x ≤ capacity + refillPerSec * (now - e.1)

variable {capacity rate now x g : K} {log : List (K × K)}

omit [IsStrictOrderedRing K] in
/-- A window that ends with a new entry is the entry, or an old one with the entry added. -/
theorem fits_snoc : Fits capacity rate (log ++ [(now, g)]) now x ↔
    g + x ≤ capacity ∧ Fits capacity rate log now (g + x) := by
  constructor
  · intro h
    refine ⟨?_, fun pre e suf hsplit => ?_⟩
    · have := h log (now, g) [] rfl
      rw [granted_singleton, sub_self, mul_zero, add_zero] at this
      exact this
    · have := h pre e (suf ++ [(now, g)]) (by rw [hsplit, List.append_assoc, List.cons_append])
      rw [← List.cons_append, granted_append, granted_singleton, add_assoc] at this
      exact this
  · rintro ⟨hnew, hold⟩ pre e suf hsplit
    rcases List.eq_nil_or_concat suf with rfl | ⟨suf', e', rfl⟩
    · obtain ⟨-, he⟩ := List.append_inj' hsplit rfl
      obtain rfl : (now, g) = e := List.singleton_inj.mp he
      rw [granted_singleton, sub_self, mul_zero, add_zero]
      exact hnew
    · rw [List.concat_eq_append, ← List.cons_append, ← List.append_assoc] at hsplit
      obtain ⟨hlog, he⟩ := List.append_inj' hsplit rfl
      obtain rfl : (now, g) = e' := List.singleton_inj.mp he
      have := hold pre e suf' hlog
      rw [List.concat_eq_append, ← List.cons_append, granted_append, granted_singleton, add_assoc]
      exact this

/-- Time that passes makes room at the rate of the bucket. -/
theorem fits_later (now : K) {later : K} : Fits capacity rate log later x ↔
    Fits capacity rate log now (x - (later - now) * rate) := by
  refine forall_congr' fun pre => forall_congr' fun e => forall_congr' fun suf =>
    imp_congr_right fun _ => ?_
  have hsplit : rate * (later - e.1) = rate * (now - e.1) + (later - now) * rate := by ring
  rw [hsplit]
  constructor
  · intro h
    linarith
  · intro h
    linarith

/-- The bucket holds what fits. -/
structure Inv (capacity rate : K) (h : History K) : Prop where
  capacity_eq : h.bucket.capacity = capacity
  rate_eq : h.bucket.refillPerSec = rate
  tokens : ∀ x, x ≤ h.bucket.tokens ↔ Fits capacity rate h.log h.bucket.lastRefill x

variable {h : History K}

omit [IsStrictOrderedRing K] in
theorem inv_start : Inv capacity rate (start capacity rate now) where
  capacity_eq := rfl
  rate_eq := rfl
  tokens := fun x => by
    have hnil : Fits capacity rate [] now (0 + x) := fun pre e suf hsplit => by simp at hsplit
    have : Fits capacity rate ([] ++ [(now, 0)]) now x ↔ _ := fits_snoc
    rw [List.nil_append, and_iff_left hnil, zero_add] at this
    exact this.symm

/-- A refill makes the bucket hold what fits at the time of the call. -/
theorem Inv.refill (hi : Inv capacity rate h) : x ≤ (h.bucket.refillLocked now).tokens ↔
    x ≤ capacity ∧ Fits capacity rate h.log now x := by
  unfold refillLocked
  dsimp only
  rw [hi.capacity_eq, hi.rate_eq, le_min_iff, fits_later h.bucket.lastRefill, ← hi.tokens,
    sub_le_iff_le_add]

theorem Inv.grants_iff (hi : Inv capacity rate h) {tokens : K} :
    (h.bucket.tryAcquire now tokens).2 = true ↔
      tokens ≤ capacity ∧ Fits capacity rate h.log now tokens := by
  rw [← hi.refill]
  unfold tryAcquire
  dsimp only
  split
  · rename_i hlt
    simp [hlt]
  · rename_i hle
    simp [not_lt.mp hle]

/-- The refilled bucket, of which `g` has been taken. -/
theorem Inv.snoc (hi : Inv capacity rate h) (now g : K) :
    Inv capacity rate ⟨{ h.bucket.refillLocked now with
      tokens := (h.bucket.refillLocked now).tokens - g }, h.log ++ [(now, g)]⟩ where
  capacity_eq := hi.capacity_eq
  rate_eq := hi.rate_eq
  tokens := fun x => by
    dsimp only
    rw [le_sub_iff_add_le, hi.refill, add_comm x g]
    exact fits_snoc.symm

theorem Inv.perform (hi : Inv capacity rate h) (c : K × Call K) :
    Inv capacity rate (perform h c) := by
  have hidle : Inv capacity rate ⟨h.bucket.refillLocked c.1, h.log ++ [(c.1, 0)]⟩ := by
    have := hi.snoc c.1 0
    rw [sub_zero] at this
    exact this
  obtain ⟨now, call⟩ := c
  cases call with
  | available => exact hidle
  | tryAcquire tokens =>
      unfold TokenBucket.perform tryAcquire
      dsimp only
      split
      · exact hidle
      · exact hi.snoc now tokens

omit [IsStrictOrderedRing K] in
theorem run_snoc (calls : List (K × Call K)) (c : K × Call K) :
    run capacity rate now (calls ++ [c]) = perform (run capacity rate now calls) c := by
  unfold run
  rw [List.foldl_append]
  rfl

theorem inv_run (calls : List (K × Call K)) :
    Inv capacity rate (run capacity rate now calls) := by
  induction calls using List.reverseRecOn with
  | nil => exact inv_start
  | append_singleton calls c ih =>
      rw [run_snoc]
      exact ih.perform c

/-- **When a request is granted**: exactly when, with it, no window that ends now has been granted
more than its share. -/
theorem tryAcquire_iff (capacity rate start : K) (calls : List (K × Call K)) (now tokens : K) :
    ((run capacity rate start calls).bucket.tryAcquire now tokens).2 = true ↔
      tokens ≤ capacity ∧ ∀ pre e suf, (run capacity rate start calls).log = pre ++ e :: suf →
        granted (e :: suf) + tokens ≤ capacity + rate * (now - e.1) :=
  (inv_run calls).grants_iff

/-- More than the capacity is never granted. -/
theorem tryAcquire_iff_large : ¬ ((run (2 : ℚ) 1 0 []).bucket.tryAcquire 9 3).2 = true :=
  fun h => absurd ((tryAcquire_iff 2 1 0 [] 9 3).mp h).1 (by norm_num)

/-! ## Every window -/

/-- The last entry is of the last refill, at one of the times of the calls. -/
structure Logged (times : List K) (h : History K) : Prop where
  last : ∀ e ∈ h.log.getLast?, e.1 = h.bucket.lastRefill
  lastRefill_mem : h.bucket.lastRefill ∈ times
  tokens_nonneg : 0 ≤ h.bucket.tokens

variable {times : List K}

theorem Logged.perform {c : K × Call K} (hl : Logged times h) (hcap : 0 ≤ h.bucket.capacity)
    (hrate : 0 ≤ h.bucket.refillPerSec) (htime : h.bucket.lastRefill ≤ c.1) :
    Logged (times ++ [c.1]) (perform h c) ∧
      ∃ g, (TokenBucket.perform h c).log = h.log ++ [(c.1, g)] := by
  have hpos : 0 ≤ (h.bucket.refillLocked c.1).tokens :=
    le_min hcap (add_nonneg hl.tokens_nonneg (mul_nonneg (sub_nonneg.mpr htime) hrate))
  have hlast {g : K} : ∀ e ∈ (h.log ++ [(c.1, g)]).getLast?, e.1 = c.1 := by
    intro e he
    rw [List.getLast?_concat, Option.mem_some_iff] at he
    rw [← he]
  have hmem : c.1 ∈ times ++ [c.1] := List.mem_append_right _ (List.mem_singleton_self _)
  obtain ⟨now, call⟩ := c
  cases call with
  | available => exact ⟨⟨hlast, hmem, hpos⟩, 0, rfl⟩
  | tryAcquire tokens =>
      unfold TokenBucket.perform tryAcquire
      dsimp only
      split
      · exact ⟨⟨hlast, hmem, hpos⟩, 0, rfl⟩
      · rename_i hle
        exact ⟨⟨hlast, hmem, sub_nonneg.mpr (not_lt.mp hle)⟩, tokens, rfl⟩

/-- No window of a log has been granted more than its share. -/
def Bounded (capacity rate : K) (log : List (K × K)) : Prop :=
  ∀ pre w post e e', log = pre ++ w ++ post → w.head? = some e → w.getLast? = some e' →
    granted w ≤ capacity + rate * (e'.1 - e.1)

omit [IsStrictOrderedRing K] in
/-- The windows that end with the last entry are bounded by what the bucket holds. -/
theorem Inv.bounded (hi : Inv capacity rate h) (hl : Logged times h) {old : List (K × K)}
    {last : K × K} (hlog : h.log = old ++ [last]) (hold : Bounded capacity rate old) :
    Bounded capacity rate h.log := by
  intro pre w post e e' hsplit he he'
  rcases List.eq_nil_or_concat post with rfl | ⟨post', x, rfl⟩
  · rw [List.append_nil] at hsplit
    obtain ⟨suf, rfl⟩ := List.head?_eq_some_iff.mp he
    have hend : e'.1 = h.bucket.lastRefill := hl.last e' (by
      rw [hsplit, List.getLast?_append_of_ne_nil _ (List.cons_ne_nil e suf)]
      exact he')
    have := (hi.tokens 0).mp hl.tokens_nonneg pre e suf hsplit
    rw [add_zero] at this
    rw [hend]
    exact this
  · rw [hlog, List.concat_eq_append, ← List.append_assoc] at hsplit
    exact hold pre w post' e e' (List.append_inj' hsplit rfl).1 he he'

theorem logged_run (hcap : 0 ≤ capacity) (hrate : 0 ≤ rate) {calls : List (K × Call K)}
    (htimes : (now :: calls.map Prod.fst).Pairwise (· ≤ ·)) :
    Logged (now :: calls.map Prod.fst) (run capacity rate now calls) ∧
      Bounded capacity rate (run capacity rate now calls).log := by
  induction calls using List.reverseRecOn with
  | nil =>
      have hl : Logged [now] (start capacity rate now) := by
        refine ⟨fun e he => ?_, List.mem_singleton_self _, hcap⟩
        obtain rfl := Option.some.inj he
        rfl
      refine ⟨hl, (inv_run []).bounded hl (show _ = [] ++ [(now, 0)] from rfl)
        fun pre w post e e' hsplit he => ?_⟩
      obtain ⟨hpre, -⟩ := List.append_eq_nil_iff.mp hsplit.symm
      rw [(List.append_eq_nil_iff.mp hpre).2] at he
      contradiction
  | append_singleton calls c ih =>
      rw [List.map_append, List.map_singleton, ← List.cons_append] at htimes ⊢
      obtain ⟨hold, -, hlater⟩ := List.pairwise_append.mp htimes
      obtain ⟨hl, hbounded⟩ := ih hold
      have hi : Inv capacity rate (run capacity rate now calls) := inv_run calls
      obtain ⟨hl', g, hlog⟩ := hl.perform (c := c) (hi.capacity_eq.symm ▸ hcap)
        (hi.rate_eq.symm ▸ hrate)
        (hlater _ hl.lastRefill_mem _ (List.mem_singleton_self _))
      rw [run_snoc]
      exact ⟨hl', (hi.perform c).bounded hl' hlog hbounded⟩

/-- **Every window keeps its bound**, whatever the calls ask for. -/
theorem granted_le (hcap : 0 ≤ capacity) (hrate : 0 ≤ rate) {calls : List (K × Call K)}
    (htimes : (now :: calls.map Prod.fst).Pairwise (· ≤ ·)) :
    Bounded capacity rate (run capacity rate now calls).log :=
  (logged_run hcap hrate htimes).2

/-- Two bursts a second apart. -/
theorem granted_le_bursts : Bounded (2 : ℚ) 1
    (run 2 1 0 [(0, .tryAcquire 2), (0, .tryAcquire 1), (1, .tryAcquire 1)]).log :=
  granted_le (by norm_num) (by norm_num) (by decide +kernel)

end TokenBucket

end CrossMachine.Flow
