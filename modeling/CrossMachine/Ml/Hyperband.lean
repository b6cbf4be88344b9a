import CrossMachine.Lib.Sorter
import Mathlib.Algebra.Order.Floor.Ring
import Mathlib.Data.Rat.Floor

/-!
# Successive halving

`hyperband.cpp`: configurations are evaluated with few resources first, and only the better ones
with more. `successive_halving` does so in rounds; `asha` promotes a configuration to the next rung
as soon as it is among the best of its rung so far.

The factor `eta` is a rational number, and what is multiplied by it is truncated as a conversion to
`int` does. Of a number that no `int` is near enough to, the conversion is undefined. The loops have
fuel; out of fuel they are `none`, and where a conversion is undefined as well.
-/

namespace CrossMachine.Ml

open Lib

structure EvalRecord (C S : Type) where
  config : C
  resource : Int
  score : S

structure SHAResult (C S : Type) where
  /-- `none` is the empty configuration that a result begins with. -/
  bestConfig : Option C
  bestScore : S
  history : List (EvalRecord C S)

/-- What a conversion leaves of a number. -/
def truncate (q : ℚ) : Int := if 0 ≤ q then ⌊q⌋ else ⌈q⌉

/-- `static_cast<int>` of a `float`. -/
def castInt (q : ℚ) : Option Int :=
  if -(2 ^ 31) - 1 < q ∧ q < 2 ^ 31 then some (truncate q) else none

/-- `std::min(static_cast<int>(static_cast<float>(resource) * eta), max_resource)` -/
def nextResource (eta : ℚ) (maxResource resource : Int) : Option Int :=
  (castInt (resource * eta)).map fun next => min next maxResource

/-- `static_cast<std::size_t>(eta)` -/
def wholeEta (eta : ℚ) : Nat := (truncate eta).toNat

/-- How many of `n` are in the top `1 / eta`: `n_keep` and `top_k`. -/
def topCount (eta : ℚ) (n : Nat) : Nat := max 1 (n / wholeEta eta)

variable {C S σ : Type} [LinearOrder S]

/-! ## In rounds -/

section

variable (sorter : Sorter fun scored : C × S => OrderDual.toDual scored.2)
  (evaluate : C → Int → S) (maxResource : Int) (eta : ℚ)

def halvingLoop : Nat → List C → Int → List (EvalRecord C S) → Option (SHAResult C S)
  | 0, _, _, _ => none
  | fuel + 1, current, resource, history =>
      let scored := current.map fun c => (c, evaluate c resource)
      let history := history ++ scored.map fun (c, s) => ⟨c, resource, s⟩
      let scored := sorter.run scored
      if resource ≥ maxResource ∨ current.length ≤ 1 then
        scored.head?.map fun (c, s) => ⟨some c, s, history⟩
      else
        let current := (scored.take (topCount eta current.length)).map Prod.fst
        (nextResource eta maxResource resource).bind fun resource =>
          halvingLoop fuel current resource history

def successiveHalving (configs : List C) (minResource : Int) (fuel : Nat) :
    Option (SHAResult C S) :=
  halvingLoop sorter evaluate maxResource eta fuel configs minResource []

end

/-! ## Without rounds -/

/-- What the arrays have for a rung: its entry of `rung_resources`, of `rung_results` and of
`promoted`. -/
structure Rung (C S : Type) where
  resource : Int
  results : List (C × S)
  promoted : List Bool

structure Asha (C S σ : Type) where
  rungs : List (Rung C S)
  history : List (EvalRecord C S)
  configsStarted : Nat
  rng : σ

/-- The loop that makes the rungs. -/
def rungResources (maxResource : Int) (eta : ℚ) : Nat → Int → Option (List Int)
  | 0, _ => none
  | fuel + 1, r =>
      if r ≥ maxResource then some [r]
      else
        (nextResource eta maxResource r).bind fun next =>
          (rungResources maxResource eta fuel next).map (r :: ·)

/-- A configuration is evaluated at a rung, and is not promoted yet. -/
def Rung.add (rung : Rung C S) (c : C) (s : S) : Rung C S :=
  { rung with results := rung.results ++ [(c, s)], promoted := rung.promoted ++ [false] }

/-- The first configuration of a rung that is to be promoted. -/
def eligible (eta : ℚ) (rung : Rung C S) : Option Nat := do
  if rung.results.length < wholeEta eta then none
  else
    let sortedScores := (rung.results.map Prod.snd).insertionSort (· ≥ ·)
    let threshold ← sortedScores[topCount eta rung.results.length - 1]?
    (rung.results.zip rung.promoted).findIdx? fun (result, prom) => !prom && result.2 ≥ threshold

/-- The scan: the first rung below the top with a configuration that is to be promoted. It is then
evaluated at the rung above. -/
def promote (evaluate : C → Int → S) (eta : ℚ) :
    List (Rung C S) → Option (List (Rung C S) × EvalRecord C S)
  | rung :: next :: rest =>
      match (eligible eta rung).bind fun i => (rung.results[i]?).map (i, ·) with
      | some (i, c, _) =>
          let s := evaluate c next.resource
          some ({ rung with promoted := rung.promoted.set i true } :: next.add c s :: rest,
            ⟨c, next.resource, s⟩)
      | none => (promote evaluate eta (next :: rest)).map fun (rungs, rec) => (rung :: rungs, rec)
  | _ => none

/-- A new configuration is evaluated at the base rung. -/
def start (sampler : σ → C × σ) (evaluate : C → Int → S) (s : Asha C S σ) : Asha C S σ :=
  match s.rungs with
  | [] => s
  | base :: rest =>
      let (c, rng) := sampler s.rng
      let score := evaluate c base.resource
      { rungs := base.add c score :: rest
        history := s.history ++ [⟨c, base.resource, score⟩]
        configsStarted := s.configsStarted + 1
        rng := rng }

def ashaLoop (sampler : σ → C × σ) (evaluate : C → Int → S) (eta : ℚ) (nTotalConfigs : Int) :
    Nat → Asha C S σ → Option (Asha C S σ)
  | 0, _ => none
  | fuel + 1, s =>
      match promote evaluate eta s.rungs with
      | some (rungs, rec) =>
          ashaLoop sampler evaluate eta nTotalConfigs fuel
            { s with rungs := rungs, history := s.history ++ [rec] }
      | none =>
          if s.configsStarted ≥ nTotalConfigs then some s
          else ashaLoop sampler evaluate eta nTotalConfigs fuel (start sampler evaluate s)

/-- The first of the records with the best score, if that is better than `lowest`. -/
def bestRecord (lowest : S) (history : List (EvalRecord C S)) : SHAResult C S :=
  history.foldl (fun result rec =>
    if rec.score > result.bestScore then
      { result with bestScore := rec.score, bestConfig := some rec.config }
    else result) ⟨none, lowest, history⟩

/-- Before the loop: every rung is empty. -/
def Asha.initial (resources : List Int) (rng : σ) : Asha C S σ :=
  ⟨resources.map fun r => ⟨r, [], []⟩, [], 0, rng⟩

/-- `lowest` is what `best_score` begins with. -/
def asha (sampler : σ → C × σ) (evaluate : C → Int → S) (minResource maxResource : Int) (eta : ℚ)
    (nTotalConfigs : Int) (lowest : S) (rng : σ) (fuel : Nat) : Option (SHAResult C S) := do
  let resources ← rungResources maxResource eta fuel minResource
  let s ← ashaLoop sampler evaluate eta nTotalConfigs fuel (.initial resources rng)
  return bestRecord lowest s.history

end CrossMachine.Ml
