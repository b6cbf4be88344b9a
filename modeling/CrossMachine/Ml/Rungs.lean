import CrossMachine.Ml.Hyperband
import Mathlib.Data.List.Count
import Mathlib.Tactic.Linarith

/-!
# Whether the loops end

The resource has to grow from one rung to the next. `resource * eta` is truncated, so it does not
grow where `resource * (eta - 1)` is below 1, and then the loop that makes the rungs and the rounds
of `successive_halving` stay where they are (`nextResource_eq_self`). That the products fit an
`int` is assumed, of the largest of them. The loop of promotions ends in any case: a promotion moves
a configuration upwards, and that lowers the weight of the rungs (`promote_weight`).
-/

namespace CrossMachine.Ml

open Lib

variable {C S σ : Type} [LinearOrder S] {eta : ℚ} {minResource maxResource resource : Int}

/-! ## Resources -/

/-- The resources above `resource` are reached: there are none, or multiplying by `eta` makes at
least one more. -/
def Climbs (eta : ℚ) (maxResource resource : Int) : Prop :=
  maxResource ≤ resource ∨ 1 ≤ resource * (eta - 1)

theorem truncate_of_nonneg {q : ℚ} (h : 0 ≤ q) : truncate q = ⌊q⌋ := if_pos h

theorem nextResource_eq_some {next : Int} (h : nextResource eta maxResource resource = some next) :
    next = min (truncate (resource * eta)) maxResource := by
  obtain ⟨product, hproduct, rfl⟩ := Option.map_eq_some_iff.mp h
  rw [castInt] at hproduct
  split at hproduct
  · rw [← Option.some.inj hproduct]
  · cases hproduct

theorem nextResource_eq_self {next : Int} (hr : 1 ≤ resource) (hlt : resource < maxResource)
    (heta : 1 < eta) (hsmall : resource * (eta - 1) < 1)
    (h : nextResource eta maxResource resource = some next) : next = resource := by
  have hpos : (1 : ℚ) ≤ resource := by exact_mod_cast hr
  have hfloor : ⌊(resource * eta : ℚ)⌋ = resource := by
    rw [Int.floor_eq_iff]
    constructor <;> nlinarith
  rw [nextResource_eq_some h, truncate_of_nonneg (by nlinarith), hfloor, min_eq_left hlt.le]

theorem lt_nextResource {next : Int} (hr : 1 ≤ resource) (hlt : resource < maxResource)
    (hbig : 1 ≤ resource * (eta - 1)) (h : nextResource eta maxResource resource = some next) :
    resource < next := by
  have hpos : (1 : ℚ) ≤ resource := by exact_mod_cast hr
  rw [nextResource_eq_some h, truncate_of_nonneg (by nlinarith), lt_min_iff,
    Int.lt_iff_add_one_le, Int.le_floor]
  refine ⟨?_, hlt⟩
  push_cast
  linarith

theorem Climbs.next {next : Int} (h : Climbs eta maxResource resource) (hr : 1 ≤ resource)
    (hlt : resource < maxResource) (hsome : nextResource eta maxResource resource = some next) :
    resource < next ∧ Climbs eta maxResource next := by
  rcases h with hmax | hbig
  · exact absurd hmax hlt.not_ge
  · have hnext := lt_nextResource hr hlt hbig hsome
    refine ⟨hnext, .inr ?_⟩
    have hpos : (1 : ℚ) ≤ resource := by exact_mod_cast hr
    have hle : (resource : ℚ) ≤ next := by exact_mod_cast hnext.le
    nlinarith

/-- No product is larger than that of the last resource. -/
theorem Climbs.exists_next (hfits : maxResource * eta < 2 ^ 31)
    (h : Climbs eta maxResource resource) (hr : 1 ≤ resource) (hlt : resource < maxResource) :
    ∃ next, nextResource eta maxResource resource = some next := by
  have hpos : (1 : ℚ) ≤ resource := by exact_mod_cast hr
  have hle : (resource : ℚ) ≤ maxResource := by exact_mod_cast hlt.le
  have hbig : 1 ≤ resource * (eta - 1) := h.resolve_left hlt.not_ge
  have heta : 0 < eta := by nlinarith
  exact ⟨_, congrArg _ (if_pos ⟨by nlinarith, by nlinarith⟩)⟩

/-- Where the resources stay, no configuration is left out either. -/
theorem topCount_of_small (hr : 1 ≤ resource) (heta : 1 < eta) (hsmall : resource * (eta - 1) < 1)
    {n : Nat} (hn : 1 ≤ n) : topCount eta n = n := by
  have hpos : (1 : ℚ) ≤ resource := by exact_mod_cast hr
  have hwhole : wholeEta eta = 1 := by
    have hfloor : ⌊eta⌋ = 1 := by
      rw [Int.floor_eq_iff]
      constructor
      · exact_mod_cast heta.le
      · push_cast
        nlinarith
    rw [wholeEta, truncate_of_nonneg (by linarith), hfloor]
    rfl
  rw [topCount, hwhole, Nat.div_one, max_eq_right hn]

/-! ## The loop that makes the rungs -/

theorem rungResources_isSome (hfits : maxResource * eta < 2 ^ 31) : ∀ (fuel : Nat)
    (resource : Int), 1 ≤ resource → Climbs eta maxResource resource →
    (maxResource - resource).toNat < fuel →
    (rungResources maxResource eta fuel resource).isSome
  | 0, _, _, _, h => absurd h (Nat.not_lt_zero _)
  | fuel + 1, resource, hr, hclimbs, h => by
      rw [rungResources]
      split
      · rfl
      · rename_i hlt
        obtain ⟨next, hsome⟩ := hclimbs.exists_next hfits hr (not_le.mp hlt)
        obtain ⟨hnext, hclimbs⟩ := hclimbs.next hr (not_le.mp hlt) hsome
        rw [hsome, Option.bind_some, Option.isSome_map]
        exact rungResources_isSome hfits fuel _ (hr.trans hnext.le) hclimbs (by omega)

theorem rungResources_eq_none (hr : 1 ≤ resource) (heta : 1 < eta)
    (h : ¬ Climbs eta maxResource resource) :
    ∀ fuel, rungResources maxResource eta fuel resource = none
  | 0 => rfl
  | fuel + 1 => by
      obtain ⟨hlt, hsmall⟩ := not_or.mp h
      rw [rungResources, if_neg hlt, Option.bind_eq_none_iff]
      intro next hsome
      rw [nextResource_eq_self hr (not_le.mp hlt) heta (not_le.mp hsmall) hsome,
        rungResources_eq_none hr heta h fuel]
      rfl

/-- Where they climb, the resources ascend from the first one. -/
theorem rungResources_ascend : ∀ {fuel : Nat} {resource : Int} {resources : List Int},
    1 ≤ resource → Climbs eta maxResource resource →
    rungResources maxResource eta fuel resource = some resources →
    resources.head? = some resource ∧ resources.Pairwise (· < ·)
  | 0, _, _, _, _, h => by cases h
  | fuel + 1, resource, resources, hr, hclimbs, h => by
      rw [rungResources] at h
      split at h
      · obtain rfl := Option.some.inj h
        exact ⟨rfl, List.pairwise_singleton _ _⟩
      · rename_i hlt
        obtain ⟨next, hsome, h⟩ := Option.bind_eq_some_iff.mp h
        obtain ⟨hnext, hclimbs⟩ := hclimbs.next hr (not_le.mp hlt) hsome
        obtain ⟨above, habove, rfl⟩ := Option.map_eq_some_iff.mp h
        obtain ⟨hhead, hascend⟩ := rungResources_ascend (hr.trans hnext.le) hclimbs habove
        refine ⟨rfl, List.pairwise_cons.mpr ⟨fun x hx => ?_, hascend⟩⟩
        obtain ⟨rest, rfl⟩ := List.head?_eq_some_iff.mp hhead
        rcases List.mem_cons.mp hx with rfl | hx
        · exact hnext
        · exact hnext.trans ((List.pairwise_cons.mp hascend).1 x hx)

/-! ## The rounds of `successive_halving` -/

section

variable {sorter : Sorter fun scored : C × S => OrderDual.toDual scored.2} {evaluate : C → Int → S}

theorem halvingLoop_isSome (hfits : maxResource * eta < 2 ^ 31) : ∀ (fuel : Nat)
    (current : List C) (resource : Int) (history : List (EvalRecord C S)),
    current ≠ [] → 1 ≤ resource →
    current.length ≤ 1 ∨ Climbs eta maxResource resource →
    (maxResource - resource).toNat < fuel →
    (halvingLoop sorter evaluate maxResource eta fuel current resource history).isSome
  | 0, _, _, _, _, _, _, h => absurd h (Nat.not_lt_zero _)
  | fuel + 1, current, resource, history, hne, hr, hclimbs, h => by
      rw [halvingLoop]
      dsimp only
      have hlength : (sorter.run (current.map fun c => (c, evaluate c resource))).length =
          current.length := by
        rw [(sorter.perm _).length_eq, List.length_map]
      have hpos := List.length_pos_iff.mpr hne
      split
      · rw [Option.isSome_map, List.isSome_head?, ← List.length_pos_iff]
        omega
      · rename_i hlast
        obtain ⟨hlt, hmany⟩ := not_or.mp hlast
        have hclimbs := hclimbs.resolve_left hmany
        obtain ⟨next, hsome⟩ := hclimbs.exists_next hfits hr (not_le.mp hlt)
        obtain ⟨hnext, hclimbs⟩ := hclimbs.next hr (not_le.mp hlt) hsome
        rw [hsome, Option.bind_some]
        refine halvingLoop_isSome hfits fuel _ _ _ ?_ (hr.trans hnext.le) (.inr hclimbs) (by omega)
        have hkeep : 1 ≤ topCount eta current.length := le_max_left _ _
        rw [← List.length_pos_iff, List.length_map, List.length_take, hlength]
        omega

theorem halvingLoop_eq_none (hr : 1 ≤ resource) (heta : 1 < eta)
    (h : ¬ Climbs eta maxResource resource) : ∀ (fuel : Nat) (current : List C)
    (history : List (EvalRecord C S)), 1 < current.length →
    halvingLoop sorter evaluate maxResource eta fuel current resource history = none
  | 0, _, _, _ => rfl
  | fuel + 1, current, history, hmany => by
      obtain ⟨hlt, hsmall⟩ := not_or.mp h
      rw [halvingLoop]
      dsimp only
      rw [if_neg (not_or.mpr ⟨hlt, hmany.not_ge⟩), Option.bind_eq_none_iff]
      intro next hsome
      rw [nextResource_eq_self hr (not_le.mp hlt) heta (not_le.mp hsmall) hsome]
      refine halvingLoop_eq_none hr heta h fuel _ _ ?_
      rw [List.length_map, List.length_take, (sorter.perm _).length_eq, List.length_map,
        topCount_of_small hr heta (not_le.mp hsmall) hmany.le, min_self]
      exact hmany

theorem successiveHalving_ends_iff (hfits : maxResource * eta < 2 ^ 31) {configs : List C}
    (hconfigs : configs ≠ [])
    (hmin : 1 ≤ minResource) (heta : 1 < eta) :
    (∃ fuel, (successiveHalving sorter evaluate maxResource eta configs minResource fuel).isSome) ↔
      configs.length ≤ 1 ∨ Climbs eta maxResource minResource := by
  constructor
  · rintro ⟨fuel, hsome⟩
    by_contra hnot
    obtain ⟨hmany, hclimbs⟩ := not_or.mp hnot
    rw [successiveHalving, halvingLoop_eq_none hmin heta hclimbs _ _ _ (not_le.mp hmany)] at hsome
    cases hsome
  · exact fun h => ⟨_, halvingLoop_isSome hfits _ _ _ _ hconfigs hmin h (Nat.lt_succ_self _)⟩

end

/-! ## The loop of promotions -/

section

variable {rung : Rung C S} {rungs rungs' : List (Rung C S)} {rec : EvalRecord C S}
  {evaluate : C → Int → S} {sampler : σ → C × σ} {nTotalConfigs : Int} {i : Nat}

/-- What is promoted has not been promoted, and its rung has the results to compare it with. -/
theorem eligible_some (h : eligible eta rung = some i) :
    ∃ c s threshold, rung.results[i]? = some (c, s) ∧ rung.promoted[i]? = some false ∧
      wholeEta eta ≤ rung.results.length ∧
      ((rung.results.map Prod.snd).insertionSort (· ≥ ·))[topCount eta rung.results.length - 1]? =
        some threshold ∧ threshold ≤ s := by
  rw [eligible] at h
  split at h
  · cases h
  · rename_i henough
    obtain ⟨threshold, hthreshold, h⟩ := Option.bind_eq_some_iff.mp h
    obtain ⟨hi, hfound, -⟩ := List.findIdx?_eq_some_iff_getElem.mp h
    obtain ⟨hresults, hpromoted⟩ := lt_min_iff.mp (List.length_zip ▸ hi)
    rw [List.getElem_zip, Bool.and_eq_true, Bool.not_eq_true', decide_eq_true_eq] at hfound
    refine ⟨rung.results[i].1, rung.results[i].2, threshold, List.getElem?_eq_getElem hresults, ?_,
      not_lt.mp henough, hthreshold, hfound.2⟩
    rw [List.getElem?_eq_getElem hpromoted, hfound.1]

/-- What the scan does: nothing to the rungs before the first that has something to promote. -/
theorem promote_some (h : promote evaluate eta rungs = some (rungs', rec)) :
    ∃ front rung next rest i c s, rungs = front ++ rung :: next :: rest ∧
      eligible eta rung = some i ∧ rung.results[i]? = some (c, s) ∧
      rec = ⟨c, next.resource, evaluate c next.resource⟩ ∧
      rungs' = front ++ { rung with promoted := rung.promoted.set i true } ::
        next.add c (evaluate c next.resource) :: rest := by
  fun_induction promote generalizing rungs' with
  | case1 rung next rest i c s hfound =>
      obtain ⟨i', hi', hget⟩ := Option.bind_eq_some_iff.mp hfound
      obtain ⟨_, hget, heq⟩ := Option.map_eq_some_iff.mp hget
      obtain ⟨rfl, rfl⟩ := Prod.mk.inj heq
      obtain ⟨rfl, rfl⟩ := Prod.mk.inj (Option.some.inj h)
      exact ⟨[], rung, next, rest, i', c, s, rfl, hi', hget, rfl, rfl⟩
  | case2 rung next rest hnone ih =>
      obtain ⟨⟨above, rec⟩, habove, heq⟩ := Option.map_eq_some_iff.mp h
      obtain ⟨rfl, rfl⟩ := Prod.mk.inj heq
      obtain ⟨front, rung', next', rest', i, c, s, hsplit, hi, hget, hrec, rfl⟩ := ih habove
      exact ⟨rung :: front, rung', next', rest', i, c, s, congrArg (rung :: ·) hsplit, hi, hget,
        hrec, rfl⟩
  | case3 => cases h

/-- Where the scan finds nothing, no rung below the top has anything to promote. -/
theorem promote_none (h : promote evaluate eta rungs = none) {front rest : List (Rung C S)}
    {next : Rung C S} (hsplit : rungs = front ++ rung :: next :: rest) :
    eligible eta rung = none := by
  induction front generalizing rungs with
  | nil =>
      subst hsplit
      rw [List.nil_append, promote] at h
      split at h
      · cases h
      · rename_i hnone
        cases hi : eligible eta rung with
        | none => rfl
        | some i =>
            obtain ⟨c, s, -, hget, -⟩ := eligible_some hi
            rw [hi, Option.bind_some, hget] at hnone
            cases hnone
  | cons first front ih =>
      obtain ⟨second, tail, htail⟩ : ∃ second tail, front ++ rung :: next :: rest =
          second :: tail := List.exists_cons_of_ne_nil (by simp)
      rw [hsplit, List.cons_append, htail, promote] at h
      split at h
      · cases h
      · exact ih (Option.map_eq_none_iff.mp h) htail.symm

/-- How many promotions there can be: every configuration that is not promoted may yet go up to
the top. -/
def weight : List (Rung C S) → Nat
  | [] => 0
  | rung :: rest => rung.promoted.count false * (rest.length + 1) + weight rest

omit [LinearOrder S] in
theorem weight_append_lt {front l l' : List (Rung C S)} (hlength : l'.length = l.length)
    (h : weight l' < weight l) : weight (front ++ l') < weight (front ++ l) := by
  induction front with
  | nil => exact h
  | cons rung front ih =>
      rw [List.cons_append, List.cons_append, weight, weight, List.length_append,
        List.length_append, hlength]
      omega

theorem count_false_set {flags : List Bool} (h : flags[i]? = some false) :
    (flags.set i true).count false + 1 = flags.count false := by
  induction flags generalizing i with
  | nil => cases h
  | cons flag flags ih =>
      cases i with
      | zero =>
          obtain rfl : flag = false := Option.some.inj h
          simp
      | succ i => simp [List.count_cons, ← ih h, Nat.add_right_comm]

theorem promote_weight (h : promote evaluate eta rungs = some (rungs', rec)) :
    weight rungs' < weight rungs ∧ rungs'.length = rungs.length := by
  obtain ⟨front, rung, next, rest, i, c, s, rfl, hi, -, -, rfl⟩ := promote_some h
  obtain ⟨-, -, -, -, hflag, -⟩ := eligible_some hi
  have hcount := count_false_set hflag
  refine ⟨weight_append_lt rfl ?_, by simp⟩
  simp only [weight, Rung.add, List.length_cons, List.count_append, List.count_singleton_self]
  rw [← hcount]
  generalize (rung.promoted.set i true).count false = m
  generalize rest.length = r
  generalize next.promoted.count false = n
  have hleft : (m + 1) * (r + 1 + 1) = m * (r + 1 + 1) + (r + 1 + 1) := Nat.succ_mul _ _
  have hright : (n + 1) * (r + 1) = n * (r + 1) + (r + 1) := Nat.succ_mul _ _
  omega

omit [LinearOrder S] in
theorem start_weight {s : Asha C S σ} (h : s.rungs ≠ []) :
    weight (start sampler evaluate s).rungs = weight s.rungs + s.rungs.length ∧
      (start sampler evaluate s).rungs.length = s.rungs.length ∧
      (start sampler evaluate s).configsStarted = s.configsStarted + 1 := by
  obtain ⟨base, rest, hrungs⟩ := List.exists_cons_of_ne_nil h
  simp only [start, hrungs]
  refine ⟨?_, rfl, trivial⟩
  simp only [weight, Rung.add, List.count_append, List.count_singleton_self, List.length_cons]
  rw [Nat.succ_mul]
  omega

/-- The loop ends: a promotion lowers the weight, and what a new configuration adds to it is paid
for by the configurations that are yet to come. -/
theorem ashaLoop_isSome : ∀ (fuel : Nat) (s : Asha C S σ), s.rungs ≠ [] →
    (nTotalConfigs - s.configsStarted).toNat * (s.rungs.length + 1) + weight s.rungs < fuel →
    (ashaLoop sampler evaluate eta nTotalConfigs fuel s).isSome
  | 0, _, _, h => absurd h (Nat.not_lt_zero _)
  | fuel + 1, s, hne, h => by
      rw [ashaLoop]
      split
      · rename_i rungs rec hpromote
        obtain ⟨hweight, hlength⟩ := promote_weight hpromote
        refine ashaLoop_isSome fuel _ ?_ ?_
        · exact List.ne_nil_of_length_pos (hlength ▸ List.length_pos_iff.mpr hne)
        · dsimp only
          rw [hlength]
          omega
      · split
        · rfl
        · rename_i hmore
          obtain ⟨hweight, hlength, hstarted⟩ := @start_weight C S σ evaluate sampler s hne
          refine ashaLoop_isSome fuel _ ?_ ?_
          · exact List.ne_nil_of_length_pos (hlength ▸ List.length_pos_iff.mpr hne)
          · have hone : (nTotalConfigs - s.configsStarted).toNat =
                (nTotalConfigs - (s.configsStarted + 1 : Nat)).toNat + 1 := by omega
            rw [hone, Nat.succ_mul] at h
            rw [hweight, hlength, hstarted]
            omega

/-- More fuel changes nothing. -/
theorem ashaLoop_le : ∀ {fuel fuel' : Nat} {s end' : Asha C S σ}, fuel ≤ fuel' →
    ashaLoop sampler evaluate eta nTotalConfigs fuel s = some end' →
    ashaLoop sampler evaluate eta nTotalConfigs fuel' s = some end'
  | 0, _, _, _, _, h => by cases h
  | fuel + 1, 0, _, _, hle, _ => absurd hle (Nat.not_succ_le_zero fuel)
  | fuel + 1, fuel' + 1, s, end', hle, h => by
      rw [ashaLoop] at h ⊢
      split at h
      · exact ashaLoop_le (Nat.le_of_succ_le_succ hle) h
      · split at h
        · rename_i hdone
          rw [if_pos hdone]
          exact h
        · rename_i hmore
          rw [if_neg hmore]
          exact ashaLoop_le (Nat.le_of_succ_le_succ hle) h

theorem rungResources_le : ∀ {fuel fuel' : Nat} {resource : Int} {resources : List Int},
    fuel ≤ fuel' → rungResources maxResource eta fuel resource = some resources →
    rungResources maxResource eta fuel' resource = some resources
  | 0, _, _, _, _, h => by cases h
  | fuel + 1, 0, _, _, hle, _ => absurd hle (Nat.not_succ_le_zero fuel)
  | fuel + 1, fuel' + 1, resource, resources, hle, h => by
      rw [rungResources] at h ⊢
      split at h
      · rename_i hmax
        rw [if_pos hmax]
        exact h
      · rename_i hlt
        obtain ⟨next, hsome, h⟩ := Option.bind_eq_some_iff.mp h
        obtain ⟨above, habove, rfl⟩ := Option.map_eq_some_iff.mp h
        rw [if_neg hlt, hsome, Option.bind_some,
          rungResources_le (Nat.le_of_succ_le_succ hle) habove]
        rfl

theorem rungResources_ne_nil {fuel : Nat} {resources : List Int}
    (h : rungResources maxResource eta fuel resource = some resources) : resources ≠ [] := by
  cases fuel with
  | zero => cases h
  | succ fuel =>
      rw [rungResources] at h
      split at h
      · obtain rfl := Option.some.inj h
        exact List.cons_ne_nil _ _
      · obtain ⟨next, -, h⟩ := Option.bind_eq_some_iff.mp h
        obtain ⟨above, -, rfl⟩ := Option.map_eq_some_iff.mp h
        exact List.cons_ne_nil _ _

/-- Once there are rungs, the promotions end. -/
theorem promotions_end {resources : List Int} (h : resources ≠ []) (rng : σ) :
    ∃ fuel, (ashaLoop sampler evaluate eta nTotalConfigs fuel
      (Asha.initial resources rng : Asha C S σ)).isSome :=
  ⟨_, ashaLoop_isSome _ _ (by simpa [Asha.initial] using h) (Nat.lt_succ_self _)⟩

theorem asha_ends_iff (hfits : maxResource * eta < 2 ^ 31) (hmin : 1 ≤ minResource)
    (heta : 1 < eta) (lowest : S) (rng : σ) :
    (∃ fuel, (asha sampler evaluate minResource maxResource eta nTotalConfigs lowest rng
      fuel).isSome) ↔ Climbs eta maxResource minResource := by
  constructor
  · rintro ⟨fuel, hsome⟩
    by_contra hnot
    rw [asha, rungResources_eq_none hmin heta hnot] at hsome
    cases hsome
  · intro h
    obtain ⟨resources, hresources⟩ := Option.isSome_iff_exists.mp
      (rungResources_isSome hfits _ _ hmin h (Nat.lt_succ_self _))
    have hends : ∃ fuel, (ashaLoop sampler evaluate eta nTotalConfigs fuel
        (Asha.initial resources rng : Asha C S σ)).isSome :=
      promotions_end (rungResources_ne_nil hresources) rng
    obtain ⟨fuel, hends⟩ := hends
    obtain ⟨s, hs⟩ := Option.isSome_iff_exists.mp hends
    refine ⟨max ((maxResource - minResource).toNat + 1) fuel, ?_⟩
    rw [asha, rungResources_le (le_max_left _ _) hresources, Option.bind_eq_bind, Option.bind_some,
      ashaLoop_le (le_max_right _ _) hs]
    rfl

end

/-- The scores are sorted with equal ones in the order they come in. -/
def byScore : Sorter fun scored : Nat × Int => OrderDual.toDual scored.2 := Sorter.stable _

/-- The configurations 0, 1, …, one after the other. -/
def counting (n : Nat) : Nat × Nat := (n, n + 1)

end CrossMachine.Ml
