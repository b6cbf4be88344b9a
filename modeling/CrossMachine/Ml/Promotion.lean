import CrossMachine.Ml.Rungs
import Mathlib.Data.List.Nodup

/-!
# What is promoted

The configurations that are sampled may be equal, so the promotions are followed with numbers: the
loop is run on configurations that have the number of their sample with them, and forgetting the
numbers gives what `asha` does (`ashaLoop_map`). The invariant is that a rung has what the history
says, and that its flags say which numbers are at the rung above.
-/

namespace CrossMachine.Ml

variable {C D S σ τ : Type} [LinearOrder S] {eta : ℚ}

/-! ## Forgetting -/

def EvalRecord.map (f : C → D) (rec : EvalRecord C S) : EvalRecord D S :=
  ⟨f rec.config, rec.resource, rec.score⟩

def Rung.map (f : C → D) (rung : Rung C S) : Rung D S :=
  ⟨rung.resource, rung.results.map (Prod.map f id), rung.promoted⟩

def Asha.map (f : C → D) (g : σ → τ) (s : Asha C S σ) : Asha D S τ :=
  ⟨s.rungs.map (Rung.map f), s.history.map (EvalRecord.map f), s.configsStarted, g s.rng⟩

section

variable {f : C → D} {g : σ → τ} {evaluate : D → Int → S} {sampler : σ → C × σ}
  {sampler' : τ → D × τ} {nTotalConfigs : Int}

theorem eligible_map (rung : Rung C S) : eligible eta (rung.map f) = eligible eta rung := by
  have hscores : (rung.results.map (Prod.map f id)).map Prod.snd = rung.results.map Prod.snd := by
    rw [List.map_map]
    rfl
  rw [eligible, eligible, Rung.map]
  dsimp only
  rw [hscores, List.length_map, List.zip_map_left]
  simp only [List.findIdx?_map]
  rfl

omit [LinearOrder S] in
theorem add_map (rung : Rung C S) (c : C) (s : S) :
    (rung.map f).add (f c) s = (rung.add c s).map f := by
  simp [Rung.map, Rung.add]

theorem found_map (rung : Rung C S) :
    ((eligible eta (rung.map f)).bind fun i => ((rung.map f).results[i]?).map (i, ·)) =
      ((eligible eta rung).bind fun i => (rung.results[i]?).map (i, ·)).map
        fun (i, c, s) => (i, f c, s) := by
  rw [eligible_map, Option.map_bind]
  refine Option.bind_congr fun i _ => ?_
  rw [Function.comp_apply, Rung.map, List.getElem?_map, Option.map_map, Option.map_map]
  rfl

theorem promote_map (rungs : List (Rung C S)) :
    promote evaluate eta (rungs.map (Rung.map f)) =
      (promote (fun c => evaluate (f c)) eta rungs).map
        fun (rungs, rec) => (rungs.map (Rung.map f), rec.map f) := by
  fun_induction promote (fun c => evaluate (f c)) eta rungs with
  | case1 rung next rest i c s hfound =>
      rw [List.map_cons, List.map_cons, promote, found_map, hfound]
      simp only [Option.map_some, add_map, List.map_cons]
      rfl
  | case2 rung next rest hnone ih =>
      rw [List.map_cons, List.map_cons, promote, found_map, hnone]
      rw [List.map_cons] at ih
      simp only [Option.map_none, ih, Option.map_map]
      rfl
  | case3 rungs h =>
      rcases rungs with - | ⟨a, - | ⟨b, l⟩⟩
      · rfl
      · rfl
      · exact absurd rfl (h a b l)

omit [LinearOrder S] in
theorem start_map (hsampler : ∀ r, sampler' (g r) = Prod.map f g (sampler r)) (s : Asha C S σ) :
    start sampler' evaluate (s.map f g) =
      (start sampler (fun c => evaluate (f c)) s).map f g := by
  cases hrungs : s.rungs with
  | nil => simp only [start, Asha.map, hrungs, List.map_nil]
  | cons base rest =>
      simp only [start, Asha.map, hrungs, List.map_cons, hsampler, Prod.map, add_map,
        List.map_append, List.map_nil]
      rfl

/-- What the loop does with configurations that are not told apart is what it does with those that
are, forgetting what tells them apart. -/
theorem ashaLoop_map (hsampler : ∀ r, sampler' (g r) = Prod.map f g (sampler r)) :
    ∀ (fuel : Nat) (s : Asha C S σ),
      ashaLoop sampler' evaluate eta nTotalConfigs fuel (s.map f g) =
        (ashaLoop sampler (fun c => evaluate (f c)) eta nTotalConfigs fuel s).map (Asha.map f g)
  | 0, _ => rfl
  | fuel + 1, s => by
      have hpromote : promote evaluate eta (s.map f g).rungs = _ := promote_map s.rungs
      rw [ashaLoop, ashaLoop, hpromote]
      cases promote (fun c => evaluate (f c)) eta s.rungs with
      | some found =>
          rw [Option.map_some, ← ashaLoop_map hsampler fuel]
          simp only [Asha.map, List.map_append, List.map_singleton]
      | none =>
          rw [Option.map_none]
          have hstarted : (s.map f g).configsStarted = s.configsStarted := rfl
          simp only [start_map hsampler, ashaLoop_map hsampler fuel, hstarted]
          by_cases hdone : (s.configsStarted : Int) ≥ nTotalConfigs
          · rw [if_pos hdone, if_pos hdone, Option.map_some]
          · rw [if_neg hdone, if_neg hdone]

end

/-! ## Numbers -/

/-- Samples with their numbers. -/
def numbered (sampler : σ → C × σ) (r : Nat × σ) : (Nat × C) × (Nat × σ) :=
  ((r.1, (sampler r.2).1), (r.1 + 1, (sampler r.2).2))

/-- The state of the generator before the sample `k`. -/
def rngAt (sampler : σ → C × σ) (rng : σ) (k : Nat) : σ := (fun r => (sampler r).2)^[k] rng

def sampleAt (sampler : σ → C × σ) (rng : σ) (k : Nat) : C := (sampler (rngAt sampler rng k)).1

theorem rngAt_succ (sampler : σ → C × σ) (rng : σ) (k : Nat) :
    rngAt sampler rng (k + 1) = (sampler (rngAt sampler rng k)).2 :=
  Function.iterate_succ_apply' _ _ _

/-- What has been evaluated at a resource, with the scores. -/
def resultsAt (resource : Int) (history : List (EvalRecord C S)) : List (C × S) :=
  (history.filter fun rec => rec.resource = resource).map fun rec => (rec.config, rec.score)

/-- A score is at least the `(n / eta)`th best of `n` results, and there are `eta` at least. -/
def InTop (eta : Nat) (results : List (C × S)) (s : S) : Prop :=
  eta ≤ results.length ∧ (results.filter fun r => s < r.2).length < results.length / eta

/-- The discipline of promotions: what the history of a run has to be like, where configurations
have the numbers of their samples. -/
structure Disciplined (eta : Nat) (sample : Nat → C) (evaluate : C → Int → S) (n : Nat)
    (resources : List Int) (history : List (EvalRecord (Nat × C) S)) : Prop where
  scored : ∀ rec ∈ history, rec.resource ∈ resources ∧
    rec.score = evaluate rec.config.2 rec.resource
  /-- The base rung has `n` samples, one after the other. -/
  base : ∀ base ∈ resources.head?, (resultsAt base history).map Prod.fst =
    (List.range n).map fun k => (k, sample k)
  /-- No sample is evaluated twice at a rung. -/
  once : (history.map fun rec => (rec.config.1, rec.resource)).Nodup
  /-- What is evaluated above the base has been evaluated at the rung below, and was in the top
  of it. -/
  promoted : ∀ front rec back, history = front ++ rec :: back →
    ∀ j r, resources[j]? = some r → resources[j + 1]? = some rec.resource →
      ∃ s, (rec.config, s) ∈ resultsAt r front ∧ InTop eta (resultsAt r front) s
  /-- In the end, whatever is in the top of its rung is at the rung above. -/
  done : ∀ j r r', resources[j]? = some r → resources[j + 1]? = some r' →
    ∀ c s, (c, s) ∈ resultsAt r history → InTop eta (resultsAt r history) s →
      ∃ s', (c, s') ∈ resultsAt r' history

/-! ## Histories -/

section

variable {history : List (EvalRecord C S)} {rec : EvalRecord C S} {resource : Int}

omit [LinearOrder S] in
theorem resultsAt_snoc_self :
    resultsAt rec.resource (history ++ [rec]) =
      resultsAt rec.resource history ++ [(rec.config, rec.score)] := by
  simp [resultsAt]

omit [LinearOrder S] in
theorem resultsAt_snoc_ne (h : rec.resource ≠ resource) :
    resultsAt resource (history ++ [rec]) = resultsAt resource history := by
  simp [resultsAt, h]

omit [LinearOrder S] in
theorem mem_resultsAt_of_mem (h : rec ∈ history) :
    (rec.config, rec.score) ∈ resultsAt rec.resource history :=
  List.mem_map.mpr ⟨rec, List.mem_filter.mpr ⟨h, decide_eq_true rfl⟩, rfl⟩

omit [LinearOrder S] in
theorem exists_of_mem_resultsAt {c : C} {s : S} (h : (c, s) ∈ resultsAt resource history) :
    ∃ rec ∈ history, rec.resource = resource ∧ rec.config = c ∧ rec.score = s := by
  obtain ⟨rec, hrec, heq⟩ := List.mem_map.mp h
  obtain ⟨hmem, hresource⟩ := List.mem_filter.mp hrec
  exact ⟨rec, hmem, of_decide_eq_true hresource, (Prod.mk.inj heq).1, (Prod.mk.inj heq).2⟩

end

/-- What holds of a history at any time. -/
structure Lawful (eta : Nat) (sample : Nat → C) (evaluate : C → Int → S) (resources : List Int)
    (history : List (EvalRecord (Nat × C) S)) : Prop where
  scored : ∀ rec ∈ history, rec.resource ∈ resources ∧
    rec.score = evaluate rec.config.2 rec.resource
  sampled : ∀ rec ∈ history, rec.config.2 = sample rec.config.1
  once : (history.map fun rec => (rec.config.1, rec.resource)).Nodup
  promoted : ∀ front rec back, history = front ++ rec :: back →
    ∀ j r, resources[j]? = some r → resources[j + 1]? = some rec.resource →
      ∃ s, (rec.config, s) ∈ resultsAt r front ∧ InTop eta (resultsAt r front) s

variable {sample : Nat → C} {evaluate : C → Int → S} {resources : List Int}
  {history : List (EvalRecord (Nat × C) S)} {rec : EvalRecord (Nat × C) S} {n : Nat}

theorem Lawful.nil : Lawful n sample evaluate resources [] where
  scored _ h := absurd h List.not_mem_nil
  sampled _ h := absurd h List.not_mem_nil
  once := List.nodup_nil
  promoted front rec back h := by simp at h

theorem Lawful.snoc (h : Lawful n sample evaluate resources history)
    (hresource : rec.resource ∈ resources)
    (hscore : rec.score = evaluate rec.config.2 rec.resource)
    (hsample : rec.config.2 = sample rec.config.1)
    (hnew : rec.config.1 ∉ (resultsAt rec.resource history).map fun r => r.1.1)
    (hpromoted : ∀ j r, resources[j]? = some r → resources[j + 1]? = some rec.resource →
      ∃ s, (rec.config, s) ∈ resultsAt r history ∧ InTop n (resultsAt r history) s) :
    Lawful n sample evaluate resources (history ++ [rec]) where
  scored r hr := by
    rcases List.mem_append.mp hr with hr | hr
    · exact h.scored r hr
    · obtain rfl := List.mem_singleton.mp hr
      exact ⟨hresource, hscore⟩
  sampled r hr := by
    rcases List.mem_append.mp hr with hr | hr
    · exact h.sampled r hr
    · obtain rfl := List.mem_singleton.mp hr
      exact hsample
  once := by
    rw [List.map_append, List.map_singleton, ← List.concat_eq_append]
    refine List.Nodup.concat (fun hmem => hnew ?_) h.once
    obtain ⟨old, hold, heq⟩ := List.mem_map.mp hmem
    obtain ⟨hnumber, hsame⟩ := Prod.mk.inj heq
    rw [← hsame, ← hnumber]
    exact List.mem_map.mpr ⟨_, mem_resultsAt_of_mem hold, rfl⟩
  promoted front r back hsplit := by
    rcases List.eq_nil_or_concat back with rfl | ⟨back, last, rfl⟩
    · obtain ⟨rfl, hr⟩ := List.append_inj' hsplit rfl
      obtain rfl := (List.cons.inj hr).1
      exact hpromoted
    · rw [List.concat_eq_append, ← List.cons_append, ← List.append_assoc] at hsplit
      exact h.promoted front r back (List.append_inj' hsplit rfl).1

/-! ## Rungs -/

def Rung.numbers (rung : Rung (Nat × C) S) : List Nat := rung.results.map fun r => r.1.1

/-- The numbers at the lowest of some rungs. -/
def numbersOf : List (Rung (Nat × C) S) → List Nat
  | [] => []
  | rung :: _ => rung.numbers

/-- What has come to a rung has been at the rung below, and has its flag set there. -/
def Ladder : List (Rung (Nat × C) S) → Prop
  | [] => True
  | rung :: rest => rung.numbers.Nodup ∧ numbersOf rest ⊆ rung.numbers ∧
      (rung.promoted = rung.numbers.map fun k => decide (k ∈ numbersOf rest)) ∧ Ladder rest

variable {rung next : Rung (Nat × C) S} {rest front l l' : List (Rung (Nat × C) S)}

omit [LinearOrder S] in
@[simp] theorem numbers_add (c : Nat × C) (s : S) :
    (rung.add c s).numbers = rung.numbers ++ [c.1] := by
  simp [Rung.numbers, Rung.add]

omit [LinearOrder S] in
/-- A number that is new to a rung comes to it. -/
theorem Ladder.add (h : Ladder (rung :: rest)) {c : Nat × C} {s : S} (hnew : c.1 ∉ rung.numbers) :
    Ladder (rung.add c s :: rest) := by
  obtain ⟨hnodup, hsub, hflags, hrest⟩ := h
  have hnot : c.1 ∉ numbersOf rest := fun hmem => hnew (hsub hmem)
  refine ⟨?_, ?_, ?_, hrest⟩
  · rw [numbers_add, ← List.concat_eq_append]
    exact hnodup.concat hnew
  · rw [numbers_add]
    exact List.subset_append_of_subset_left _ hsub
  · rw [numbers_add, List.map_append, List.map_singleton, decide_eq_false hnot, ← hflags]
    rfl

omit [LinearOrder S] in
/-- The rungs below do not see more than the numbers. -/
theorem Ladder.replace (h : Ladder (front ++ l)) (hsame : numbersOf l' = numbersOf l)
    (hl : Ladder l → Ladder l') : Ladder (front ++ l') := by
  induction front with
  | nil => exact hl h
  | cons rung front ih =>
      have hnumbers : numbersOf (front ++ l') = numbersOf (front ++ l) := by
        cases front with
        | nil => exact hsame
        | cons => rfl
      obtain ⟨hnodup, hsub, hflags, hrest⟩ := h
      exact ⟨hnodup, hnumbers ▸ hsub, hnumbers ▸ hflags, ih hrest⟩

omit [LinearOrder S] in
theorem Ladder.of_append (h : Ladder (front ++ l)) : Ladder l := by
  induction front with
  | nil => exact h
  | cons _ _ ih => exact ih h.2.2.2

omit [LinearOrder S] in
/-- What is not promoted is not at the rung above. -/
theorem Ladder.not_above (h : Ladder (rung :: next :: rest)) {i : Nat} {c : Nat × C} {s : S}
    (hget : rung.results[i]? = some (c, s)) (hflag : rung.promoted[i]? = some false) :
    c.1 ∉ next.numbers := by
  obtain ⟨-, -, hflags, -⟩ := h
  rw [hflags, List.getElem?_map, Rung.numbers, List.getElem?_map, hget] at hflag
  exact of_decide_eq_false (Option.some.inj hflag)

omit [LinearOrder S] in
theorem Ladder.promote (h : Ladder (rung :: next :: rest)) {i : Nat} {c : Nat × C} {s s' : S}
    (hget : rung.results[i]? = some (c, s)) (hflag : rung.promoted[i]? = some false) :
    Ladder ({ rung with promoted := rung.promoted.set i true } :: next.add c s' :: rest) := by
  have hnew := h.not_above hget hflag
  obtain ⟨hnodup, hsub, hflags, hrest⟩ := h
  have hnumber : rung.numbers[i]? = some c.1 := by rw [Rung.numbers, List.getElem?_map, hget]; rfl
  refine ⟨hnodup, ?_, ?_, hrest.add hnew⟩
  · show (next.add c s').numbers ⊆ rung.numbers
    rw [numbers_add]
    refine List.append_subset.mpr ⟨hsub, fun k hk => ?_⟩
    rw [List.mem_singleton.mp hk]
    exact List.mem_of_getElem? hnumber
  · show rung.promoted.set i true = rung.numbers.map fun k => decide (k ∈ (next.add c s').numbers)
    rw [hflags, numbers_add]
    refine List.ext_getElem? fun j => ?_
    rw [List.getElem?_map]
    by_cases hj : j = i
    · subst hj
      have hlt := (List.getElem?_eq_some_iff.mp hnumber).1
      rw [List.getElem?_set_self (by rwa [List.length_map]), hnumber]
      simp
    · rw [List.getElem?_set_ne (Ne.symm hj), List.getElem?_map]
      cases hk : rung.numbers[j]? with
      | none => rfl
      | some k =>
          have hlt := (List.getElem?_eq_some_iff.mp hk).1
          have hne : k ≠ c.1 := by
            rintro rfl
            exact hj ((List.getElem?_inj hlt hnodup).mp (hk.trans hnumber.symm))
          refine congrArg some (decide_eq_decide.mpr ?_)
          simp [numbersOf, hne]

/-! ## The run -/

/-- The rungs say what the history says, and the samples have come in order. -/
structure Following (sampler : σ → C × σ) (rng : σ) (evaluate : C → Int → S) (eta : Nat)
    (resources : List Int) (s : Asha (Nat × C) S (Nat × σ)) : Prop where
  lawful : Lawful eta (sampleAt sampler rng) evaluate resources s.history
  resources : s.rungs.map Rung.resource = resources
  recorded : ∀ rung ∈ s.rungs, rung.results = resultsAt rung.resource s.history
  ladder : Ladder s.rungs
  base : ∀ base ∈ s.rungs.head?, base.results.map Prod.fst =
    (List.range s.configsStarted).map fun k => (k, sampleAt sampler rng k)
  rng : s.rng = (s.configsStarted, rngAt sampler rng s.configsStarted)

variable {sampler : σ → C × σ} {rng : σ} {s : Asha (Nat × C) S (Nat × σ)}

theorem Following.initial :
    Following sampler rng evaluate n resources (.initial resources (0, rng)) where
  lawful := .nil
  resources := by
    rw [Asha.initial, List.map_map]
    exact List.map_id resources
  recorded rung hrung := by
    obtain ⟨r, -, rfl⟩ := List.mem_map.mp hrung
    rfl
  ladder := by
    have hempty (l : List Int) :
        Ladder (l.map fun r => (⟨r, [], []⟩ : Rung (Nat × C) S)) := by
      induction l with
      | nil => exact trivial
      | cons r l ih =>
          refine ⟨List.nodup_nil, ?_, rfl, ih⟩
          cases l <;> exact List.nil_subset _
    exact hempty resources
  base base hbase := by
    obtain ⟨r, -, rfl⟩ := List.mem_map.mp (List.mem_of_mem_head? hbase)
    rfl
  rng := rfl

omit [LinearOrder S] in
/-- The other rungs have other resources. -/
theorem resource_ne {low high : List (Rung (Nat × C) S)}
    (h : ((low ++ next :: high).map Rung.resource).Nodup) {r : Rung (Nat × C) S}
    (hr : r ∈ low ++ high) : next.resource ≠ r.resource := by
  rw [List.map_append, List.map_cons, List.nodup_middle, ← List.map_append, List.nodup_cons] at h
  intro heq
  exact h.1 (heq ▸ List.mem_map_of_mem hr)

omit [LinearOrder S] in
/-- What is evaluated at a rung is recorded there, and nowhere else. -/
theorem recorded_add {low high : List (Rung (Nat × C) S)}
    (h : ∀ r ∈ low ++ next :: high, r.results = resultsAt r.resource history)
    (hnodup : ((low ++ next :: high).map Rung.resource).Nodup) {c : Nat × C} {score : S} :
    ∀ r ∈ low ++ next.add c score :: high,
      r.results = resultsAt r.resource (history ++ [⟨c, next.resource, score⟩]) := by
  intro r hr
  generalize hrec : (⟨c, next.resource, score⟩ : EvalRecord (Nat × C) S) = rec
  have hresource : rec.resource = next.resource := by rw [← hrec]
  rw [List.mem_append, List.mem_cons, or_left_comm, ← List.mem_append] at hr
  rcases hr with rfl | hr
  · show next.results ++ [(c, score)] = resultsAt next.resource (history ++ [rec])
    rw [h next (by simp), ← hresource, resultsAt_snoc_self, ← hrec]
  · have hold : r ∈ low ++ next :: high := by
      rw [List.mem_append, List.mem_cons, or_left_comm, ← List.mem_append]
      exact .inr hr
    rw [h r hold, resultsAt_snoc_ne (hresource ▸ resource_ne hnodup hr)]

/-- A sample comes to the base rung. -/
theorem Following.start (h : Following sampler rng evaluate n resources s)
    (hnodup : resources.Nodup) :
    Following sampler rng evaluate n resources
      (start (numbered sampler) (fun c => evaluate c.2) s) := by
  cases hrungs : s.rungs with
  | nil =>
      simp only [Ml.start, hrungs]
      exact h
  | cons base rest =>
      have hbase : base.results.map Prod.fst =
          (List.range s.configsStarted).map fun k => (k, sampleAt sampler rng k) :=
        h.base base (by rw [hrungs]; rfl)
      have hrecorded := hrungs ▸ h.recorded
      have hresources : (([] ++ base :: rest).map Rung.resource) = resources := by
        rw [List.nil_append, ← hrungs, h.resources]
      have hnumbers : base.numbers = List.range s.configsStarted := by
        have hmap := congrArg (List.map Prod.fst) hbase
        rw [List.map_map, List.map_map] at hmap
        exact hmap.trans (List.map_id _)
      have hnew : s.configsStarted ∉ base.numbers := by
        rw [hnumbers]
        exact List.not_mem_range_self
      have hfirst : resources[0]? = some base.resource := by
        rw [← hresources]
        rfl
      simp only [Ml.start, hrungs, numbered, h.rng]
      refine ⟨?_, ?_, ?_, ?_, ?_, ?_⟩
      · refine h.lawful.snoc (List.mem_of_getElem? hfirst) rfl rfl ?_ fun j r _ hj => ?_
        · rw [← hrecorded base List.mem_cons_self]
          exact hnew
        · have hlt := (List.getElem?_eq_some_iff.mp hj).1
          have hzero := (List.getElem?_inj hlt hnodup).mp (hj.trans hfirst.symm)
          exact absurd hzero (Nat.succ_ne_zero j)
      · exact hresources
      · exact @recorded_add _ _ _ base [] rest hrecorded (hresources ▸ hnodup) _ _
      · exact (hrungs ▸ h.ladder).add hnew
      · intro base' hbase'
        obtain rfl := Option.some.inj hbase'
        rw [Rung.add, List.map_append, hbase, List.range_succ, List.map_append]
        rfl
      · rw [rngAt_succ]

omit [LinearOrder S] in
theorem resources_of_split (h : (front ++ rung :: next :: rest).map Rung.resource = resources) :
    resources[front.length]? = some rung.resource ∧
      resources[front.length + 1]? = some next.resource := by
  subst h
  simp

theorem wholeEta_natCast (n : Nat) : wholeEta (n : ℚ) = n := by
  rw [wholeEta, truncate_of_nonneg (Nat.cast_nonneg n), Int.floor_natCast, Int.toNat_natCast]

/-- The threshold of a rung tells what is in its top. -/
theorem inTop_iff {results : List (C × S)} {threshold x : S} (hn : 1 ≤ n)
    (henough : n ≤ results.length)
    (hthreshold : ((results.map Prod.snd).insertionSort (· ≥ ·))[topCount n results.length - 1]? =
      some threshold) : InTop n results x ↔ threshold ≤ x := by
  have hsome : 1 ≤ results.length / n := (Nat.one_le_div_iff hn).mpr henough
  have htop : topCount n results.length = results.length / n := by
    rw [topCount, wholeEta_natCast, max_eq_right hsome]
  rw [htop] at hthreshold
  rw [Lib.kth_le_iff hsome hthreshold, List.filter_map, List.length_map]
  exact and_iff_right henough

/-- A sample goes up to the next rung. -/
theorem Following.promote (h : Following sampler rng evaluate n resources s)
    (hnodup : resources.Nodup) (hn : 1 ≤ n)
    (hpromote : promote (fun c => evaluate c.2) n s.rungs = some (l, rec)) :
    Following sampler rng evaluate n resources
      { s with rungs := l, history := s.history ++ [rec] } := by
  obtain ⟨front, rung, next, rest, i, c, score, hrungs, hi, hget, rfl, rfl⟩ := promote_some hpromote
  obtain ⟨c', score', threshold, hget', hflag, henough, hthreshold, hle⟩ := eligible_some hi
  obtain ⟨rfl, rfl⟩ := Prod.mk.inj (Option.some.inj (hget.symm.trans hget'))
  rw [wholeEta_natCast] at henough
  have hladder := (hrungs ▸ h.ladder).of_append
  have hrecorded := hrungs ▸ h.recorded
  have hresources := hrungs ▸ h.resources
  obtain ⟨hbelow, habove⟩ := resources_of_split hresources
  have hrung : rung.results = resultsAt rung.resource s.history := hrecorded rung (by simp)
  have hnext : next.results = resultsAt next.resource s.history := hrecorded next (by simp)
  have hmem : (c, score) ∈ resultsAt rung.resource s.history :=
    hrung ▸ List.mem_of_getElem? hget
  obtain ⟨old, hold, -, hconfig, -⟩ := exists_of_mem_resultsAt hmem
  refine ⟨?_, ?_, ?_, ?_, ?_, h.rng⟩
  · refine h.lawful.snoc (List.mem_of_getElem? habove) rfl (hconfig ▸ h.lawful.sampled old hold)
      (hnext ▸ hladder.not_above hget hflag) fun j r hr hr' => ?_
    -- the rung below is the one that `c` comes from
    have hlt := (List.getElem?_eq_some_iff.mp hr').1
    obtain rfl := Nat.succ_injective ((List.getElem?_inj hlt hnodup).mp (hr'.trans habove.symm))
    obtain rfl := Option.some.inj (hr.symm.trans hbelow)
    exact ⟨score, hmem, hrung ▸ (inTop_iff hn henough hthreshold).mpr hle⟩
  · rw [← hresources]
    simp [Rung.add]
  · have hassoc {α : Type} (x : α) (low high : List α) : low ++ x :: high = (low ++ [x]) ++ high :=
      by rw [List.append_assoc, List.singleton_append]
    rw [hassoc]
    refine recorded_add (fun r hr => ?_) ?_
    · rw [← hassoc, List.mem_append, List.mem_cons] at hr
      rcases hr with hr | rfl | hr
      · exact hrecorded r (List.mem_append_left _ hr)
      · exact hrung
      · exact hrecorded r (List.mem_append_right _ (List.mem_cons_of_mem _ hr))
    · rw [← hassoc]
      rw [← hresources] at hnodup
      simpa only [List.map_append, List.map_cons] using hnodup
  · exact (hrungs ▸ h.ladder).replace rfl fun hl => hl.promote hget hflag
  · intro base hbase
    cases front with
    | nil =>
        obtain rfl := Option.some.inj hbase
        exact h.base rung (by rw [hrungs]; rfl)
    | cons first front => exact h.base base (by rw [hrungs]; exact hbase)

/-- The whole loop follows, and it ends where nothing is left to promote and all samples have been
taken. -/
theorem Following.run (hnodup : resources.Nodup) (hn : 1 ≤ n) {nTotalConfigs : Int} :
    ∀ (fuel : Nat) {s last : Asha (Nat × C) S (Nat × σ)}, s.rungs ≠ [] →
      s.configsStarted ≤ nTotalConfigs.toNat →
      Following sampler rng evaluate n resources s →
      ashaLoop (numbered sampler) (fun c => evaluate c.2) n nTotalConfigs fuel s = some last →
      Following sampler rng evaluate n resources last ∧ last.rungs ≠ [] ∧
        last.configsStarted = nTotalConfigs.toNat ∧
        Ml.promote (fun c => evaluate c.2) (n : ℚ) last.rungs = none
  | 0, _, _, _, _, _, hrun => by cases hrun
  | fuel + 1, s, last, hne, hle, h, hrun => by
      rw [ashaLoop] at hrun
      split at hrun
      · rename_i rungs rec hpromote
        have hnext := h.promote hnodup hn hpromote
        refine Following.run hnodup hn fuel ?_ ?_ hnext hrun
        · have hlength := (promote_weight hpromote).2
          exact List.ne_nil_of_length_pos (hlength ▸ List.length_pos_iff.mpr hne)
        · exact hle
      · rename_i hnone
        split at hrun
        · obtain rfl := Option.some.inj hrun
          exact ⟨h, hne, by omega, hnone⟩
        · obtain ⟨-, hlength, hstarted⟩ :=
            @start_weight _ _ _ (fun c => evaluate c.2) (numbered sampler) s hne
          refine Following.run hnodup hn fuel ?_ (by omega) (h.start hnodup) hrun
          exact List.ne_nil_of_length_pos (hlength ▸ List.length_pos_iff.mpr hne)

/-- A result that is in the top and has not been promoted is found. -/
theorem eligible_isSome {rung : Rung (Nat × C) S} {i : Nat} {c : Nat × C} {x : S} (hn : 1 ≤ n)
    (hget : rung.results[i]? = some (c, x)) (hflag : rung.promoted[i]? = some false)
    (htop : InTop n rung.results x) : (eligible (n : ℚ) rung).isSome := by
  have hsome : 1 ≤ rung.results.length / n := (Nat.one_le_div_iff hn).mpr htop.1
  have htopCount : topCount n rung.results.length = rung.results.length / n := by
    rw [topCount, wholeEta_natCast, max_eq_right hsome]
  have hlt : topCount n rung.results.length - 1 <
      ((rung.results.map Prod.snd).insertionSort (· ≥ ·)).length := by
    rw [List.length_insertionSort, List.length_map, htopCount]
    have := Nat.div_le_self rung.results.length n
    omega
  have hthreshold := List.getElem?_eq_getElem hlt
  have hle := (inTop_iff hn htop.1 hthreshold).mp htop
  rw [eligible, wholeEta_natCast, if_neg (not_lt.mpr htop.1)]
  dsimp only
  rw [hthreshold, Option.bind_eq_bind, Option.bind_some, List.findIdx?_isSome, List.any_eq_true]
  refine ⟨((c, x), false), List.mem_of_getElem? (i := i) ?_, ?_⟩
  · rw [List.getElem?_zip_eq_some]
    exact ⟨hget, hflag⟩
  · simpa using hle

/-- In the end, what is in the top of a rung has gone up. -/
theorem Following.gone_up (h : Following sampler rng evaluate n resources s) (hn : 1 ≤ n)
    (hnone : Ml.promote (fun c => evaluate c.2) (n : ℚ) s.rungs = none) {j : Nat} {r r' : Int}
    (hr : resources[j]? = some r) (hr' : resources[j + 1]? = some r') {c : Nat × C} {x : S}
    (hmem : (c, x) ∈ resultsAt r s.history) (htop : InTop n (resultsAt r s.history) x) :
    ∃ x', (c, x') ∈ resultsAt r' s.history := by
  rw [← h.resources, List.getElem?_map] at hr hr'
  obtain ⟨rung, hrung, rfl⟩ := Option.map_eq_some_iff.mp hr
  obtain ⟨next, hnext, rfl⟩ := Option.map_eq_some_iff.mp hr'
  have hsplit : s.rungs = s.rungs.take j ++ rung :: next :: s.rungs.drop (j + 2) := by
    obtain ⟨hlt, rfl⟩ := List.getElem?_eq_some_iff.mp hrung
    obtain ⟨hlt', rfl⟩ := List.getElem?_eq_some_iff.mp hnext
    rw [List.getElem_cons_drop, List.getElem_cons_drop, List.take_append_drop]
  have hidle := promote_none hnone hsplit
  rw [← h.recorded rung (List.mem_of_getElem? hrung)] at hmem htop
  rw [← h.recorded next (List.mem_of_getElem? hnext)]
  obtain ⟨i, hi⟩ := List.getElem?_of_mem hmem
  obtain ⟨-, -, hflags, -⟩ := (hsplit ▸ h.ladder : Ladder _).of_append
  have hflag : rung.promoted[i]? = some (decide (c.1 ∈ next.numbers)) := by
    rw [hflags, List.getElem?_map, Rung.numbers, List.getElem?_map, hi]
    rfl
  have hup : c.1 ∈ next.numbers := by
    by_contra hnot
    rw [decide_eq_false hnot] at hflag
    have hfound := eligible_isSome hn hi hflag htop
    rw [hidle] at hfound
    cases hfound
  obtain ⟨⟨c', x'⟩, hmem', hnumber⟩ := List.mem_map.mp hup
  have hsampled {r : Rung (Nat × C) S} (hr : r ∈ s.rungs) {c : Nat × C} {x : S}
      (hc : (c, x) ∈ r.results) : c.2 = sampleAt sampler rng c.1 := by
    rw [h.recorded r hr] at hc
    obtain ⟨rec, hrec, -, rfl, -⟩ := exists_of_mem_resultsAt hc
    exact h.lawful.sampled rec hrec
  have hsame : c' = c := by
    refine Prod.ext hnumber ?_
    rw [hsampled (List.mem_of_getElem? hnext) hmem', hsampled (List.mem_of_getElem? hrung) hmem]
    exact congrArg _ hnumber
  exact ⟨x', hsame ▸ hmem'⟩

theorem Following.disciplined (h : Following sampler rng evaluate n resources s) (hn : 1 ≤ n)
    (hnone : Ml.promote (fun c => evaluate c.2) (n : ℚ) s.rungs = none) :
    Disciplined n (sampleAt sampler rng) evaluate s.configsStarted resources s.history where
  scored := h.lawful.scored
  base base hbase := by
    rw [← h.resources, List.head?_map] at hbase
    obtain ⟨rung, hrung, rfl⟩ := Option.map_eq_some_iff.mp hbase
    rw [← h.recorded rung (List.mem_of_mem_head? hrung)]
    exact h.base rung hrung
  once := h.lawful.once
  promoted := h.lawful.promoted
  done _ _ _ hr hr' _ _ hmem htop := h.gone_up hn hnone hr hr' hmem htop

/-- Doubled once more, `2 ^ 30` is no `int`. -/
theorem rungResources_overflow (fuel : Nat) :
    ∀ {n k : Nat}, k + n = 30 → rungResources (2 ^ 31 - 1) (2 : Nat) fuel (2 ^ k) = none := by
  induction fuel with
  | zero => exact fun _ => rfl
  | succ fuel ih =>
      intro n k hk
      have hlt : ¬ (2 ^ k : Int) ≥ 2 ^ 31 - 1 := by
        have := pow_le_pow_right₀ (by norm_num : (1 : Int) ≤ 2) (by omega : k ≤ 30)
        omega
      rw [rungResources, if_neg hlt, Option.bind_eq_none_iff]
      intro next hnext
      cases n with
      | zero =>
          obtain rfl : k = 30 := hk
          norm_num [nextResource, castInt] at hnext
          cases hnext
      | succ n =>
          have hdouble : next = 2 ^ (k + 1) := by
            have hle := pow_le_pow_right₀ (by norm_num : (1 : Int) ≤ 2) (by omega : k + 1 ≤ 30)
            have hproduct : ((2 ^ k : Int) : ℚ) * (2 : Nat) = ((2 ^ (k + 1) : Int) : ℚ) := by
              push_cast
              ring
            rw [nextResource_eq_some hnext, hproduct, truncate_of_nonneg (by positivity),
              Int.floor_intCast, min_eq_left (by omega)]
          rw [hdouble, ih (n := n) (by omega)]
          rfl

end CrossMachine.Ml
