import CrossMachine.Compiler.Remat
import CrossMachine.Lib.Instances

/-!
# Where the operations of a rematerialised block come from

Every operation of the block that `RematPass` leaves is traced to the operation it is or was
copied from, and put on a clock of half steps: the operation at time `t` ticks at `2 t + 1`,
a clone in front of it at `2 t`. Along the block the clock never goes back, so a live range
of the final block is a range of ticks.

Candidates are taken in program order, and a clone reads only what comes before the operation
it copies. So nothing that the pass has done before touches the users of a candidate: which
operations are rematerialised, and for which users, can be read off the original block.
-/

namespace CrossMachine.Compiler

open Lib

variable {κ : Type} (below : Nat → Bool)
  (userSorter : (time : Nat → Nat) → Sorter time)

/-- The users that get a clone when the operation is rematerialised. -/
def farUsers (body : List (Op κ)) (op : Nat) : List Nat :=
  ((userSorter (timeOf body)).run (users body (.res op 0))).tail

/-- The pass rematerialises the operation: it is cheap, used at least twice, and kept for
long enough. -/
def Rematted (body : List (Op κ)) (op : Nat) : Prop :=
  op ∈ candidates body ∧ 2 ≤ (users body (.res op 0)).length ∧
    below (span (timeOf body) op (users body (.res op 0))) = false

instance (body : List (Op κ)) (op : Nat) : Decidable (Rematted below body op) :=
  inferInstanceAs (Decidable (_ ∧ _))

/-- The insertions of the pass for the candidates `ops`, in their order. -/
def insertions (body : List (Op κ)) (ops : List Nat) : List (Nat × Nat) :=
  ops.flatMap fun z =>
    if Rematted below body z then (farUsers userSorter body z).map fun u => (z, u) else []

theorem mem_insertions {body : List (Op κ)} {ops : List Nat} {x u : Nat} :
    (x, u) ∈ insertions below userSorter body ops ↔
      x ∈ ops ∧ Rematted below body x ∧ u ∈ farUsers userSorter body x := by
  simp only [insertions, List.mem_flatMap]
  refine ⟨fun ⟨z, hz, hin⟩ => ?_, fun ⟨hx, hr, hu⟩ => ⟨x, hx, ?_⟩⟩
  · split at hin
    case isTrue hr =>
      obtain ⟨w, hw, heq⟩ := List.mem_map.mp hin
      obtain ⟨rfl, rfl⟩ := Prod.mk.inj heq
      exact ⟨hz, hr, hw⟩
    case isFalse => exact absurd hin (by simp)
  · rw [if_pos hr]
    exact List.mem_map_of_mem hu

/-! ## Tracing the operations of the final block -/

/-- The operation that one was copied from, and the user in front of which the copy was put;
no user for an operation that is no copy. -/
abbrev Mark := Nat × Option Nat

/-- The clock of half steps. -/
def tick (time : Nat → Nat) (m : Mark) : Nat :=
  match m.2 with
  | none => 2 * time m.1 + 1
  | some u => 2 * time u

/-- What has become of an operand of the operation `y`: where a clone was put in front of
`y` it reads that clone, elsewhere the operation it has always read. -/
def Piece (g : Nat → Mark) (done : List (Nat × Nat)) (y : Nat) : Val → Val → Prop
  | .arg i, v => v = .arg i
  | .res x k, v => ∃ i, v = .res i k ∧ (g i).1 = x ∧
      if (x, y) ∈ done then (g i).2 = some y else i = x

/-- The block after the insertions `done`, with the marks of its operations. -/
structure Traced (nargs : Nat) (orig : List (Op κ)) (done : List (Nat × Nat)) (g : Nat → Mark)
    (body : List (Op κ)) : Prop where
  pres : Preserves nargs orig body
  own : ∀ i ∈ ids orig, g i = (i, none)
  ops : ∀ q ∈ body, ∃ z ∈ orig, z.id = (g q.id).1 ∧ q.results = z.results ∧
    q.bufferOffset = z.bufferOffset ∧ List.Forall₂ (Piece g done z.id) z.operands q.operands
  kept : ∀ q ∈ body, (g q.id).2 = none → (g q.id).1 = q.id
  made : ∀ q ∈ body, ∀ u, (g q.id).2 = some u → ((g q.id).1, u) ∈ done
  ticks : body.Pairwise fun a b => tick (timeOf orig) (g a.id) ≤ tick (timeOf orig) (g b.id)
  once : ∀ q ∈ body, ∀ q' ∈ body, q.id ≠ q'.id → ∀ x u, g q.id = (x, some u) →
    g q'.id = (x, some u) → 2 ≤ done.count (x, u)
  sameUsers : ∀ z ∈ ids orig, (∀ m ∈ done, timeOf orig m.1 < timeOf orig z) →
    users body (.res z 0) = users orig (.res z 0)

section Times

variable {nargs k : Nat} {body pre post : List (Op κ)} {o p : Op κ} {op : Nat}

theorem timeOf_split (hnodup : (ids (pre ++ p :: post)).Nodup) :
    timeOf (pre ++ p :: post) p.id = pre.length :=
  timeOf_getElem hnodup (by simp)

theorem timeOf_lt_of_mem (hnodup : (ids (pre ++ p :: post)).Nodup) (ho : o ∈ pre) :
    timeOf (pre ++ p :: post) o.id < timeOf (pre ++ p :: post) p.id := by
  obtain ⟨i, hi, rfl⟩ := List.mem_iff_getElem.mp ho
  rw [timeOf_split hnodup, timeOf_getElem hnodup (o := pre[i]) (t := i)]
  · exact hi
  · rw [List.getElem?_append_left hi, List.getElem?_eq_getElem hi]

/-- Definitions come before uses in time. -/
theorem Ssa.timeOf_lt (h : Ssa nargs body) (ho : o ∈ body) (hv : .res op k ∈ o.operands) :
    timeOf body op < timeOf body o.id := by
  obtain ⟨pre, post, rfl⟩ := List.append_of_mem ho
  obtain ⟨p, hp, rfl, -⟩ := h.operands_defined _ hv
  exact timeOf_lt_of_mem h.nodup hp

/-- The operation whose result is read. -/
theorem Ssa.operand_op (h : Ssa nargs body) (ho : o ∈ body) (hv : .res op k ∈ o.operands) :
    ∃ p ∈ body, p.id = op ∧ k < p.results.length := by
  obtain ⟨pre, post, rfl⟩ := List.append_of_mem ho
  obtain ⟨p, hp, hid, hlt⟩ := h.operands_defined _ hv
  exact ⟨p, List.mem_append_left _ hp, hid, hlt⟩

theorem timeOf_inj (hnodup : (ids body).Nodup) (ho : o ∈ body) (hp : p ∈ body)
    (htime : timeOf body o.id = timeOf body p.id) : o = p := by
  have ho' := getElem_timeOf hnodup ho
  rw [htime, getElem_timeOf hnodup hp] at ho'
  exact (Option.some.inj ho').symm

theorem pairwise_timeOf (hnodup : (ids body).Nodup) :
    body.Pairwise fun a b => timeOf body a.id < timeOf body b.id := by
  refine List.pairwise_iff_getElem.mpr fun i j hi hj hij => ?_
  rw [timeOf_getElem hnodup (List.getElem?_eq_getElem hi),
    timeOf_getElem hnodup (List.getElem?_eq_getElem hj)]
  exact hij

end Times

theorem Traced.start {nargs : Nat} {orig : List (Op κ)} (h : Ssa nargs orig) :
    Traced nargs orig [] (fun i => (i, none)) orig where
  pres := Preserves.refl h
  own := fun _ _ => rfl
  ops := by
    refine fun q hq => ⟨q, hq, rfl, rfl, rfl, List.forall₂_same.mpr fun v _ => ?_⟩
    cases v with
    | arg i => rfl
    | res x k => exact ⟨x, rfl, rfl, by simp⟩
  kept := fun _ _ _ => rfl
  made := fun _ _ _ hu => absurd hu (by simp)
  ticks := (pairwise_timeOf h.nodup).imp fun hlt => by simp only [tick]; omega
  once := fun _ _ _ _ _ _ _ hu => absurd hu (by simp)
  sameUsers := fun _ _ _ => rfl

/-! ## One more insertion -/

section Insert

variable {nargs u c : Nat} {orig body pre post : List (Op κ)} {done : List (Nat × Nat)}
  {g : Nat → Mark} {z o p q : Op κ} {v v' w : Val}

theorem forall₂_imp_mem {α : Type*} {R T : α → α → Prop} {xs ys : List α}
    (h : List.Forall₂ R xs ys) (himp : ∀ x ∈ xs, ∀ y ∈ ys, R x y → T x y) :
    List.Forall₂ T xs ys := by
  induction h with
  | nil => exact List.Forall₂.nil
  | cons hxy _ ih =>
      refine List.Forall₂.cons (himp _ (List.mem_cons_self ..) _ (List.mem_cons_self ..) hxy) ?_
      exact ih fun x hx y hy => himp x (List.mem_cons_of_mem _ hx) y (List.mem_cons_of_mem _ hy)

theorem exists_of_forall₂ {α : Type*} {R : α → α → Prop} {xs ys : List α} {y : α}
    (h : List.Forall₂ R xs ys) (hy : y ∈ ys) : ∃ x ∈ xs, R x y := by
  induction h with
  | nil => exact absurd hy (by simp)
  | cons hxy _ ih =>
      rcases List.mem_cons.mp hy with rfl | hy
      · exact ⟨_, List.mem_cons_self .., hxy⟩
      · obtain ⟨x, hx, hR⟩ := ih hy
        exact ⟨x, List.mem_cons_of_mem _ hx, hR⟩

theorem users_append : users (pre ++ post) v = users pre v ++ users post v :=
  List.flatMap_append

theorem users_cons : users (o :: post) v =
    List.replicate (o.operands.count v) o.id ++ users post v := List.flatMap_cons

/-- Rewiring one value to another does not touch the uses of a third. -/
theorem count_rewire (hv : w ≠ v) (hv' : w ≠ v') :
    (o.rewire v v').operands.count w = o.operands.count w := by
  rw [Op.rewire, List.count_eq_countP, List.countP_map, List.count_eq_countP]
  refine List.countP_congr fun x _ => ?_
  simp only [Function.comp_apply, beq_iff_eq]
  split
  case isTrue heq => exact ⟨fun h => absurd h.symm hv', fun h => absurd (h.symm.trans heq) hv⟩
  case isFalse => rfl

/-- An operand of an operation that is not the user stays the piece it was. -/
theorem Piece.extend {y x : Nat} (h : Piece g done y w v) (hy : y ≠ u)
    (hnew : ∀ k, v ≠ .res c k) (m : Mark) :
    Piece (Function.update g c m) (done ++ [(x, u)]) y w v := by
  cases w with
  | arg i => exact h
  | res x' k =>
      obtain ⟨i, rfl, horg, hsite⟩ := h
      have hi : i ≠ c := fun heq => hnew k (heq ▸ rfl)
      have hmem : (x', y) ∈ done ++ [(x, u)] ↔ (x', y) ∈ done := by simp [hy]
      simp only [Piece, hmem]
      exact ⟨i, rfl, by rw [Function.update_of_ne hi, horg],
        by rw [Function.update_of_ne hi]; exact hsite⟩

/-- What one insertion is about: the operation `z`, cheap and with one result, and a user of
it; every insertion before it was for `z` or an operation before `z`. -/
structure Insertion (orig : List (Op κ)) (done : List (Nat × Nat)) (z : Op κ) (u : Nat) :
    Prop where
  mem : z ∈ orig
  cheap : isCheapToRecompute z.kind = true
  single : z.results.length = 1
  user : u ∈ users orig (.res z.id 0)
  later : ∀ m ∈ done, timeOf orig m.1 ≤ timeOf orig z.id

theorem Insertion.lt (h : Insertion orig done z u) (hssa : Ssa nargs orig) :
    timeOf orig z.id < timeOf orig u := by
  obtain ⟨p, hp, rfl, hv⟩ := mem_users.mp h.user
  exact hssa.timeOf_lt hp hv

theorem Insertion.ne (h : Insertion orig done z u) (hssa : Ssa nargs orig) : z.id ≠ u :=
  fun heq => absurd (h.lt hssa) (by rw [heq]; exact lt_irrefl _)

/-- No copy of the user is there yet. -/
theorem Traced.eq_user (h : Traced nargs orig done g body) (hssa : Ssa nargs orig)
    (hins : Insertion orig done z u) (hq : q ∈ body) (horg : (g q.id).1 = u) : q.id = u := by
  cases hsite : (g q.id).2 with
  | none => rw [← h.kept q hq hsite, horg]
  | some w =>
      have hmade := h.made q hq w hsite
      rw [horg] at hmade
      exact absurd (hins.later _ hmade) (not_le.mpr (hins.lt hssa))

/-- The operation of the block that an operation of the original one has become. -/
theorem Traced.op_of_orig (h : Traced nargs orig done g body) (hssa : Ssa nargs orig)
    (hz : z ∈ orig) (ho : o ∈ body) (hid : o.id = z.id) :
    o.results = z.results ∧ o.bufferOffset = z.bufferOffset ∧
      List.Forall₂ (Piece g done z.id) z.operands o.operands := by
  obtain ⟨z', hz', horg, hres, hoff, hpieces⟩ := h.ops o ho
  rw [hid, h.own z.id (mem_ids hz)] at horg
  obtain rfl : z' = z := eq_of_id hssa.nodup hz' hz horg
  exact ⟨hres, hoff, hpieces⟩

/-- The user reads the clone where it read the operation. -/
theorem Piece.rewire (hown : g z.id = (z.id, none)) (hsingle : ∀ k, w = .res z.id k → k = 0)
    (hnew : ∀ k, v ≠ .res c k) (h : Piece g done u w v) :
    Piece (Function.update g c (z.id, some u)) (done ++ [(z.id, u)]) u w
      (if v = .res z.id 0 then .res c 0 else v) := by
  cases w with
  | arg i =>
      obtain rfl : v = .arg i := h
      rw [if_neg (by simp)]
      rfl
  | res x k =>
      obtain ⟨i, rfl, horg, hsite⟩ := h
      have hi : i ≠ c := fun heq => hnew k (heq ▸ rfl)
      by_cases hx : x = z.id
      · subst hx
        obtain rfl : k = 0 := hsingle k rfl
        by_cases hdone : (z.id, u) ∈ done
        · -- a clone was put there before, and is read
          rw [if_pos hdone] at hsite
          have hne : i ≠ z.id := fun heq => by rw [heq, hown] at hsite; simp at hsite
          rw [if_neg (by simpa using hne)]
          refine ⟨i, rfl, by rw [Function.update_of_ne hi, horg], ?_⟩
          rw [if_pos (by simp), Function.update_of_ne hi, hsite]
        · rw [if_neg hdone] at hsite
          rw [if_pos (by rw [hsite])]
          refine ⟨c, rfl, by rw [Function.update_self], ?_⟩
          rw [if_pos (by simp), Function.update_self]
      · have hne : i ≠ z.id := fun heq => hx (by rw [← horg, heq, hown])
        rw [if_neg (by simp [hne])]
        have hmem : (x, u) ∈ done ++ [(z.id, u)] ↔ (x, u) ∈ done := by simp [hx]
        simp only [Piece, hmem]
        exact ⟨i, rfl, by rw [Function.update_of_ne hi, horg],
          by rw [Function.update_of_ne hi]; exact hsite⟩

theorem mem_withClone : q ∈ withClone c pre o p post ↔
    (q ∈ pre ∨ q ∈ post) ∨ q = { o with id := c } ∨ q = p.rewire (.res o.id 0) (.res c 0) := by
  simp only [withClone, List.mem_append, List.mem_cons]
  tauto

theorem mark_of_mem {m : Mark} (hc : c ∉ ids body) (hq : q ∈ body) :
    Function.update g c m q.id = g q.id := by
  refine Function.update_of_ne ?_ ..
  rintro rfl
  exact hc (mem_ids hq)

theorem mem_of_rest (hq : q ∈ pre ∨ q ∈ post) : q ∈ pre ++ p :: post := by
  rcases hq with hq | hq
  · exact List.mem_append_left _ hq
  · exact List.mem_append_right _ (List.mem_cons_of_mem _ hq)

/-- The rest of the block is not the user. -/
theorem ne_of_mem_rest (hnodup : (ids (pre ++ p :: post)).Nodup) (hq : q ∈ pre ∨ q ∈ post) :
    q.id ≠ p.id := by
  rw [ids, List.map_append, List.map_cons] at hnodup
  have hnodup := (List.nodup_cons.mp (List.nodup_middle.mp hnodup)).1
  intro heq
  refine hnodup (heq ▸ ?_)
  rw [← List.map_append]
  exact List.mem_map_of_mem (List.mem_append.mpr hq)

/-- The clock of a block that gets a clone in front of the user. -/
theorem ticks_withClone {time : Nat → Nat} {x : Nat} (hc : c ∉ ids (pre ++ p :: post))
    (hp : g p.id = (p.id, none)) (hodd : ∀ a ∈ pre, tick time (g a.id) ≠ 2 * time p.id + 1)
    (h : (pre ++ p :: post).Pairwise fun a b => tick time (g a.id) ≤ tick time (g b.id)) :
    (withClone c pre o p post).Pairwise fun a b =>
      tick time (Function.update g c (x, some p.id) a.id) ≤
        tick time (Function.update g c (x, some p.id) b.id) := by
  have hsame : ∀ a ∈ pre ++ p :: post, Function.update g c (x, some p.id) a.id = g a.id :=
    fun a ha => mark_of_mem hc ha
  have hptick : tick time (g p.id) = 2 * time p.id + 1 := by rw [hp]; rfl
  have hctick : tick time (Function.update g c (x, some p.id) c) = 2 * time p.id := by
    rw [Function.update_self]; rfl
  obtain ⟨hpre, hrest, hcross⟩ := List.pairwise_append.mp h
  obtain ⟨hppost, hpost⟩ := List.pairwise_cons.mp hrest
  refine List.pairwise_append.mpr ⟨?_, List.pairwise_cons.mpr ⟨?_, ?_⟩, ?_⟩
  · refine hpre.imp_of_mem fun {a b} ha hb hab => ?_
    rw [hsame a (by simp [ha]), hsame b (by simp [hb])]
    exact hab
  · intro b hb
    simp only [hctick]
    rcases List.mem_cons.mp hb with rfl | hb
    · simp only [Op.rewire]
      rw [hsame p (by simp), hptick]
      omega
    · rw [hsame b (by simp [hb])]
      have := hppost b hb
      omega
  · refine List.pairwise_cons.mpr ⟨fun b hb => ?_, hpost.imp_of_mem fun {a b} ha hb hab => ?_⟩
    · simp only [Op.rewire]
      rw [hsame p (by simp), hsame b (by simp [hb])]
      exact hppost b hb
    · rw [hsame a (by simp [ha]), hsame b (by simp [hb])]
      exact hab
  · intro a ha b hb
    have hle := hcross a ha p (List.mem_cons_self ..)
    have hne := hodd a ha
    rw [hsame a (by simp [ha])]
    rcases List.mem_cons.mp hb with rfl | hb
    · simp only [hctick]
      omega
    · rcases List.mem_cons.mp hb with rfl | hb
      · simp only [Op.rewire]
        rw [hsame p (by simp)]
        exact hle
      · rw [hsame b (by simp [hb])]
        exact hcross a ha b (List.mem_cons_of_mem _ hb)

/-- The marks after an insertion say where every operand has gone. -/
theorem Traced.ops_withClone (h : Traced nargs orig done g (pre ++ p :: post))
    (hssa : Ssa nargs orig) (hins : Insertion orig done z p.id) (ho : o ∈ pre)
    (hoid : o.id = z.id) (hc : c ∉ ids (pre ++ p :: post)) (hq : q ∈ withClone c pre o p post) :
    ∃ y ∈ orig, y.id = (Function.update g c (z.id, some p.id) q.id).1 ∧
      q.results = y.results ∧ q.bufferOffset = y.bufferOffset ∧
      List.Forall₂ (Piece (Function.update g c (z.id, some p.id)) (done ++ [(z.id, p.id)]) y.id)
        y.operands q.operands := by
  have hnew : ∀ a ∈ pre ++ p :: post, ∀ v ∈ a.operands, NotOf c v := fun a ha v hv =>
    h.pres.ssa.notOf hc ha hv
  have hpbody : p ∈ pre ++ p :: post := by simp
  have hobody : o ∈ pre ++ p :: post := List.mem_append_left _ ho
  rcases mem_withClone.mp hq with hrest | rfl | rfl
  · -- an operation that is neither the clone nor the user
    have hmem : q ∈ pre ++ p :: post := mem_of_rest hrest
    obtain ⟨y, hy, horg, hres, hoff, hpieces⟩ := h.ops q hmem
    refine ⟨y, hy, by rw [mark_of_mem hc hmem, horg], hres, hoff, ?_⟩
    have hyu : y.id ≠ p.id := fun heq =>
      ne_of_mem_rest h.pres.ssa.nodup hrest (h.eq_user hssa hins hmem (horg ▸ heq))
    exact forall₂_imp_mem hpieces fun w _ v hv hw => hw.extend hyu (hnew q hmem v hv) _
  · -- the clone, which reads what the operation reads
    obtain ⟨hres, hoff, hpieces⟩ := h.op_of_orig hssa hins.mem hobody hoid
    refine ⟨z, hins.mem, by simp, hres, hoff, ?_⟩
    exact forall₂_imp_mem hpieces fun w _ v hv hw =>
      hw.extend (hins.ne hssa) (hnew o hobody v hv) _
  · -- the user
    obtain ⟨pu, hpu, hpuid, -⟩ := mem_users.mp hins.user
    obtain ⟨hres, hoff, hpieces⟩ := h.op_of_orig hssa hpu hpbody hpuid.symm
    have hmark : Function.update g c (z.id, some p.id) p.id = (p.id, none) := by
      rw [mark_of_mem hc hpbody, h.own _ (hpuid ▸ mem_ids hpu)]
    refine ⟨pu, hpu, by rw [Op.rewire, hmark, hpuid], hres, hoff, ?_⟩
    rw [Op.rewire, hoid, hpuid]
    refine List.forall₂_map_right_iff.mpr
      (forall₂_imp_mem (hpuid ▸ hpieces) fun w hw v hv hpiece => ?_)
    refine Piece.rewire (h.own _ (mem_ids hins.mem)) (fun k heq => ?_) (hnew p hpbody v hv) hpiece
    -- only the one result there is can be read
    obtain ⟨z', hz', hid, hlt⟩ := hssa.operand_op hpu (heq ▸ hw)
    obtain rfl : z' = z := eq_of_id hssa.nodup hz' hins.mem hid
    rw [hins.single] at hlt
    omega

/-- Two clones for one user are two insertions for it. -/
theorem Traced.once_withClone (h : Traced nargs orig done g (pre ++ p :: post))
    {q' : Op κ} {x y w : Nat} (hq : q ∈ withClone c pre o p post)
    (hq' : q' ∈ withClone c pre o p post) (hne : q.id ≠ q'.id)
    (hm : Function.update g c (x, some p.id) q.id = (y, some w))
    (hm' : Function.update g c (x, some p.id) q'.id = (y, some w)) :
    2 ≤ (done ++ [(x, p.id)]).count (y, w) := by
  -- every operation but the clone was there before, with the mark it has
  have hold : ∀ a ∈ withClone c pre o p post, a.id ≠ c →
      Function.update g c (x, some p.id) a.id = (y, some w) →
      ∃ b ∈ pre ++ p :: post, b.id = a.id ∧ g b.id = (y, some w) := by
    intro a ha hac hma
    rw [Function.update_of_ne hac] at hma
    rcases mem_withClone.mp ha with hrest | rfl | rfl
    · exact ⟨a, mem_of_rest hrest, rfl, hma⟩
    · exact absurd rfl hac
    · exact ⟨p, by simp, rfl, hma⟩
  have hcount : ∀ b ∈ pre ++ p :: post, g b.id = (y, some w) → 1 ≤ done.count (y, w) := by
    intro b hb hmb
    have hmade := h.made b hb w (by rw [hmb])
    rw [hmb] at hmade
    exact List.one_le_count_iff.mpr hmade
  rw [List.count_append]
  by_cases hqc : q.id = c
  · rw [hqc, Function.update_self] at hm
    obtain ⟨b, hb, -, hmb⟩ := hold q' hq' (fun heq => hne (hqc.trans heq.symm)) hm'
    have := hcount b hb hmb
    obtain ⟨rfl, hw⟩ := Prod.mk.inj hm
    obtain rfl := Option.some.inj hw
    rw [List.count_singleton_self]
    omega
  · by_cases hqc' : q'.id = c
    · rw [hqc', Function.update_self] at hm'
      obtain ⟨b, hb, -, hmb⟩ := hold q hq hqc hm
      have := hcount b hb hmb
      obtain ⟨rfl, hw⟩ := Prod.mk.inj hm'
      obtain rfl := Option.some.inj hw
      rw [List.count_singleton_self]
      omega
    · obtain ⟨b, hb, hid, hmb⟩ := hold q hq hqc hm
      obtain ⟨b', hb', hid', hmb'⟩ := hold q' hq' hqc' hm'
      have := h.once b hb b' hb' (by rw [hid, hid']; exact hne) y w hmb hmb'
      omega

/-- The uses of what comes after the operation are where they were. -/
theorem Traced.sameUsers_withClone (h : Traced nargs orig done g (pre ++ p :: post))
    (hssa : Ssa nargs orig) (hins : Insertion orig done z p.id) (ho : o ∈ pre)
    (hoid : o.id = z.id) (hc : c ∉ ids (pre ++ p :: post)) {y : Nat} (hy : y ∈ ids orig)
    (hlater : ∀ m ∈ done ++ [(z.id, p.id)], timeOf orig m.1 < timeOf orig y) :
    users (withClone c pre o p post) (.res y 0) = users orig (.res y 0) := by
  have hobody : o ∈ pre ++ p :: post := List.mem_append_left _ ho
  have hzy : timeOf orig z.id < timeOf orig y := hlater (z.id, p.id) (by simp)
  have hyc : y ≠ c := fun heq => hc (heq ▸ h.pres.order.subset hy)
  have hyz : y ≠ z.id := fun heq => absurd hzy (by rw [heq]; exact lt_irrefl _)
  -- the clone does not read what comes after the operation
  have hclone : o.operands.count (.res y 0) = 0 := by
    refine List.count_eq_zero.mpr fun hin => ?_
    obtain ⟨w, hw, hpiece⟩ :=
      exists_of_forall₂ (h.op_of_orig hssa hins.mem hobody hoid).2.2 hin
    cases w with
    | arg i => exact absurd hpiece (by simp [Piece])
    | res x k =>
        obtain ⟨i, heq, horg, -⟩ := hpiece
        obtain ⟨rfl, rfl⟩ := Val.res.inj heq
        rw [h.own y hy] at horg
        obtain rfl : y = x := horg
        exact absurd (hssa.timeOf_lt hins.mem hw) (by omega)
  rw [← h.sameUsers y hy fun m hm => hlater m (List.mem_append_left _ hm)]
  rw [withClone, users_append, users_append, users_cons, users_cons, users_cons, hclone,
    count_rewire (by simp [hoid, hyz]) (by simp [hyc])]
  rfl

/-- One insertion is one more mark. -/
theorem Traced.insert (h : Traced nargs orig done g body) (hssa : Ssa nargs orig)
    (hins : Insertion orig done z u) :
    ∃ g', Traced nargs orig (done ++ [(z.id, u)]) g' (insertClone body z.id u) := by
  have horder : [z.id, u].Sublist (ids body) := (hssa.order_of_user hins.user).trans h.pres.order
  have hclonable : Clonable body z.id :=
    h.pres.clonable ⟨z, hins.mem, rfl, hins.cheap, by rw [hins.single]; exact one_pos⟩
  have hpres := insertClone_preserves h.pres.ssa hclonable horder
  obtain ⟨pre, o, p, post, rfl, ho, hoid, rfl⟩ := split_of_order horder
  have hnodup := h.pres.ssa.nodup
  have hpbody : p ∈ pre ++ p :: post := by simp
  have hblock : insertClone (pre ++ p :: post) z.id p.id = _ := hoid ▸ insertClone_eq hnodup ho
  rw [hblock] at hpres ⊢
  have hc := fresh_notMem (pre ++ p :: post)
  generalize fresh (pre ++ p :: post) = c at hc hpres ⊢
  obtain ⟨pu, hpu, hpuid, -⟩ := mem_users.mp hins.user
  have hpown : g p.id = (p.id, none) := h.own _ (hpuid ▸ mem_ids hpu)
  refine ⟨Function.update g c (z.id, some p.id),
    { pres := h.pres.trans hssa hpres, own := fun i hi => ?_,
      ops := fun q hq => h.ops_withClone hssa hins ho hoid hc hq,
      kept := fun q hq => ?_, made := fun q hq w => ?_, ticks := ?_,
      once := fun q hq q' hq' hne x w => h.once_withClone hq hq' hne,
      sameUsers := fun y hy hlater => h.sameUsers_withClone hssa hins ho hoid hc hy hlater }⟩
  · have hic : i ≠ c := fun heq => hc (heq ▸ h.pres.order.subset hi)
    rw [Function.update_of_ne hic, h.own i hi]
  · rcases mem_withClone.mp hq with hrest | rfl | rfl
    · have hmem : q ∈ pre ++ p :: post := mem_of_rest hrest
      rw [mark_of_mem hc hmem]
      exact h.kept q hmem
    · simp
    · simp only [Op.rewire, mark_of_mem hc hpbody]
      exact h.kept p hpbody
  · rcases mem_withClone.mp hq with hrest | rfl | rfl
    · have hmem : q ∈ pre ++ p :: post := mem_of_rest hrest
      rw [mark_of_mem hc hmem]
      exact fun hsite => List.mem_append_left _ (h.made q hmem w hsite)
    · simp only [Function.update_self]
      intro hsite
      obtain rfl := Option.some.inj hsite
      simp
    · simp only [Op.rewire, mark_of_mem hc hpbody]
      exact fun hsite => List.mem_append_left _ (h.made p hpbody w hsite)
  · refine ticks_withClone hc hpown (fun a ha htick => ?_) h.ticks
    -- an odd tick is that of an operation which is no copy
    have hmem : a ∈ pre ++ p :: post := List.mem_append_left _ ha
    cases hsite : (g a.id).2 with
    | some w => simp only [tick, hsite] at htick; omega
    | none =>
        simp only [tick, hsite] at htick
        obtain ⟨y, hy, horg, -⟩ := h.ops a hmem
        have hkept := h.kept a hmem hsite
        rw [← horg, ← hpuid] at htick
        obtain rfl : y = pu := timeOf_inj hssa.nodup hy hpu (by omega)
        exact ne_of_mem_rest hnodup (Or.inl ha) (by rw [← hkept, ← horg, hpuid])

end Insert

/-! ## The whole pass -/

section Pass

variable {nargs : Nat} {orig : List (Op κ)} {done : List (Nat × Nat)} {g : Nat → Mark}
  {z : Op κ} {r : Remat κ}

/-- The cheap operations of the dialect have one result. -/
def CheapSingle (body : List (Op κ)) : Prop :=
  ∀ o ∈ body, isCheapToRecompute o.kind = true → o.results.length = 1

instance (body : List (Op κ)) : Decidable (CheapSingle body) :=
  inferInstanceAs (Decidable (∀ o ∈ body, _))

/-- The insertions for one operation. -/
theorem Traced.inserts (us : List Nat) (h : Traced nargs orig done g r.body)
    (hssa : Ssa nargs orig) (hz : z ∈ orig) (hcheap : isCheapToRecompute z.kind = true)
    (hsingle : z.results.length = 1) (hus : ∀ u ∈ us, u ∈ users orig (.res z.id 0))
    (hlater : ∀ m ∈ done, timeOf orig m.1 ≤ timeOf orig z.id) :
    ∃ g', Traced nargs orig (done ++ us.map fun u => (z.id, u)) g'
      (us.foldl (Remat.insert z.id) r).body := by
  induction us generalizing done g r with
  | nil => exact ⟨g, by simpa using h⟩
  | cons u us ih =>
      obtain ⟨hu, hrest⟩ := List.forall_mem_cons.mp hus
      obtain ⟨g₁, h₁⟩ := h.insert hssa
        { mem := hz, cheap := hcheap, single := hsingle, user := hu, later := hlater }
      have hlater₁ : ∀ m ∈ done ++ [(z.id, u)], timeOf orig m.1 ≤ timeOf orig z.id := by
        intro m hm
        rcases List.mem_append.mp hm with hm | hm
        · exact hlater m hm
        · rw [List.mem_singleton.mp hm]
      obtain ⟨g₂, h₂⟩ := ih (r := r.insert z.id u) h₁ hrest hlater₁
      exact ⟨g₂, by simpa using h₂⟩

/-- One candidate. Nothing before it has touched its uses, so the pass sees the users of the
original block. -/
theorem Traced.rematOp (h : Traced nargs orig done g r.body) (hssa : Ssa nargs orig)
    (hz : z ∈ orig) (hcheap : isCheapToRecompute z.kind = true)
    (hsingle : z.results.length = 1)
    (hlater : ∀ m ∈ done, timeOf orig m.1 < timeOf orig z.id) :
    ∃ g', Traced nargs orig (done ++ insertions below userSorter orig [z.id]) g'
      (rematOp below userSorter (timeOf orig) r z.id).body := by
  have hcand : z.id ∈ candidates orig :=
    mem_ids (List.mem_filter.mpr ⟨hz, hcheap⟩)
  rw [Compiler.rematOp, h.sameUsers z.id (mem_ids hz) hlater]
  by_cases hmany : (users orig (.res z.id 0)).length < 2
  · have hnot : ¬ Rematted below orig z.id := fun hr => absurd hr.2.1 (by omega)
    exact ⟨g, by simpa [insertions, hnot, hmany] using h⟩
  · by_cases hspan : below (span (timeOf orig) z.id (users orig (.res z.id 0))) = true
    · have hnot : ¬ Rematted below orig z.id := fun hr => by simp [hr.2.2] at hspan
      exact ⟨g, by simpa [insertions, hnot, hmany, hspan] using h⟩
    · have hr : Rematted below orig z.id := ⟨hcand, by omega, by simpa using hspan⟩
      obtain ⟨g', h'⟩ := h.inserts (farUsers userSorter orig z.id) hssa hz hcheap hsingle
        (fun u hu => (userSorter (timeOf orig)).mem_run.mp (List.mem_of_mem_tail hu))
        fun m hm => (hlater m hm).le
      exact ⟨g', by simpa [insertions, hr, hmany, hspan, farUsers] using h'⟩

theorem Traced.rematOps (ops : List (Op κ)) (h : Traced nargs orig done g r.body)
    (hssa : Ssa nargs orig) (hsingle : CheapSingle orig)
    (hops : ∀ z ∈ ops, z ∈ orig ∧ isCheapToRecompute z.kind = true)
    (hsorted : ops.Pairwise fun a b => timeOf orig a.id < timeOf orig b.id)
    (hlater : ∀ m ∈ done, ∀ z ∈ ops, timeOf orig m.1 < timeOf orig z.id) :
    ∃ g', Traced nargs orig (done ++ insertions below userSorter orig (ids ops)) g'
      ((ids ops).foldl (Compiler.rematOp below userSorter (timeOf orig)) r).body := by
  induction ops generalizing done g r with
  | nil => exact ⟨g, by simpa [insertions, ids] using h⟩
  | cons z ops ih =>
      obtain ⟨⟨hz, hcheap⟩, hrest⟩ := List.forall_mem_cons.mp hops
      obtain ⟨hfirst, hsorted⟩ := List.pairwise_cons.mp hsorted
      obtain ⟨g₁, h₁⟩ := h.rematOp below userSorter hssa hz hcheap (hsingle z hz hcheap)
        fun m hm => hlater m hm z (List.mem_cons_self ..)
      obtain ⟨g₂, h₂⟩ := ih h₁ hrest hsorted fun m hm y hy => by
        rcases List.mem_append.mp hm with hm | hm
        · exact hlater m hm y (List.mem_cons_of_mem _ hy)
        · have hx := (mem_insertions below userSorter (x := m.1) (u := m.2)).mp hm
          rw [List.mem_singleton.mp hx.1]
          exact hfirst y hy
      exact ⟨g₂, by simpa [insertions, ids] using h₂⟩

theorem rematPass_traced (f : Func κ) (hssa : Ssa nargs f.body) (hsingle : CheapSingle f.body) :
    ∃ g, Traced nargs f.body (insertions below userSorter f.body (candidates f.body)) g
      (rematPass below userSorter f).body := by
  obtain ⟨g, h⟩ := (Traced.start hssa).rematOps below userSorter (r := ⟨f.body, 0⟩)
    (f.body.filter fun o => isCheapToRecompute o.kind) hssa hsingle
    (fun z hz => List.mem_filter.mp hz) ((pairwise_timeOf hssa.nodup).filter _) (by simp)
  rw [List.nil_append] at h
  exact ⟨g, h⟩

end Pass

end CrossMachine.Compiler
