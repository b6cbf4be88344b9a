import CrossMachine.Collectives.Ring
import Mathlib.Algebra.Order.Ring.Int
import Mathlib.Data.Fintype.Prod

/-!
# The specification `Collective.tla`

The variables and actions of `tla_collective/Collective.tla`, as relations between the values of
the variables before and after. `Ranks` is `Fin n`. `SendsFirst` and `SendChunkIdx` are defined
there and used by no action, so they are not here.

The specification has no parity rule in its actions, and a message says nothing of the round it is
of. A rank may receive all its messages before it has received from its own neighbour what it
should pass on; and it may finish by receiving before it has sent. Two ranks share one channel and
can drain their own messages. From three ranks on there is a run at whose end the ranks do not
agree (`allRanksAgree_iff`), and one that ends while a rank still waits for a message that nobody
will send (`deadlock_free_iff`).
-/

namespace CrossMachine.Collectives.Spec

open Relation (ReflTransGen)

variable {n : Nat}

structure Vars (n : Nat) where
  round : Fin n → Nat
  /-- The contributors in a rank's copy of a chunk. -/
  chunk : Fin n → Fin n → Finset (Fin n)
  chanOccupied : Fin n × Fin n → Bool

def PairKey (a b : Fin n) : Fin n × Fin n := if a < b then (a, b) else (b, a)

def TotalRounds (n : Nat) : Nat := 2 * (n - 1)

def Finished (v : Vars n) (r : Fin n) : Prop := v.round r = TotalRounds n

def RecvChunkIdx (v : Vars n) (r : Fin n) : Fin n :=
  ⟨(if v.round r < n - 1 then r.val + n - v.round r - 1
    else r.val + n - (v.round r - (n - 1))) % n, Nat.mod_lt _ r.pos⟩

def Init (n : Nat) : Vars n where
  round := fun _ => 0
  chunk := fun r _ => {r}
  chanOccupied := fun _ => false

def Send (r : Fin n) (v v' : Vars n) : Prop :=
  ¬ Finished v r ∧ v.chanOccupied (PairKey r (ringRight r)) = false ∧
  v' = { v with chanOccupied := Function.update v.chanOccupied (PairKey r (ringRight r)) true }

def Recv (r : Fin n) (v v' : Vars n) : Prop :=
  ¬ Finished v r ∧ v.chanOccupied (PairKey r (ringLeft r)) = true ∧
  v' = {
    chanOccupied := Function.update v.chanOccupied (PairKey r (ringLeft r)) false
    chunk := Function.update v.chunk r (Function.update (v.chunk r) (RecvChunkIdx v r)
      (v.chunk r (RecvChunkIdx v r) ∪ v.chunk (ringLeft r) (RecvChunkIdx v r)))
    round := Function.update v.round r (v.round r + 1) }

def Next (v v' : Vars n) : Prop := ∃ r, Send r v v' ∨ Recv r v v'

def AllFinished (v : Vars n) : Prop := ∀ r, Finished v r

def AllRanksAgree (v : Vars n) : Prop := AllFinished v → ∀ r c, v.chunk r c = Finset.univ

variable {v v' : Vars n} {r x : Fin n} {k d : Nat}

theorem recvChunkIdx_val (v : Vars n) (r : Fin n) : (RecvChunkIdx v r).val =
    (if v.round r < n - 1 then r.val + n - v.round r - 1
      else r.val + n - (v.round r - (n - 1))) % n := rfl

theorem pairKey_comm (a b : Fin n) : PairKey a b = PairKey b a := by
  unfold PairKey
  rcases lt_trichotomy a b with h | h | h
  · rw [if_pos h, if_neg h.not_gt]
  · rw [h]
  · rw [if_neg h.not_gt, if_pos h]

/-- The two ranks of a channel are those of its name. -/
theorem pairKey_inj {a b c e : Fin n} (h : PairKey a b = PairKey c e) :
    a = c ∧ b = e ∨ a = e ∧ b = c := by
  unfold PairKey at h
  split at h <;> split at h <;> simp only [Prod.mk.injEq] at h
  · exact .inl h
  · exact .inr h
  · exact .inr ⟨h.2, h.1⟩
  · exact .inl ⟨h.2, h.1⟩

theorem ringLeft_ne (hn : 2 ≤ n) (r : Fin n) : ringLeft r ≠ r := by
  intro h
  have hval := congrArg Fin.val h
  rw [ringLeft_val] at hval
  split at hval <;> omega

/-! ## A rank receives from a neighbour that stays where it is -/

/-- The left neighbour sends and the rank receives. -/
theorem exchange_once (hleft : ¬ Finished v (ringLeft r)) (hr : ¬ Finished v r)
    (hfree : v.chanOccupied (PairKey r (ringLeft r)) = false) :
    ∃ v', ReflTransGen Next v v' ∧ v'.round = Function.update v.round r (v.round r + 1) ∧
      v'.chanOccupied = v.chanOccupied ∧ (∀ x, x ≠ r → v'.chunk x = v.chunk x) ∧
      ∀ c, v'.chunk r c ⊆ v.chunk r c ∪ v.chunk (ringLeft r) c := by
  have hkey : PairKey (ringLeft r) (ringRight (ringLeft r)) = PairKey r (ringLeft r) := by
    rw [ringRight_left, pairKey_comm]
  have hsend : Send (ringLeft r) v { v with
      chanOccupied := Function.update v.chanOccupied (PairKey r (ringLeft r)) true } := by
    rw [← hkey]
    exact ⟨hleft, by rw [hkey]; exact hfree, rfl⟩
  have hrecv (v₁ : Vars n) (hv₁ : v₁ = { v with
      chanOccupied := Function.update v.chanOccupied (PairKey r (ringLeft r)) true }) :
      ∃ v', Recv r v₁ v' := by
    refine ⟨_, ?_, ?_, rfl⟩
    · rw [hv₁]
      exact hr
    · rw [hv₁]
      exact Function.update_self ..
  obtain ⟨v', hv'⟩ := hrecv _ rfl
  refine ⟨v', (ReflTransGen.single ⟨_, .inl hsend⟩).tail ⟨r, .inr hv'⟩, ?_⟩
  obtain ⟨-, -, rfl⟩ := hv'
  refine ⟨rfl, ?_, fun x hx => Function.update_of_ne hx _ _, fun c => ?_⟩
  · dsimp only
    rw [Function.update_idem, ← hfree, Function.update_eq_self]
  · dsimp only
    rw [Function.update_self, Function.update_apply]
    split
    · rename_i hc
      rw [hc]
    · exact Finset.subset_union_left

theorem exchange_many (hn : 2 ≤ n) (hleft : ¬ Finished v (ringLeft r))
    (hk : v.round r + k ≤ TotalRounds n)
    (hfree : v.chanOccupied (PairKey r (ringLeft r)) = false) :
    ∃ v', ReflTransGen Next v v' ∧ v'.round = Function.update v.round r (v.round r + k) ∧
      v'.chanOccupied = v.chanOccupied ∧ (∀ x, x ≠ r → v'.chunk x = v.chunk x) ∧
      ∀ c, v'.chunk r c ⊆ v.chunk r c ∪ v.chunk (ringLeft r) c := by
  induction k with
  | zero =>
      refine ⟨v, .refl, ?_, rfl, fun x _ => rfl, fun c => Finset.subset_union_left⟩
      rw [Nat.add_zero, Function.update_eq_self]
  | succ k ih =>
      obtain ⟨v₁, hrun, hround, hchan, hothers, hmine⟩ := ih (by omega)
      have hleft₁ : ¬ Finished v₁ (ringLeft r) := by
        unfold Finished at hleft ⊢
        rw [hround, Function.update_of_ne (ringLeft_ne hn r)]
        exact hleft
      have hr₁ : ¬ Finished v₁ r := by
        unfold Finished
        rw [hround, Function.update_self]
        omega
      obtain ⟨v₂, hrun₂, hround₂, hchan₂, hothers₂, hmine₂⟩ :=
        exchange_once hleft₁ hr₁ (hchan ▸ hfree)
      refine ⟨v₂, hrun.trans hrun₂, ?_, hchan₂.trans hchan, fun x hx => ?_, fun c => ?_⟩
      · rw [hround₂, hround, Function.update_self, Function.update_idem, Nat.add_assoc]
      · rw [hothers₂ x hx, hothers x hx]
      · refine (hmine₂ c).trans (Finset.union_subset (hmine c) ?_)
        rw [hothers _ (ringLeft_ne hn r)]
        exact Finset.subset_union_right

/-- Rank `0` and the last `d` ranks, from the last one down, receive all they are to receive. -/
theorem sweep (hn : 2 ≤ n) (hd : d + 1 < n)
    (hstart : ∀ x : Fin n, x.val = 0 ∨ n ≤ x.val + d → v.round x = 0)
    (hleft : ∀ x : Fin n, n ≤ x.val + d + 1 → ¬ Finished v x)
    (hfree : ∀ x : Fin n, x.val = 0 ∨ n ≤ x.val + d →
      v.chanOccupied (PairKey x (ringLeft x)) = false) :
    ∃ v', ReflTransGen Next v v' ∧
      (∀ x : Fin n, x.val = 0 ∨ n ≤ x.val + d → Finished v' x) ∧
      (∀ x : Fin n, ¬ (x.val = 0 ∨ n ≤ x.val + d) →
        v'.round x = v.round x ∧ v'.chunk x = v.chunk x) ∧
      v'.chanOccupied = v.chanOccupied := by
  induction d with
  | zero =>
      let r : Fin n := ⟨0, by omega⟩
      have hlast : n ≤ (ringLeft r).val + 0 + 1 := by
        have hzero : r.val = 0 := rfl
        rw [ringLeft_val]
        split <;> omega
      obtain ⟨v', hrun, hround, hchan, hothers, -⟩ := exchange_many (k := TotalRounds n) hn
        (hleft (ringLeft r) hlast) (by rw [hstart r (.inl rfl)]; omega) (hfree r (.inl rfl))
      have hr : ∀ x : Fin n, ¬ (x.val = 0 ∨ n ≤ x.val + 0) → x ≠ r := by
        rintro x hx rfl
        exact hx (.inl rfl)
      refine ⟨v', hrun, fun x hx => ?_, fun x hx => ⟨?_, hothers x (hr x hx)⟩, hchan⟩
      · obtain rfl : x = r := Fin.ext (by rcases hx with hx | hx <;> [exact hx; omega])
        unfold Finished
        rw [hround, Function.update_self, hstart r (.inl rfl), Nat.zero_add]
      · rw [hround, Function.update_of_ne (hr x hx)]
  | succ d ih =>
      obtain ⟨v₁, hrun, hdone, hrest, hchan⟩ := ih (by omega)
        (fun x hx => hstart x (by omega)) (fun x hx => hleft x (by omega))
        (fun x hx => hfree x (by omega))
      -- the next rank, whose left neighbour has not moved
      let r : Fin n := ⟨n - (d + 1), by omega⟩
      have hr : ¬ (r.val = 0 ∨ n ≤ r.val + d) := by
        change ¬ (n - (d + 1) = 0 ∨ n ≤ n - (d + 1) + d)
        omega
      have hval : (ringLeft r).val = n - (d + 1) - 1 := by
        rw [ringLeft_val]
        exact if_pos (show 1 ≤ n - (d + 1) by omega)
      have hleft₁ : ¬ Finished v₁ (ringLeft r) := by
        unfold Finished
        rw [(hrest (ringLeft r) (by omega)).1]
        exact hleft (ringLeft r) (by omega)
      have hzero : v₁.round r = 0 := by
        rw [(hrest r hr).1]
        exact hstart r (.inr (by change n ≤ n - (d + 1) + (d + 1); omega))
      obtain ⟨v₂, hrun₂, hround₂, hchan₂, hothers₂, -⟩ := exchange_many (k := TotalRounds n) hn
        hleft₁ (by rw [hzero]; omega)
        (by rw [hchan]; exact hfree r (.inr (by change n ≤ n - (d + 1) + (d + 1); omega)))
      refine ⟨v₂, hrun.trans hrun₂, fun x hx => ?_, fun x hx => ?_, hchan₂.trans hchan⟩
      · unfold Finished
        by_cases hxr : x = r
        · rw [hxr, hround₂, Function.update_self, hzero, Nat.zero_add]
        · have hne : x.val ≠ n - (d + 1) := fun h => hxr (Fin.ext h)
          rw [hround₂, Function.update_of_ne hxr]
          exact hdone x (by omega)
      · have hxr : x ≠ r := by
          rintro rfl
          exact hx (.inr (by change n ≤ n - (d + 1) + (d + 1); omega))
        rw [hround₂, Function.update_of_ne hxr, hothers₂ x hxr]
        exact hrest x (by omega)

/-! ## Three ranks or more -/

section Three

variable (hn : 3 ≤ n)

include hn

omit hn in
/-- Rank `1` receives `k` messages of rank `0`, and nobody else has received any. -/
theorem first_exchange (hk : k ≤ TotalRounds n) {one : Fin n} (hone : one.val = 1) :
    ∃ v, ReflTransGen Next (Init n) v ∧ v.round one = k ∧
      (∀ x : Fin n, x.val ≠ 1 → v.round x = 0) ∧ (∀ p, v.chanOccupied p = false) ∧
      ∀ c, v.chunk one c ⊆ {one} ∪ {ringLeft one} := by
  have hn := one.isLt
  have htotal : TotalRounds n = 2 * (n - 1) := rfl
  obtain ⟨v, hrun, hround, hchan, -, hmine⟩ := exchange_many (v := Init n) (r := one) (k := k)
    (by omega) (by change ¬ 0 = TotalRounds n; omega) (by change 0 + _ ≤ _; omega) rfl
  refine ⟨v, hrun, ?_, fun x hx => ?_, fun p => by rw [hchan]; rfl, hmine⟩
  · rw [hround, Function.update_self]
    exact Nat.zero_add k
  · rw [hround, Function.update_of_ne fun h => hx (by rw [h, hone])]
    rfl

/-- Every rank finishes, and rank `1` has never heard of rank `2`'s part of chunk `1`. -/
theorem exists_disagreement :
    ∃ v, ReflTransGen Next (Init n) v ∧ AllFinished v ∧ ∃ r c, v.chunk r c ≠ Finset.univ := by
  let zero : Fin n := ⟨0, by omega⟩
  let one : Fin n := ⟨1, by omega⟩
  let two : Fin n := ⟨2, by omega⟩
  have hleft_one : ringLeft one = zero := Fin.ext (by rw [ringLeft_val]; rfl)
  have hright_zero : ringRight zero = one := by rw [← hleft_one, ringRight_left]
  have htotal : TotalRounds n = 2 * (n - 1) := rfl
  -- rank 1 receives from rank 0, which has received nothing, all messages but the last
  obtain ⟨v₁, hrun₁, hround₁, hround₁_of, hchan₁, hmine₁⟩ :=
    first_exchange (Nat.sub_le (TotalRounds n) 1) (show one.val = 1 from rfl)
  -- rank 0 sends the last one while it still may
  have hsend : Send zero v₁ { v₁ with
      chanOccupied := Function.update v₁.chanOccupied (PairKey zero one) true } := by
    refine ⟨?_, hchan₁ _, by rw [hright_zero]⟩
    unfold Finished
    rw [hround₁_of zero (show (0 : Nat) ≠ 1 by omega)]
    omega
  obtain ⟨v₂, hrun₂, hdone₂, hrest₂, hchan₂⟩ := sweep (d := n - 2) (by omega) (by omega)
    (v := { v₁ with chanOccupied := Function.update v₁.chanOccupied (PairKey zero one) true })
    (fun x hx => hround₁_of x (by omega))
    (fun x hx => by
      unfold Finished
      dsimp only
      by_cases hx1 : x.val = 1
      · rw [show x = one from Fin.ext hx1, hround₁]
        omega
      · rw [hround₁_of x hx1]
        omega)
    (fun x hx => by
      dsimp only
      rw [Function.update_of_ne, hchan₁]
      · intro h
        have hval := ringLeft_val x
        rcases pairKey_inj h with ⟨h₀, h₁⟩ | ⟨h₀, -⟩
        · rw [h₁, h₀] at hval
          have : (1 : Nat) = if 1 ≤ 0 then 0 - 1 else 0 + n - 1 := hval
          rw [if_neg (by omega)] at this
          omega
        · have : x.val = 1 := congrArg Fin.val h₀
          omega)
  obtain ⟨hround_one, hchunk_one⟩ := hrest₂ one (by change ¬ (1 = 0 ∨ n ≤ 1 + (n - 2)); omega)
  dsimp only at hround_one hchunk_one
  rw [hround₁] at hround_one
  -- rank 1 takes the last message and finishes
  have hrecv : ∃ v₃, Recv one v₂ v₃ := by
    refine ⟨_, ?_, ?_, rfl⟩
    · unfold Finished
      omega
    · rw [hchan₂, hleft_one, pairKey_comm]
      dsimp only
      rw [Function.update_self]
  obtain ⟨v₃, hrecv⟩ := hrecv
  refine ⟨v₃, ((hrun₁.tail ⟨zero, .inl hsend⟩).trans hrun₂).tail ⟨one, .inr hrecv⟩, fun x => ?_,
    one, one, fun hall => ?_⟩
  · obtain ⟨-, -, rfl⟩ := hrecv
    unfold Finished
    by_cases hx : x = one
    · dsimp only
      rw [hx, Function.update_self, hround_one]
      omega
    · dsimp only
      rw [Function.update_of_ne hx]
      refine hdone₂ x ?_
      have : x.val ≠ 1 := fun h => hx (Fin.ext h)
      omega
  · have htwo : two ∈ v₃.chunk one one := by
      rw [hall]
      exact Finset.mem_univ _
    have hidx : RecvChunkIdx v₂ one ≠ one := by
      intro h
      have hval := congrArg Fin.val h
      rw [recvChunkIdx_val, if_neg (by omega), hround_one,
        show one.val + n - (TotalRounds n - 1 - (n - 1)) = 3 by
          change 1 + n - _ = 3
          omega] at hval
      have hone : (3 : Nat) % n = 1 := hval
      rcases Nat.lt_or_ge 3 n with h3 | h3
      · rw [Nat.mod_eq_of_lt h3] at hone
        omega
      · rw [show n = 3 by omega] at hone
        omega
    obtain ⟨-, -, rfl⟩ := hrecv
    dsimp only at htwo
    rw [Function.update_self, Function.update_of_ne hidx.symm, hchunk_one] at htwo
    have hsub := hmine₁ one htwo
    rw [hleft_one] at hsub
    change two ∈ ({one} : Finset (Fin n)) ∪ {zero} at hsub
    rw [Finset.mem_union, Finset.mem_singleton, Finset.mem_singleton] at hsub
    rcases hsub with h | h
    · exact absurd (congrArg Fin.val h) (show (2 : Nat) ≠ 1 by omega)
    · exact absurd (congrArg Fin.val h) (show (2 : Nat) ≠ 0 by omega)

/-- Rank `2` waits for a message of rank `1`, which has finished and never sent. -/
theorem exists_deadlock :
    ∃ v, ReflTransGen Next (Init n) v ∧ ¬ AllFinished v ∧ ∀ v', ¬ Next v v' := by
  let one : Fin n := ⟨1, by omega⟩
  let two : Fin n := ⟨2, by omega⟩
  have hleft_two : ringLeft two = one := Fin.ext (by rw [ringLeft_val]; rfl)
  have hright_two : (ringRight two).val ≠ 1 := by
    intro h
    have hback := congrArg Fin.val (ringLeft_right two)
    rw [ringLeft_val, h] at hback
    have : (if 1 ≤ 1 then 1 - 1 else 1 + n - 1) = 2 := hback
    rw [if_pos (by omega)] at this
    omega
  have htotal : TotalRounds n = 2 * (n - 1) := rfl
  obtain ⟨v₁, hrun₁, hround₁, hround₁_of, hchan₁, -⟩ :=
    first_exchange (le_refl (TotalRounds n)) (show one.val = 1 from rfl)
  -- everyone but rank 2 finishes
  obtain ⟨v₂, hrun₂, hdone₂, hrest₂, hchan₂⟩ := sweep (v := v₁) (d := n - 3) (by omega) (by omega)
    (fun x hx => hround₁_of x (by omega))
    (fun x hx => by
      unfold Finished
      rw [hround₁_of x (by omega)]
      omega)
    (fun x _ => hchan₁ _)
  have hround_two : v₂.round two = 0 := by
    rw [(hrest₂ two (by change ¬ (2 = 0 ∨ n ≤ 2 + (n - 3)); omega)).1]
    exact hround₁_of two (show (2 : Nat) ≠ 1 by omega)
  have hdone_of {x : Fin n} (hx : x ≠ two) : Finished v₂ x := by
    by_cases hx1 : x = one
    · unfold Finished
      rw [hx1, (hrest₂ one (by change ¬ (1 = 0 ∨ n ≤ 1 + (n - 3)); omega)).1, hround₁]
    · have hval : x.val ≠ 2 := fun h => hx (Fin.ext h)
      have hval1 : x.val ≠ 1 := fun h => hx1 (Fin.ext h)
      exact hdone₂ x (by omega)
  have htwo : ¬ Finished v₂ two := by
    unfold Finished
    omega
  have hempty (p : Fin n × Fin n) : v₂.chanOccupied p = false := by
    rw [hchan₂, hchan₁]
  -- rank 2 sends, and its own channel is occupied for good
  have hsend : ∃ v₃, Send two v₂ v₃ := ⟨_, htwo, hempty _, rfl⟩
  obtain ⟨v₃, hsend⟩ := hsend
  refine ⟨v₃, (hrun₁.trans hrun₂).tail ⟨two, .inl hsend⟩, fun hall => ?_, fun v' hstep => ?_⟩
  · obtain ⟨-, -, rfl⟩ := hsend
    exact htwo (hall two)
  · obtain ⟨-, -, rfl⟩ := hsend
    obtain ⟨r, ⟨hr, hfree, -⟩ | ⟨hr, hocc, -⟩⟩ := hstep
    · obtain rfl : r = two := by_contra fun hne => hr (hdone_of hne)
      dsimp only at hfree
      rw [Function.update_self] at hfree
      contradiction
    · obtain rfl : r = two := by_contra fun hne => hr (hdone_of hne)
      have hkey : PairKey two (ringLeft two) ≠ PairKey two (ringRight two) := by
        rw [hleft_two]
        intro h
        rcases pairKey_inj h with ⟨-, h⟩ | ⟨-, h⟩
        · exact hright_two (congrArg Fin.val h).symm
        · exact absurd (congrArg Fin.val h) (show (1 : Nat) ≠ 2 by omega)
      dsimp only at hocc
      rw [Function.update_of_ne hkey, hempty] at hocc
      contradiction

end Three

/-! ## Two ranks -/

/-- What a rank knows of the two chunks by its round. -/
structure Heard (v : Vars 2) : Prop where
  own : ∀ r c, r ∈ v.chunk r c
  other : ∀ r, 1 ≤ v.round r → ringLeft r ∈ v.chunk r (ringLeft r)
  both : ∀ r, 2 ≤ v.round r → ringLeft r ∈ v.chunk r r

theorem heard_init : Heard (Init 2) where
  own := fun r _ => Finset.mem_singleton_self r
  other := fun _ h => absurd h (show ¬ (1 ≤ 0) by omega)
  both := fun _ h => absurd h (show ¬ (2 ≤ 0) by omega)

theorem recvChunkIdx_two (v : Vars 2) (r : Fin 2) :
    (v.round r = 0 → RecvChunkIdx v r = ringLeft r) ∧
    (v.round r = 1 → RecvChunkIdx v r = r) := by
  refine ⟨fun h => Fin.ext ?_, fun h => Fin.ext ?_⟩
  · have hr := r.isLt
    rw [recvChunkIdx_val, ringLeft_val, h, if_pos (by omega)]
    split <;> omega
  · have hr := r.isLt
    rw [recvChunkIdx_val, h, if_neg (by omega)]
    omega

theorem heard_next {v v' : Vars 2} (h : Heard v) (hstep : Next v v') : Heard v' := by
  obtain ⟨r, ⟨-, -, rfl⟩ | ⟨hr, -, rfl⟩⟩ := hstep
  · exact ⟨h.own, h.other, h.both⟩
  · have hle : v.round r = 0 ∨ v.round r = 1 ∨ 2 < v.round r := by
      have : v.round r ≠ 2 := hr
      omega
    have hmono (x c : Fin 2) : v.chunk x c ⊆ Function.update v.chunk r
        (Function.update (v.chunk r) (RecvChunkIdx v r)
          (v.chunk r (RecvChunkIdx v r) ∪ v.chunk (ringLeft r) (RecvChunkIdx v r))) x c := by
      by_cases hx : x = r
      · rw [hx, Function.update_self, Function.update_apply]
        split
        · rename_i hc
          rw [hc]
          exact Finset.subset_union_left
        · exact Finset.Subset.refl _
      · rw [Function.update_of_ne hx]
    have hgot (c : Fin 2) (hc : RecvChunkIdx v r = c) : ringLeft r ∈ Function.update v.chunk r
        (Function.update (v.chunk r) (RecvChunkIdx v r)
          (v.chunk r (RecvChunkIdx v r) ∪ v.chunk (ringLeft r) (RecvChunkIdx v r))) r c := by
      rw [Function.update_self, hc, Function.update_self]
      exact Finset.mem_union_right _ (h.own _ _)
    refine ⟨fun x c => hmono x c (h.own x c), fun x hx => ?_, fun x hx => ?_⟩
    · by_cases hxr : x = r
      · subst hxr
        rcases hle with h₀ | h₁ | h₂
        · exact hgot _ ((recvChunkIdx_two v x).1 h₀)
        · exact hmono _ _ (h.other x (by omega))
        · exact hmono _ _ (h.other x (by omega))
      · dsimp only at hx
        rw [Function.update_of_ne hxr] at hx
        exact hmono _ _ (h.other x hx)
    · by_cases hxr : x = r
      · subst hxr
        dsimp only at hx
        rw [Function.update_self] at hx
        rcases hle with h₀ | h₁ | h₂
        · omega
        · exact hgot _ ((recvChunkIdx_two v x).2 h₁)
        · exact hmono _ _ (h.both x (by omega))
      · dsimp only at hx
        rw [Function.update_of_ne hxr] at hx
        exact hmono _ _ (h.both x hx)

theorem heard_of_run {v : Vars 2} (hrun : ReflTransGen Next (Init 2) v) : Heard v := by
  induction hrun with
  | refl => exact heard_init
  | tail _ hstep ih => exact heard_next ih hstep

theorem eq_or_left (r x : Fin 2) : x = r ∨ x = ringLeft r := by
  have hx := x.isLt
  have hr := r.isLt
  by_cases h : x = r
  · exact .inl h
  · refine .inr (Fin.ext ?_)
    have hne : x.val ≠ r.val := fun hval => h (Fin.ext hval)
    rw [ringLeft_val]
    split <;> omega

theorem agree_of_heard {v : Vars 2} (h : Heard v) : AllRanksAgree v := by
  intro hall r c
  have hround : v.round r = 2 := hall r
  refine Finset.eq_univ_iff_forall.mpr fun x => ?_
  rcases eq_or_left r x with rfl | rfl
  · exact h.own x c
  · rcases eq_or_left r c with rfl | rfl
    · exact h.both c hround.ge
    · exact h.other r (by omega)

/-- Two ranks share their only channel, and whoever is not finished can use it. -/
theorem next_of_unfinished {v : Vars 2} (hv : ¬ AllFinished v) : ∃ v', Next v v' := by
  obtain ⟨r, hr⟩ := not_forall.mp hv
  have hright : ringRight r = ringLeft r := by
    rcases eq_or_left r (ringRight r) with h | h
    · have hback := ringLeft_right r
      rw [h] at hback
      exact absurd hback (ringLeft_ne (le_refl 2) r)
    · exact h
  cases hocc : v.chanOccupied (PairKey r (ringLeft r)) with
  | false => exact ⟨_, r, .inl ⟨hr, by rw [hright]; exact hocc, rfl⟩⟩
  | true => exact ⟨_, r, .inr ⟨hr, hocc, rfl⟩⟩

/-! ## What the model checker would find -/

/-- `AllRanksAgree` is an invariant of the specification for two ranks and for no other number. -/
theorem allRanksAgree_iff (hn : 2 ≤ n) :
    (∀ v, ReflTransGen Next (Init n) v → AllRanksAgree v) ↔ n = 2 := by
  constructor
  · intro hagree
    by_contra hne
    obtain ⟨v, hrun, hall, r, c, hdiff⟩ := exists_disagreement (n := n) (by omega)
    exact hdiff (hagree v hrun hall r c)
  · rintro rfl v hrun
    exact agree_of_heard (heard_of_run hrun)

theorem allRanksAgree_three :
    ¬ ∀ v, ReflTransGen Next (Init 3) v → AllRanksAgree v :=
  fun h => absurd ((allRanksAgree_iff (show 2 ≤ 3 by omega)).mp h) (by omega)

/-- The specification is free of deadlock for two ranks and for no other number. -/
theorem deadlock_free_iff (hn : 2 ≤ n) :
    (∀ v, ReflTransGen Next (Init n) v → AllFinished v ∨ ∃ v', Next v v') ↔ n = 2 := by
  constructor
  · intro hfree
    by_contra hne
    obtain ⟨v, hrun, hunfinished, hstuck⟩ := exists_deadlock (n := n) (by omega)
    rcases hfree v hrun with hall | ⟨v', hstep⟩
    · exact hunfinished hall
    · exact hstuck v' hstep
  · rintro rfl v -
    by_cases hall : AllFinished v
    · exact .inl hall
    · exact .inr (next_of_unfinished hall)

theorem deadlock_free_three :
    ¬ ∀ v, ReflTransGen Next (Init 3) v → AllFinished v ∨ ∃ v', Next v v' :=
  fun h => absurd ((deadlock_free_iff (show 2 ≤ 3 by omega)).mp h) (by omega)

end CrossMachine.Collectives.Spec
