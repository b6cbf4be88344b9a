import CrossMachine.Raft.Acks

/-!
# Leader completeness

An index is *chosen* once a majority has confirmed it to the leader of a term that
put an entry of its own there. Every later winner has the chosen prefix.

The classical argument is by strong induction on the later term: its electors meet
the majority that confirmed, the shared node still had the prefix when it voted, and
the candidate's log was at least as up to date. The vote itself only yields `Kept`:
the candidate has the prefix, *or* some winner in between lacks it. It is the
induction that rules the second case out, so the invariant carries the alternative
and `chosen_prefix` resolves it.
-/

namespace CrossMachine.Raft

open Lib

variable {n : Nat}

structure ElectInv (h : History n) : Prop where
  /-- A vote carries what the voter had confirmed before over to the candidate. -/
  vote : ∀ {T v c U m}, h.voted T v c → U < T → 0 < m → m ≤ h.acked U v → h.Own U m →
    h.Kept (h.candLog T c) (T + 1) U m
  /-- A winner starts from the log it asked with, and its electors vouch for it. -/
  elected : ∀ {T l}, h.winner T = some l → h.candLog T l <+: h.leaderLog T ∧
    ∀ v ∈ h.electors T, ∀ {U m}, U < T → 0 < m → m ≤ h.acked U v → h.Own U m →
      h.Kept (h.candLog T l) T U m

theorem electInv_init : ElectInv (initHistory n) where
  vote := by intro T v c U m h; exact h.elim
  elected := by intro T l h; exact absurd h (by simp [initHistory])

variable {w : World n} {U m T : Nat} {s : Fin n}

/-- New confirmations are of the current term of the confirming node, and votes of an
earlier term are not affected by them. -/
theorem ElectInv.extend (hv : VoteInv w) (ha : AckInv w) (h : ElectInv w.hist) {hist : History n}
    (hx : w.hist.Extends hist) (hwin : hist.winner = w.hist.winner)
    (hvoted : hist.voted = w.hist.voted) (hcand : hist.candLog = w.hist.candLog)
    (helect : hist.electors = w.hist.electors)
    (hack : ∀ U v, hist.acked U v = w.hist.acked U v ∨ (w.node v).currentTerm = U) :
    ElectInv hist := by
  -- below the term of a vote of `v`, the confirmations of `v` are the old ones
  have hold : ∀ {T v c U m}, w.hist.voted T v c → U < T → 0 < m → m ≤ hist.acked U v →
      hist.Own U m → m ≤ w.hist.acked U v ∧ w.hist.Own U m := by
    intro T v c U m hvote hUT h0 hm ho
    have hTv := (hv.votedTerm hvote).1
    have hm' : m ≤ w.hist.acked U v := by
      rcases hack U v with heq | hterm
      · rwa [heq] at hm
      · omega
    have hlt := (ha.reach (Nat.lt_of_lt_of_le h0 hm')).2
    exact ⟨hm', History.Own.of_mono hx (by omega) ho⟩
  constructor
  · intro T v c U m hvote hUT h0 hm ho
    rw [hvoted] at hvote
    obtain ⟨hm', ho'⟩ := hold hvote hUT h0 hm ho
    rw [hcand]
    exact (h.vote hvote hUT h0 hm' ho').mono ho' hx List.prefix_rfl (Nat.le_refl _)
  · intro T l hl
    rw [hwin] at hl
    obtain ⟨hpre, hvouch⟩ := h.elected hl
    rw [hcand, helect]
    refine ⟨hpre.trans (hx.grows T), ?_⟩
    intro v hv' U m hUT h0 hm ho
    obtain ⟨hm', ho'⟩ := hold ((hv.electors hl).2 v hv').1 hUT h0 hm ho
    exact (hvouch v hv' hUT h0 hm' ho').mono ho' hx List.prefix_rfl (Nat.le_refl _)

/-! ## The up-to-date test -/

/-- An entry of a term puts that term's winner on record. -/
theorem LogInv.winner_of_last (hl : LogInv w) {L : List LogEntry} (hL : GoodLog w.hist L)
    {e : LogEntry} (he : L.getLast? = some e) (hpos : 0 < e.term) :
    w.hist.winner e.term ≠ none := by
  intro hnone
  have hp := hL.prefix_last he
  rw [hl.unwon hnone, if_neg (by omega)] at hp
  exact hL.ne_nil (List.prefix_nil.mp hp)

/-- **The up-to-date test carries a confirmed prefix over.** `L` is the voter's log,
`C` the candidate's. When the last terms agree both logs are the same leader's and
the longer one contains the other; when the candidate's is later, its leader either
has the prefix or lacks it. -/
theorem LogInv.logOk_kept (hl : LogInv w) {L C : List LogEntry} (hL : GoodLog w.hist L)
    (hC : GoodLog w.hist C) {last e : LogEntry} (hlast : L.getLast? = some last)
    (he : C.getLast? = some e) (hok : logOk last e.index e.term = true) (ho : w.hist.Own U m)
    (hp : w.hist.upTo U m <+: L) (hT : e.term < T) : w.hist.Kept C (T + 1) U m := by
  obtain ⟨eU, heU, htU⟩ := ho
  have hend : (w.hist.upTo U m)[m]? = some eU := by
    rw [History.upTo, List.getElem?_take_of_succ]; exact heU
  have hLlen := hL.last hlast
  have hClen := hC.last he
  have heL := prefix_getElem? hp hend
  have hmL := lt_length_of_getElem? heL
  have hUlast : U ≤ last.term := by
    rw [← htU]
    rw [List.getLast?_eq_getElem?] at hlast
    exact hL.term_mono hl.wonBound heL hlast (by omega)
  simp only [logOk, Bool.or_eq_true, Bool.and_eq_true, decide_eq_true_eq] at hok
  rcases hok with hlater | ⟨hsame, hlong⟩
  · -- the candidate's last leader is of a later term than the prefix
    by_cases hfit : w.hist.upTo U m <+: w.hist.leaderLog e.term
    · left
      rcases List.prefix_or_prefix_of_prefix hfit (hC.prefix_last he) with hq | hq
      · exact hq
      · -- the candidate's log would end inside the prefix, in a later term than the prefix has
        exfalso
        rw [List.getLast?_eq_getElem?] at he
        have heL' := prefix_getElem? (hq.trans hp) he
        have hlen := hq.length_le
        rw [History.upTo, List.length_take] at hlen
        have := hL.term_mono hl.wonBound heL' heL (by omega)
        omega
    · exact Or.inr ⟨e.term, by omega, by omega, hl.winner_of_last hC he (by omega), hfit⟩
  · -- both logs are prefixes of the same leader's, and the candidate's is the longer
    left
    have hLp := hL.prefix_last hlast
    have hCp := hC.prefix_last he
    rw [hsame] at hCp
    exact hp.trans (List.prefix_of_prefix_length_le hLp hCp (by omega))

/-! ## Every move -/

theorem electInv_elect (hv : VoteInv w) (ha : AckInv w) (h : ElectInv w.hist)
    (counted : Fin n → Finset (Fin n)) :
    ElectInv { w.hist with
      voted := fun T v c => w.hist.voted T v c ∨
        (T = (w.node s).currentTerm + 1 ∧ v = s ∧ c = s)
      candLog := set₂ w.hist.candLog ((w.node s).currentTerm + 1) s (w.node s).log
      counted := counted } := by
  constructor <;> dsimp only
  · rintro T v c U m (hvote | ⟨rfl, rfl, rfl⟩) hUT h0 hm ho
    · rw [set₂_ne]
      · exact h.vote hvote hUT h0 hm ho
      · rintro ⟨rfl, rfl⟩
        have := (hv.votedTerm hvote).2
        omega
    · rw [set₂_self]
      rcases ha.kept h0 hm ho with hp | ⟨W, hW₁, hW₂, hlack⟩
      · exact Or.inl hp
      · exact Or.inr ⟨W, hW₁, Nat.lt_succ_of_lt hW₂, hlack⟩
  · intro T l hl
    rw [set₂_ne]
    · exact h.elected hl
    · rintro ⟨rfl, rfl⟩
      have := (hv.winnerTerm hl).1
      omega

theorem electInv_grant (hl : LogInv w) (ha : AckInv w) (h : ElectInv w.hist) {c : Fin n}
    {li lt : Nat} {last : LogEntry} (hask : (⟨c, s, .requestVote T c li lt⟩ : Packet n) ∈ w.net)
    (hT : (w.node s).currentTerm = T) (hlast : (w.node s).log.getLast? = some last)
    (hok : logOk last li lt = true) :
    ElectInv { w.hist with
      voted := fun T' v' c' => w.hist.voted T' v' c' ∨ (T' = T ∧ v' = s ∧ c' = c) } := by
  refine ⟨?_, h.elected⟩
  rintro T' v' c' U m (hvote | ⟨rfl, rfl, rfl⟩) hUT h0 hm ho
  · exact h.vote hvote hUT h0 hm ho
  · obtain ⟨e, he, rfl, rfl⟩ := hl.frames _ hask
    have hne : w.hist.candLog T' c' ≠ [] := by
      intro hq; rw [hq] at he; simp at he
    obtain ⟨hgood, hbelow⟩ := hl.candGood hne
    have hlt := hbelow e (List.mem_of_getLast? he)
    rcases ha.kept h0 hm ho with hp | hlack
    · exact hl.logOk_kept (hl.logs v') hgood hlast he hok ho hp hlt
    · exact Or.inr (hT ▸ hlack)

theorem electInv_win (hv : VoteInv w) (hl : LogInv w) (ha : AckInv w) (h : ElectInv w.hist)
    (hrole : (w.node s).state = .candidate) (hmaj : n < (w.node s).votesGranted * 2)
    {hist : History n} (hx : w.hist.Extends hist)
    (hwin : hist.winner = Function.update w.hist.winner (w.node s).currentTerm (some s))
    (hlog : hist.leaderLog =
      Function.update w.hist.leaderLog (w.node s).currentTerm (w.node s).log)
    (hack : hist.acked = set₂ w.hist.acked (w.node s).currentTerm s ((w.node s).log.length - 1))
    (hvoted : hist.voted = w.hist.voted) (hcand : hist.candLog = w.hist.candLog)
    (helect : hist.electors =
      Function.update w.hist.electors (w.node s).currentTerm (w.hist.counted s)) :
    ElectInv hist := by
  obtain ⟨_, hopen⟩ := hv.open_of_majority hrole hmaj
  -- below the term of a vote of `v`, nothing has changed for `v`
  have hold : ∀ {T v c U m}, w.hist.voted T v c → U < T → 0 < m → m ≤ hist.acked U v →
      hist.Own U m → m ≤ w.hist.acked U v ∧ w.hist.Own U m := by
    intro T v c U m hvote hUT h0 hm ho
    have hTv := (hv.votedTerm hvote).1
    rw [hack, set₂_ne] at hm
    · have hlt := (ha.reach (Nat.lt_of_lt_of_le h0 hm)).2
      exact ⟨hm, History.Own.of_mono hx (by omega) ho⟩
    · rintro ⟨rfl, rfl⟩; omega
  constructor
  · intro T v c U m hvote hUT h0 hm ho
    rw [hvoted] at hvote
    obtain ⟨hm', ho'⟩ := hold hvote hUT h0 hm ho
    rw [hcand]
    exact (h.vote hvote hUT h0 hm' ho').mono ho' hx List.prefix_rfl (Nat.le_refl _)
  · intro T l hT
    rw [hwin] at hT
    rw [hcand, helect, hlog]
    by_cases hTs : T = (w.node s).currentTerm
    · subst hTs
      rw [Function.update_self] at hT
      rw [Function.update_self, Function.update_self]
      obtain rfl := Option.some.inj hT
      refine ⟨by rw [hl.candidates hrole], ?_⟩
      intro v hv' U m hUT h0 hm ho
      have hvote := (hv.counted hrole).1 v hv'
      obtain ⟨hm', ho'⟩ := hold hvote hUT h0 hm ho
      have hk : w.hist.Kept (w.hist.candLog (w.node s).currentTerm s)
          (w.node s).currentTerm U m := by
        rcases h.vote hvote hUT h0 hm' ho' with hp | ⟨W, hW₁, hW₂, hlack⟩
        · exact Or.inl hp
        · -- the term had no winner yet, so the one that lacks the prefix is earlier
          refine Or.inr ⟨W, hW₁, ?_, hlack⟩
          have hne : W ≠ (w.node s).currentTerm := by
            rintro rfl; exact hlack.1 hopen
          omega
      exact hk.mono ho' hx List.prefix_rfl (Nat.le_refl _)
    · rw [Function.update_of_ne hTs] at hT ⊢
      obtain ⟨hpre, hvouch⟩ := h.elected hT
      rw [Function.update_of_ne hTs]
      refine ⟨hpre, ?_⟩
      intro v hv' U m hUT h0 hm ho
      obtain ⟨hm', ho'⟩ := hold ((hv.electors hT).2 v hv').1 hUT h0 hm ho
      exact (hvouch v hv' hUT h0 hm' ho').mono ho' hx List.prefix_rfl (Nat.le_refl _)

theorem electInv_move {w' : World n} (hv : VoteInv w) (hl : LogInv w) (ha : AckInv w)
    (h : ElectInv w.hist) (hm : Move w w') : ElectInv w'.hist := by
  have hx := move_extends hv hl hm
  cases hm with
  | elect => exact electInv_elect hv ha h _
  | grant hnet hT hfree hlast hok =>
      refine electInv_grant hl ha h ?_ hT hlast hok
      rw [hnet]; exact Multiset.mem_cons_self _ _
  | count => exact h.extend hv ha hx rfl rfl rfl rfl (fun _ _ => Or.inl rfl)
  | win hrole hmaj hnd => exact electInv_win hv hl ha h hrole hmaj hx rfl rfl rfl rfl rfl rfl
  | append hlead hterm hidx =>
      refine h.extend hv ha hx rfl rfl rfl rfl (fun U v => ?_)
      rename_i s e
      by_cases hUv : U = (w.node s).currentTerm ∧ v = s
      · obtain ⟨rfl, rfl⟩ := hUv; exact Or.inr rfl
      · exact Or.inl (set₂_ne _ _ hUv)
  | accept hmem hT hrole hprev =>
      refine h.extend hv ha hx rfl rfl rfl rfl (fun U v => ?_)
      rename_i s _ _ T _ _ _ _
      by_cases hUv : U = T ∧ v = s
      · obtain ⟨rfl, rfl⟩ := hUv; exact Or.inr hT
      · exact Or.inl (set₂_ne _ _ hUv)
  | lose => exact h
  | refuse => exact h
  | bump => exact h
  | stepDown => exact h
  | follow => exact h
  | backoff => exact h
  | send => exact h
  | confirm => exact h
  | commit => exact h

/-! ## Chosen prefixes -/

/-- A majority has confirmed index `m`, an entry of term `U`, to the leader of `U`. -/
def History.Chosen (h : History n) (U m : Nat) : Prop :=
  0 < m ∧ h.Own U m ∧ ∃ Q : Finset (Fin n), Majority Q ∧ ∀ p ∈ Q, m ≤ h.acked U p

/-- **Leader completeness.** Every later winner has what was chosen. -/
theorem chosen_prefix (hv : VoteInv w) (h : ElectInv w.hist) (hc : w.hist.Chosen U m) :
    ∀ {T : Nat}, w.hist.winner T ≠ none → U < T → w.hist.upTo U m <+: w.hist.leaderLog T := by
  obtain ⟨h0, ho, Q, hQ, hall⟩ := hc
  intro T
  induction T using Nat.strongRecOn with
  | ind T ih =>
      intro hT hUT
      obtain ⟨l, hl⟩ := Option.ne_none_iff_exists'.mp hT
      obtain ⟨v, hvE, hvQ⟩ := (hv.electors hl).1.inter hQ
      obtain ⟨hpre, hvouch⟩ := h.elected hl
      rcases hvouch v hvE hUT h0 (hall v hvQ) ho with hp | ⟨W, hUW, hWT, hlack⟩
      · exact hp.trans hpre
      · exact absurd (ih W hWT hlack.1 hUW) hlack.2

/-- The same, of the winner's own term too. -/
theorem chosen_prefix_le (hv : VoteInv w) (h : ElectInv w.hist) (hc : w.hist.Chosen U m)
    (hT : w.hist.winner T ≠ none) (hUT : U ≤ T) : w.hist.upTo U m <+: w.hist.leaderLog T := by
  rcases Nat.lt_or_eq_of_le hUT with hlt | rfl
  · exact chosen_prefix hv h hc hT hlt
  · exact List.take_prefix _ _

end CrossMachine.Raft
