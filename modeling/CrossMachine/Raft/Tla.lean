import Mathlib.Data.Set.Basic
import Mathlib.Logic.Relation
import CrossMachine.Lib.Majority
import CrossMachine.Raft.Node

/-!
# The specification `Raft.tla`

The variables, actions and `Next` of `tla_raft/Raft.tla`, one definition an action, as
relations between the values of the variables before and after. What an action does not
mention is `UNCHANGED`. `Server` is `Fin n`, `Nil` is `none`, and `Value` is the set of
commands. Sequences are lists, so `log[s][i]` is `(log s)[i - 1]?`.

`Next` hands every vote request to `CHOOSE dest \in Server : TRUE`. `CHOOSE` picks
the same server at every evaluation; which one, the specification does not say. It is
the parameter `chosen` here.
-/

namespace CrossMachine.Raft.Tla

open Lib

variable {n : Nat}

/-- `[term: Nat, value: Value]`. -/
structure Entry where
  term : Nat
  value : Command
  deriving DecidableEq

/-- The message records. A vote request has no destination. -/
inductive Message (n : Nat) where
  | requestVoteRequest (msource : Fin n) (mterm mlastLogTerm mlastLogIndex : Nat)
  | requestVoteResponse (msource mdest : Fin n) (mterm : Nat) (mvoteGranted : Bool)
  | appendEntriesRequest (msource mdest : Fin n) (mterm mprevLogIndex mprevLogTerm : Nat)
      (mentries : List Entry) (mcommitIndex : Nat)
  | appendEntriesResponse (msource mdest : Fin n) (mterm : Nat) (msuccess : Bool)
      (mmatchIndex : Nat)
  deriving DecidableEq

/-- `raftVars`. -/
structure Vars (n : Nat) where
  currentTerm : Fin n → Nat
  state : Fin n → RaftState
  votedFor : Fin n → Option (Fin n)
  log : Fin n → List Entry
  commitIndex : Fin n → Nat
  votesGranted : Fin n → Finset (Fin n)
  nextIndex : Fin n → Fin n → Nat
  matchIndex : Fin n → Fin n → Nat
  messages : Set (Message n)

def Init (n : Nat) : Vars n where
  currentTerm := fun _ => 0
  state := fun _ => .follower
  votedFor := fun _ => none
  log := fun _ => []
  commitIndex := fun _ => 0
  votesGranted := fun _ => ∅
  nextIndex := fun _ _ => 1
  matchIndex := fun _ _ => 0
  messages := ∅

/-- `q \in Quorum`. -/
abbrev Quorum (q : Finset (Fin n)) : Prop := Majority q

def lastTerm (log : List Entry) : Nat := (log.getLast?.map Entry.term).getD 0

/-! ## Election actions -/

def Timeout (s : Fin n) (v v' : Vars n) : Prop :=
  (v.state s = .follower ∨ v.state s = .candidate) ∧
  v' = { v with
    state := Function.update v.state s .candidate
    currentTerm := Function.update v.currentTerm s (v.currentTerm s + 1)
    votedFor := Function.update v.votedFor s (some s)
    votesGranted := Function.update v.votesGranted s {s}
    messages := insert
      (.requestVoteRequest s (v.currentTerm s + 1) (lastTerm (v.log s)) (v.log s).length)
      v.messages }

/-- `logOk` of `HandleRequestVoteRequest`. -/
def voteLogOk (log : List Entry) (mlastLogTerm mlastLogIndex : Nat) : Prop :=
  lastTerm log < mlastLogTerm ∨ (mlastLogTerm = lastTerm log ∧ log.length ≤ mlastLogIndex)

instance (log : List Entry) (lt li : Nat) : Decidable (voteLogOk log lt li) :=
  inferInstanceAs (Decidable (_ ∨ _))

/-- `grant`. -/
def grant (v : Vars n) (dest msource : Fin n) (mterm mlastLogTerm mlastLogIndex : Nat) : Prop :=
  v.currentTerm dest ≤ mterm ∧ voteLogOk (v.log dest) mlastLogTerm mlastLogIndex ∧
    (v.votedFor dest = none ∨ v.votedFor dest = some msource)

instance (v : Vars n) (dest msource : Fin n) (T lt li : Nat) :
    Decidable (grant v dest msource T lt li) :=
  inferInstanceAs (Decidable (_ ∧ _))

def HandleRequestVoteRequest (dest msource : Fin n) (mterm mlastLogTerm mlastLogIndex : Nat)
    (v v' : Vars n) : Prop :=
  -- stale requests are simply not responded to
  v.currentTerm dest ≤ mterm ∧
  v' = { v with
    currentTerm := Function.update v.currentTerm dest mterm
    state := Function.update v.state dest
      (if v.currentTerm dest < mterm then .follower else v.state dest)
    votedFor := Function.update v.votedFor dest
      (if grant v dest msource mterm mlastLogTerm mlastLogIndex then some msource
        else v.votedFor dest)
    messages := insert
      (.requestVoteResponse dest msource mterm
        (decide (grant v dest msource mterm mlastLogTerm mlastLogIndex)))
      (v.messages \ {.requestVoteRequest msource mterm mlastLogTerm mlastLogIndex}) }

def HandleRequestVoteResponse (dest msource : Fin n) (mterm : Nat) (mvoteGranted : Bool)
    (v v' : Vars n) : Prop :=
  mterm = v.currentTerm dest ∧ v.state dest = .candidate ∧
  v' = { v with
    votesGranted := Function.update v.votesGranted dest
      (if mvoteGranted then insert msource (v.votesGranted dest) else v.votesGranted dest)
    messages := v.messages \ {.requestVoteResponse msource dest mterm mvoteGranted} }

def BecomeLeader (s : Fin n) (v v' : Vars n) : Prop :=
  v.state s = .candidate ∧ Quorum (v.votesGranted s) ∧
  v' = { v with
    state := Function.update v.state s .leader
    nextIndex := Function.update v.nextIndex s fun _ => (v.log s).length + 1
    matchIndex := Function.update v.matchIndex s fun _ => 0 }

/-! ## Replication actions -/

def ClientRequest (s : Fin n) (value : Command) (v v' : Vars n) : Prop :=
  v.state s = .leader ∧
  v' = { v with
    log := Function.update v.log s (v.log s ++ [{ term := v.currentTerm s, value := value }]) }

/-- `prevTerm`, and the `.term` test of `logOk`: index 0 is before the first entry. -/
def prevTerm (log : List Entry) : Nat → Option Nat
  | 0 => some 0
  | i + 1 => log[i]?.map Entry.term

def SendAppendEntries (s dest : Fin n) (v v' : Vars n) : Prop :=
  v.state s = .leader ∧ dest ≠ s ∧
  ∃ t, prevTerm (v.log s) (v.nextIndex s dest - 1) = some t ∧
    v' = { v with
      messages := insert
        (.appendEntriesRequest s dest (v.currentTerm s) (v.nextIndex s dest - 1) t
          ((v.log s).drop (v.nextIndex s dest - 1)) (v.commitIndex s))
        v.messages }

/-- `logOk` of `HandleAppendEntriesRequest`. -/
def appendLogOk (log : List Entry) (mprevLogIndex mprevLogTerm : Nat) : Prop :=
  mprevLogIndex = 0 ∨ prevTerm log mprevLogIndex = some mprevLogTerm

instance (log : List Entry) (pi pt : Nat) : Decidable (appendLogOk log pi pt) :=
  inferInstanceAs (Decidable (_ ∨ _))

def HandleAppendEntriesRequest (dest msource : Fin n) (mterm mprevLogIndex mprevLogTerm : Nat)
    (mentries : List Entry) (mcommitIndex : Nat) (v v' : Vars n) : Prop :=
  v.currentTerm dest ≤ mterm ∧
  v' =
    if appendLogOk (v.log dest) mprevLogIndex mprevLogTerm then
      { v with
        currentTerm := Function.update v.currentTerm dest mterm
        state := Function.update v.state dest .follower
        -- what followed `mprevLogIndex` is cut off, whether it agrees or not
        log := Function.update v.log dest ((v.log dest).take mprevLogIndex ++ mentries)
        commitIndex := Function.update v.commitIndex dest
          (if v.commitIndex dest < mcommitIndex then
            min mcommitIndex (mprevLogIndex + mentries.length)
          else v.commitIndex dest)
        messages := insert
          (.appendEntriesResponse dest msource mterm true (mprevLogIndex + mentries.length))
          (v.messages \ {.appendEntriesRequest msource dest mterm mprevLogIndex mprevLogTerm
            mentries mcommitIndex}) }
    else
      { v with
        currentTerm := Function.update v.currentTerm dest mterm
        state := Function.update v.state dest .follower
        messages := insert (.appendEntriesResponse dest msource mterm false 0)
          (v.messages \ {.appendEntriesRequest msource dest mterm mprevLogIndex mprevLogTerm
            mentries mcommitIndex}) }

def HandleAppendEntriesResponse (dest msource : Fin n) (mterm : Nat) (msuccess : Bool)
    (mmatchIndex : Nat) (v v' : Vars n) : Prop :=
  v.state dest = .leader ∧ mterm = v.currentTerm dest ∧
  v' =
    if msuccess then
      { v with
        nextIndex := Function.update v.nextIndex dest
          (Function.update (v.nextIndex dest) msource (mmatchIndex + 1))
        matchIndex := Function.update v.matchIndex dest
          (Function.update (v.matchIndex dest) msource mmatchIndex)
        messages := v.messages \
          {.appendEntriesResponse msource dest mterm msuccess mmatchIndex} }
    else
      { v with
        nextIndex := Function.update v.nextIndex dest
          (Function.update (v.nextIndex dest) msource (max (v.nextIndex dest msource - 1) 1))
        messages := v.messages \
          {.appendEntriesResponse msource dest mterm msuccess mmatchIndex} }

def AdvanceCommitIndex (s : Fin n) (v v' : Vars n) : Prop :=
  v.state s = .leader ∧
  ∃ idx, v.commitIndex s + 1 ≤ idx ∧ idx ≤ (v.log s).length ∧
    (v.log s)[idx - 1]?.map Entry.term = some (v.currentTerm s) ∧
    Quorum (insert s (Finset.univ.filter fun t => idx ≤ v.matchIndex s t)) ∧
    v' = { v with commitIndex := Function.update v.commitIndex s idx }

/-! ## `Next` -/

/-- What becomes of a message. -/
def Handle (chosen : Fin n) (v v' : Vars n) : Message n → Prop
  | .requestVoteRequest src T lt li => HandleRequestVoteRequest chosen src T lt li v v'
  | .requestVoteResponse src dest T granted => HandleRequestVoteResponse dest src T granted v v'
  | .appendEntriesRequest src dest T pi pt es ci =>
      HandleAppendEntriesRequest dest src T pi pt es ci v v'
  | .appendEntriesResponse src dest T success m =>
      HandleAppendEntriesResponse dest src T success m v v'

inductive Next (chosen : Fin n) (v v' : Vars n) : Prop where
  | timeout (s : Fin n) (h : Timeout s v v')
  | becomeLeader (s : Fin n) (h : BecomeLeader s v v')
  | clientRequest (s : Fin n) (value : Command) (h : ClientRequest s value v v')
  | sendAppendEntries (s dest : Fin n) (h : SendAppendEntries s dest v v')
  | advanceCommitIndex (s : Fin n) (h : AdvanceCommitIndex s v v')
  | handle (m : Message n) (hm : m ∈ v.messages) (h : Handle chosen v v' m)

/-- Finitely many steps of `Next`, none included. -/
abbrev Steps (chosen : Fin n) : Vars n → Vars n → Prop := Relation.ReflTransGen (Next chosen)

/-! ## What no step does

Servers other than `chosen` vote for themselves only, no vote is ever taken back, and no
answer is of a term that the asker has not reached. -/

variable {chosen : Fin n} {v v' : Vars n}

/-- What a step can do to the vote of `s`. -/
theorem next_votedFor (h : Next chosen v v') (s : Fin n) :
    v'.votedFor s = v.votedFor s ∨ v'.votedFor s = some s ∨
      (s = chosen ∧ v'.votedFor s ≠ none) := by
  cases h with
  | timeout t h =>
      obtain ⟨_, rfl⟩ := h
      by_cases hst : s = t
      · subst hst; exact Or.inr (Or.inl (Function.update_self ..))
      · exact Or.inl (Function.update_of_ne hst ..)
  | becomeLeader t h => obtain ⟨_, _, rfl⟩ := h; exact Or.inl rfl
  | clientRequest t c h => obtain ⟨_, rfl⟩ := h; exact Or.inl rfl
  | sendAppendEntries t q h => obtain ⟨_, _, _, _, rfl⟩ := h; exact Or.inl rfl
  | advanceCommitIndex t h => obtain ⟨_, _, _, _, _, _, rfl⟩ := h; exact Or.inl rfl
  | handle m hm h =>
      cases m with
      | requestVoteRequest src T lt li =>
          obtain ⟨_, rfl⟩ := h
          by_cases hs : s = chosen
          · subst hs
            by_cases hg : grant v s src T lt li
            · refine Or.inr (Or.inr ⟨rfl, ?_⟩)
              simp [hg]
            · left
              simp [hg]
          · exact Or.inl (Function.update_of_ne hs ..)
      | requestVoteResponse src dest T g => obtain ⟨_, _, rfl⟩ := h; exact Or.inl rfl
      | appendEntriesRequest src dest T pi pt es ci =>
          obtain ⟨_, rfl⟩ := h
          left
          split <;> rfl
      | appendEntriesResponse src dest T ok m =>
          obtain ⟨_, _, rfl⟩ := h
          left
          split <;> rfl

theorem steps_votedFor_other {s : Fin n} (h : Steps chosen v v') (hs : s ≠ chosen) :
    v'.votedFor s = v.votedFor s ∨ v'.votedFor s = some s := by
  induction h with
  | refl => exact Or.inl rfl
  | tail _ hnext ih =>
      rcases next_votedFor hnext s with heq | hself | ⟨hc, _⟩
      · rw [heq]; exact ih
      · exact Or.inr hself
      · exact absurd hc hs

theorem steps_votedFor_ne_none {s : Fin n} (h : Steps chosen v v') (hv : v.votedFor s ≠ none) :
    v'.votedFor s ≠ none := by
  induction h with
  | refl => exact hv
  | tail _ hnext ih =>
      rcases next_votedFor hnext s with heq | hself | ⟨_, hne⟩
      · rw [heq]; exact ih
      · rw [hself]; simp
      · exact hne

theorem le_update {f : Fin n → Nat} {t : Fin n} {x : Nat} (h : f t ≤ x) (s : Fin n) :
    f s ≤ Function.update f t x s := by
  by_cases hst : s = t
  · subst hst; rw [Function.update_self]; exact h
  · rw [Function.update_of_ne hst]

theorem next_currentTerm (h : Next chosen v v') (s : Fin n) :
    v.currentTerm s ≤ v'.currentTerm s := by
  cases h with
  | timeout t h => obtain ⟨_, rfl⟩ := h; exact le_update (Nat.le_succ _) s
  | becomeLeader t h => obtain ⟨_, _, rfl⟩ := h; exact le_rfl
  | clientRequest t c h => obtain ⟨_, rfl⟩ := h; exact le_rfl
  | sendAppendEntries t q h => obtain ⟨_, _, _, _, rfl⟩ := h; exact le_rfl
  | advanceCommitIndex t h => obtain ⟨_, _, _, _, _, _, rfl⟩ := h; exact le_rfl
  | handle m hm h =>
      cases m with
      | requestVoteRequest src T lt li => obtain ⟨hT, rfl⟩ := h; exact le_update hT s
      | requestVoteResponse src dest T g => obtain ⟨_, _, rfl⟩ := h; exact le_rfl
      | appendEntriesRequest src dest T pi pt es ci =>
          obtain ⟨hT, rfl⟩ := h
          split
          · exact le_update hT s
          · exact le_update hT s
      | appendEntriesResponse src dest T ok m =>
          obtain ⟨_, _, rfl⟩ := h
          split <;> exact le_rfl

/-- Who asks in a term has reached it, and so has who gets an answer of that term. -/
structure AskedTerms (v : Vars n) : Prop where
  asks : ∀ {src T lt li}, Message.requestVoteRequest src T lt li ∈ v.messages →
    T ≤ v.currentTerm src
  answers : ∀ {src dest T g}, Message.requestVoteResponse src dest T g ∈ v.messages →
    T ≤ v.currentTerm dest

/-- Messages that are neither requests nor answers do not matter. -/
theorem AskedTerms.mono (h : AskedTerms v) (hterm : ∀ s, v.currentTerm s ≤ v'.currentTerm s)
    (hask : ∀ {src T lt li}, Message.requestVoteRequest src T lt li ∈ v'.messages →
      T ≤ v'.currentTerm src ∨ Message.requestVoteRequest src T lt li ∈ v.messages)
    (hanswer : ∀ {src dest T g}, Message.requestVoteResponse src dest T g ∈ v'.messages →
      T ≤ v'.currentTerm dest ∨ Message.requestVoteResponse src dest T g ∈ v.messages) :
    AskedTerms v' where
  asks := fun hm => (hask hm).elim (fun hle => hle) fun hold => (h.asks hold).trans (hterm _)
  answers := fun hm =>
    (hanswer hm).elim (fun hle => hle) fun hold => (h.answers hold).trans (hterm _)

theorem askedTerms_next (h : AskedTerms v) (hnext : Next chosen v v') : AskedTerms v' := by
  have hterm := next_currentTerm hnext
  cases hnext with
  | timeout t hstep =>
      obtain ⟨_, rfl⟩ := hstep
      refine h.mono hterm (fun hm => ?_) (fun hm => ?_)
      · rcases hm with heq | hold
        · obtain ⟨rfl, rfl, _⟩ := Message.requestVoteRequest.inj heq
          refine Or.inl ?_
          show _ ≤ Function.update v.currentTerm _ _ _
          rw [Function.update_self]
        · exact Or.inr hold
      · exact Or.inr (hm.resolve_left (by simp))
  | becomeLeader t hstep => obtain ⟨_, _, rfl⟩ := hstep; exact ⟨h.asks, h.answers⟩
  | clientRequest t c hstep => obtain ⟨_, rfl⟩ := hstep; exact ⟨h.asks, h.answers⟩
  | sendAppendEntries t q hstep =>
      obtain ⟨_, _, _, _, rfl⟩ := hstep
      exact h.mono hterm (fun hm => Or.inr (hm.resolve_left (by simp)))
        fun hm => Or.inr (hm.resolve_left (by simp))
  | advanceCommitIndex t hstep =>
      obtain ⟨_, _, _, _, _, _, rfl⟩ := hstep
      exact ⟨h.asks, h.answers⟩
  | handle m hm hstep =>
      cases m with
      | requestVoteRequest src T lt li =>
          obtain ⟨_, rfl⟩ := hstep
          refine h.mono hterm (fun hm' => Or.inr (hm'.resolve_left (by simp)).1) (fun hm' => ?_)
          rcases hm' with heq | hold
          · -- the answer goes to who asked, in the term of the request
            obtain ⟨_, rfl, rfl, _⟩ := Message.requestVoteResponse.inj heq
            exact Or.inl ((h.asks hm).trans (hterm _))
          · exact Or.inr hold.1
      | requestVoteResponse src dest T g =>
          obtain ⟨_, _, rfl⟩ := hstep
          exact h.mono hterm (fun hm' => Or.inr hm'.1) fun hm' => Or.inr hm'.1
      | appendEntriesRequest src dest T pi pt es ci =>
          obtain ⟨_, rfl⟩ := hstep
          refine h.mono hterm (fun hm' => Or.inr ?_) (fun hm' => Or.inr ?_)
          all_goals
            split at hm'
            · exact (hm'.resolve_left (by simp)).1
            · exact (hm'.resolve_left (by simp)).1
      | appendEntriesResponse src dest T ok m =>
          obtain ⟨_, _, rfl⟩ := hstep
          refine h.mono hterm (fun hm' => Or.inr ?_) (fun hm' => Or.inr ?_)
          all_goals
            split at hm'
            · exact hm'.1
            · exact hm'.1

theorem askedTerms_steps (h : Steps chosen (Init n) v) : AskedTerms v := by
  induction h with
  | refl => exact ⟨fun hm => absurd hm (by simp [Init]), fun hm => absurd hm (by simp [Init])⟩
  | tail _ hnext ih => exact askedTerms_next ih hnext

end CrossMachine.Raft.Tla
