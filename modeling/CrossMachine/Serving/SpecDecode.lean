import Mathlib.Data.List.GetD
import Mathlib.Algebra.Order.Group.Nat
import Mathlib.Tactic.Common

/-!
# Speculative decoding and plain greedy decoding

A round asks a cheap draft model for `draftLen` tokens one after another, runs the verifier
once over the context with these tokens behind it, keeps the tokens the verifier would have
chosen itself, and adds one token of the verifier's own: its correction where the draft went
wrong, or its next token where all of them were right.

The verifier's single pass predicts every position at once, so a prediction is made with
tokens behind it that plain decoding would not have had. What makes the result the same is
that the verifier is causal: its prediction at a position depends only on the tokens up to
there. Nothing is assumed of the draft, and nothing of the order on the logits, so the
argument covers whatever a comparison of floats does.
-/

namespace CrossMachine.Serving

/-- What `model_forward` returns: the logit of each row and token. Rows are `int`, since a
round over an empty context reads row `-1`. -/
abbrev Logits (L : Type*) := Int → Nat → L

/-- A model as decoding uses it: its vocabulary, the number of positions it has embeddings
for, and its forward pass. -/
structure Model (L : Type*) where
  vocabSize : Nat
  maxSeqLen : Nat
  forward : List Nat → Logits L

section

variable {L : Type*} [LT L] [DecidableLT L]

/-- `argmax_at`: the first token whose logit no later one exceeds. -/
def argmaxAt (logits : Logits L) (row : Int) (vocabSize : Nat) : Nat :=
  ((List.range' 1 (vocabSize - 1)).foldl
    (fun (best : Nat × L) v => if logits row v > best.2 then (v, logits row v) else best)
    (0, logits row 0)).1

/-- The token a model puts at the end: the argmax of its last row. -/
def nextToken (m : Model L) (tokens : List Nat) : Nat :=
  argmaxAt (m.forward tokens) (tokens.length - 1) m.vocabSize

/-- The loop of `make_cpu_backend`: greedy decoding of `maxNewTokens` tokens. -/
def cpuBackend (m : Model L) (generated : List Nat) : Nat → List Nat
  | 0 => generated
  | n + 1 => cpuBackend m (generated ++ [nextToken m generated]) n

/-- A `SpecDecoder`: the two models, the draft length and the counters. -/
structure SpecDecoder (L : Type*) where
  draft : Model L
  verifier : Model L
  draftLen : Nat
  totalProposed : Nat
  totalAccepted : Nat
  numVerifierCalls : Nat
  numDraftCalls : Nat

/-- The constructor: the counters start at zero. -/
def SpecDecoder.new (draft verifier : Model L) (draftLen : Nat) : SpecDecoder L :=
  ⟨draft, verifier, draftLen, 0, 0, 0, 0⟩

/-- The loop of `propose`: each token is fed back to the draft. -/
def proposeLoop (draft : Model L) (context proposed : List Nat) : Nat → List Nat
  | 0 => proposed
  | n + 1 =>
      let token := nextToken draft context
      proposeLoop draft (context ++ [token]) (proposed ++ [token]) n

/-- `propose`. -/
def propose (d : SpecDecoder L) (promptIds : List Nat) : SpecDecoder L × List Nat :=
  ({ d with numDraftCalls := d.numDraftCalls + d.draftLen },
    proposeLoop d.draft promptIds [] d.draftLen)

/-- The loop of `verify_full` from position `i` on: the count of accepted tokens and the
bonus token as the loop leaves them. -/
def verifyLoop (logits : Logits L) (vocabSize contextLen : Nat) (i accepted bonus : Nat) :
    List Nat → Nat × Nat
  | [] => (accepted, bonus)
  | token :: rest =>
      let verifierArgmax := argmaxAt logits ((contextLen + i : Nat) - 1 : Int) vocabSize
      if verifierArgmax = token then
        verifyLoop logits vocabSize contextLen (i + 1) (accepted + 1) bonus rest
      else
        (accepted, verifierArgmax)

/-- `verify_full`: the accepted count and the bonus token of one verifier pass. -/
def verifyFull (d : SpecDecoder L) (promptIds proposedTokens : List Nat) :
    SpecDecoder L × Nat × Nat :=
  let logits := d.verifier.forward (promptIds ++ proposedTokens)
  let contextLen := promptIds.length
  let (accepted, correction) :=
    verifyLoop logits d.verifier.vocabSize contextLen 0 0 0 proposedTokens
  -- every proposed token matched: the prediction one past the last of them
  let bonusToken :=
    if accepted = proposedTokens.length then
      argmaxAt logits ((contextLen + accepted : Nat) - 1 : Int) d.verifier.vocabSize
    else correction
  ({ d with
      numVerifierCalls := d.numVerifierCalls + 1
      totalProposed := d.totalProposed + proposedTokens.length
      totalAccepted := d.totalAccepted + accepted },
    accepted, bonusToken)

/-- `generate_round`: the tokens appended, and the context behind them. -/
def generateRound (d : SpecDecoder L) (context : List Nat) :
    SpecDecoder L × List Nat × List Nat :=
  let (d, proposed) := propose d context
  let (d, acceptedCount, bonusToken) := verifyFull d context proposed
  let acceptedTokens := proposed.take acceptedCount ++ [bonusToken]
  (d, acceptedTokens, context ++ acceptedTokens)

/-- `n` rounds on one decoder: the decoder and the context they leave. -/
def generateRounds (d : SpecDecoder L) (context : List Nat) : Nat → SpecDecoder L × List Nat
  | 0 => (d, context)
  | n + 1 =>
      let (d, context) := generateRounds d context n
      let (d, _, context) := generateRound d context
      (d, context)

/-- A verifier whose prediction at a position depends only on the tokens up to it, as long
as the sequence fits the model. -/
def Causal (m : Model L) : Prop :=
  ∀ tokens later : List Nat, tokens ≠ [] → (tokens ++ later).length ≤ m.maxSeqLen →
    argmaxAt (m.forward (tokens ++ later)) (tokens.length - 1) m.vocabSize = nextToken m tokens

variable {d : SpecDecoder L} {m : Model L} {context : List Nat}

/-! ## Greedy decoding -/

theorem cpuBackend_add (a b : Nat) :
    cpuBackend m context (a + b) = cpuBackend m (cpuBackend m context a) b := by
  induction a generalizing context with
  | zero => rw [Nat.zero_add, cpuBackend]
  | succ a ih => rw [Nat.succ_add, cpuBackend, cpuBackend, ih]

theorem cpuBackend_succ (n : Nat) :
    cpuBackend m context (n + 1) =
      cpuBackend m context n ++ [nextToken m (cpuBackend m context n)] := by
  rw [cpuBackend_add, cpuBackend, cpuBackend]

theorem length_cpuBackend (n : Nat) :
    (cpuBackend m context n).length = context.length + n := by
  induction n with
  | zero => rfl
  | succ n ih => rw [cpuBackend_succ, List.length_append, ih]; rfl

theorem cpuBackend_ne_nil (hne : context ≠ []) (n : Nat) : cpuBackend m context n ≠ [] := by
  have hpos := List.length_pos_iff.mpr hne
  refine List.ne_nil_of_length_pos ?_
  rw [length_cpuBackend]
  omega

/-! ## One round -/

theorem length_proposeLoop (proposed : List Nat) (n : Nat) :
    (proposeLoop m context proposed n).length = proposed.length + n := by
  induction n generalizing context proposed with
  | zero => rfl
  | succ n ih =>
      rw [proposeLoop, ih, List.length_append, List.length_singleton]
      omega

/-- The verifier's prediction inside the pass over the whole sequence is the token it would
put behind the front of it. -/
theorem Causal.predicts (hcausal : Causal m) {front later : List Nat} {n : Nat}
    (hne : context ≠ []) (hn : n = front.length)
    (hfit : (context ++ (front ++ later)).length ≤ m.maxSeqLen) :
    argmaxAt (m.forward (context ++ (front ++ later))) ((context.length + n : Nat) - 1 : Int)
      m.vocabSize = nextToken m (context ++ front) := by
  subst hn
  have h := hcausal (context ++ front) later (by simp [hne]) (by simpa using hfit)
  rwa [List.append_assoc, List.length_append] at h

/-- What the loop of `verify_full` does on the tokens still to check, when those in front of
them are what greedy decoding gives: it accepts a greedy prefix of them, and stops early only
with the next greedy token in hand. -/
theorem Causal.verifyLoop (hcausal : Causal m) (hne : context ≠ [])
    (front rest : List Nat) (bonus : Nat)
    (hfit : (context ++ (front ++ rest)).length ≤ m.maxSeqLen)
    (hfront : context ++ front = cpuBackend m context front.length) :
    ∃ taken left, rest = taken ++ left ∧
      context ++ (front ++ taken) = cpuBackend m context (front ++ taken).length ∧
      Serving.verifyLoop (m.forward (context ++ (front ++ rest))) m.vocabSize context.length
        front.length front.length bonus rest =
          ((front ++ taken).length,
            if left = [] then bonus else nextToken m (context ++ (front ++ taken))) := by
  induction rest generalizing front with
  | nil => exact ⟨[], [], rfl, by simpa using hfront, by simp [Serving.verifyLoop]⟩
  | cons token rest ih =>
      rw [Serving.verifyLoop, hcausal.predicts hne rfl hfit]
      split
      case isTrue haccept =>
          -- the token is the greedy one, so the front grows by it
          have hgrown : context ++ (front ++ [token]) =
              cpuBackend m context (front ++ [token]).length := by
            rw [List.length_append, List.length_singleton, cpuBackend_succ, ← hfront, haccept,
              List.append_assoc]
          have hsplit : front ++ token :: rest = (front ++ [token]) ++ rest := by simp
          rw [hsplit] at hfit ⊢
          obtain ⟨taken, left, rfl, hgreedy, hloop⟩ := ih (front ++ [token]) hfit hgrown
          refine ⟨token :: taken, left, rfl, ?_, ?_⟩
          · simpa using hgreedy
          · simpa using hloop
      case isFalse hreject =>
          exact ⟨[], token :: rest, rfl, by simpa using hfront, by simp⟩

/-- `verify_full` accepts a greedy prefix of the proposed tokens, and the bonus token is the
next greedy one, whether or not all of them were accepted. -/
theorem verifyFull_spec (hcausal : Causal d.verifier) (hne : context ≠ []) (proposed : List Nat)
    (hfit : (context ++ proposed).length ≤ d.verifier.maxSeqLen) :
    ∃ taken left, proposed = taken ++ left ∧
      context ++ taken = cpuBackend d.verifier context taken.length ∧
      (verifyFull d context proposed).2 =
        (taken.length, nextToken d.verifier (context ++ taken)) := by
  obtain ⟨taken, left, rfl, hgreedy, hloop⟩ :=
    hcausal.verifyLoop hne [] proposed 0 (by simpa using hfit) (by simp [cpuBackend])
  simp only [List.nil_append, List.length_nil] at hgreedy hloop
  refine ⟨taken, left, rfl, hgreedy, ?_⟩
  simp only [verifyFull, hloop]
  cases left with
  | nil => rw [if_pos (by simp), hcausal.predicts hne rfl hfit]
  | cons token left => rw [if_neg (by simp), if_neg (by simp)]

theorem generateRound_appended :
    (generateRound d context).2.1 =
      (propose d context).2.take (verifyFull (propose d context).1 context
        (propose d context).2).2.1 ++
      [(verifyFull (propose d context).1 context (propose d context).2).2.2] := rfl

/-- One round appends between one and `draftLen + 1` tokens, and these are the verifier's own. -/
theorem generateRound_spec (hcausal : Causal d.verifier) (hne : context ≠ [])
    (hfit : context.length + d.draftLen ≤ d.verifier.maxSeqLen) :
    (generateRound d context).1.verifier = d.verifier ∧
      (generateRound d context).1.draftLen = d.draftLen ∧
      (generateRound d context).2.2 = context ++ (generateRound d context).2.1 ∧
      1 ≤ (generateRound d context).2.1.length ∧
      (generateRound d context).2.1.length ≤ d.draftLen + 1 ∧
      (generateRound d context).2.2 =
        cpuBackend d.verifier context (generateRound d context).2.1.length := by
  have hlen : (propose d context).2.length = d.draftLen := by
    rw [propose, length_proposeLoop, List.length_nil, Nat.zero_add]
  have hfit' : (context ++ (propose d context).2).length ≤ d.verifier.maxSeqLen := by
    rwa [List.length_append, hlen]
  obtain ⟨taken, left, hsplit, hgreedy, hverify⟩ :=
    verifyFull_spec (d := (propose d context).1) hcausal hne _ hfit'
  have hround : (generateRound d context).2.1 =
      taken ++ [nextToken d.verifier (context ++ taken)] := by
    rw [generateRound_appended, hverify, hsplit, List.take_left]
    rfl
  have htaken : taken.length ≤ d.draftLen := by
    rw [← hlen, hsplit, List.length_append]
    exact Nat.le_add_right _ _
  refine ⟨rfl, rfl, rfl, ?_, ?_, ?_⟩
  · simp [hround]
  · simpa [hround] using htaken
  · show context ++ (generateRound d context).2.1 = _
    rw [hround, List.length_append, List.length_singleton, cpuBackend_succ, ← List.append_assoc]
    exact congrArg (fun front => front ++ [nextToken d.verifier front]) hgreedy

/-! ## Any number of rounds -/

/-- Rounds keep the verifier and the draft length, and extend the prompt by greedy decoding. -/
theorem generateRounds_greedy (hcausal : Causal d.verifier) (hne : context ≠ []) (n : Nat)
    (hfit : ∀ k < n, (generateRounds d context k).2.length + d.draftLen ≤ d.verifier.maxSeqLen) :
    (generateRounds d context n).1.verifier = d.verifier ∧
      (generateRounds d context n).1.draftLen = d.draftLen ∧
      ∃ count, (generateRounds d context n).2 = cpuBackend d.verifier context count := by
  induction n with
  | zero => exact ⟨rfl, rfl, 0, rfl⟩
  | succ n ih =>
      obtain ⟨hverifier, hdraftLen, count, hgreedy⟩ :=
        ih fun k hk => hfit k (Nat.lt_succ_of_lt hk)
      have hfit' := hfit n (Nat.lt_succ_self n)
      have hne' : (generateRounds d context n).2 ≠ [] := hgreedy ▸ cpuBackend_ne_nil hne count
      rw [← hverifier] at hcausal
      rw [← hverifier, ← hdraftLen] at hfit'
      obtain ⟨h₁, h₂, -, -, -, h₃⟩ := generateRound_spec hcausal hne' hfit'
      refine ⟨h₁.trans hverifier, h₂.trans hdraftLen,
        count + (generateRound (generateRounds d context n).1
          (generateRounds d context n).2).2.1.length, h₃.trans ?_⟩
      rw [cpuBackend_add, ← hgreedy, hverifier]

/-- Speculative decoding is lossless: after any number of rounds the context is what the
verifier's own greedy decoding of that many tokens gives, and each round appended between
one and `draftLen + 1` tokens. -/
theorem generateRounds_lossless (draft verifier : Model L) (draftLen : Nat) (prompt : List Nat)
    (hcausal : Causal verifier) (hne : prompt ≠ []) (n : Nat)
    (hfit : ∀ k < n, (generateRounds (.new draft verifier draftLen) prompt k).2.length +
      draftLen ≤ verifier.maxSeqLen) :
    let after := fun k => generateRounds (.new draft verifier draftLen) prompt k
    (after n).2 = cpuBackend verifier prompt ((after n).2.length - prompt.length) ∧
      ∀ k < n, ∃ appended, (generateRound (after k).1 (after k).2).2.1 = appended ∧
        (after (k + 1)).2 = (after k).2 ++ appended ∧
        1 ≤ appended.length ∧ appended.length ≤ draftLen + 1 := by
  intro after
  have hgreedy := fun k (hk : k ≤ n) => generateRounds_greedy (d := .new draft verifier draftLen)
    hcausal hne k fun j hj => hfit j (Nat.lt_of_lt_of_le hj hk)
  refine ⟨?_, fun k hk => ?_⟩
  · obtain ⟨-, -, count, h⟩ := hgreedy n (Nat.le_refl n)
    have hlen : (after n).2.length - prompt.length = count := by
      show (generateRounds _ prompt n).2.length - _ = count
      rw [h, length_cpuBackend]
      omega
    rw [hlen]
    exact h
  · obtain ⟨hverifier, hdraftLen, count, h⟩ := hgreedy k (Nat.le_of_lt hk)
    have hne' : (after k).2 ≠ [] := h.symm ▸ cpuBackend_ne_nil hne count
    have hfit' : (after k).2.length + (after k).1.draftLen ≤ (after k).1.verifier.maxSeqLen := by
      rw [hverifier, hdraftLen]
      exact hfit k hk
    obtain ⟨-, -, h₁, h₂, h₃, -⟩ :=
      generateRound_spec (hverifier.symm ▸ hcausal : Causal (after k).1.verifier) hne' hfit'
    exact ⟨_, rfl, h₁, h₂, h₃.trans (Nat.le_of_eq (congrArg (· + 1) hdraftLen))⟩

/-- A verifier that counts modulo three from the token before. -/
def countingVerifier : Model Nat where
  vocabSize := 3
  maxSeqLen := 8
  forward tokens row v := if v = (tokens.getD row.toNat 0 + 1) % 3 then 1 else 0

/-- A draft that proposes token 1 whatever comes before. -/
def constantDraft : Model Nat where
  vocabSize := 3
  maxSeqLen := 8
  forward _ _ v := if v = 1 then 1 else 0

theorem countingVerifier_causal : Causal countingVerifier := by
  intro tokens later hne _
  have hrow : ((tokens.length : Int) - 1).toNat < tokens.length := by
    have := List.length_pos_iff.mpr hne
    omega
  simp only [nextToken, argmaxAt, countingVerifier, List.getD_append _ _ _ _ hrow]
  rfl

/-- Two rounds: one proposed token is accepted in the first and none in the second, and the
context is what counting gives. -/
theorem generateRounds_lossless_counting :
    let after := generateRounds (.new constantDraft countingVerifier 2) [0] 2
    after.2 = [0, 1, 2, 0] ∧ after.2 = cpuBackend countingVerifier [0] (after.2.length - 1) := by
  refine ⟨by decide, ?_⟩
  exact (generateRounds_lossless constantDraft countingVerifier 2 [0] countingVerifier_causal
    (by decide) 2 (by decide)).1

end

end CrossMachine.Serving
