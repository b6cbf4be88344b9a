import CrossMachine.Rag.Chunking
import Mathlib.Data.Int.Order.Basic
import Mathlib.Data.List.Infix

/-!
# How long chunks get

A chunk has at most `max_chunk_chars` characters, unless it is a single sentence that is longer
than that, or a sentence behind characters that were carried over. Whether a sentence still fits is
only checked against the chunk before it is closed, not against what is carried into the next one.
But a chunk that is too long takes no other sentence, so there is never more than one.

The lengths are compared as `int`s, so this is about texts that an `int` can measure.
-/

namespace CrossMachine.Rag

open Lib

variable (maxChunkChars overlapChars : Int)

/-- What a chunk may be after another one. -/
def Follows (sentences : List Str) (prev chunk : Str) : Prop :=
  (chunk.length : Int) ≤ maxChunkChars ∨ chunk ∈ sentences ∨
    ∃ carried s, carried <:+ prev ∧ 0 < overlapChars ∧ (carried.length : Int) = overlapChars ∧
      s ∈ sentences ∧ chunk = carried ++ SPACE :: s

/-- The chunks so far are as they may be, and the open one is if there is anything in it. -/
structure Bounded (sentences : List Str) (c : Chunker) : Prop where
  chunks : ([] :: c.chunks).IsChain (Follows maxChunkChars overlapChars sentences)
  current : c.current = [] ∨ ∀ prev ∈ ([] :: c.chunks).getLast?,
    Follows maxChunkChars overlapChars sentences prev c.current

variable {maxChunkChars overlapChars} {s current : Str} {sentences later : List Str}
variable {chunker : Chunker}

theorem toInt_of_lt {n : Nat} (h : n < 2 ^ 31) : toInt n = n :=
  int32_of_nonneg (Int.natCast_nonneg n) (by exact_mod_cast h)

theorem carry_cases (overlapChars : Int) (h : current.length < 2 ^ 31) :
    carry overlapChars current = [] ∨ carry overlapChars current <:+ current ∧
      0 < overlapChars ∧ ((carry overlapChars current).length : Int) = overlapChars := by
  rw [carry, toInt_of_lt h]
  split
  · refine .inr ⟨List.drop_suffix _ _, by omega, ?_⟩
    rw [List.length_drop]
    omega
  · exact .inl rfl

theorem length_glue_le : (glue current s).length ≤ current.length + 1 + s.length := by
  rw [glue]
  split
  · simp only [List.length_append, List.length_singleton]
    omega
  · rw [List.length_append]
    omega

variable (maxChunkChars overlapChars s) in
theorem length_addSentence_le (h : chunker.current.length < 2 ^ 31) :
    (addSentence maxChunkChars overlapChars chunker s).current.length ≤
      chunker.current.length + 1 + s.length := by
  rcases addSentence_cases maxChunkChars overlapChars chunker s with ⟨-, heq⟩ | ⟨-, heq⟩
  · rw [heq]
    exact length_glue_le
  · rw [heq]
    refine length_glue_le.trans (Nat.add_le_add_right (Nat.add_le_add_right ?_ 1) _)
    rcases carry_cases overlapChars h with hnil | ⟨hsuffix, -⟩
    · rw [hnil]
      exact Nat.zero_le _
    · exact hsuffix.length_le

/-- What was open has been closed. -/
theorem Bounded.close (h : Bounded maxChunkChars overlapChars sentences chunker)
    (hne : chunker.current ≠ []) :
    ([] :: (chunker.chunks ++ [chunker.current])).IsChain
      (Follows maxChunkChars overlapChars sentences) := by
  rw [← List.cons_append]
  refine List.isChain_append.mpr ⟨h.chunks, List.isChain_singleton _, fun prev hprev x hx => ?_⟩
  obtain rfl : chunker.current = x := by simpa using hx
  exact h.current.resolve_left hne prev hprev

theorem Bounded.addSentence (h : Bounded maxChunkChars overlapChars sentences chunker)
    (hs : s ∈ sentences) (hshort : chunker.current.length + 1 + s.length < 2 ^ 31) :
    Bounded maxChunkChars overlapChars sentences
      (Rag.addSentence maxChunkChars overlapChars chunker s) := by
  rcases addSentence_cases maxChunkChars overlapChars chunker s with ⟨hroom, heq⟩ | ⟨hspill, heq⟩
  · rw [heq]
    refine ⟨h.chunks, .inr fun prev _ => ?_⟩
    by_cases hnil : chunker.current = []
    · rw [hnil, glue_nil]
      exact .inr (.inl hs)
    · -- it has been checked that there is room
      have hle := not_lt.mp fun hgt => hroom ⟨hnil, hgt⟩
      rw [toInt_of_lt hshort] at hle
      exact .inl ((Int.ofNat_le.mpr length_glue_le).trans hle)
  · rw [heq]
    refine ⟨h.close hspill.1, .inr fun prev hprev => ?_⟩
    rw [← List.cons_append, List.getLast?_append_of_ne_nil _ (List.cons_ne_nil _ _)] at hprev
    obtain rfl : chunker.current = prev := by simpa using hprev
    by_cases hnil : carry overlapChars chunker.current = []
    · rw [hnil, glue_nil]
      exact .inr (.inl hs)
    · obtain ⟨hsuffix, hpos, hlen⟩ := (carry_cases overlapChars (by omega)).resolve_left hnil
      exact .inr (.inr ⟨_, s, hsuffix, hpos, hlen, hs, glue_of_ne_nil hnil⟩)

/-- The loop over the sentences. -/
theorem Bounded.foldl (h : Bounded maxChunkChars overlapChars sentences chunker)
    (hlater : ∀ s ∈ later, s ∈ sentences)
    (hshort : chunker.current.length + (later.map List.length).sum + later.length < 2 ^ 31) :
    Bounded maxChunkChars overlapChars sentences
      (later.foldl (Rag.addSentence maxChunkChars overlapChars) chunker) := by
  induction later generalizing chunker with
  | nil => exact h
  | cons s later ih =>
      obtain ⟨hs, hlater⟩ := List.forall_mem_cons.mp hlater
      rw [List.map_cons, List.sum_cons, List.length_cons] at hshort
      refine ih (h.addSentence hs (by omega)) hlater ?_
      have hle := length_addSentence_le maxChunkChars overlapChars s
        (by omega : chunker.current.length < 2 ^ 31)
      omega

/-- **The bound.** A chunk has at most `max_chunk_chars` characters, or it is a sentence, or a
sentence behind `overlap_chars` characters of the chunk before. -/
theorem chunkText_bounded (maxChunkChars overlapChars : Int) {text : Str}
    (hlen : text.length + 1 < 2 ^ 31) :
    ([] :: chunkText maxChunkChars overlapChars text).IsChain fun prev chunk =>
      (chunk.length : Int) ≤ maxChunkChars ∨ chunk ∈ splitSentences text ∨
        ∃ carried s, carried <:+ prev ∧ 0 < overlapChars ∧
          (carried.length : Int) = overlapChars ∧ s ∈ splitSentences text ∧
          chunk = carried ++ SPACE :: s := by
  have hsum := (splitSentences_split text).length
  have hbounded : Bounded maxChunkChars overlapChars (splitSentences text)
      ((splitSentences text).foldl (Rag.addSentence maxChunkChars overlapChars) ⟨[], []⟩) :=
    Bounded.foldl ⟨List.isChain_singleton _, .inl rfl⟩ (fun _ hs => hs)
      (by rw [List.length_nil]; omega)
  rw [chunkText, finish]
  split
  · next hne => exact hbounded.close hne
  · exact hbounded.chunks

/-- The second chunk starts with the last characters of the first one. -/
theorem chunkText_bounded_carried :
    ([] :: chunkText 10 4 "aaaaaa. bbbbbbb.".toUTF8.toList).IsChain fun prev chunk =>
      (chunk.length : Int) ≤ 10 ∨ chunk ∈ splitSentences "aaaaaa. bbbbbbb.".toUTF8.toList ∨
        ∃ carried s, carried <:+ prev ∧ 0 < (4 : Int) ∧ (carried.length : Int) = 4 ∧
          s ∈ splitSentences "aaaaaa. bbbbbbb.".toUTF8.toList ∧ chunk = carried ++ SPACE :: s :=
  chunkText_bounded 10 4 (by decide +kernel)

/-- The second sentence has 8 characters and gets `aaa. ` in front of it. -/
theorem carried_too_long :
    ¬ ∀ chunk ∈ chunkText 10 4 "aaaaaa. bbbbbbb.".toUTF8.toList,
      (chunk.length : Int) ≤ 10 ∨ chunk ∈ splitSentences "aaaaaa. bbbbbbb.".toUTF8.toList := by
  decide +kernel

end CrossMachine.Rag
