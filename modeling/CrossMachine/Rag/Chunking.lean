import CrossMachine.Lib.CInt
import CrossMachine.Lib.Intercalate
import Mathlib.Algebra.Order.Ring.Int
import Mathlib.Data.Int.Basic
import Mathlib.Data.List.Chain
import Mathlib.Data.List.DropRight
import Mathlib.Order.Basic

/-!
# Sentences and chunks

`split_sentences` and `chunk_text` of `chunking.h`. A sentence ends with a boundary, which is one
of `.`, `!` and `?` before a space or at the end of the text; the spaces before a sentence are
dropped. The sentences are packed into chunks. A chunk that a sentence would make too long is
closed, and the next one starts with the last characters of it.

Strings are lists of bytes. Lengths are compared as `int`s, so they wrap.

No sentence is lost: the chunks cover groups of sentences, in the order of the text
(`chunkText_covers`).
-/

namespace CrossMachine.Rag

open Lib

abbrev Str := List UInt8

def SPACE : UInt8 := 32

/-- `.`, `!` or `?`. -/
def isBoundary (c : UInt8) : Prop := c = 46 ∨ c = 33 ∨ c = 63

instance (c : UInt8) : Decidable (isBoundary c) := inferInstanceAs (Decidable (_ ∨ _ ∨ _))

/-- `substr` from the first character that is no space. -/
def trim (s : Str) : Str := s.dropWhile (· = SPACE)

/-- Put a sentence in front of those that follow it, if it has more than spaces. -/
def pushSentence (current : Str) (sentences : List Str) : List Str :=
  if trim current ≠ [] then trim current :: sentences else sentences

/-- The loop of `split_sentences`: what is left of the text, and the characters of `current`. -/
def splitLoop : Str → Str → List Str
  | [], current => if current ≠ [] then pushSentence current [] else []
  | [c], current =>
      if isBoundary c then pushSentence (current ++ [c]) (splitLoop [] [])
      else splitLoop [] (current ++ [c])
  | c :: d :: rest, current =>
      -- the space after a boundary is skipped
      if isBoundary c ∧ d = SPACE then pushSentence (current ++ [c]) (splitLoop rest [])
      else splitLoop (d :: rest) (current ++ [c])

def splitSentences (text : Str) : List Str := splitLoop text []

/-- `static_cast<int>` of a size. -/
def toInt (size : Nat) : Int := int32 size

/-- What `chunk_text` works on. -/
structure Chunker where
  chunks : List Str
  current : Str

section Chunks

variable (maxChunkChars overlapChars : Int)

/-- The chunk has something in it and would be too long with the sentence. -/
def Spills (current s : Str) : Prop :=
  current ≠ [] ∧ toInt (current.length + 1 + s.length) > maxChunkChars

instance (current s : Str) : Decidable (Spills maxChunkChars current s) :=
  inferInstanceAs (Decidable (_ ∧ _))

/-- What the next chunk starts with. -/
def carry (current : Str) : Str :=
  if overlapChars > 0 ∧ toInt current.length > overlapChars then
    current.drop (current.length - overlapChars.toNat)
  else []

/-- A sentence behind what is in the chunk. -/
def glue (current s : Str) : Str := (if current ≠ [] then current ++ [SPACE] else current) ++ s

/-- One turn of the loop of `chunk_text`. -/
def addSentence (c : Chunker) (s : Str) : Chunker :=
  let c :=
    if Spills maxChunkChars c.current s then
      ⟨c.chunks ++ [c.current], carry overlapChars c.current⟩
    else c
  ⟨c.chunks, glue c.current s⟩

def finish (c : Chunker) : List Str :=
  if c.current ≠ [] then c.chunks ++ [c.current] else c.chunks

def chunkText (text : Str) : List Str :=
  finish ((splitSentences text).foldl (addSentence maxChunkChars overlapChars) ⟨[], []⟩)

end Chunks

/-! ## Sentences -/

variable {s t current rest : Str} {sentences : List Str} {c d : UInt8}

theorem trim_concat (hc : c ≠ SPACE) : trim (s ++ [c]) = trim s ++ [c] := by
  induction s with
  | nil => simp [trim, hc]
  | cons x s ih =>
      by_cases hx : x = SPACE
      · simpa [trim, hx] using ih
      · simp [trim, hx]

theorem filter_trim : (trim s).filter (· ≠ SPACE) = s.filter (· ≠ SPACE) := by
  induction s with
  | nil => rfl
  | cons x s ih =>
      by_cases hx : x = SPACE
      · simpa [trim, hx] using ih
      · simp [trim, hx]

theorem length_trim_le : (trim s).length ≤ s.length := (List.dropWhile_suffix _).length_le

theorem isBoundary.ne_space (h : isBoundary c) : c ≠ SPACE := by
  rintro rfl
  exact absurd h (by decide)

/-- There is no boundary inside. -/
def Whole (s : Str) : Prop := s.IsChain fun c d => ¬ (isBoundary c ∧ d = SPACE)

/-- The last character is the boundary. -/
def Ended (s : Str) : Prop := ∃ a c, isBoundary c ∧ s = a ++ [c]

theorem Whole.concat (h : Whole (s ++ [c])) (hcd : ¬ (isBoundary c ∧ d = SPACE)) :
    Whole (s ++ [c] ++ [d]) := by
  refine List.isChain_append.mpr ⟨h, List.isChain_singleton _, fun x hx y hy => ?_⟩
  obtain rfl : c = x := by simpa using hx
  obtain rfl : d = y := by simpa using hy
  exact hcd

theorem Whole.trim (h : Whole s) : Whole (trim s) := h.suffix (List.dropWhile_suffix _)

theorem whole_take_one (s : Str) : Whole (s.take 1) := by
  rcases s with - | ⟨c, s⟩
  · exact List.isChain_nil
  · exact List.isChain_singleton c

/-- The sentences of a text. -/
structure Split (text : Str) (sentences : List Str) : Prop where
  nonspace : sentences.flatten.filter (· ≠ SPACE) = text.filter (· ≠ SPACE)
  ne_nil : ∀ s ∈ sentences, s ≠ []
  whole : ∀ s ∈ sentences, Whole s
  /-- Only the last one may lack a boundary. -/
  ended : ∀ s ∈ sentences.dropLast, Ended s
  /-- With spaces between them, they are no longer than the text. -/
  length : (sentences.map List.length).sum + sentences.length ≤ text.length + 1

theorem Split.nil : Split [] [] where
  nonspace := rfl
  ne_nil _ hs := absurd hs List.not_mem_nil
  whole _ hs := absurd hs List.not_mem_nil
  ended _ hs := absurd hs List.not_mem_nil
  length := Nat.zero_le _

/-- The text ends without a boundary. -/
theorem Split.last (h : Whole s) : Split s (pushSentence s []) := by
  have hfilter := filter_trim (s := s)
  have hlen := length_trim_le (s := s)
  unfold pushSentence
  split
  · next hne =>
      refine ⟨?_, ?_, ?_, ?_, ?_⟩
      · rw [List.flatten_singleton, hfilter]
      · exact fun u hu => List.mem_singleton.mp hu ▸ hne
      · exact fun u hu => List.mem_singleton.mp hu ▸ h.trim
      · exact fun u hu => absurd hu List.not_mem_nil
      · rw [List.map_singleton, List.sum_singleton, List.length_singleton]
        omega
  · next hnil =>
      -- there are only spaces
      rw [not_not.mp hnil] at hfilter
      exact { Split.nil with nonspace := hfilter, length := Nat.zero_le _ }

/-- A sentence with its boundary, and a text after it. `n` spaces are skipped between them. -/
theorem Split.push {n : Nat} (hc : isBoundary c) (h : Whole (s ++ [c])) (hsplit : Split t sentences)
    (hn : n = 1 ∨ n = 0 ∧ sentences = []) :
    Split (s ++ c :: (List.replicate n SPACE ++ t)) (pushSentence (s ++ [c]) sentences) := by
  have htrim := trim_concat (s := s) hc.ne_space
  have hne : trim (s ++ [c]) ≠ [] := by
    rw [htrim]
    exact List.append_ne_nil_of_right_ne_nil _ (List.cons_ne_nil c [])
  have hlen := length_trim_le (s := s ++ [c])
  have hrest := hsplit.length
  rw [pushSentence, if_pos hne]
  refine ⟨?_, List.forall_mem_cons.mpr ⟨hne, hsplit.ne_nil⟩,
    List.forall_mem_cons.mpr ⟨h.trim, hsplit.whole⟩, fun u hu => ?_, ?_⟩
  · rw [List.flatten_cons, List.filter_append, filter_trim, hsplit.nonspace]
    simp [hc.ne_space]
  · rcases sentences with - | ⟨v, sentences⟩
    · exact absurd hu List.not_mem_nil
    · rw [List.dropLast_cons_cons] at hu
      rcases List.mem_cons.mp hu with rfl | hu
      · exact ⟨trim s, c, hc, htrim⟩
      · exact hsplit.ended u hu
  · rw [List.length_append, List.length_singleton] at hlen
    simp only [List.map_cons, List.sum_cons, List.length_cons, List.length_append,
      List.length_replicate]
    rcases hn with rfl | ⟨rfl, rfl⟩
    · omega
    · simp only [List.map_nil, List.sum_nil, List.length_nil]
      omega

theorem splitLoop_split (h : Whole (current ++ rest.take 1)) :
    Split (current ++ rest) (splitLoop rest current) := by
  fun_induction splitLoop rest current with
  | case1 current hne =>
      rw [List.append_nil]
      exact .last (by simpa using h)
  | case2 current hnil =>
      rw [not_not.mp hnil]
      exact .nil
  | case3 c current hc ih =>
      exact .push (n := 0) hc h .nil (.inr ⟨rfl, rfl⟩)
  | case4 c current hc ih =>
      simpa using ih (by simpa using h)
  | case5 c d rest current hcd ih =>
      obtain ⟨hc, rfl⟩ := hcd
      exact .push (n := 1) hc h (ih (whole_take_one rest)) (.inl rfl)
  | case6 c d rest current hcd ih =>
      have hwhole : Whole (current ++ [c] ++ [d]) := Whole.concat h hcd
      simpa using ih hwhole

theorem splitSentences_split (text : Str) : Split text (splitSentences text) :=
  @splitLoop_split [] text (whole_take_one text)

/-! ## Chunks -/

section Chunks

variable {maxChunkChars overlapChars : Int} {chunk : Str} {chunker : Chunker}
variable {group : List Str} {groups : List (List Str)}

/-- A turn of the loop either keeps the chunk or closes it. -/
theorem addSentence_cases (maxChunkChars overlapChars : Int) (chunker : Chunker) (s : Str) :
    (¬ Spills maxChunkChars chunker.current s ∧
      addSentence maxChunkChars overlapChars chunker s =
        ⟨chunker.chunks, glue chunker.current s⟩) ∨
    (Spills maxChunkChars chunker.current s ∧
      addSentence maxChunkChars overlapChars chunker s =
        ⟨chunker.chunks ++ [chunker.current], glue (carry overlapChars chunker.current) s⟩) := by
  by_cases h : Spills maxChunkChars chunker.current s
  · exact .inr ⟨h, by rw [addSentence, if_pos h]⟩
  · exact .inl ⟨h, by rw [addSentence, if_neg h]⟩

theorem glue_ne_nil (hs : s ≠ []) : glue current s ≠ [] :=
  List.append_ne_nil_of_right_ne_nil _ hs

@[simp]
theorem glue_nil : glue [] s = s := rfl

theorem glue_of_ne_nil (h : current ≠ []) : glue current s = current ++ SPACE :: s := by
  rw [glue, if_pos h, List.append_assoc, List.singleton_append]

/-- The chunk ends with the sentences of the group, with spaces between them. What is in front of
them comes from the chunk before. -/
structure Covers (group : List Str) (chunk : Str) : Prop where
  group_ne_nil : group ≠ []
  ne_nil : chunk ≠ []
  ends : [SPACE].intercalate group <:+ chunk

theorem Covers.singleton (hs : s ≠ []) : Covers [s] (glue current s) where
  group_ne_nil := List.cons_ne_nil s []
  ne_nil := glue_ne_nil hs
  ends := by
    rw [List.intercalate_singleton, glue]
    exact List.suffix_append _ s

theorem Covers.glue (h : Covers group current) : Covers (group ++ [s]) (glue current s) where
  group_ne_nil := List.append_ne_nil_of_left_ne_nil h.group_ne_nil _
  ne_nil := by
    rw [glue_of_ne_nil h.ne_nil]
    exact List.append_ne_nil_of_left_ne_nil h.ne_nil _
  ends := by
    obtain ⟨pre, hpre⟩ := h.ends
    rw [glue_of_ne_nil h.ne_nil, intercalate_concat h.group_ne_nil, List.singleton_append,
      ← hpre, List.append_assoc]
    exact List.suffix_append _ _

/-- The sentences so far, in groups: one for each chunk, and one for the chunk that is open. -/
structure Packed (sentences : List Str) (chunker : Chunker) (groups : List (List Str))
    (group : List Str) : Prop where
  flatten : groups.flatten ++ group = sentences
  chunks : List.Forall₂ Covers groups chunker.chunks
  current : group = [] ∧ chunker.current = [] ∨ Covers group chunker.current

theorem addSentence_packed (maxChunkChars overlapChars : Int) (hs : s ≠ [])
    (h : Packed sentences chunker groups group) :
    ∃ groups' group',
      Packed (sentences ++ [s]) (addSentence maxChunkChars overlapChars chunker s)
        groups' group' := by
  rcases addSentence_cases maxChunkChars overlapChars chunker s with ⟨-, heq⟩ | ⟨hspill, heq⟩
  · rw [heq]
    refine ⟨groups, group ++ [s], by rw [← List.append_assoc, h.flatten], h.chunks, .inr ?_⟩
    rcases h.current with ⟨rfl, -⟩ | hcovers
    · exact .singleton hs
    · exact hcovers.glue
  · -- the open chunk is not empty, so it has its group
    have hcovers := h.current.resolve_left fun hnil => hspill.1 hnil.2
    rw [heq]
    refine ⟨groups ++ [group], [s], ?_, ?_, .inr (.singleton hs)⟩
    · rw [List.flatten_append, List.flatten_singleton, h.flatten]
    · exact List.rel_append h.chunks (.cons hcovers .nil)

theorem addSentences_packed (maxChunkChars overlapChars : Int) {later : List Str}
    (hlater : ∀ s ∈ later, s ≠ []) (h : Packed sentences chunker groups group) :
    ∃ groups' group', Packed (sentences ++ later)
      (later.foldl (addSentence maxChunkChars overlapChars) chunker) groups' group' := by
  induction later generalizing sentences chunker groups group with
  | nil => exact ⟨groups, group, by rwa [List.append_nil]⟩
  | cons s later ih =>
      obtain ⟨hs, hlater⟩ := List.forall_mem_cons.mp hlater
      obtain ⟨groups₁, group₁, h₁⟩ := addSentence_packed maxChunkChars overlapChars hs h
      rw [List.append_cons]
      exact ih hlater h₁

/-- **Nothing is lost.** The sentences have all characters of the text but spaces, and the chunks
cover them one group after the other. -/
theorem chunkText_covers (maxChunkChars overlapChars : Int) (text : Str) :
    (splitSentences text).flatten.filter (· ≠ SPACE) = text.filter (· ≠ SPACE) ∧
    ∃ groups : List (List Str), groups.flatten = splitSentences text ∧
      List.Forall₂ (fun group chunk => Covers group chunk ∧ ∀ s ∈ group, s <:+: chunk) groups
        (chunkText maxChunkChars overlapChars text) := by
  have hsplit := splitSentences_split text
  refine ⟨hsplit.nonspace, ?_⟩
  have hempty : Packed [] ⟨[], []⟩ [] [] := ⟨rfl, .nil, .inl ⟨rfl, rfl⟩⟩
  obtain ⟨groups, group, hpacked⟩ :=
    addSentences_packed maxChunkChars overlapChars hsplit.ne_nil hempty
  have hinfix : ∀ group chunk, Covers group chunk →
      Covers group chunk ∧ ∀ s ∈ group, s <:+: chunk := fun group chunk h =>
    ⟨h, fun s hs => (infix_intercalate hs).trans h.ends.isInfix⟩
  have hflatten := hpacked.flatten
  rw [List.nil_append] at hflatten
  rw [chunkText, finish]
  rcases hpacked.current with ⟨rfl, hnil⟩ | hcovers
  · rw [if_neg (not_not.mpr hnil)]
    rw [List.append_nil] at hflatten
    exact ⟨groups, hflatten, hpacked.chunks.imp hinfix⟩
  · rw [if_pos hcovers.ne_nil]
    refine ⟨groups ++ [group], ?_, ?_⟩
    · rw [List.flatten_append, List.flatten_singleton, hflatten]
    · exact (List.rel_append hpacked.chunks (.cons hcovers .nil)).imp hinfix

end Chunks

end CrossMachine.Rag
