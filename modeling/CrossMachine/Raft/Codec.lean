import CrossMachine.Lib.Instances
import CrossMachine.Raft.Safety
import CrossMachine.Raft.Wire

/-!
# What the receiver makes of a frame

`Encodes` is the wire format, as a relation between a message and bytes that stand for it. The
receiver reads exactly this format (`parses_decode`): it comes to the end of a message without
reading behind the end of the frame just if the frame begins with a message of the format
(`decodeFrame_inside_iff`). Nothing it checks makes sure of that.

What a node writes is of the format, so it arrives as it was sent. But the length of a payload has
32 bits in front of it, and nothing keeps a payload from being longer: a few entries with large
commands are enough. Then the receiver takes a part of the payload for the frame
(`wire_codec`).
-/

namespace CrossMachine.Raft.Wire

open Lib
open Reader (Parses)

variable {n : Nat} {s s' : List UInt8}

/-! ## The format -/

/-- The entries of a frame as the handler is given them, the first one as the `i`th. -/
def indexed (prevLogIndex : Nat) : Nat → List (Nat × Command) → List LogEntry
  | _, [] => []
  | i, e :: entries =>
      { term := e.1, index := (prevLogIndex + 1 + i) % 2 ^ 64, command := e.2 } ::
        indexed prevLogIndex (i + 1) entries

/-- The term and the length of the command fit their fields. -/
def Sized (e : Nat × Command) : Prop := e.1 < 2 ^ 64 ∧ e.2.length < 2 ^ 32

inductive Encodes : Received → List UInt8 → Prop where
  | shutdown : Encodes .shutdown (Writer.u8 0)
  | requestVote {term candidateId lastLogIndex lastLogTerm : Nat} (hterm : term < 2 ^ 64)
      (hid : candidateId < 2 ^ 32) (hindex : lastLogIndex < 2 ^ 64) (hlast : lastLogTerm < 2 ^ 64) :
      Encodes (.requestVote term (toInt candidateId) lastLogIndex lastLogTerm)
        (List.flatten [Writer.u8 1, Writer.u64 term, Writer.u32 candidateId,
          Writer.u64 lastLogIndex, Writer.u64 lastLogTerm])
  | requestVoteResp {term voteGranted : Nat} (hterm : term < 2 ^ 64) (hflag : voteGranted < 2 ^ 8) :
      Encodes (.requestVoteResp term (voteGranted ≠ 0))
        (List.flatten [Writer.u8 2, Writer.u64 term, Writer.u8 voteGranted])
  | appendEntries {term leaderId prevLogIndex prevLogTerm leaderCommit : Nat}
      {entries : List (Nat × Command)} (hterm : term < 2 ^ 64) (hid : leaderId < 2 ^ 32)
      (hindex : prevLogIndex < 2 ^ 64) (hprev : prevLogTerm < 2 ^ 64)
      (hcommit : leaderCommit < 2 ^ 64) (hcount : entries.length < 2 ^ 32)
      (hsized : ∀ e ∈ entries, Sized e) :
      Encodes (.appendEntries term (toInt leaderId) prevLogIndex prevLogTerm
          (indexed prevLogIndex 0 entries) leaderCommit)
        (List.flatten [Writer.u8 3, Writer.u64 term, Writer.u32 leaderId, Writer.u64 prevLogIndex,
          Writer.u64 prevLogTerm, Writer.u64 leaderCommit, Writer.u32 entries.length,
          entries.flatMap entry])
  | appendEntriesResp {term success matchIndex : Nat} (hterm : term < 2 ^ 64)
      (hflag : success < 2 ^ 8) (hindex : matchIndex < 2 ^ 64) :
      Encodes (.appendEntriesResp term (success ≠ 0) matchIndex)
        (List.flatten [Writer.u8 4, Writer.u64 term, Writer.u8 success, Writer.u64 matchIndex])
  /-- Any other tag. -/
  | skip {tag : Nat} (hlow : 5 ≤ tag) (hhigh : tag < 2 ^ 8) : Encodes .skip (Writer.u8 tag)

theorem parses_entries (prevLogIndex count i : Nat) :
    Parses (readEntries prevLogIndex count i) fun entries m => ∃ es : List (Nat × Command),
      es.length = count ∧ (∀ e ∈ es, Sized e) ∧ entries = indexed prevLogIndex i es ∧
        m = es.flatMap entry := by
  induction count generalizing i with
  | zero =>
      intro s entries s'
      rw [readEntries, Reader.pure_run]
      constructor
      · rintro ⟨rfl, rfl⟩
        exact ⟨[], ⟨[], rfl, by simp, rfl, rfl⟩, rfl⟩
      · rintro ⟨_, ⟨es, hlen, -, rfl, rfl⟩, rfl⟩
        obtain rfl := List.length_eq_zero_iff.mp hlen
        exact ⟨rfl, rfl⟩
  | succ count ih =>
      intro s entries s'
      simp only [readEntries, parses_u64.bind_write, parses_str.bind_write, (ih (i + 1)).bind_run,
        Reader.pure_run]
      constructor
      · rintro ⟨term, _, hterm, rfl, cmd, _, hcmd, rfl, _, _, _,
          ⟨es, rfl, hes, rfl, rfl⟩, rfl, rfl, rfl⟩
        refine ⟨_, ⟨(term, cmd) :: es, rfl, ?_, rfl, rfl⟩, ?_⟩
        · exact List.forall_mem_cons.mpr ⟨⟨hterm, hcmd⟩, hes⟩
        · simp only [List.flatMap_cons, entry, List.append_assoc]
      · rintro ⟨_, ⟨es, hlen, hes, rfl, rfl⟩, rfl⟩
        obtain ⟨⟨term, cmd⟩, es, rfl⟩ := List.exists_cons_of_length_eq_add_one hlen
        obtain ⟨⟨hterm, hcmd⟩, hlater⟩ := List.forall_mem_cons.mp hes
        simp only [List.flatMap_cons, entry, List.append_assoc]
        exact ⟨term, _, hterm, rfl, cmd, _, hcmd, rfl, _, _, s',
          ⟨es, Nat.succ.inj hlen, hlater, rfl, rfl⟩, rfl, rfl, rfl⟩

theorem parses_requestVote : Parses readRequestVote fun x m =>
    ∃ term id index last : Nat, term < 2 ^ 64 ∧ id < 2 ^ 32 ∧ index < 2 ^ 64 ∧ last < 2 ^ 64 ∧
      x = .requestVote term (toInt id) index last ∧
      m = List.flatten [Writer.u64 term, Writer.u32 id, Writer.u64 index, Writer.u64 last] := by
  intro s x s'
  simp only [readRequestVote, parses_u64.bind_write, parses_u32.bind_write, Reader.pure_run]
  constructor
  · rintro ⟨term, _, hterm, rfl, id, _, hid, rfl, index, _, hindex, rfl, last, _, hlast, rfl, rfl,
      rfl⟩
    refine ⟨_, ⟨term, id, index, last, hterm, hid, hindex, hlast, rfl, rfl⟩, ?_⟩
    simp only [List.flatten_cons, List.flatten_nil, List.append_nil, List.append_assoc]
  · rintro ⟨_, ⟨term, id, index, last, hterm, hid, hindex, hlast, rfl, rfl⟩, rfl⟩
    simp only [List.flatten_cons, List.flatten_nil, List.append_nil, List.append_assoc]
    exact ⟨term, _, hterm, rfl, id, _, hid, rfl, index, _, hindex, rfl, last, s', hlast, rfl, rfl,
      rfl⟩

theorem parses_requestVoteResp : Parses readRequestVoteResp fun x m =>
    ∃ term flag : Nat, term < 2 ^ 64 ∧ flag < 2 ^ 8 ∧ x = .requestVoteResp term (flag ≠ 0) ∧
      m = List.flatten [Writer.u64 term, Writer.u8 flag] := by
  intro s x s'
  simp only [readRequestVoteResp, parses_u64.bind_write, parses_u8.bind_write, Reader.pure_run]
  constructor
  · rintro ⟨term, _, hterm, rfl, flag, _, hflag, rfl, rfl, rfl⟩
    refine ⟨_, ⟨term, flag, hterm, hflag, rfl, rfl⟩, ?_⟩
    simp only [List.flatten_cons, List.flatten_nil, List.append_nil, List.append_assoc]
  · rintro ⟨_, ⟨term, flag, hterm, hflag, rfl, rfl⟩, rfl⟩
    simp only [List.flatten_cons, List.flatten_nil, List.append_nil, List.append_assoc]
    exact ⟨term, _, hterm, rfl, flag, s', hflag, rfl, rfl, rfl⟩

theorem parses_appendEntries : Parses readAppendEntries fun x m =>
    ∃ (term id index prev commit : Nat) (entries : List (Nat × Command)), term < 2 ^ 64 ∧
      id < 2 ^ 32 ∧ index < 2 ^ 64 ∧ prev < 2 ^ 64 ∧ commit < 2 ^ 64 ∧
      entries.length < 2 ^ 32 ∧ (∀ e ∈ entries, Sized e) ∧
      x = .appendEntries term (toInt id) index prev (indexed index 0 entries) commit ∧
      m = List.flatten [Writer.u64 term, Writer.u32 id, Writer.u64 index, Writer.u64 prev,
        Writer.u64 commit, Writer.u32 entries.length, entries.flatMap entry] := by
  intro s x s'
  simp only [readAppendEntries, parses_u64.bind_write, parses_u32.bind_write,
    (parses_entries _ _ _).bind_run, Reader.pure_run]
  constructor
  · rintro ⟨term, _, hterm, rfl, id, _, hid, rfl, index, _, hindex, rfl, prev, _, hprev, rfl,
      commit, _, hcommit, rfl, _, _, hcount, rfl, _, _, _, ⟨entries, rfl, hsized, rfl, rfl⟩, rfl,
      rfl, rfl⟩
    refine ⟨_, ⟨term, id, index, prev, commit, entries, hterm, hid, hindex, hprev, hcommit, hcount,
      hsized, rfl, rfl⟩, ?_⟩
    simp only [List.flatten_cons, List.flatten_nil, List.append_nil, List.append_assoc]
  · rintro ⟨_, ⟨term, id, index, prev, commit, entries, hterm, hid, hindex, hprev, hcommit, hcount,
      hsized, rfl, rfl⟩, rfl⟩
    simp only [List.flatten_cons, List.flatten_nil, List.append_nil, List.append_assoc]
    exact ⟨term, _, hterm, rfl, id, _, hid, rfl, index, _, hindex, rfl, prev, _, hprev, rfl, commit,
      _, hcommit, rfl, entries.length, _, hcount, rfl, _, _, s', ⟨entries, rfl, hsized, rfl, rfl⟩,
      rfl, rfl, rfl⟩

theorem parses_appendEntriesResp : Parses readAppendEntriesResp fun x m =>
    ∃ term flag index : Nat, term < 2 ^ 64 ∧ flag < 2 ^ 8 ∧ index < 2 ^ 64 ∧
      x = .appendEntriesResp term (flag ≠ 0) index ∧
      m = List.flatten [Writer.u64 term, Writer.u8 flag, Writer.u64 index] := by
  intro s x s'
  simp only [readAppendEntriesResp, parses_u64.bind_write, parses_u8.bind_write, Reader.pure_run]
  constructor
  · rintro ⟨term, _, hterm, rfl, flag, _, hflag, rfl, index, _, hindex, rfl, rfl, rfl⟩
    refine ⟨_, ⟨term, flag, index, hterm, hflag, hindex, rfl, rfl⟩, ?_⟩
    simp only [List.flatten_cons, List.flatten_nil, List.append_nil, List.append_assoc]
  · rintro ⟨_, ⟨term, flag, index, hterm, hflag, hindex, rfl, rfl⟩, rfl⟩
    simp only [List.flatten_cons, List.flatten_nil, List.append_nil, List.append_assoc]
    exact ⟨term, _, hterm, rfl, flag, _, hflag, rfl, index, s', hindex, rfl, rfl, rfl⟩

/-- The receiver reads the format. -/
theorem parses_decode : Parses decode Encodes := by
  intro s x s'
  rw [decode, parses_u8.bind_run]
  constructor
  · rintro ⟨tag, _, t, ⟨htag, rfl⟩, rfl, h⟩
    -- by the tag: no message but an empty one, the four messages, and a tag that means nothing
    split at h
    · obtain ⟨rfl, rfl⟩ := Reader.pure_run.mp h
      exact ⟨_, .shutdown, rfl⟩
    · obtain ⟨_, ⟨term, id, index, last, hterm, hid, hindex, hlast, rfl, rfl⟩, rfl⟩ :=
        (parses_requestVote _ _ _).mp h
      exact ⟨_, .requestVote hterm hid hindex hlast, (List.append_assoc ..).symm⟩
    · obtain ⟨_, ⟨term, flag, hterm, hflag, rfl, rfl⟩, rfl⟩ := (parses_requestVoteResp _ _ _).mp h
      exact ⟨_, .requestVoteResp hterm hflag, (List.append_assoc ..).symm⟩
    · obtain ⟨_, ⟨term, id, index, prev, commit, entries, hterm, hid, hindex, hprev, hcommit,
        hcount, hsized, rfl, rfl⟩, rfl⟩ := (parses_appendEntries _ _ _).mp h
      exact ⟨_, .appendEntries hterm hid hindex hprev hcommit hcount hsized,
        (List.append_assoc ..).symm⟩
    · obtain ⟨_, ⟨term, flag, index, hterm, hflag, hindex, rfl, rfl⟩, rfl⟩ :=
        (parses_appendEntriesResp _ _ _).mp h
      exact ⟨_, .appendEntriesResp hterm hflag hindex, (List.append_assoc ..).symm⟩
    · obtain ⟨rfl, rfl⟩ := Reader.pure_run.mp h
      exact ⟨_, .skip (by grind) htag, rfl⟩
  · rintro ⟨m, henc, rfl⟩
    cases henc with
    | shutdown => exact ⟨0, _, s', ⟨by decide, rfl⟩, rfl, rfl⟩
    | requestVote hterm hid hindex hlast =>
        exact ⟨1, _, _, ⟨by decide, rfl⟩, List.append_assoc .., (parses_requestVote _ _ _).mpr
          ⟨_, ⟨_, _, _, _, hterm, hid, hindex, hlast, rfl, rfl⟩, rfl⟩⟩
    | requestVoteResp hterm hflag =>
        exact ⟨2, _, _, ⟨by decide, rfl⟩, List.append_assoc .., (parses_requestVoteResp _ _ _).mpr
          ⟨_, ⟨_, _, hterm, hflag, rfl, rfl⟩, rfl⟩⟩
    | appendEntries hterm hid hindex hprev hcommit hcount hsized =>
        exact ⟨3, _, _, ⟨by decide, rfl⟩, List.append_assoc .., (parses_appendEntries _ _ _).mpr
          ⟨_, ⟨_, _, _, _, _, _, hterm, hid, hindex, hprev, hcommit, hcount, hsized, rfl, rfl⟩,
            rfl⟩⟩
    | appendEntriesResp hterm hflag hindex =>
        exact ⟨4, _, _, ⟨by decide, rfl⟩, List.append_assoc .., (parses_appendEntriesResp _ _ _).mpr
          ⟨_, ⟨_, _, _, hterm, hflag, hindex, rfl, rfl⟩, rfl⟩⟩
    | @skip tag hlow hhigh =>
        refine ⟨tag, _, s', ⟨hhigh, rfl⟩, rfl, ?_⟩
        split
        all_goals first | omega | rfl

/-! ## Any frame -/

/-- The receiver stays inside of a frame just if a message begins it. -/
theorem decodeFrame_inside_iff (frame : List UInt8) :
    (decodeFrame frame).isSome ↔ frame = [] ∨ ∃ x m, Encodes x m ∧ m <+: frame := by
  rw [decodeFrame]
  by_cases hempty : frame = []
  · rw [if_pos hempty]
    exact ⟨fun _ => .inl hempty, fun _ => rfl⟩
  · rw [if_neg hempty, Option.isSome_iff_exists, or_iff_right hempty]
    constructor
    · rintro ⟨⟨x, rest⟩, hx⟩
      obtain ⟨m, henc, rfl⟩ := (parses_decode _ _ _).mp hx
      exact ⟨x, m, henc, List.prefix_append m rest⟩
    · rintro ⟨x, m, henc, rest, rfl⟩
      exact ⟨(x, rest), (parses_decode _ _ _).mpr ⟨m, henc, rfl⟩⟩

/-- A vote request that has only its tag, and an entry that is said to be longer than the frame. -/
theorem truncated_frames :
    decodeFrame [1] = none ∧
    decodeFrame (List.flatten [Writer.u8 3, Writer.u64 1, Writer.u32 0, Writer.u64 0, Writer.u64 0,
      Writer.u64 0, Writer.u32 1, Writer.u64 1, Writer.u32 100]) = none := by
  decide

/-! ## What a node sends -/

/-- The handler and the fields that a frame is meant for. -/
def received : Frame n → Received
  | .requestVote term candidateId lastLogIndex lastLogTerm =>
      .requestVote term candidateId lastLogIndex lastLogTerm
  | .requestVoteResp term voteGranted => .requestVoteResp term voteGranted
  | .appendEntries term leaderId prevLogIndex prevLogTerm leaderCommit entries =>
      .appendEntries term leaderId prevLogIndex prevLogTerm (decodeEntries prevLogIndex entries)
        leaderCommit
  | .appendEntriesResp term success matchIndex => .appendEntriesResp term success matchIndex

/-- Terms and indices have 64 bits, those of the entries too, and no command has `2 ^ 32` bytes. -/
def Fits : Frame n → Prop
  | .requestVote term _ lastLogIndex lastLogTerm =>
      term < 2 ^ 64 ∧ lastLogIndex < 2 ^ 64 ∧ lastLogTerm < 2 ^ 64
  | .requestVoteResp term _ => term < 2 ^ 64
  | .appendEntries term _ prevLogIndex prevLogTerm leaderCommit entries =>
      term < 2 ^ 64 ∧ prevLogIndex + entries.length < 2 ^ 64 ∧ prevLogTerm < 2 ^ 64 ∧
        leaderCommit < 2 ^ 64 ∧ ∀ e ∈ entries, Sized e
  | .appendEntriesResp term _ matchIndex => term < 2 ^ 64 ∧ matchIndex < 2 ^ 64

theorem decodeEntries_eq {prevLogIndex i : Nat} {entries : List (Nat × Command)}
    (h : prevLogIndex + i + entries.length < 2 ^ 64) :
    decodeEntries (prevLogIndex + i) entries = indexed prevLogIndex i entries := by
  induction entries generalizing i with
  | nil => rfl
  | cons e entries ih =>
      rw [List.length_cons] at h
      have hindex : (prevLogIndex + 1 + i) % 2 ^ 64 = prevLogIndex + i + 1 := by omega
      rw [decodeEntries, indexed, hindex]
      exact congrArg _ (ih (i := i + 1) (by omega))

theorem toInt_rank (hn : n ≤ 2 ^ 31) (r : Fin n) : toInt r = (r.val : Int) :=
  if_pos (Nat.lt_of_lt_of_le r.isLt hn)

/-- How long a message is. -/
def Received.size : Received → Nat
  | .skip | .shutdown => 1
  | .requestVote .. => 29
  | .requestVoteResp .. => 10
  | .appendEntries _ _ _ _ entries _ => 41 + (entries.map fun e => 12 + e.command.length).sum
  | .appendEntriesResp .. => 18

theorem length_entry (e : Nat × Command) : (entry e).length = 12 + e.2.length := by
  rw [entry, List.length_append, length_u64, length_str]
  omega

theorem sum_indexed (prevLogIndex i : Nat) (entries : List (Nat × Command)) :
    ((indexed prevLogIndex i entries).map fun e => 12 + e.command.length).sum =
      (entries.flatMap entry).length := by
  induction entries generalizing i with
  | nil => rfl
  | cons e entries ih =>
      rw [indexed, List.map_cons, List.sum_cons, ih, List.flatMap_cons, List.length_append,
        length_entry]

theorem sum_decodeEntries (prevLogIndex : Nat) (entries : List (Nat × Command)) :
    ((decodeEntries prevLogIndex entries).map fun e => 12 + e.command.length).sum =
      (entries.flatMap entry).length := by
  induction entries generalizing prevLogIndex with
  | nil => rfl
  | cons e entries ih =>
      rw [decodeEntries, List.map_cons, List.sum_cons, ih, List.flatMap_cons, List.length_append,
        length_entry]

theorem Encodes.length_eq {x : Received} {m : List UInt8} (h : Encodes x m) :
    m.length = x.size := by
  cases h with
  | shutdown => rfl
  | requestVote => rfl
  | requestVoteResp => rfl
  | appendEntries =>
      simp only [Received.size, sum_indexed, List.flatten_cons, List.flatten_nil,
        List.length_append, length_u8, length_u32, length_u64, List.length_nil]
      omega
  | appendEntriesResp => rfl
  | skip => rfl

theorem length_payload (f : Frame n) : (payload f).length = (received f).size := by
  cases f with
  | requestVote => rfl
  | requestVoteResp => rfl
  | appendEntries =>
      simp only [payload, received, Received.size, sum_decodeEntries, List.flatten_cons,
        List.flatten_nil, List.length_append, length_u8, length_u32, length_u64, List.length_nil]
      omega
  | appendEntriesResp => rfl

/-- Every entry takes some bytes. -/
theorem length_le_flatMap (entries : List (Nat × Command)) :
    entries.length ≤ (entries.flatMap entry).length := by
  induction entries with
  | nil => exact Nat.le_refl 0
  | cons e entries ih =>
      rw [List.flatMap_cons, List.length_append, length_entry, List.length_cons]
      omega

/-- What a node writes is of the format, as long as it is not too much for one frame. -/
theorem encodes_payload (hn : n ≤ 2 ^ 31) {f : Frame n} (hf : Fits f)
    (hlen : (payload f).length < 2 ^ 32) : Encodes (received f) (payload f) := by
  cases f with
  | requestVote term candidateId lastLogIndex lastLogTerm =>
      obtain ⟨hterm, hindex, hlast⟩ := hf
      rw [received, ← toInt_rank hn]
      exact .requestVote hterm (by omega) hindex hlast
  | requestVoteResp term voteGranted =>
      -- a flag is written as 0 or 1, though any byte is read
      cases voteGranted
      · exact @Encodes.requestVoteResp term 0 hf (by decide)
      · exact @Encodes.requestVoteResp term 1 hf (by decide)
  | appendEntries term leaderId prevLogIndex prevLogTerm leaderCommit entries =>
      obtain ⟨hterm, hindex, hprev, hcommit, hsized⟩ := hf
      have hentries := @decodeEntries_eq prevLogIndex 0 entries hindex
      have hcount := length_le_flatMap entries
      rw [length_payload, received, Received.size, sum_decodeEntries] at hlen
      rw [received, ← toInt_rank hn, ← Nat.add_zero prevLogIndex, hentries]
      exact .appendEntries hterm (by omega) (by omega) hprev hcommit (by omega) hsized
  | appendEntriesResp term success matchIndex =>
      obtain ⟨hterm, hindex⟩ := hf
      cases success
      · exact @Encodes.appendEntriesResp term 0 matchIndex hterm (by decide) hindex
      · exact @Encodes.appendEntriesResp term 1 matchIndex hterm (by decide) hindex

/-- A length has only its low 32 bits written. -/
theorem u32_mod (v : Nat) : Writer.u32 (v % 2 ^ 32) = Writer.u32 v := by
  simp only [Writer.u32, List.cons.injEq, and_true, ← UInt8.toNat_inj, UInt8.toNat_ofNat']
  omega

/-- As much as the length says is taken for the frame. -/
theorem recvFrame_sendFrame (p rest : List UInt8) :
    recvFrame.run (sendFrame p ++ rest) =
      some (p.take (p.length % 2 ^ 32), p.drop (p.length % 2 ^ 32) ++ rest) := by
  have hle : p.length % 2 ^ 32 ≤ p.length := Nat.mod_le _ _
  rw [recvFrame, parses_u32.bind_run]
  refine ⟨p.length % 2 ^ 32, _, p ++ rest, ⟨Nat.mod_lt _ (by decide), rfl⟩, ?_, ?_⟩
  · rw [u32_mod, sendFrame, List.append_assoc]
  · refine (Reader.parses_bytes _ _ _ _).mpr ⟨_, ⟨List.length_take_of_le hle, rfl⟩, ?_⟩
    rw [← List.append_assoc, List.take_append_drop]

/-- A frame arrives as it was sent, and nothing of it is left, just if its length fits. -/
theorem received_iff (hn : n ≤ 2 ^ 31) {f : Frame n} (hf : Fits f) (rest : List UInt8) :
    receiveFrame (sendFrame (payload f) ++ rest) = some ((received f, []), rest) ↔
      (payload f).length < 2 ^ 32 := by
  have hne : payload f ≠ [] := by cases f <;> exact List.cons_ne_nil _ _
  simp only [receiveFrame, recvFrame_sendFrame, Option.bind_eq_bind, Option.bind_some]
  constructor
  · intro h
    obtain ⟨⟨x, left⟩, hx, heq⟩ := Option.bind_eq_some_iff.mp h
    obtain ⟨⟨rfl, rfl⟩, -⟩ : (x = received f ∧ left = []) ∧ _ := by simpa using heq
    rw [decodeFrame] at hx
    split at hx
    · cases f <;> exact absurd hx (by simp [received])
    · obtain ⟨m, henc, hm⟩ := (parses_decode _ _ _).mp hx
      -- the message is all of the frame, and as long as the payload
      rw [List.append_nil] at hm
      have hlen := congrArg List.length hm
      rw [henc.length_eq, ← length_payload, List.length_take_of_le (Nat.mod_le _ _)] at hlen
      rw [← hlen]
      exact Nat.mod_lt _ (by decide)
  · intro hlen
    have hrun := (parses_decode _ _ _).mpr
      ⟨payload f, encodes_payload hn hf hlen, (List.append_nil (payload f)).symm⟩
    rw [Nat.mod_eq_of_lt hlen, List.take_length, List.drop_length, decodeFrame, if_neg hne, hrun]
    rfl

/-- A leader's frame has what its log has behind the previous entry, and the entries are given
back their indices. -/
theorem received_log {σ : Cluster n} {events : List (Event n)} (hσ : Reaches events σ) {s q : Fin n}
    {f : Frame n} (hf : sendAppendEntriesTo s (σ.node s) q = some (some f)) :
    ∃ prevLogIndex prevLogTerm, received f = .appendEntries (σ.node s).currentTerm s prevLogIndex
        prevLogTerm ((σ.node s).log.drop (prevLogIndex + 1)) (σ.node s).commitIndex ∧
      ∀ i e, ((σ.node s).log.drop (prevLogIndex + 1))[i]? = some e →
        e.index = prevLogIndex + 1 + i := by
  obtain ⟨-, pi, prev, last, -, -, hlast, rfl⟩ := sendAppendEntriesTo_cases hf
  rw [List.getLast?_eq_getElem?] at hlast
  have hend : last.index = (σ.node s).log.length - 1 := log_entry hσ hlast
  have hall : ((σ.node s).log.drop (pi + 1)).take (last.index - pi) =
      (σ.node s).log.drop (pi + 1) := by
    refine List.take_of_length_le ?_
    rw [List.length_drop]
    omega
  refine ⟨pi, prev.term, ?_, fun i e he => ?_⟩
  · rw [hall, received, decodeEntries_drop (log_entry hσ)]
  · rw [List.getElem?_drop] at he
    exact log_entry hσ he

/-- **The codec.** A frame arrives with exactly the fields that were sent, and all of it is read,
if and only if its payload has less than `2 ^ 32` bytes. The entries that a leader sends arrive
with the indices they have in its log. -/
theorem wire_codec (hn : n ≤ 2 ^ 31) :
    (∀ (f : Frame n) (rest : List UInt8), Fits f →
      (receiveFrame (sendFrame (payload f) ++ rest) = some ((received f, []), rest) ↔
        (payload f).length < 2 ^ 32)) ∧
    ∀ (σ : Cluster n) (events : List (Event n)) (s q : Fin n) (f : Frame n), Reaches events σ →
      sendAppendEntriesTo s (σ.node s) q = some (some f) →
      ∃ prevLogIndex prevLogTerm, received f = .appendEntries (σ.node s).currentTerm s prevLogIndex
          prevLogTerm ((σ.node s).log.drop (prevLogIndex + 1)) (σ.node s).commitIndex ∧
        ∀ i e, ((σ.node s).log.drop (prevLogIndex + 1))[i]? = some e →
          e.index = prevLogIndex + 1 + i :=
  ⟨fun _ rest hf => received_iff hn hf rest, fun _ _ _ _ _ hσ hf => received_log hσ hf⟩

/-- An entry is decoded, and node 0 leads three nodes. -/
theorem wire_codec_three :
    receiveFrame (sendFrame (payload (.appendEntries 1 0 0 0 0 [(1, [7])] : Frame 3)) ++ [0]) =
      some ((.appendEntries 1 0 0 0 [{ term := 1, index := 1, command := [7] }] 0, []), [0]) ∧
    ∃ (σ : Cluster 3) (events : List (Event 3)) (f : Frame 3), Reaches events σ ∧
      sendAppendEntriesTo 0 (σ.node 0) 2 = some (some f) ∧
      ∃ prevLogIndex prevLogTerm, received f = .appendEntries (σ.node 0).currentTerm 0 prevLogIndex
          prevLogTerm ((σ.node 0).log.drop (prevLogIndex + 1)) (σ.node 0).commitIndex := by
  constructor
  · exact ((wire_codec (by decide)).1 (.appendEntries 1 0 0 0 0 [(1, [7])] : Frame 3) [0]
      ⟨by decide, by decide, by decide, by decide, by simp [Sized]⟩).mpr (by decide)
  · have hplay : Leads Cluster.step Any (initCluster 3) electFirst fun σ _ =>
        (sendAppendEntriesTo 0 (σ.node 0) 2).join.isSome = true := by
      decide +kernel
    obtain ⟨σ, events, hσ, hsome⟩ := hplay.run
    obtain ⟨f, hf⟩ := Option.isSome_iff_exists.mp hsome
    have hsend := Option.join_eq_some_iff.mp hf
    obtain ⟨prevLogIndex, prevLogTerm, hreceived, -⟩ :=
      (wire_codec (by decide)).2 σ events 0 2 f hσ hsend
    exact ⟨σ, events, f, hσ, hsend, prevLogIndex, prevLogTerm, hreceived⟩

/-- One entry, whose command is as large as the field for its length allows. -/
def largeCommand : Frame 2 := .appendEntries 1 0 0 0 0 [(1, List.replicate (2 ^ 32 - 1) 0)]

theorem fits_largeCommand : Fits largeCommand := by
  refine ⟨by decide, by decide, by decide, by decide, fun e he => ?_⟩
  rw [List.mem_singleton.mp he]
  exact ⟨by decide, by rw [List.length_replicate]; decide⟩

/-- The payload is longer than the number in front of it can say. -/
theorem largeCommand_cut :
    Fits largeCommand ∧
    receiveFrame (sendFrame (payload largeCommand)) ≠ some ((received largeCommand, []), []) := by
  refine ⟨fits_largeCommand, fun h => ?_⟩
  rw [← List.append_nil (sendFrame _)] at h
  have hlen := (received_iff (by decide) fits_largeCommand []).mp h
  have hsize (c : Command) :
      (payload (.appendEntries 1 0 0 0 0 [(1, c)] : Frame 2)).length = 53 + c.length := by
    simp only [length_payload, received, Received.size, sum_decodeEntries, List.flatMap_cons,
      List.length_append, length_entry, List.flatMap_nil, List.length_nil]
    omega
  have hlarge := hsize (List.replicate (2 ^ 32 - 1) 0)
  rw [List.length_replicate] at hlarge
  rw [largeCommand, hlarge] at hlen
  exact absurd hlen (by decide)

end CrossMachine.Raft.Wire
