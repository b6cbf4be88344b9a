import CrossMachine.Lib.Reader
import CrossMachine.Raft.Node
import Mathlib.Algebra.Order.Ring.Int

/-!
# Frames on the wire

`Writer`, `Reader`, `sendFrame`, `recvFrame` and the decoding in `receiverLoop` of `raft.cpp`. A
frame is a payload behind its length, and a payload is a tag and the fields of one message, each
with its highest byte first.

A `Reader` does not look at how much is left of the frame. To read behind its end is undefined;
here that is `none`. What the receiver hands to its handlers has the numbers as they are on the
wire, so a rank is an `int` there.
-/

namespace CrossMachine.Raft.Wire

open Lib

/-! ## Writer -/

namespace Writer

def u8 (v : Nat) : List UInt8 := [UInt8.ofNat v]

/-- `htonl` puts the highest byte first. -/
def u32 (v : Nat) : List UInt8 :=
  [UInt8.ofNat (v / 2 ^ 24), UInt8.ofNat (v / 2 ^ 16), UInt8.ofNat (v / 2 ^ 8), UInt8.ofNat v]

def u64 (v : Nat) : List UInt8 := u32 (v / 2 ^ 32) ++ u32 (v % 2 ^ 32)

def str (s : Command) : List UInt8 := u32 s.length ++ s

end Writer

/-- An entry of an `AppendEntries` frame. -/
def entry (e : Nat × Command) : List UInt8 := Writer.u64 e.1 ++ Writer.str e.2

/-- The payloads of `startElection`, `handleRequestVote`, `sendAppendEntriesTo` and
`handleAppendEntries`. -/
def payload {n : Nat} : Frame n → List UInt8
  | .requestVote term candidateId lastLogIndex lastLogTerm =>
      List.flatten [Writer.u8 1, Writer.u64 term, Writer.u32 candidateId, Writer.u64 lastLogIndex,
        Writer.u64 lastLogTerm]
  | .requestVoteResp term voteGranted =>
      List.flatten [Writer.u8 2, Writer.u64 term, Writer.u8 (if voteGranted then 1 else 0)]
  | .appendEntries term leaderId prevLogIndex prevLogTerm leaderCommit entries =>
      List.flatten [Writer.u8 3, Writer.u64 term, Writer.u32 leaderId, Writer.u64 prevLogIndex,
        Writer.u64 prevLogTerm, Writer.u64 leaderCommit, Writer.u32 entries.length,
        entries.flatMap entry]
  | .appendEntriesResp term success matchIndex =>
      List.flatten [Writer.u8 4, Writer.u64 term, Writer.u8 (if success then 1 else 0),
        Writer.u64 matchIndex]

/-- `sendFrame`: what goes into the channel. -/
def sendFrame (payload : List UInt8) : List UInt8 := Writer.u32 payload.length ++ payload

/-! ## Reader -/

def u8 : Reader Nat := do
  let b ← Reader.byte
  return b.toNat

def u32 : Reader Nat := do
  let b₃ ← Reader.byte
  let b₂ ← Reader.byte
  let b₁ ← Reader.byte
  let b₀ ← Reader.byte
  return b₃.toNat * 2 ^ 24 + b₂.toNat * 2 ^ 16 + b₁.toNat * 2 ^ 8 + b₀.toNat

def u64 : Reader Nat := do
  let hi ← u32
  let lo ← u32
  return hi * 2 ^ 32 + lo

def str : Reader Command := do
  let len ← u32
  Reader.bytes len

/-- `static_cast<int>`. -/
def toInt (v : Nat) : Int := if v < 2 ^ 31 then v else (v : Int) - 2 ^ 32

/-- What the receiver does with a frame: nothing, or it stops, or it calls a handler. -/
inductive Received where
  | skip
  | shutdown
  | requestVote (term : Nat) (candidateId : Int) (lastLogIndex lastLogTerm : Nat)
  | requestVoteResp (term : Nat) (voteGranted : Bool)
  | appendEntries (term : Nat) (leaderId : Int) (prevLogIndex prevLogTerm : Nat)
      (entries : List LogEntry) (leaderCommit : Nat)
  | appendEntriesResp (term : Nat) (success : Bool) (matchIndex : Nat)

/-- The loop over the entries, `count` of which are still to be read. -/
def readEntries (prevLogIndex : Nat) : (count i : Nat) → Reader (List LogEntry)
  | 0, _ => return []
  | count + 1, i => do
      let term ← u64
      let cmd ← str
      let entries ← readEntries prevLogIndex count (i + 1)
      return { term := term, index := (prevLogIndex + 1 + i) % 2 ^ 64, command := cmd } :: entries

def readRequestVote : Reader Received := do
  let term ← u64
  let candidateId ← u32
  let lastLogIndex ← u64
  let lastLogTerm ← u64
  return .requestVote term (toInt candidateId) lastLogIndex lastLogTerm

def readRequestVoteResp : Reader Received := do
  let term ← u64
  let voteGranted ← u8
  return .requestVoteResp term (voteGranted ≠ 0)

def readAppendEntries : Reader Received := do
  let term ← u64
  let leaderId ← u32
  let prevLogIndex ← u64
  let prevLogTerm ← u64
  let leaderCommit ← u64
  let numEntries ← u32
  let entries ← readEntries prevLogIndex numEntries 0
  return .appendEntries term (toInt leaderId) prevLogIndex prevLogTerm entries leaderCommit

def readAppendEntriesResp : Reader Received := do
  let term ← u64
  let success ← u8
  let matchIndex ← u64
  return .appendEntriesResp term (success ≠ 0) matchIndex

/-- The `switch` over the tag. -/
def decode : Reader Received := do
  let tag ← u8
  match tag with
  | 0 => return .shutdown
  | 1 => readRequestVote
  | 2 => readRequestVoteResp
  | 3 => readAppendEntries
  | 4 => readAppendEntriesResp
  | _ => return .skip

/-- What is done with a frame, and what is left of it. -/
def decodeFrame (frame : List UInt8) : Option (Received × List UInt8) :=
  if frame = [] then some (.skip, []) else decode.run frame

/-- `recvFrame`, from what is in the channel. -/
def recvFrame : Reader (List UInt8) := do
  let len ← u32
  Reader.bytes len

/-- One turn of `receiverLoop`: what is done with the next frame, what is left of it, and what is
left in the channel. -/
def receiveFrame (channel : List UInt8) :
    Option ((Received × List UInt8) × List UInt8) := do
  let (frame, channel) ← recvFrame.run channel
  let received ← decodeFrame frame
  some (received, channel)

/-! ## The fields -/

open Reader (Parses)

theorem u8_toNat (b : UInt8) : Writer.u8 b.toNat = [b] := by
  rw [Writer.u8, UInt8.ofNat_toNat]

theorem parses_u8 : Parses u8 fun v m => v < 2 ^ 8 ∧ m = Writer.u8 v := by
  intro s v s'
  rw [u8, Reader.parses_byte.bind_run]
  simp only [Reader.pure_run]
  constructor
  · rintro ⟨b, _, t, rfl, rfl, rfl, rfl⟩
    exact ⟨[b], ⟨b.toNat_lt, (u8_toNat b).symm⟩, rfl⟩
  · rintro ⟨m, ⟨hv, rfl⟩, rfl⟩
    exact ⟨UInt8.ofNat v, _, s', rfl, rfl, UInt8.toNat_ofNat_of_lt' hv, rfl⟩

/-- Four bytes are one word. -/
theorem u32_bytes (b₃ b₂ b₁ b₀ : UInt8) :
    Writer.u32 (b₃.toNat * 2 ^ 24 + b₂.toNat * 2 ^ 16 + b₁.toNat * 2 ^ 8 + b₀.toNat) =
      [b₃, b₂, b₁, b₀] := by
  have h₃ := b₃.toNat_lt
  have h₂ := b₂.toNat_lt
  have h₁ := b₁.toNat_lt
  have h₀ := b₀.toNat_lt
  simp only [Writer.u32, List.cons.injEq, and_true, ← UInt8.toNat_inj, UInt8.toNat_ofNat']
  omega

theorem parses_u32 : Parses u32 fun v m => v < 2 ^ 32 ∧ m = Writer.u32 v := by
  intro s v s'
  simp only [u32, Reader.parses_byte.bind_run, Reader.pure_run]
  constructor
  · rintro ⟨b₃, _, _, rfl, rfl, b₂, _, _, rfl, rfl, b₁, _, _, rfl, rfl, b₀, _, _, rfl, rfl, rfl,
      rfl⟩
    refine ⟨_, ⟨?_, rfl⟩, by rw [u32_bytes]; rfl⟩
    have h₃ := b₃.toNat_lt
    have h₂ := b₂.toNat_lt
    have h₁ := b₁.toNat_lt
    have h₀ := b₀.toNat_lt
    omega
  · rintro ⟨m, ⟨hv, rfl⟩, rfl⟩
    refine ⟨_, _, _, rfl, rfl, _, _, _, rfl, rfl, _, _, _, rfl, rfl, _, _, _, rfl, rfl, ?_, rfl⟩
    simp only [UInt8.toNat_ofNat']
    omega

theorem parses_u64 : Parses u64 fun v m => v < 2 ^ 64 ∧ m = Writer.u64 v := by
  intro s v s'
  simp only [u64, parses_u32.bind_run, Reader.pure_run]
  constructor
  · rintro ⟨hi, _, _, ⟨hhi, rfl⟩, rfl, lo, _, _, ⟨hlo, rfl⟩, rfl, rfl, rfl⟩
    have hdiv : (hi * 2 ^ 32 + lo) / 2 ^ 32 = hi := by omega
    have hmod : (hi * 2 ^ 32 + lo) % 2 ^ 32 = lo := by omega
    refine ⟨_, ⟨by omega, rfl⟩, ?_⟩
    rw [Writer.u64, hdiv, hmod, List.append_assoc]
  · rintro ⟨m, ⟨hv, rfl⟩, rfl⟩
    refine ⟨v / 2 ^ 32, _, _, ⟨by omega, rfl⟩, List.append_assoc .., v % 2 ^ 32, _, _,
      ⟨by omega, rfl⟩, rfl, by omega, rfl⟩

theorem parses_str : Parses str fun c m => c.length < 2 ^ 32 ∧ m = Writer.str c := by
  intro s c s'
  rw [str, parses_u32.bind_run]
  constructor
  · rintro ⟨len, _, _, ⟨hlen, rfl⟩, rfl, h⟩
    obtain ⟨_, ⟨rfl, rfl⟩, rfl⟩ := (Reader.parses_bytes len _ _ _).mp h
    exact ⟨_, ⟨hlen, rfl⟩, (List.append_assoc ..).symm⟩
  · rintro ⟨_, ⟨hlen, rfl⟩, rfl⟩
    exact ⟨c.length, _, c ++ s', ⟨hlen, rfl⟩, List.append_assoc ..,
      (Reader.parses_bytes _ _ _ _).mpr ⟨c, ⟨rfl, rfl⟩, rfl⟩⟩

@[simp] theorem length_u8 (v : Nat) : (Writer.u8 v).length = 1 := rfl

@[simp] theorem length_u32 (v : Nat) : (Writer.u32 v).length = 4 := rfl

@[simp] theorem length_u64 (v : Nat) : (Writer.u64 v).length = 8 := rfl

@[simp] theorem length_str (c : Command) : (Writer.str c).length = 4 + c.length := by
  rw [Writer.str, List.length_append, length_u32]

end CrossMachine.Raft.Wire
