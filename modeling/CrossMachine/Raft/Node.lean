import CrossMachine.Common.Ranks

/-!
# One Raft node

The members of `RaftNode` that `mu_` guards, and the regions of `raft.cpp` that
run under it, one definition a function. Each is a function of the node's state
and of what the caller passes in; what the C++ does after it has released the
lock (writing frames to sockets, calling `onCommit_`) is in the results, for
`Cluster` to schedule.

Two choices carry through the whole development:

* A `log_[i]` or `log_.back()` that would leave the vector is `none`. Nothing
  below assumes it away: that it never happens is proved, of every reachable
  state.
* `electionDeadline_` and the clock are not modelled. Whether a deadline has
  passed is a choice of the schedule, so every timing is covered.

Terms, indices and counts are unbounded naturals.
-/

namespace CrossMachine.Raft

/-- A `std::string` command: a byte sequence. -/
abbrev Command := List UInt8

/-- `enum class RaftState`. -/
inductive RaftState where
  | follower
  | candidate
  | leader
  deriving DecidableEq, Repr

/-- `struct LogEntry`. -/
structure LogEntry where
  term : Nat
  index : Nat
  command : Command
  deriving DecidableEq, Repr

/-- The entry the constructor pushes at index 0. -/
def sentinel : LogEntry := { term := 0, index := 0, command := [] }

/-- `struct PeerRpcState`. -/
structure PeerRpcState where
  nextIndex : Nat := 1
  matchIndex : Nat := 0
  deriving DecidableEq, Repr

/-- The `mu_`-guarded members, in a cluster of `n` ranks. A rank of `-1` is `none`. -/
structure RaftNode (n : Nat) where
  state : RaftState := .follower
  currentTerm : Nat := 0
  votedFor : Option (Fin n) := none
  leaderId : Option (Fin n) := none
  log : List LogEntry := [sentinel]
  commitIndex : Nat := 0
  lastApplied : Nat := 0
  peerState : Fin n → PeerRpcState := fun _ => {}
  votesGranted : Nat := 0

/-- The four frames a node emits, with the fields they carry on the wire. An
`AppendEntries` frame carries terms and commands only; the receiver recomputes
each entry's index. -/
inductive Frame (n : Nat) where
  | requestVote (term : Nat) (candidateId : Fin n) (lastLogIndex lastLogTerm : Nat)
  | requestVoteResp (term : Nat) (voteGranted : Bool)
  | appendEntries (term : Nat) (leaderId : Fin n) (prevLogIndex prevLogTerm leaderCommit : Nat)
      (entries : List (Nat × Command))
  | appendEntriesResp (term : Nat) (success : Bool) (matchIndex : Nat)
  deriving DecidableEq, Repr

variable {n : Nat}

/-! ## Role transitions -/

def becomeFollower (nd : RaftNode n) (newTerm : Nat) : RaftNode n :=
  { nd with state := .follower, currentTerm := newTerm, votedFor := none }

def becomeCandidate (self : Fin n) (nd : RaftNode n) : RaftNode n :=
  { nd with
    state := .candidate
    currentTerm := nd.currentTerm + 1
    votedFor := some self
    votesGranted := 1
    leaderId := none }

def becomeLeader (self : Fin n) (nd : RaftNode n) : Option (RaftNode n) := do
  let last ← nd.log.getLast?
  some { nd with
    state := .leader
    leaderId := some self
    peerState := fun _ => { nextIndex := last.index + 1, matchIndex := 0 } }

/-- The locked region of `startElection`, and the frames sent after it. -/
def startElection (self : Fin n) (nd : RaftNode n) :
    Option (RaftNode n × List (Fin n × Frame n)) := do
  let nd := becomeCandidate self nd
  let last ← nd.log.getLast?
  if (peers self).isEmpty then
    -- single-node cluster: trivial majority
    let nd ← becomeLeader self nd
    some (nd, [])
  else
    some (nd, (peers self).map fun peer =>
      (peer, .requestVote nd.currentTerm self last.index last.term))

/-! ## Reading the log -/

/-- The loop `push_back(log_[i])` over the `count` indices from `i` on. -/
def readRange (log : List LogEntry) (i : Nat) : Nat → Option (List LogEntry)
  | 0 => some []
  | count + 1 => do
      let e ← log[i]?
      let es ← readRange log (i + 1) count
      some (e :: es)

/-- `while (lastApplied_ < commitIndex_)`: the drained entries. -/
def drain (nd : RaftNode n) : Option (RaftNode n × List LogEntry) := do
  let newlyCommitted ← readRange nd.log (nd.lastApplied + 1) (nd.commitIndex - nd.lastApplied)
  some ({ nd with lastApplied := max nd.lastApplied nd.commitIndex }, newlyCommitted)

/-- The locked region of `sendAppendEntriesTo`: no frame unless this node leads.
The subtraction `nextIndex - 1` is unsigned, so at `nextIndex = 0` the following
`log_[prevLogIndex]` is out of range. -/
def sendAppendEntriesTo (self : Fin n) (nd : RaftNode n) (peer : Fin n) :
    Option (Option (Frame n)) :=
  if nd.state ≠ .leader then some none
  else
    match (nd.peerState peer).nextIndex with
    | 0 => none
    | prevLogIndex + 1 => do
        let prev ← nd.log[prevLogIndex]?
        let last ← nd.log.getLast?
        let entries ← readRange nd.log (prevLogIndex + 1) (last.index + 1 - (prevLogIndex + 1))
        some (some (.appendEntries nd.currentTerm self prevLogIndex prev.term nd.commitIndex
          (entries.map fun e => (e.term, e.command))))

/-! ## Vote handlers -/

/-- The `logOk` test: is the candidate's log at least as up to date as ours? -/
def logOk (last : LogEntry) (lastLogIndex lastLogTerm : Nat) : Bool :=
  decide (last.term < lastLogTerm) ||
    (decide (lastLogTerm = last.term) && decide (last.index ≤ lastLogIndex))

def handleRequestVote (nd : RaftNode n) (term : Nat) (candidateId : Fin n)
    (lastLogIndex lastLogTerm : Nat) : Option (RaftNode n × Frame n) := do
  let nd := if nd.currentTerm < term then becomeFollower nd term else nd
  if term = nd.currentTerm then
    let last ← nd.log.getLast?
    if (nd.votedFor = none ∨ nd.votedFor = some candidateId) ∧
        logOk last lastLogIndex lastLogTerm = true then
      some ({ nd with votedFor := some candidateId }, .requestVoteResp nd.currentTerm true)
    else
      some (nd, .requestVoteResp nd.currentTerm false)
  else
    -- a stale request is answered, with our own term
    some (nd, .requestVoteResp nd.currentTerm false)

def handleRequestVoteResponse (self : Fin n) (nd : RaftNode n) (term : Nat) (voteGranted : Bool) :
    Option (RaftNode n) :=
  if nd.currentTerm < term then some (becomeFollower nd term)
  else if nd.state ≠ .candidate ∨ term ≠ nd.currentTerm ∨ voteGranted = false then some nd
  else
    let nd := { nd with votesGranted := nd.votesGranted + 1 }
    if (peers self).length + 1 < nd.votesGranted * 2 then becomeLeader self nd else some nd

/-! ## Replication handlers -/

/-- The `for (const LogEntry &e : entries)` loop of `handleAppendEntries`:
truncate at the first entry whose term disagrees, append what is missing. -/
def appendLoop (log : List LogEntry) (idx : Nat) : List LogEntry → List LogEntry
  | [] => log
  | e :: es =>
      match log[idx]? with
      | some old =>
          -- equal terms: the entry is kept as it is, its command is not looked at
          if old.term ≠ e.term then appendLoop (log.take idx ++ [e]) (idx + 1) es
          else appendLoop log (idx + 1) es
      | none => appendLoop (log ++ [e]) (idx + 1) es

/-- The branch taken when `log_[prevLogIndex].term == prevLogTerm`. The commit
index is clamped to the end of the whole log, not to the last new entry. -/
def acceptEntries (nd : RaftNode n) (prevLogIndex : Nat) (entries : List LogEntry)
    (leaderCommit : Nat) : Option (RaftNode n) := do
  let log := appendLoop nd.log (prevLogIndex + 1) entries
  if nd.commitIndex < leaderCommit then
    let last ← log.getLast?
    some { nd with log := log, commitIndex := min leaderCommit last.index }
  else
    some { nd with log := log }

/-- Does `log_` hold an entry of term `prevLogTerm` at `prevLogIndex`? -/
def prevMatches (log : List LogEntry) (prevLogIndex prevLogTerm : Nat) : Bool :=
  match log[prevLogIndex]? with
  | some e => e.term = prevLogTerm
  | none => false

def handleAppendEntries (nd : RaftNode n) (term : Nat) (leaderIdIncoming : Fin n)
    (prevLogIndex prevLogTerm : Nat) (entries : List LogEntry) (leaderCommit : Nat) :
    Option (RaftNode n × List LogEntry × Frame n) :=
  if term < nd.currentTerm then
    some (nd, [], .appendEntriesResp nd.currentTerm false 0)
  else do
    -- a candidate of the same term steps down too, and its vote is reset with it
    let nd := if nd.currentTerm < term ∨ nd.state ≠ .follower then becomeFollower nd term else nd
    let nd := { nd with leaderId := some leaderIdIncoming }
    if prevMatches nd.log prevLogIndex prevLogTerm then
      let nd ← acceptEntries nd prevLogIndex entries leaderCommit
      let (nd, newlyCommitted) ← drain nd
      some (nd, newlyCommitted,
        .appendEntriesResp nd.currentTerm true (prevLogIndex + entries.length))
    else
      let (nd, newlyCommitted) ← drain nd
      some (nd, newlyCommitted, .appendEntriesResp nd.currentTerm false 0)

/-- The replicas `advanceCommitIndex` counts at index `i`: the leader, and every
slot of `peerState_` whose `matchIndex` has reached `i`. -/
def replicaCount (nd : RaftNode n) (i : Nat) : Nat :=
  1 + (List.finRange n).countP fun p => decide (i ≤ (nd.peerState p).matchIndex)

/-- The loop of `advanceCommitIndex`, with `count` indices above `commitIndex_`
left to try, from the top down. The value is the new `commitIndex_`. -/
def advanceLoop (self : Fin n) (nd : RaftNode n) : Nat → Option Nat
  | 0 => some nd.commitIndex
  | count + 1 => do
      let i := nd.commitIndex + (count + 1)
      let e ← nd.log[i]?
      -- an entry of an older term is never committed by counting
      if e.term ≠ nd.currentTerm then advanceLoop self nd count
      else if (peers self).length + 1 < replicaCount nd i * 2 then some i
      else advanceLoop self nd count

def advanceCommitIndex (self : Fin n) (nd : RaftNode n) : Option (RaftNode n) := do
  let last ← nd.log.getLast?
  let commitIndex ← advanceLoop self nd (last.index - nd.commitIndex)
  some { nd with commitIndex := commitIndex }

def setPeer (nd : RaftNode n) (peer : Fin n) (ps : PeerRpcState) : RaftNode n :=
  { nd with peerState := Function.update nd.peerState peer ps }

def handleAppendEntriesResponse (self : Fin n) (nd : RaftNode n) (fromPeer : Fin n) (term : Nat)
    (success : Bool) (matchIndex : Nat) : Option (RaftNode n × List LogEntry) :=
  if nd.currentTerm < term then some (becomeFollower nd term, [])
  else if nd.state ≠ .leader ∨ term ≠ nd.currentTerm then some (nd, [])
  else
    let ps := nd.peerState fromPeer
    if success then do
      let nd := setPeer nd fromPeer
        { nextIndex := matchIndex + 1, matchIndex := max ps.matchIndex matchIndex }
      let nd ← advanceCommitIndex self nd
      drain nd
    else if 1 < ps.nextIndex then
      -- back off and retry on the next heartbeat
      some (setPeer nd fromPeer { ps with nextIndex := ps.nextIndex - 1 }, [])
    else some (nd, [])

/-! ## Receiving a frame -/

/-- The entries of an `AppendEntries` frame as `receiverLoop` rebuilds them. -/
def decodeEntries (prevLogIndex : Nat) : List (Nat × Command) → List LogEntry
  | [] => []
  | (term, command) :: es =>
      { term := term, index := prevLogIndex + 1, command := command } ::
        decodeEntries (prevLogIndex + 1) es

/-- The dispatch of `receiverLoop`: the new state, the entries drained under the
lock, and the reply frame, if any. -/
def receive (self : Fin n) (nd : RaftNode n) (peer : Fin n) :
    Frame n → Option (RaftNode n × List LogEntry × Option (Frame n))
  | .requestVote term candidateId lastLogIndex lastLogTerm => do
      let (nd, reply) ← handleRequestVote nd term candidateId lastLogIndex lastLogTerm
      some (nd, [], some reply)
  | .requestVoteResp term voteGranted => do
      let nd ← handleRequestVoteResponse self nd term voteGranted
      some (nd, [], none)
  | .appendEntries term leaderId prevLogIndex prevLogTerm leaderCommit entries => do
      let (nd, newlyCommitted, reply) ← handleAppendEntries nd term leaderId prevLogIndex
        prevLogTerm (decodeEntries prevLogIndex entries) leaderCommit
      some (nd, newlyCommitted, some reply)
  | .appendEntriesResp term success matchIndex => do
      let (nd, newlyCommitted) ← handleAppendEntriesResponse self nd peer term success matchIndex
      some (nd, newlyCommitted, none)

/-- The locked region of `propose`: the appended entry, if this node leads. -/
def proposeRegion (nd : RaftNode n) (command : Command) :
    Option (RaftNode n × Option LogEntry) :=
  if nd.state ≠ .leader then some (nd, none)
  else do
    let last ← nd.log.getLast?
    let e : LogEntry := { term := nd.currentTerm, index := last.index + 1, command := command }
    some ({ nd with log := nd.log ++ [e] }, some e)

end CrossMachine.Raft
