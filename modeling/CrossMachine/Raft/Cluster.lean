import CrossMachine.Lib.Run
import CrossMachine.Raft.Handlers

/-!
# A cluster of Raft nodes

Every node runs a ticker thread, one receiver thread for each peer and any
number of client threads inside `propose`. A thread alternates between regions
that hold `mu_`, which are one step each, and work it does with the lock
released: writing a frame to a socket, or calling `onCommit_`. That work is
kept as the thread's list of remaining `Task`s, so the frames a region has
produced may reach the sockets in another order than the regions ran in, as
they may in the C++.

Between two ranks there is one FIFO channel a direction. It may lose any frame
it holds, and never duplicates one. A node that has stopped is one that the
schedule no longer picks.

`step` is a function of the state and of the schedule's choice, so a run can be
replayed by evaluating it.
-/

namespace CrossMachine.Raft

open Lib

variable {n : Nat}

/-- What a thread still has to do. `sendAppendEntriesTo` and `startElection`
take the lock again; the other two run without it. -/
inductive Task (n : Nat) where
  | sendFrame (peer : Fin n) (frame : Frame n)
  | sendAppendEntriesTo (peer : Fin n)
  | startElection
  | onCommit (e : LogEntry)
  deriving DecidableEq, Repr

/-- A `propose` call past its first region. `index` is `entry.index`; the rest
of the entry is kept to say what the call appended. -/
structure ProposeCall (n : Nat) where
  entry : LogEntry
  tasks : List (Task n)
  deriving DecidableEq, Repr

structure Cluster (n : Nat) where
  node : Fin n → RaftNode n
  /-- `chan p q`: frames `p` has written and `q` has not read, oldest first. -/
  chan : Fin n → Fin n → List (Frame n)
  ticker : Fin n → List (Task n)
  /-- `receiver s p`: the thread of `s` that serves peer `p`. -/
  receiver : Fin n → Fin n → List (Task n)
  calls : Fin n → List (ProposeCall n)

inductive Thread (n : Nat) where
  | ticker
  | receiver (peer : Fin n)
  | client (call : Nat)
  deriving DecidableEq, Repr

/-- What an observer of the run sees. -/
inductive Event (n : Nat) where
  /-- `voter` gives its vote in `term`, by a granted reply or to itself. -/
  | granted (voter : Fin n) (term : Nat) (candidate : Fin n)
  /-- `lastApplied_` of `node` moves past `e`. -/
  | drained (node : Fin n) (e : LogEntry)
  /-- `onCommit_` of `node` is invoked on `e`. -/
  | onCommit (node : Fin n) (e : LogEntry)
  /-- A `propose` call that appended `e` returns. -/
  | returned (node : Fin n) (e : LogEntry) (result : Bool)
  deriving DecidableEq, Repr

/-- The choices of a schedule. -/
inductive Action (n : Nat) where
  /-- The ticker looks at `state_` and at the deadline. -/
  | tick (s : Fin n) (expired : Bool)
  /-- A thread does its next task. -/
  | run (s : Fin n) (θ : Thread n)
  /-- The receiver thread of `s` for `p` takes a frame and runs its handler. -/
  | recv (s p : Fin n)
  | propose (s : Fin n) (command : Command)
  /-- `wait_for` of a `propose` call ends, by its predicate or by the timeout. -/
  | finish (s : Fin n) (call : Nat)
  /-- The channel from `p` to `q` loses a frame. -/
  | lose (p q : Fin n) (k : Nat)
  deriving DecidableEq, Repr

def initCluster (n : Nat) : Cluster n where
  node := fun _ => {}
  chan := fun _ _ => []
  ticker := fun _ => []
  receiver := fun _ _ => []
  calls := fun _ => []

namespace Cluster

def setNode (σ : Cluster n) (s : Fin n) (nd : RaftNode n) : Cluster n :=
  { σ with node := Function.update σ.node s nd }

def setChan (σ : Cluster n) (p q : Fin n) (fs : List (Frame n)) : Cluster n :=
  { σ with chan := Function.update σ.chan p (Function.update (σ.chan p) q fs) }

def setReceiver (σ : Cluster n) (s p : Fin n) (ts : List (Task n)) : Cluster n :=
  { σ with receiver := Function.update σ.receiver s (Function.update (σ.receiver s) p ts) }

def setCalls (σ : Cluster n) (s : Fin n) (cs : List (ProposeCall n)) : Cluster n :=
  { σ with calls := Function.update σ.calls s cs }

def setTicker (σ : Cluster n) (s : Fin n) (ts : List (Task n)) : Cluster n :=
  { σ with ticker := Function.update σ.ticker s ts }

@[simp] theorem setNode_self (σ : Cluster n) (s : Fin n) (nd : RaftNode n) :
    (σ.setNode s nd).node s = nd := by
  rw [setNode]; exact Function.update_self ..

theorem setNode_ne (σ : Cluster n) {s i : Fin n} (nd : RaftNode n) (h : i ≠ s) :
    (σ.setNode s nd).node i = σ.node i := by
  rw [setNode]; exact Function.update_of_ne h ..

@[simp] theorem setReceiver_self (σ : Cluster n) (s p : Fin n) (ts : List (Task n)) :
    (σ.setReceiver s p ts).receiver s p = ts := by
  simp [setReceiver]

theorem setReceiver_ne (σ : Cluster n) {s p s' p' : Fin n} (ts : List (Task n))
    (h : ¬ (s' = s ∧ p' = p)) : (σ.setReceiver s p ts).receiver s' p' = σ.receiver s' p' := by
  rw [setReceiver]
  dsimp only
  by_cases hs : s' = s
  · subst hs
    rw [Function.update_self, Function.update_of_ne fun hp => h ⟨rfl, hp⟩]
  · rw [Function.update_of_ne hs]

@[simp] theorem setCalls_self (σ : Cluster n) (s : Fin n) (cs : List (ProposeCall n)) :
    (σ.setCalls s cs).calls s = cs := by
  rw [setCalls]; exact Function.update_self ..

theorem setCalls_ne (σ : Cluster n) {s i : Fin n} (cs : List (ProposeCall n)) (h : i ≠ s) :
    (σ.setCalls s cs).calls i = σ.calls i := by
  rw [setCalls]; exact Function.update_of_ne h ..

@[simp] theorem setTicker_self (σ : Cluster n) (s : Fin n) (ts : List (Task n)) :
    (σ.setTicker s ts).ticker s = ts := by
  rw [setTicker]; exact Function.update_self ..

theorem setTicker_ne (σ : Cluster n) {s i : Fin n} (ts : List (Task n)) (h : i ≠ s) :
    (σ.setTicker s ts).ticker i = σ.ticker i := by
  rw [setTicker]; exact Function.update_of_ne h ..

/-- The remaining tasks of a thread of `s`. -/
def tasks (σ : Cluster n) (s : Fin n) : Thread n → List (Task n)
  | .ticker => σ.ticker s
  | .receiver p => σ.receiver s p
  | .client k => ((σ.calls s)[k]?.map ProposeCall.tasks).getD []

def setTasks (σ : Cluster n) (s : Fin n) (ts : List (Task n)) : Thread n → Cluster n
  | .ticker => σ.setTicker s ts
  | .receiver p => σ.setReceiver s p ts
  | .client k => σ.setCalls s ((σ.calls s).modify k fun c => { c with tasks := ts })

/-! Only `setNode` changes a node. -/

@[simp] theorem setReceiver_node (σ : Cluster n) (s p : Fin n) (ts : List (Task n)) :
    (σ.setReceiver s p ts).node = σ.node := rfl

@[simp] theorem setCalls_node (σ : Cluster n) (s : Fin n) (cs : List (ProposeCall n)) :
    (σ.setCalls s cs).node = σ.node := rfl

@[simp] theorem setTasks_node (σ : Cluster n) (s : Fin n) (ts : List (Task n)) (θ : Thread n) :
    (σ.setTasks s ts θ).node = σ.node := by
  cases θ <;> rfl

/-- One task of a thread of `s`: the state after it, the tasks it leaves behind
for the same thread, and what is seen. -/
def runTask (σ : Cluster n) (s : Fin n) :
    Task n → Option (Cluster n × List (Task n) × List (Event n))
  | .sendFrame peer frame => some (σ.setChan s peer (σ.chan s peer ++ [frame]), [], [])
  | .sendAppendEntriesTo peer => do
      let frame ← Raft.sendAppendEntriesTo s (σ.node s) peer
      -- built under the lock, written without it
      some (σ, (frame.map (Task.sendFrame peer)).toList, [])
  | .startElection => do
      let (nd, out) ← Raft.startElection s (σ.node s)
      some (σ.setNode s nd, out.map fun (peer, frame) => .sendFrame peer frame,
        [.granted s nd.currentTerm s])
  | .onCommit e => some (σ, [], [.onCommit s e])

/-- The vote a handler has just given, if it did. -/
def voteEvent (s : Fin n) : Frame n → Option (Frame n) → List (Event n)
  | .requestVote _ candidateId _ _, some (.requestVoteResp term true) =>
      [.granted s term candidateId]
  | _, _ => []

/-- Give the receiver thread of `s` for `p` the frame `f`. -/
def deliver (σ : Cluster n) (s p : Fin n) (f : Frame n) :
    Option (Cluster n × List (Event n)) := do
  let (nd, newlyCommitted, reply) ← receive s (σ.node s) p f
  -- the callbacks come before the reply
  some ((σ.setNode s nd).setReceiver s p
      (newlyCommitted.map Task.onCommit ++ (reply.map (Task.sendFrame p)).toList),
    newlyCommitted.map (Event.drained s) ++ voteEvent s f reply)

def step (σ : Cluster n) : Action n → Option (Cluster n × List (Event n))
  | .tick s expired =>
      match σ.ticker s with
      | [] =>
          if (σ.node s).state = .leader then
            some (σ.setTicker s ((peers s).map Task.sendAppendEntriesTo), [])
          -- by the time `startElection` takes the lock the node may lead
          else if expired then some (σ.setTicker s [.startElection], [])
          else some (σ, [])
      | _ :: _ => none
  | .run s θ =>
      match σ.tasks s θ with
      | [] => none
      | t :: ts => do
          let (σ', more, ev) ← σ.runTask s t
          some (σ'.setTasks s (more ++ ts) θ, ev)
  | .recv s p =>
      -- one frame at a time: the last one's callbacks and reply come first
      match σ.receiver s p, σ.chan p s with
      | [], f :: rest => (σ.setChan p s rest).deliver s p f
      | _, _ => none
  | .propose s command => do
      let (nd, entry) ← proposeRegion (σ.node s) command
      match entry with
      | none => some (σ, [])
      | some e =>
          some ((σ.setNode s nd).setCalls s (σ.calls s ++
            [{ entry := e, tasks := (peers s).map Task.sendAppendEntriesTo }]), [])
  | .finish s k =>
      match (σ.calls s)[k]? with
      | some { entry := e, tasks := [] } =>
          -- after a timeout too, `wait_for` returns what its predicate says
          some (σ.setCalls s ((σ.calls s).eraseIdx k),
            [.returned s e (decide (e.index ≤ (σ.node s).commitIndex))])
      | _ => none
  | .lose p q k => some (σ.setChan p q ((σ.chan p q).eraseIdx k), [])

end Cluster

/-! ## What a step can do -/

/-- The outcomes of a step, one constructor for each way it can go. -/
inductive Happens (σ : Cluster n) : Action n → Cluster n → List (Event n) → Prop where
  | heartbeat {s : Fin n} {x : Bool} (hidle : σ.ticker s = [])
      (hlead : (σ.node s).state = .leader) :
      Happens σ (.tick s x) (σ.setTicker s ((peers s).map Task.sendAppendEntriesTo)) []
  | timeout {s : Fin n} (hidle : σ.ticker s = []) (hrole : (σ.node s).state ≠ .leader) :
      Happens σ (.tick s true) (σ.setTicker s [.startElection]) []
  | idle {s : Fin n} (hidle : σ.ticker s = []) : Happens σ (.tick s false) σ []
  | write {s q : Fin n} {θ : Thread n} {f : Frame n} {ts : List (Task n)}
      (ht : σ.tasks s θ = .sendFrame q f :: ts) :
      Happens σ (.run s θ) ((σ.setChan s q (σ.chan s q ++ [f])).setTasks s ts θ) []
  | skip {s q : Fin n} {θ : Thread n} {ts : List (Task n)}
      (ht : σ.tasks s θ = .sendAppendEntriesTo q :: ts)
      (hs : sendAppendEntriesTo s (σ.node s) q = some none) :
      Happens σ (.run s θ) (σ.setTasks s ts θ) []
  | prepare {s q : Fin n} {θ : Thread n} {f : Frame n} {ts : List (Task n)}
      (ht : σ.tasks s θ = .sendAppendEntriesTo q :: ts)
      (hs : sendAppendEntriesTo s (σ.node s) q = some (some f)) :
      Happens σ (.run s θ) (σ.setTasks s (.sendFrame q f :: ts) θ) []
  | elect {s : Fin n} {θ : Thread n} {nd : RaftNode n} {out : List (Fin n × Frame n)}
      {ts : List (Task n)} (ht : σ.tasks s θ = .startElection :: ts)
      (hs : startElection s (σ.node s) = some (nd, out)) :
      Happens σ (.run s θ)
        ((σ.setNode s nd).setTasks s (out.map (fun (q, f) => Task.sendFrame q f) ++ ts) θ)
        [.granted s nd.currentTerm s]
  | callback {s : Fin n} {θ : Thread n} {e : LogEntry} {ts : List (Task n)}
      (ht : σ.tasks s θ = .onCommit e :: ts) :
      Happens σ (.run s θ) (σ.setTasks s ts θ) [.onCommit s e]
  | handle {s p : Fin n} {f : Frame n} {rest : List (Frame n)} {nd : RaftNode n}
      {out : List LogEntry} {reply : Option (Frame n)} (hidle : σ.receiver s p = [])
      (hchan : σ.chan p s = f :: rest) (hr : receive s (σ.node s) p f = some (nd, out, reply)) :
      Happens σ (.recv s p)
        (((σ.setChan p s rest).setNode s nd).setReceiver s p
          (out.map Task.onCommit ++ (reply.map (Task.sendFrame p)).toList))
        (out.map (Event.drained s) ++ Cluster.voteEvent s f reply)
  | reject {s : Fin n} {c : Command} (hrole : (σ.node s).state ≠ .leader) :
      Happens σ (.propose s c) σ []
  | accept {s : Fin n} {c : Command} {nd : RaftNode n} {e : LogEntry}
      (hp : proposeRegion (σ.node s) c = some (nd, some e)) :
      Happens σ (.propose s c)
        ((σ.setNode s nd).setCalls s (σ.calls s ++
          [{ entry := e, tasks := (peers s).map Task.sendAppendEntriesTo }])) []
  | finish {s : Fin n} {k : Nat} {e : LogEntry}
      (hc : (σ.calls s)[k]? = some { entry := e, tasks := [] }) :
      Happens σ (.finish s k) (σ.setCalls s ((σ.calls s).eraseIdx k))
        [.returned s e (decide (e.index ≤ (σ.node s).commitIndex))]
  | lose {p q : Fin n} {k : Nat} :
      Happens σ (.lose p q k) (σ.setChan p q ((σ.chan p q).eraseIdx k)) []

theorem happens_run {σ σ' : Cluster n} {s : Fin n} {θ : Thread n} {ev : List (Event n)}
    (h : σ.step (.run s θ) = some (σ', ev)) : Happens σ (.run s θ) σ' ev := by
  rw [Cluster.step] at h
  split at h
  · exact absurd h (by simp)
  · rename_i t ts ht
    simp only [Option.bind_eq_bind, Option.bind_eq_some_iff] at h
    obtain ⟨⟨σ₁, more, ev₁⟩, hrun, heq⟩ := h
    simp only [Option.some.injEq, Prod.mk.injEq] at heq
    obtain ⟨rfl, rfl⟩ := heq
    cases t with
    | sendFrame q f =>
        simp only [Cluster.runTask, Option.some.injEq, Prod.mk.injEq] at hrun
        obtain ⟨rfl, rfl, rfl⟩ := hrun
        exact .write ht
    | sendAppendEntriesTo q =>
        simp only [Cluster.runTask, Option.bind_eq_bind, Option.bind_eq_some_iff, Option.some.injEq,
          Prod.mk.injEq] at hrun
        obtain ⟨frame, hs, rfl, rfl, rfl⟩ := hrun
        cases frame with
        | none => exact .skip ht hs
        | some f => exact .prepare ht hs
    | startElection =>
        simp only [Cluster.runTask, Option.bind_eq_bind, Option.bind_eq_some_iff, Option.some.injEq,
          Prod.mk.injEq] at hrun
        obtain ⟨⟨nd, out⟩, hs, rfl, rfl, rfl⟩ := hrun
        exact .elect ht hs
    | onCommit e =>
        simp only [Cluster.runTask, Option.some.injEq, Prod.mk.injEq] at hrun
        obtain ⟨rfl, rfl, rfl⟩ := hrun
        exact .callback ht

theorem happens_of_step {σ σ' : Cluster n} {a : Action n} {ev : List (Event n)}
    (h : σ.step a = some (σ', ev)) : Happens σ a σ' ev := by
  cases a with
  | tick s x =>
      rw [Cluster.step] at h
      split at h
      · rename_i hidle
        split at h
        · rename_i hlead
          cases h
          exact .heartbeat hidle hlead
        · rename_i hrole
          cases x with
          | true =>
              simp only [if_true, Option.some.injEq, Prod.mk.injEq] at h
              obtain ⟨rfl, rfl⟩ := h
              exact .timeout hidle hrole
          | false =>
              simp only [Bool.false_eq_true, if_false, Option.some.injEq, Prod.mk.injEq] at h
              obtain ⟨rfl, rfl⟩ := h
              exact .idle hidle
      · exact absurd h (by simp)
  | run s θ => exact happens_run h
  | recv s p =>
      rw [Cluster.step] at h
      split at h
      · rename_i f rest hidle hchan
        simp only [Cluster.deliver, Option.bind_eq_bind, Option.bind_eq_some_iff] at h
        obtain ⟨⟨nd, out, reply⟩, hr, heq⟩ := h
        simp only [Option.some.injEq, Prod.mk.injEq] at heq
        obtain ⟨rfl, rfl⟩ := heq
        exact .handle hidle hchan hr
      · exact absurd h (by simp)
  | propose s c =>
      simp only [Cluster.step, Option.bind_eq_bind, Option.bind_eq_some_iff] at h
      obtain ⟨⟨nd, entry⟩, hp, h⟩ := h
      cases entry with
      | none =>
          cases h
          rcases proposeRegion_cases hp with ⟨hrole, _⟩ | ⟨_, _, _, _, _, _, hr⟩
          · exact .reject hrole
          · exact absurd hr (by simp)
      | some e =>
          cases h
          exact .accept hp
  | finish s k =>
      rw [Cluster.step] at h
      split at h
      · rename_i e hc
        cases h
        exact .finish hc
      · exact absurd h (by simp)
  | lose p q k =>
      simp only [Cluster.step, Option.some.injEq, Prod.mk.injEq] at h
      obtain ⟨rfl, rfl⟩ := h
      exact .lose

/-- States reached from the initial one by any schedule, with the events seen. -/
abbrev Reaches (es : List (Event n)) (σ : Cluster n) : Prop :=
  Run Cluster.step Any (initCluster n) es σ

end CrossMachine.Raft
