import Mathlib.Algebra.Order.Group.Multiset
import CrossMachine.Lib.Sum
import CrossMachine.Raft.Cluster
import CrossMachine.Raft.Regions

/-!
# The cluster simulates the protocol

A state of the cluster stands for a world whose bag of frames is everything that is
on its way: frames in the channels, and frames a thread has decided to send and not
yet written. Writing a frame to a socket then moves it from one place to another and
changes nothing; the order in which threads get to their sockets does not matter.

`Sim` ties the two together and carries the protocol's invariant with it, so a
property of worlds becomes a property of every reachable state of the cluster, and a
property of moves one of every step and of every run.
-/

namespace CrossMachine.Raft

open Lib

variable {n : Nat}

/-! ## What is in flight -/

/-- The packet a task of `s` will write, if it writes one. -/
def Task.packet (s : Fin n) : Task n → Option (Packet n)
  | .sendFrame peer frame => some ⟨s, peer, frame⟩
  | _ => none

/-- The packets a thread of `s` with tasks `ts` has in hand. -/
def packetsOf (s : Fin n) (ts : List (Task n)) : Multiset (Packet n) :=
  (ts.filterMap (Task.packet s) : Multiset (Packet n))

/-- The packets in the channel from `p` to `q`. -/
def packetsIn (p q : Fin n) (fs : List (Frame n)) : Multiset (Packet n) :=
  (fs.map fun f => (⟨p, q, f⟩ : Packet n) : Multiset (Packet n))

/-- The packets the `propose` calls of `s` have in hand. -/
def packetsOfCalls (s : Fin n) (cs : List (ProposeCall n)) : Multiset (Packet n) :=
  (cs.map fun c => packetsOf s c.tasks).sum

def inFlight (σ : Cluster n) : Multiset (Packet n) :=
  ∑ p, ∑ q, packetsIn p q (σ.chan p q) + ∑ s, packetsOf s (σ.ticker s) +
    ∑ s, ∑ p, packetsOf s (σ.receiver s p) + ∑ s, packetsOfCalls s (σ.calls s)

@[simp] theorem packetsOf_nil (s : Fin n) : packetsOf s [] = 0 := rfl

theorem packetsOf_append (s : Fin n) (ts us : List (Task n)) :
    packetsOf s (ts ++ us) = packetsOf s ts + packetsOf s us := by
  rw [packetsOf, List.filterMap_append, ← Multiset.coe_add]; rfl

theorem packetsOf_cons (s : Fin n) (t : Task n) (ts : List (Task n)) :
    packetsOf s (t :: ts) = packetsOf s [t] + packetsOf s ts :=
  packetsOf_append s [t] ts

theorem packetsIn_append (p q : Fin n) (fs gs : List (Frame n)) :
    packetsIn p q (fs ++ gs) = packetsIn p q fs + packetsIn p q gs := by
  rw [packetsIn, List.map_append, ← Multiset.coe_add]; rfl

variable {s p q s' : Fin n} {ts : List (Task n)} {t : Task n} {σ σ' : Cluster n} {θ : Thread n}
  {a : Action n} {ev : List (Event n)} {c : ProposeCall n} {w : World n}

/-- Tasks that write nothing. -/
theorem packetsOf_eq_zero (h : ∀ t ∈ ts, Task.packet s t = none) : packetsOf s ts = 0 := by
  rw [packetsOf, List.filterMap_eq_nil_iff.mpr h]; rfl

theorem packetsOf_quiet (h : Task.packet s t = none) : packetsOf s [t] = 0 :=
  packetsOf_eq_zero fun _ ht => List.mem_singleton.mp ht ▸ h

theorem packetsOf_ballots (s : Fin n) (out : List (Fin n × Frame n)) :
    packetsOf s (out.map fun (q, f) => Task.sendFrame q f)
      = (out.map fun (q, f) => (⟨s, q, f⟩ : Packet n) : Multiset (Packet n)) := by
  rw [packetsOf, List.filterMap_map]
  exact congrArg _ (congrFun List.filterMap_eq_map out)

theorem inFlight_init : inFlight (initCluster n) = 0 := by
  simp [inFlight, initCluster, packetsIn, packetsOfCalls]

/-! Changing one place changes the bag by that place. -/

theorem inFlight_setNode (σ : Cluster n) (s : Fin n) (nd : RaftNode n) :
    inFlight (σ.setNode s nd) = inFlight σ := rfl

theorem inFlight_setChan (σ : Cluster n) (p q : Fin n) (fs : List (Frame n)) :
    inFlight (σ.setChan p q fs) + packetsIn p q (σ.chan p q) = inFlight σ + packetsIn p q fs := by
  have hsum := sum_update₂_add packetsIn σ.chan p q fs
  simp only [inFlight, Cluster.setChan]
  rw [add_right_comm _ _ (packetsIn p q _), add_right_comm _ _ (packetsIn p q _),
    add_right_comm _ _ (packetsIn p q _), hsum]
  abel

theorem inFlight_setTicker (σ : Cluster n) (s : Fin n) (ts : List (Task n)) :
    inFlight (σ.setTicker s ts) + packetsOf s (σ.ticker s) = inFlight σ + packetsOf s ts := by
  have hsum := sum_update_add packetsOf σ.ticker s ts
  simp only [inFlight, Cluster.setTicker]
  rw [add_right_comm _ _ (packetsOf s _), add_right_comm _ _ (packetsOf s _),
    add_assoc (∑ p, ∑ q, packetsIn p q (σ.chan p q)), hsum]
  abel

theorem inFlight_setReceiver (σ : Cluster n) (s p : Fin n) (ts : List (Task n)) :
    inFlight (σ.setReceiver s p ts) + packetsOf s (σ.receiver s p)
      = inFlight σ + packetsOf s ts := by
  have hsum := sum_update₂_add (fun s (_ : Fin n) => packetsOf s) σ.receiver s p ts
  simp only [inFlight, Cluster.setReceiver]
  rw [add_right_comm _ _ (packetsOf s _),
    add_assoc (∑ p, ∑ q, packetsIn p q (σ.chan p q) + ∑ s, packetsOf s (σ.ticker s)), hsum]
  abel

theorem inFlight_setCalls (σ : Cluster n) (s : Fin n) (cs : List (ProposeCall n)) :
    inFlight (σ.setCalls s cs) + packetsOfCalls s (σ.calls s)
      = inFlight σ + packetsOfCalls s cs := by
  have hsum := sum_update_add packetsOfCalls σ.calls s cs
  simp only [inFlight, Cluster.setCalls]
  rw [add_assoc, hsum]
  abel

theorem packetsOfCalls_modify (s : Fin n) (ts : List (Task n)) :
    ∀ (cs : List (ProposeCall n)) (k : Nat) (c : ProposeCall n), cs[k]? = some c →
      packetsOfCalls s (cs.modify k fun c => { c with tasks := ts }) + packetsOf s c.tasks
        = packetsOfCalls s cs + packetsOf s ts := by
  intro cs
  induction cs with
  | nil => intro k c h; simp at h
  | cons c₀ cs ih =>
      intro k c h
      cases k with
      | zero =>
          rw [List.getElem?_cons_zero] at h
          obtain rfl := Option.some.inj h
          simp only [List.modify_zero_cons, packetsOfCalls, List.map_cons, List.sum_cons]
          abel
      | succ k =>
          rw [List.getElem?_cons_succ] at h
          have := ih k c h
          simp only [packetsOfCalls, List.modify_succ_cons, List.map_cons, List.sum_cons] at this ⊢
          rw [add_assoc, this, add_assoc]

/-- A thread that has something to do exchanges it for something else. -/
theorem inFlight_setTasks (σ : Cluster n) (s : Fin n) (θ : Thread n) {us : List (Task n)}
    (hts : σ.tasks s θ = ts) (hne : ts ≠ []) :
    inFlight (σ.setTasks s us θ) + packetsOf s ts = inFlight σ + packetsOf s us := by
  cases θ with
  | ticker => rw [← hts]; exact inFlight_setTicker σ s us
  | receiver p => rw [← hts]; exact inFlight_setReceiver σ s p us
  | client k =>
      cases hk : (σ.calls s)[k]? with
      | none => exact absurd (by rw [← hts]; simp [Cluster.tasks, hk]) hne
      | some c =>
          have hc : c.tasks = ts := by simpa [Cluster.tasks, hk] using hts
          have hcalls := inFlight_setCalls σ s
            ((σ.calls s).modify k fun c => { c with tasks := us })
          have hmod := packetsOfCalls_modify s us (σ.calls s) k c hk
          refine add_right_cancel (b := packetsOfCalls s (σ.calls s)) ?_
          rw [add_right_comm, Cluster.setTasks, hcalls, ← hc, add_assoc, hmod]
          abel

/-- A frame in a channel is in flight. -/
theorem inFlight_chan {f : Frame n} {rest : List (Frame n)} (h : σ.chan p q = f :: rest) :
    inFlight σ = ⟨p, q, f⟩ ::ₘ inFlight (σ.setChan p q rest) := by
  have hset := inFlight_setChan σ p q rest
  refine add_right_cancel (b := packetsIn p q rest) ?_
  rw [← hset, h, Multiset.cons_add, ← Multiset.add_cons]; rfl

/-- A thread of `s` has done `t`, which left `us` behind. -/
theorem inFlight_run (us : List (Task n)) (ht : σ.tasks s θ = t :: ts) :
    inFlight (σ.setTasks s (us ++ ts) θ) + packetsOf s [t] = inFlight σ + packetsOf s us := by
  have hset : inFlight (σ.setTasks s (us ++ ts) θ) + packetsOf s (t :: ts)
      = inFlight σ + packetsOf s (us ++ ts) := inFlight_setTasks σ s θ ht (by simp)
  rw [packetsOf_cons, packetsOf_append] at hset
  refine add_right_cancel (b := packetsOf s ts) ?_
  rw [add_assoc, hset, add_assoc]

theorem inFlight_quiet (ht : σ.tasks s θ = t :: ts) (hp : Task.packet s t = none) :
    inFlight (σ.setTasks s ts θ) = inFlight σ := by
  have hrun := inFlight_run [] ht
  rwa [packetsOf_quiet hp, packetsOf_nil, add_zero, add_zero] at hrun

theorem heartbeat_quiet (h : t ∈ (peers s).map Task.sendAppendEntriesTo) :
    Task.packet s t = none := by
  obtain ⟨q, _, rfl⟩ := List.mem_map.mp h
  rfl

theorem inFlight_tick (hidle : σ.ticker s = []) (hquiet : ∀ t ∈ ts, Task.packet s t = none) :
    inFlight (σ.setTicker s ts) = inFlight σ := by
  have hset := inFlight_setTicker σ s ts
  rwa [hidle, packetsOf_nil, add_zero, packetsOf_eq_zero hquiet, add_zero] at hset

/-- Handling a frame: it leaves the channel, and the reply is in the thread's hands. -/
theorem inFlight_handle {rest : List (Frame n)} {nd : RaftNode n} {out : List LogEntry}
    {reply : Option (Frame n)} (hidle : σ.receiver s p = []) :
    inFlight (((σ.setChan p s rest).setNode s nd).setReceiver s p
        (out.map Task.onCommit ++ (reply.map (Task.sendFrame p)).toList))
      = ((reply.map fun r => (⟨s, p, r⟩ : Packet n)).toList : Multiset (Packet n))
        + inFlight (σ.setChan p s rest) := by
  have hset := inFlight_setReceiver ((σ.setChan p s rest).setNode s nd) s p
    (out.map Task.onCommit ++ (reply.map (Task.sendFrame p)).toList)
  rw [show ((σ.setChan p s rest).setNode s nd).receiver s p = [] from hidle, packetsOf_nil,
    add_zero] at hset
  have hout : packetsOf s (out.map Task.onCommit) = 0 := by
    refine packetsOf_eq_zero fun t ht => ?_
    obtain ⟨e, _, rfl⟩ := List.mem_map.mp ht
    rfl
  have hreply : packetsOf s (reply.map (Task.sendFrame p)).toList
      = ((reply.map fun r => (⟨s, p, r⟩ : Packet n)).toList : Multiset (Packet n)) := by
    cases reply <;> rfl
  rw [hset, packetsOf_append, hout, zero_add, hreply, add_comm]; rfl

/-- A new `propose` call has nothing in hand yet. -/
theorem inFlight_accept (σ : Cluster n) (s : Fin n) (e : LogEntry) :
    inFlight (σ.setCalls s (σ.calls s ++
      [{ entry := e, tasks := (peers s).map Task.sendAppendEntriesTo }])) = inFlight σ := by
  have hset := inFlight_setCalls σ s (σ.calls s ++
    [{ entry := e, tasks := (peers s).map Task.sendAppendEntriesTo }])
  have hnew : packetsOfCalls s (σ.calls s ++
      [{ entry := e, tasks := (peers s).map Task.sendAppendEntriesTo }])
        = packetsOfCalls s (σ.calls s) := by
    simp only [packetsOfCalls, List.map_append, List.map_cons, List.map_nil, List.sum_append,
      List.sum_cons, List.sum_nil, packetsOf_eq_zero fun t ht => heartbeat_quiet ht, add_zero]
  rw [hnew] at hset
  exact add_right_cancel hset

/-- A call that ends takes nothing with it. -/
theorem inFlight_finish {k : Nat} {e : LogEntry}
    (hc : (σ.calls s)[k]? = some { entry := e, tasks := [] }) :
    inFlight (σ.setCalls s ((σ.calls s).eraseIdx k)) = inFlight σ := by
  have hset := inFlight_setCalls σ s ((σ.calls s).eraseIdx k)
  have herase : packetsOfCalls s ((σ.calls s).eraseIdx k) = packetsOfCalls s (σ.calls s) := by
    obtain ⟨hk, hget⟩ := List.getElem?_eq_some_iff.mp hc
    have hsplit : σ.calls s = (σ.calls s).take k ++ ⟨e, []⟩ :: (σ.calls s).drop (k + 1) := by
      rw [← hget, List.getElem_cons_drop, List.take_append_drop]
    rw [List.eraseIdx_eq_take_drop_succ]
    conv_rhs => rw [hsplit]
    simp [packetsOfCalls]
  rw [herase] at hset
  exact add_right_cancel hset

theorem inFlight_lose (σ : Cluster n) (p q : Fin n) (k : Nat) :
    inFlight (σ.setChan p q ((σ.chan p q).eraseIdx k)) ≤ inFlight σ := by
  have hset := inFlight_setChan σ p q ((σ.chan p q).eraseIdx k)
  have hsub : packetsIn p q ((σ.chan p q).eraseIdx k) ≤ packetsIn p q (σ.chan p q) :=
    Multiset.coe_le.mpr (((List.eraseIdx_sublist _ _).map _).subperm)
  refine le_of_add_le_add_right (a := packetsIn p q (σ.chan p q)) ?_
  rw [hset]
  exact add_le_add_right hsub _

/-! ## What a step does to nodes and frames -/

/-- The nodes and the bag of frames after a step. -/
inductive Effect (σ : Cluster n) :
    Action n → (Fin n → RaftNode n) → Multiset (Packet n) → Prop where
  /-- No node changes; frames may get lost. -/
  | quiet {a : Action n} {net : Multiset (Packet n)} (hle : net ≤ inFlight σ)
      (hrefuse : ∀ {s c}, a = .propose s c → (σ.node s).state ≠ .leader) :
      Effect σ a σ.node net
  | elect {s : Fin n} {θ : Thread n} {ts : List (Task n)} {nd : RaftNode n}
      {out : List (Fin n × Frame n)} (ht : σ.tasks s θ = .startElection :: ts)
      (hs : startElection s (σ.node s) = some (nd, out)) :
      Effect σ (.run s θ) (Function.update σ.node s nd)
        ((out.map fun (q, f) => (⟨s, q, f⟩ : Packet n) : Multiset (Packet n)) + inFlight σ)
  | send {s q : Fin n} {θ : Thread n} {ts : List (Task n)} {f : Frame n}
      (ht : σ.tasks s θ = .sendAppendEntriesTo q :: ts)
      (hs : sendAppendEntriesTo s (σ.node s) q = some (some f)) :
      Effect σ (.run s θ) σ.node (⟨s, q, f⟩ ::ₘ inFlight σ)
  | handle {s p : Fin n} {f : Frame n} {rest : List (Frame n)} {net : Multiset (Packet n)}
      {nd : RaftNode n} {out : List LogEntry} {reply : Option (Frame n)}
      (hchan : σ.chan p s = f :: rest) (hflight : inFlight σ = ⟨p, s, f⟩ ::ₘ net)
      (hr : receive s (σ.node s) p f = some (nd, out, reply)) :
      Effect σ (.recv s p) (Function.update σ.node s nd)
        (((reply.map fun r => (⟨s, p, r⟩ : Packet n)).toList : Multiset (Packet n)) + net)
  | accept {s : Fin n} {c : Command} {nd : RaftNode n} {e : LogEntry}
      (hp : proposeRegion (σ.node s) c = some (nd, some e)) :
      Effect σ (.propose s c) (Function.update σ.node s nd) (inFlight σ)

theorem effect_of_happens (h : Happens σ a σ' ev) : Effect σ a σ'.node (inFlight σ') := by
  -- a task that touches neither node nor bag
  have hquiet : ∀ {s : Fin n} {θ : Thread n} {t : Task n} {ts : List (Task n)},
      σ.tasks s θ = t :: ts → Task.packet s t = none →
      Effect σ (.run s θ) (σ.setTasks s ts θ).node (inFlight (σ.setTasks s ts θ)) := by
    intro s θ t ts ht hp
    rw [inFlight_quiet ht hp, Cluster.setTasks_node]
    exact .quiet le_rfl (by simp)
  cases h with
  | heartbeat hidle hlead =>
      exact .quiet (inFlight_tick hidle fun _ => heartbeat_quiet).le (by simp)
  | timeout hidle hrole =>
      refine .quiet (inFlight_tick hidle fun t ht => ?_).le (by simp)
      rw [List.mem_singleton.mp ht]; rfl
  | idle => exact .quiet le_rfl (by simp)
  | write ht =>
      rename_i s q θ f ts
      -- the frame goes from the thread's hands into the channel
      have hset := inFlight_setChan σ s q (σ.chan s q ++ [f])
      rw [packetsIn_append, ← add_assoc, add_right_comm] at hset
      have ht' : (σ.setChan s q (σ.chan s q ++ [f])).tasks s θ = .sendFrame q f :: ts := by
        cases θ <;> exact ht
      have hrun := inFlight_run [] ht'
      rw [add_right_cancel hset, packetsOf_nil, add_zero] at hrun
      rw [Cluster.setTasks_node]
      exact .quiet (add_right_cancel hrun).le (by simp)
  | skip ht hs => exact hquiet ht rfl
  | prepare ht hs =>
      rename_i s q θ f ts
      -- a frame counts as in flight from the moment it is built
      have hrun := inFlight_run [.sendFrame q f] ht
      rw [packetsOf_quiet rfl, add_zero, add_comm] at hrun
      rw [Cluster.setTasks_node, show Task.sendFrame q f :: ts = [.sendFrame q f] ++ ts from rfl,
        hrun]
      exact .send ht hs
  | elect ht hs =>
      rename_i s θ nd out ts
      have ht' : (σ.setNode s nd).tasks s θ = .startElection :: ts := by cases θ <;> exact ht
      have hrun := inFlight_run (out.map fun (q, f) => Task.sendFrame q f) ht'
      rw [packetsOf_quiet rfl, add_zero, packetsOf_ballots, inFlight_setNode, add_comm] at hrun
      rw [Cluster.setTasks_node, hrun]
      exact .elect ht hs
  | callback ht => exact hquiet ht rfl
  | handle hidle hchan hr =>
      rw [inFlight_handle hidle]
      exact .handle hchan (inFlight_chan hchan) hr
  | reject hrole =>
      refine .quiet le_rfl fun heq => ?_
      obtain ⟨rfl, rfl⟩ := Action.propose.inj heq
      exact hrole
  | accept hp =>
      rename_i s c nd e
      have hflight := inFlight_accept (σ.setNode s nd) s e
      rw [inFlight_setNode] at hflight
      show Effect σ _ (Function.update σ.node s nd) (inFlight ((σ.setNode s nd).setCalls s
        ((σ.setNode s nd).calls s ++ _)))
      rw [hflight]
      exact .accept hp
  | finish hc => exact .quiet (inFlight_finish hc).le (by simp)
  | lose => exact .quiet (inFlight_lose _ _ _ _) (by simp)

/-! ## What the threads have to do -/

/-- Some thread of `s` has `t` to do. -/
def Cluster.Holds (σ : Cluster n) (s : Fin n) (t : Task n) : Prop :=
  t ∈ σ.ticker s ∨ (∃ p, t ∈ σ.receiver s p) ∨ ∃ c ∈ σ.calls s, t ∈ c.tasks

theorem holds_of_mem_tasks (h : t ∈ σ.tasks s θ) : σ.Holds s t := by
  cases θ with
  | ticker => exact Or.inl h
  | receiver p => exact Or.inr (Or.inl ⟨p, h⟩)
  | client k =>
      cases hk : (σ.calls s)[k]? with
      | none => simp [Cluster.tasks, hk] at h
      | some c =>
          refine Or.inr (Or.inr ⟨c, List.mem_of_getElem? hk, ?_⟩)
          simpa [Cluster.tasks, hk] using h

theorem holds_setTicker (h : (σ.setTicker s ts).Holds s' t) : σ.Holds s' t ∨ (s' = s ∧ t ∈ ts) := by
  rcases h with h | h | h
  · by_cases hs : s' = s
    · subst hs
      rw [Cluster.setTicker_self] at h
      exact Or.inr ⟨rfl, h⟩
    · rw [Cluster.setTicker_ne _ _ hs] at h
      exact Or.inl (Or.inl h)
  · exact Or.inl (Or.inr (Or.inl h))
  · exact Or.inl (Or.inr (Or.inr h))

theorem holds_setReceiver (h : (σ.setReceiver s p ts).Holds s' t) :
    σ.Holds s' t ∨ (s' = s ∧ t ∈ ts) := by
  rcases h with h | ⟨q, h⟩ | h
  · exact Or.inl (Or.inl h)
  · by_cases hsq : s' = s ∧ q = p
    · obtain ⟨rfl, rfl⟩ := hsq
      rw [Cluster.setReceiver_self] at h
      exact Or.inr ⟨rfl, h⟩
    · rw [Cluster.setReceiver_ne _ _ hsq] at h
      exact Or.inl (Or.inr (Or.inl ⟨q, h⟩))
  · exact Or.inl (Or.inr (Or.inr h))

theorem holds_setCalls {cs : List (ProposeCall n)} (h : (σ.setCalls s cs).Holds s' t) :
    σ.Holds s' t ∨ (s' = s ∧ ∃ c ∈ cs, t ∈ c.tasks) := by
  rcases h with h | h | ⟨c, hc, h⟩
  · exact Or.inl (Or.inl h)
  · exact Or.inl (Or.inr (Or.inl h))
  · by_cases hs : s' = s
    · subst hs
      rw [Cluster.setCalls_self] at hc
      exact Or.inr ⟨rfl, c, hc, h⟩
    · rw [Cluster.setCalls_ne _ _ hs] at hc
      exact Or.inl (Or.inr (Or.inr ⟨c, hc, h⟩))

/-- Setting the tasks of one call leaves its entry and the other calls alone. -/
theorem mem_modify_tasks {cs : List (ProposeCall n)} {k : Nat}
    (h : c ∈ cs.modify k fun c => { c with tasks := ts }) :
    (∃ c₀ ∈ cs, c₀.entry = c.entry) ∧ (c ∈ cs ∨ c.tasks = ts) := by
  obtain ⟨j, hj⟩ := List.getElem?_of_mem h
  rw [List.getElem?_modify] at hj
  cases hc₀ : cs[j]? with
  | none => rw [hc₀] at hj; simp at hj
  | some c₀ =>
      rw [hc₀] at hj
      have hmem := List.mem_of_getElem? hc₀
      simp only [Option.map_eq_map, Option.map_some, Option.some.injEq] at hj
      split at hj
      · subst hj
        exact ⟨⟨c₀, hmem, rfl⟩, Or.inr rfl⟩
      · subst hj
        exact ⟨⟨c₀, hmem, rfl⟩, Or.inl hmem⟩

theorem holds_setTasks (h : (σ.setTasks s ts θ).Holds s' t) : σ.Holds s' t ∨ (s' = s ∧ t ∈ ts) := by
  cases θ with
  | ticker => exact holds_setTicker h
  | receiver p => exact holds_setReceiver h
  | client k =>
      rcases holds_setCalls h with h | ⟨rfl, c, hc, h⟩
      · exact Or.inl h
      · rcases (mem_modify_tasks hc).2 with hold | hnew
        · exact Or.inl (Or.inr (Or.inr ⟨c, hold, h⟩))
        · exact Or.inr ⟨rfl, hnew ▸ h⟩

/-- The calls in progress and the entries they appended are not touched by a task. -/
theorem calls_setTasks (h : c ∈ (σ.setTasks s ts θ).calls s') :
    ∃ c₀ ∈ σ.calls s', c₀.entry = c.entry := by
  cases θ with
  | ticker => exact ⟨c, h, rfl⟩
  | receiver p => exact ⟨c, h, rfl⟩
  | client k =>
      rw [Cluster.setTasks] at h
      by_cases hs : s' = s
      · subst hs
        rw [Cluster.setCalls_self] at h
        exact (mem_modify_tasks h).1
      · rw [Cluster.setCalls_ne _ _ hs] at h
        exact ⟨c, h, rfl⟩

/-! ## The simulation -/

/-- `e` was appended by the leader of its term. -/
def History.Appended (h : History n) (e : LogEntry) : Prop :=
  1 ≤ e.index ∧ (h.leaderLog e.term)[e.index]? = some e

theorem History.Appended.mono {h h' : History n} {e : LogEntry} (ha : h.Appended e)
    (hx : h.Extends h') : h'.Appended e :=
  ⟨ha.1, prefix_getElem? (hx.grows _) ha.2⟩

structure Sim (σ : Cluster n) (w : World n) : Prop where
  node : w.node = σ.node
  net : w.net = inFlight σ
  inv : Inv w
  /-- Nobody means to send entries to itself. -/
  targets : ∀ {s q}, σ.Holds s (.sendAppendEntriesTo q) → s ≠ q
  /-- What a `propose` call appended is in the log of the term it did so in. -/
  calls : ∀ {s c}, c ∈ σ.calls s → w.hist.Appended c.entry

theorem sim_init : Sim (initCluster n) (initWorld n) where
  node := rfl
  net := inFlight_init.symm
  inv := inv_init
  targets := by
    intro s q h
    rcases h with h | ⟨p, h⟩ | ⟨c, h, _⟩ <;> simp [initCluster] at h
  calls := by intro s c h; simp [initCluster] at h

/-- The moves behind a step. -/
theorem Sim.moves (h : Sim σ w) {node : Fin n → RaftNode n} {net : Multiset (Packet n)}
    (he : Effect σ a node net) :
    ∃ w', Moves w w' ∧ w'.node = node ∧ w'.net = net ∧
      ∀ {s c nd e}, a = .propose s c → proposeRegion (σ.node s) c = some (nd, some e) →
        w'.hist.Appended e := by
  cases he with
  | quiet hle hrefuse =>
      refine ⟨{ w with net := net }, .single (.lose (by rw [h.net]; exact hle)), h.node, rfl, ?_⟩
      intro s c nd e ha hp
      rcases proposeRegion_cases hp with ⟨_, _, hr⟩ | ⟨hlead, _⟩
      · exact absurd hr (by simp)
      · exact absurd hlead (hrefuse ha)
  | elect ht hs =>
      rw [← h.node] at hs ⊢
      obtain ⟨w', hm, hn, hnet⟩ := startElection_does hs
      rw [← h.net]
      exact ⟨w', hm, hn, hnet, by simp⟩
  | send ht hs =>
      have hsq := h.targets (holds_of_mem_tasks (by rw [ht]; exact List.mem_cons_self))
      rw [← h.node] at hs ⊢
      obtain ⟨w', hm, hn, hnet⟩ := sendAppendEntriesTo_does h.inv hsq hs
      rw [Function.update_eq_self] at hn
      rw [← h.net]
      exact ⟨w', hm, hn, hnet, by simp⟩
  | handle hchan hflight hr =>
      rw [← h.node] at hr ⊢
      obtain ⟨w', hm, hn, hnet⟩ := receive_does h.inv (h.net.trans hflight) hr
      exact ⟨w', hm, hn, hnet, by simp⟩
  | accept hp =>
      rw [← h.node] at hp ⊢
      obtain ⟨w', hm, hn, hnet, he⟩ := proposeRegion_moves h.inv hp
      refine ⟨w', hm, hn, hnet.trans h.net, ?_⟩
      intro s c nd e heq hp'
      obtain ⟨rfl, rfl⟩ := Action.propose.inj heq
      rw [hp] at hp'
      simp only [Option.some.injEq, Prod.mk.injEq] at hp'
      rw [← hp'.2]
      exact he

theorem heartbeat_targets
    (h : Task.sendAppendEntriesTo q ∈ (peers s).map Task.sendAppendEntriesTo) : s ≠ q := by
  obtain ⟨p, hp, heq⟩ := List.mem_map.mp h
  obtain rfl := Task.sendAppendEntriesTo.inj heq
  exact (mem_peers.mp hp).symm

/-- A step sets threads to send entries to other nodes only. -/
theorem targets_of_happens (h : Happens σ a σ' ev)
    (htargets : ∀ {s q}, σ.Holds s (.sendAppendEntriesTo q) → s ≠ q)
    (hq : σ'.Holds s (.sendAppendEntriesTo q)) : s ≠ q := by
  -- a thread that drops its first task for tasks of another kind
  have hrun : ∀ {σ₁ : Cluster n} {s' : Fin n} {θ : Thread n} {t : Task n} {ts : List (Task n)}
      (us : List (Task n)), (σ₁.setTasks s' (us ++ ts) θ).Holds s (.sendAppendEntriesTo q) →
      (∀ {t}, σ₁.Holds s t → σ.Holds s t) → σ.tasks s' θ = t :: ts →
      Task.sendAppendEntriesTo q ∉ us → s ≠ q := by
    intro σ₁ s' θ t ts us hq hholds ht hus
    rcases holds_setTasks hq with hold | ⟨rfl, hmem⟩
    · exact htargets (hholds hold)
    · rcases List.mem_append.mp hmem with hmem | hmem
      · exact absurd hmem hus
      · exact htargets (holds_of_mem_tasks (by rw [ht]; exact List.mem_cons_of_mem _ hmem))
  cases h with
  | heartbeat hidle hlead =>
      rcases holds_setTicker hq with hold | ⟨rfl, hmem⟩
      · exact htargets hold
      · exact heartbeat_targets hmem
  | timeout hidle hrole =>
      rcases holds_setTicker hq with hold | ⟨rfl, hmem⟩
      · exact htargets hold
      · exact absurd hmem (by simp)
  | idle => exact htargets hq
  | write ht => exact hrun [] hq (fun hold => hold) ht (by simp)
  | skip ht hs => exact hrun [] hq (fun hold => hold) ht (by simp)
  | prepare ht hs => exact hrun [_] hq (fun hold => hold) ht (by simp)
  | elect ht hs => exact hrun _ hq (fun hold => hold) ht (by simp)
  | callback ht => exact hrun [] hq (fun hold => hold) ht (by simp)
  | handle hidle hchan hr =>
      rename_i s' p f rest nd out reply
      rcases holds_setReceiver hq with hold | ⟨rfl, hmem⟩
      · exact htargets hold
      · rcases List.mem_append.mp hmem with hmem | hmem
        · obtain ⟨e, _, heq⟩ := List.mem_map.mp hmem
          exact absurd heq (by simp)
        · cases reply <;> simp at hmem
  | reject => exact htargets hq
  | accept hp =>
      rcases holds_setCalls hq with hold | ⟨rfl, c', hc', hmem⟩
      · exact htargets hold
      · rcases List.mem_append.mp hc' with hc' | hc'
        · exact htargets (Or.inr (Or.inr ⟨c', hc', hmem⟩))
        · rw [List.mem_singleton.mp hc'] at hmem
          exact heartbeat_targets hmem
  | finish hc =>
      rcases holds_setCalls hq with hold | ⟨rfl, c', hc', hmem⟩
      · exact htargets hold
      · exact htargets (Or.inr (Or.inr ⟨c', List.mem_of_mem_eraseIdx hc', hmem⟩))
  | lose => exact htargets hq

/-- A call in progress was in progress before, or its command has just been accepted. -/
theorem calls_of_happens (h : Happens σ a σ' ev) (hc : c ∈ σ'.calls s) :
    (∃ c₀ ∈ σ.calls s, c₀.entry = c.entry) ∨
    ∃ cmd nd, a = .propose s cmd ∧ proposeRegion (σ.node s) cmd = some (nd, some c.entry) := by
  cases h with
  | heartbeat | timeout | idle | reject | lose => exact Or.inl ⟨c, hc, rfl⟩
  | handle => exact Or.inl ⟨c, hc, rfl⟩
  | skip | prepare | callback => exact Or.inl (calls_setTasks hc)
  | write ht =>
      rename_i s' q θ f ts
      have hold : ∃ c₀ ∈ (σ.setChan s' q (σ.chan s' q ++ [f])).calls s, c₀.entry = c.entry :=
        calls_setTasks hc
      exact Or.inl hold
  | elect ht hs =>
      rename_i s' θ nd out ts
      have hold : ∃ c₀ ∈ (σ.setNode s' nd).calls s, c₀.entry = c.entry := calls_setTasks hc
      exact Or.inl hold
  | accept hp =>
      rename_i s' cmd nd e
      by_cases hs : s = s'
      · subst hs
        rw [Cluster.setCalls_self] at hc
        rcases List.mem_append.mp hc with hc | hc
        · exact Or.inl ⟨c, hc, rfl⟩
        · rw [List.mem_singleton.mp hc]
          exact Or.inr ⟨cmd, nd, rfl, hp⟩
      · rw [Cluster.setCalls_ne _ _ hs] at hc
        exact Or.inl ⟨c, hc, rfl⟩
  | finish hk =>
      rename_i s' k e
      by_cases hs : s = s'
      · subst hs
        rw [Cluster.setCalls_self] at hc
        exact Or.inl ⟨c, List.mem_of_mem_eraseIdx hc, rfl⟩
      · rw [Cluster.setCalls_ne _ _ hs] at hc
        exact Or.inl ⟨c, hc, rfl⟩

/-- **Every step of the cluster is a sequence of moves.** -/
theorem step_simulates (h : Sim σ w) (hstep : σ.step a = some (σ', ev)) :
    ∃ w', Moves w w' ∧ Sim σ' w' := by
  have hhap := happens_of_step hstep
  obtain ⟨w', hm, hnode, hnet, hnew⟩ := h.moves (effect_of_happens hhap)
  obtain ⟨hi, hx, _⟩ := inv_moves h.inv hm
  refine ⟨w', hm, hnode, hnet, hi, targets_of_happens hhap h.targets, ?_⟩
  intro s c hc
  rcases calls_of_happens hhap hc with ⟨c₀, hc₀, heq⟩ | ⟨cmd, nd, ha, hp⟩
  · rw [← heq]
    exact (h.calls hc₀).mono hx
  · exact hnew ha hp

/-- **So is every run.** -/
theorem run_simulates {es : List (Event n)} (h : Run Cluster.step Any σ es σ') (hs : Sim σ w) :
    ∃ w', Moves w w' ∧ Sim σ' w' :=
  h.simulate (fun hs _ hstep => step_simulates hs hstep) hs

theorem reaches_sim {es : List (Event n)} (h : Reaches es σ) : ∃ w, Sim σ w := by
  obtain ⟨w, _, hs⟩ := run_simulates h sim_init
  exact ⟨w, hs⟩

end CrossMachine.Raft
