import RaftStore.Leadership

/-!
# One node in any environment

The process of one node on its own. Its goroutines take their steps with
whatever answers there are, and its handlers are called with whatever
requests; no peers list, reply or request is ruled out. What holds here
holds of each node of a cluster (`Cluster.node_reachable`).

`Proc.Acts` is the inversion: a step is one of a goroutine, as `Proc.Move`
has it, or one of the outcomes of the two handlers.
-/

namespace RaftStore

open Runs

inductive NodeAction where
  | own (net : Net) (a : Local)
  | requestVote (args : RequestVoteArgs)
  | appendEntries (args : AppendEntriesArgs)

/-- Install what `HandleAppendEntries` left; it may have started a call of
`applyCommitted`. -/
def Proc.installed (p : Proc) (node : Node) (apply : Bool) : Proc :=
  if apply then { p with node := node }.startApply else { p with node := node }

def Proc.act (p : Proc) : NodeAction → Option Proc
  | .own net a => (p.step net a).map Prod.fst
  | .requestVote args => some { p with node := (p.node.handleRequestVote args).1 }
  | .appendEntries args =>
      some (p.installed (p.node.handleAppendEntries args).1
        (p.node.handleAppendEntries args).2.2)

/-- What one step does to the process. -/
inductive Proc.Acts (p : Proc) : NodeAction → Proc → Prop where
  | own {net : Net} {a : Local} {p' : Proc} {out : Output}
      (hmove : p.Move net a p' out) (hstep : p.step net a = some (p', out)) :
      Acts p (.own net a) p'
  | voted {args : RequestVoteArgs} {node : Node} {reply : RequestVoteReply}
      (hout : p.node.VoteOutcome args (node, reply)) :
      Acts p (.requestVote args) { p with node := node }
  | appended {args : AppendEntriesArgs} {node : Node}
      {reply : AppendEntriesReply} {apply : Bool}
      (hout : p.node.AppendOutcome args (node, reply, apply)) :
      Acts p (.appendEntries args) (p.installed node apply)

theorem Proc.acts {p p' : Proc} {a : NodeAction} (h : p.act a = some p') :
    p.Acts a p' := by
  cases a with
  | own net a =>
      obtain ⟨⟨q, out⟩, hstep, rfl⟩ := Option.map_eq_some_iff.mp h
      exact .own (Proc.move hstep) hstep
  | requestVote args =>
      cases h
      exact .voted (p.node.handleRequestVote_outcome args)
  | appendEntries args =>
      cases h
      exact .appended (p.node.handleAppendEntries_outcome args)

namespace Proc

@[simp] theorem installed_node (p : Proc) (node : Node) (apply : Bool) :
    (p.installed node apply).node = node := by
  cases apply <;> rfl

@[simp] theorem installed_run (p : Proc) (node : Node) (apply : Bool) :
    (p.installed node apply).run = p.run := by
  cases apply <;> rfl

/-- A heartbeat goroutine that has its reply leaves `run` waiting for the
others. -/
theorem digestHeartbeat_waits (p : Proc) (ws : List Heartbeat) (k : Nat)
    (peer : String) (args : AppendEntriesArgs) (reply : AppendEntriesReply) :
    ∃ ws', (p.digestHeartbeat ws k peer args reply).run = .heartbeats ws' := by
  unfold digestHeartbeat
  split
  · exact ⟨_, signalStepDown_run ..⟩
  · split
    · exact ⟨_, rfl⟩
    · split <;> exact ⟨_, rfl⟩

end Proc

/-! ## The nodes of a cluster -/

namespace Proc

variable {p p' : Proc}

/-- Only `stop` sets `stopped`, and `down` is not the process's to set. -/
def flags (p : Proc) : Bool × Bool := (p.stopped, p.down)

theorem signalStepDown_flags (p : Proc) (term : Nat) :
    (p.signalStepDown term).flags = p.flags := by
  unfold signalStepDown
  split <;> rfl

theorem digestHeartbeat_flags (p : Proc) (ws : List Heartbeat) (k : Nat)
    (peer : String) (args : AppendEntriesArgs) (reply : AppendEntriesReply) :
    (p.digestHeartbeat ws k peer args reply).flags = p.flags := by
  unfold digestHeartbeat
  split
  · exact signalStepDown_flags ..
  · split
    · rfl
    · split <;> rfl

theorem digestReplicate_flags (p : Proc) (r : Nat) (c : ReplicateCall)
    (k : Nat) (peer : String) (reply : AppendEntriesReply) :
    (p.digestReplicate r c k peer reply).flags = p.flags := by
  unfold digestReplicate
  split
  · exact signalStepDown_flags ..
  · split
    · rfl
    · split <;> rfl

theorem Move.flags {net : Net} {a : Local} {out : Output}
    (h : p.Move net a p' out) :
    p'.flags = p.flags ∨ a = .stop ∧ p'.flags = (true, p.down) := by
  cases h with
  | heartbeatReply => exact .inl (digestHeartbeat_flags ..)
  | replicateReply => exact .inl (digestReplicate_flags ..)
  | stop => exact .inr ⟨rfl, rfl⟩
  | _ => exact .inl rfl

theorem Acts.flags {a : NodeAction} (h : p.Acts a p') :
    p'.flags = p.flags
      ∨ (∃ net, a = .own net .stop) ∧ p'.flags = (true, p.down) := by
  cases h with
  | own hmove =>
      rcases hmove.flags with hsame | ⟨rfl, hstop⟩
      · exact .inl hsame
      · exact .inr ⟨⟨_, rfl⟩, hstop⟩
  | voted hout => exact .inl rfl
  | @appended _ _ _ apply hout => cases apply <;> exact .inl rfl

theorem Acts.down {a : NodeAction} (h : p.Acts a p') : p'.down = p.down := by
  rcases h.flags with hsame | ⟨-, hstop⟩
  · exact congrArg Prod.snd hsame
  · exact congrArg Prod.snd hstop

theorem Acts.stopped {a : NodeAction} (h : p.Acts a p')
    (ha : ∀ net, a ≠ .own net .stop) : p'.stopped = p.stopped := by
  rcases h.flags with hsame | ⟨⟨net, hstop⟩, -⟩
  · exact congrArg Prod.fst hsame
  · exact absurd hstop (ha net)

theorem Move.peers {net : Net} {a : Local} {out : Output} (h : p.Move net a p' out) :
    p'.node.peers = p.node.peers := by
  cases core_move h with
  | quiet hcore => exact congrArg Core.peers hcore
  | timeout => rfl
  | stepDown => exact p.node.becomeFollower_peers _
  | elect _ hwins =>
      show (p.node.becomeLeader _).peers = _
      rw [Node.becomeLeader, if_pos hwins]
  | campaign _ hnode | append _ hnode =>
      rw [hnode]
      rfl
  | heartbeat _ _ hnode | replicateSend _ _ _ _ hnode => rw [hnode]

theorem Acts.peers {a : NodeAction} (h : p.Acts a p') : p'.node.peers = p.node.peers := by
  cases h with
  | own hmove => exact hmove.peers
  | voted hout => exact hout.keeps.peers
  | appended hout =>
      rw [installed_node]
      exact hout.keeps.peers

end Proc

/-- What a step of the cluster is to one of its nodes. -/
theorem Cluster.act_step {C : Cluster} {w w' : World} {a : Action}
    (h : C.step w a = some w') (n : String) :
    (∃ down, w'.proc n = { w.proc n with down := down })
      ∨ w'.proc n = newProc n (C.peers n) (C.applyCh n)
      ∨ (w.proc n).down = false ∧ ∃ x, (w.proc n).act x = some (w'.proc n) := by
  have hsame : w'.proc n = w.proc n →
      ∃ down, w'.proc n = { w.proc n with down := down } := fun hp => ⟨_, hp⟩
  cases a with
  | «local» m l =>
      simp only [Cluster.step] at h
      split at h
      · rename_i hm
        obtain ⟨⟨p, out⟩, hstep, rfl⟩ := Option.map_eq_some_iff.mp h
        by_cases hnm : n = m
        · subst hnm
          refine .inr (.inr ⟨hm.2, .own w.net l, ?_⟩)
          simp only [Proc.act, hstep, World.commit, Function.update_self]
          rfl
        · exact .inl (hsame (by simp [World.commit, hnm]))
      · cases h
  | deliverVote call =>
      simp only [Cluster.step] at h
      split at h
      · rename_i c hcall
        split at h
        · rename_i hup
          cases h
          by_cases hnm : n = c.dst
          · subst hnm
            refine .inr (.inr ⟨hup, .requestVote c.args, ?_⟩)
            simp [Proc.act, World.answerVote]
          · exact .inl (hsame (by simp [World.answerVote, hnm]))
        · cases h
      · cases h
  | deliverAppend call =>
      simp only [Cluster.step] at h
      split at h
      · rename_i c hcall
        split at h
        · rename_i hup
          cases h
          by_cases hnm : n = c.dst
          · subst hnm
            refine .inr (.inr ⟨hup, .appendEntries c.args, ?_⟩)
            simp [Proc.act, Proc.installed, World.answerAppend]
          · exact .inl (hsame (by simp [World.answerAppend, hnm]))
        · cases h
      · cases h
  | crash m =>
      cases C.raw_move h
      by_cases hnm : n = m
      · subst hnm
        exact .inl ⟨true, by simp [World.setProc]⟩
      · exact .inl (hsame (by simp [World.setProc, hnm]))
  | restart m =>
      cases C.raw_move h
      by_cases hnm : n = m
      · subst hnm
        exact .inr (.inl (by simp [World.restart]))
      · exact .inl (hsame (by simp [World.restart, hnm]))

/-- Any step. -/
def anyAct (_ : Proc) (_ : NodeAction) : Prop := True

instance (p : Proc) (a : NodeAction) : Decidable (anyAct p a) :=
  inferInstanceAs (Decidable True)

/-- Up to the flag of a crash, every process of a cluster is in a state
that the node reaches on its own. -/
theorem Cluster.node_reachable {C : Cluster} {ok : World → Action → Prop}
    {w : World} (h : Reachable C.step ok C.init w) (n : String) :
    ∃ p, Reachable Proc.act anyAct (newProc n (C.peers n) (C.applyCh n)) p
      ∧ p.down = false ∧ ∃ down, w.proc n = { p with down := down } := by
  have hinit : ∃ p, Reachable Proc.act anyAct
      (newProc n (C.peers n) (C.applyCh n)) p
        ∧ p.down = false ∧ ∃ down, newProc n (C.peers n) (C.applyCh n)
          = { p with down := down } :=
    ⟨_, ⟨[], .init⟩, rfl, false, rfl⟩
  refine h.invariant (P := fun w => ∃ p, Reachable Proc.act anyAct
    (newProc n (C.peers n) (C.applyCh n)) p
      ∧ p.down = false ∧ ∃ down, w.proc n = { p with down := down }) hinit ?_
  rintro w a w' - ⟨p, hr, hup, down, hp⟩ - hstep
  rcases C.act_step hstep n with ⟨down', hp'⟩ | hp' | ⟨hlive, x, hact⟩
  · exact ⟨p, hr, hup, down', by rw [hp', hp]⟩
  · rw [hp']
    exact hinit
  · -- a process that is not down is the node's own
    have heq : w.proc n = p := by
      rw [hp] at hlive ⊢
      cases hlive
      rw [← hup]
    rw [heq] at hact
    obtain ⟨past, hrun⟩ := hr
    exact ⟨w'.proc n, ⟨_, hrun.step trivial hact⟩,
      (Proc.acts hact).down.trans hup, _, rfl⟩

/-! ## Environments for concrete runs -/

/-- No answers at all. -/
def silentNet : Net := ⟨[], [], [], []⟩

/-- The first of the two peers grants its vote in `term`. -/
def grantNet (term : Nat) : Net := { silentNet with voteAnswers := [(0, ⟨term, true⟩)] }

/-- The node times out and wins with the vote of its first peer. -/
def winSteps (term : Nat) : List NodeAction :=
  [.own silentNet .load, .own silentNet .timeout, .own silentNet .load,
    .own silentNet .campaign, .own (grantNet term) (.voteReply 0 0),
    .own silentNet .becomeLeader]

end RaftStore
