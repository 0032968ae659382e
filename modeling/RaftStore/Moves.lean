import RaftStore.World

/-!
# What a step of a process can do

`Proc.Move` is the step function turned into a relation, one constructor
a step with its guard and its outcome; `Proc.move` is the only place
where the step function is taken apart. The relations after it look at
one aspect each and forget the rest, so that an invariant about that
aspect has few cases:

- `CoreMove`: the part of a node that elections and log replication are
  about (`Node.core`), and what is sent. A step that changes neither is
  `quiet`.
- `RunMove`: where the `run` goroutine is.
- `BookMove`: the indices a node keeps beside its core.
- `CallMove`: the calls of `Replicate` in progress.
- `FeedMove`: the calls of `applyCommitted` and what they send.
-/

namespace RaftStore

/-! ## The step relation -/

namespace Proc

inductive Move (net : Net) (p : Proc) : Local → Proc → Output → Prop where
  | load (hrun : p.run = .top) :
      Move net p .load { p with run :=
        match p.node.state with
        | .follower => .loopFollower
        | .candidate => .loopCandidate
        | .leader => .sendHeartbeats } {}
  | timeout (hrun : p.run = .loopFollower) :
      Move net p .timeout
        { p with node := p.node.electionTimeout, run := .top } {}
  | recvStepDown {term : Nat} {rest : List Nat} (hrun : p.run.selects = true)
      (hch : p.stepDownCh = term :: rest) :
      Move net p .recvStepDown
        { p with run := .stepDown term, stepDownCh := rest } {}
  | stepDown {term : Nat} (hrun : p.run = .stepDown term) :
      Move net p .stepDown
        { p with node := p.node.becomeFollower term, run := .top } {}
  | campaign (hrun : p.run = .loopCandidate) :
      Move net p .campaign
        { p with
          node := p.node.startElection
          run := if p.node.peers = [] then .top else .counting
            { args := p.node.voteRequest
              firstCall := net.voteCalls.length
              votes := 1
              ballots := p.node.peers.map fun _ => .waiting } }
        { voteCalls := p.node.peers.map fun peer =>
            ⟨p.node.id, peer, p.node.voteRequest⟩
          events := [.campaigned p.node.id p.node.voteRequest] }
  | voteReply {c : Candidacy} {k j : Nat} {reply : RequestVoteReply}
      (hrun : p.run = .counting c) (hwait : c.ballots[k]? = some .waiting)
      (hans : net.voteAnswers[j]? = some (c.firstCall + k, reply)) :
      Move net p (.voteReply k j)
        (p.countVote c k reply.voteGranted reply.term) {}
  | voteError {c : Candidacy} {k : Nat} (hrun : p.run = .counting c)
      (hwait : c.ballots[k]? = some .waiting) :
      Move net p (.voteError k) (p.countVote c k false 0) {}
  | electionTimeout {c : Candidacy} (hrun : p.run = .counting c) :
      Move net p .electionTimeout { p with run := .top } {}
  | becomeLeader {term : Nat} (hrun : p.run = .becomeLeader term) :
      Move net p .becomeLeader
        { p with node := p.node.becomeLeader term, run := .top }
        { events := if p.node.wins term then
            [.elected p.node.id term p.node.log] else [] }
  | tick (hrun : p.run = .loopLeader) :
      Move net p .tick { p with run :=
        if p.node.state = .leader then .sendHeartbeats else .top } {}
  | spawnHeartbeats (hrun : p.run = .sendHeartbeats) :
      Move net p .spawnHeartbeats
        { p with run := .heartbeats (p.node.peers.map fun _ => .lock) } {}
  | heartbeat {k : Nat} {ws ws' : List Heartbeat} {peer : String}
      {args : AppendEntriesArgs} (hrun : p.run = .heartbeats ws)
      (hws : ws[k]? = some .lock) (hpeer : p.node.peers[k]? = some peer)
      (hargs : args = p.node.heartbeatArgs peer)
      (hws' : ws' = ws.set k (.awaiting net.appendCalls.length args)) :
      Move net p (.heartbeat k) { p with run := .heartbeats ws' }
        { appendCalls := [⟨p.node.id, peer, args⟩] }
  | heartbeatError {k call : Nat} {ws : List Heartbeat}
      {args : AppendEntriesArgs} (hrun : p.run = .heartbeats ws)
      (hws : ws[k]? = some (.awaiting call args)) :
      Move net p (.heartbeatError k)
        { p with run := .heartbeats (ws.set k .done) } {}
  | heartbeatReply {k j call : Nat} {ws : List Heartbeat} {peer : String}
      {args : AppendEntriesArgs} {reply : AppendEntriesReply}
      (hrun : p.run = .heartbeats ws)
      (hws : ws[k]? = some (.awaiting call args))
      (hpeer : p.node.peers[k]? = some peer)
      (hans : net.appendAnswers[j]? = some (call, reply)) :
      Move net p (.heartbeatReply k j) (p.digestHeartbeat ws k peer args reply) {}
  | heartbeatApplied {k a : Nat} {ws : List Heartbeat}
      (hrun : p.run = .heartbeats ws) (hws : ws[k]? = some (.applying a))
      (hdone : p.appliers[a]? = some .done) :
      Move net p (.heartbeatApplied k)
        { p with run := .heartbeats (ws.set k .done) } {}
  | joinHeartbeats {ws : List Heartbeat} (hrun : p.run = .heartbeats ws)
      (hall : ws.all (· = .done) = true) :
      Move net p .joinHeartbeats { p with run := .loopLeader } {}
  | replicate {command : Command} (hstate : p.node.state = .leader) :
      Move net p (.replicate command)
        { p with
          node := p.node.appendCommand command
          replicates := p.replicates ++ [p.openCall command] } {}
  | replicateStale {r k : Nat} {c : ReplicateCall} {peer : String}
      (hcall : p.replicates[r]? = some c)
      (hpeer : p.node.peers[k]? = some peer)
      (hworker : c.workers[k]? = some .lock)
      (hstale : p.node.currentTerm ≠ c.term ∨ p.node.state ≠ .leader) :
      Move net p (.replicateSend r k) (p.setWorker r c k (.done false)) {}
  | replicateSend {r k : Nat} {c : ReplicateCall} {peer : String}
      {args : AppendEntriesArgs} (hcall : p.replicates[r]? = some c)
      (hpeer : p.node.peers[k]? = some peer)
      (hworker : c.workers[k]? = some .lock)
      (hterm : p.node.currentTerm = c.term) (hstate : p.node.state = .leader)
      (hargs : args
        = p.node.replicateArgs peer c.entry c.term c.leaderCommit) :
      Move net p (.replicateSend r k)
        (p.setWorker r c k (.awaiting net.appendCalls.length args))
        { appendCalls := [⟨p.node.id, peer, args⟩] }
  | replicateError {r k call : Nat} {c : ReplicateCall}
      {args : AppendEntriesArgs} (hcall : p.replicates[r]? = some c)
      (hworker : c.workers[k]? = some (.awaiting call args)) :
      Move net p (.replicateError r k) (p.setWorker r c k (.done false)) {}
  | replicateReply {r k j call : Nat} {c : ReplicateCall} {peer : String}
      {args : AppendEntriesArgs} {reply : AppendEntriesReply}
      (hcall : p.replicates[r]? = some c)
      (hpeer : p.node.peers[k]? = some peer)
      (hworker : c.workers[k]? = some (.awaiting call args))
      (hans : net.appendAnswers[j]? = some (call, reply)) :
      Move net p (.replicateReply r k j) (p.digestReplicate r c k peer reply) {}
  | receiveAck {r k : Nat} {c : ReplicateCall} {ok : Bool}
      (hcall : p.replicates[r]? = some c) (hloc : c.loc = .waiting)
      (hworker : c.workers[k]? = some (.done ok)) :
      Move net p (.receiveAck r k)
        { p with replicates := p.replicates.set r (p.countAck c k ok) } {}
  | giveUp {a : Local} {r : Nat} {c c' : ReplicateCall}
      {result : ReplicateResult}
      (ha : a = .replicateTimeout r ∨ a = .replicateStopped r)
      (hresult : result ≠ .ok) (hcall : p.replicates[r]? = some c)
      (hloc : c.loc = .waiting) (hc' : c' = { c with loc := .returned result }) :
      Move net p a { p with replicates := p.replicates.set r c' } {}
  | replicateCommit {r : Nat} {c c' : ReplicateCall}
      (hcall : p.replicates[r]? = some c) (hloc : c.loc = .commit)
      (hc' : c' = { c with loc := .applying p.appliers.length }) :
      Move net p (.replicateCommit r)
        { p with
          node := p.node.commitEntry c.entry.index
          replicates := p.replicates.set r c' }.startApply {}
  | replicateReturn {r a : Nat} {c c' : ReplicateCall}
      (hcall : p.replicates[r]? = some c) (hloc : c.loc = .applying a)
      (hdone : p.appliers[a]? = some .done)
      (hc' : c' = { c with loc := .returned .ok }) :
      Move net p (.replicateReturn r)
        { p with replicates := p.replicates.set r c' }
        { events := [.replicated p.node.id c.entry] }
  | collect {a : Nat} (hstart : p.appliers[a]? = some .start) :
      Move net p (.collect a)
        { p with
          node := p.node.claim
          appliers := p.appliers.set a (sendLater p.applyCh p.node.toApply)
          collected := p.collected ++ p.node.toApply } {}
  | send {a : Nat} {entry : LogEntry} {rest : List LogEntry}
      {queue : List Command} (hsending : p.appliers[a]? = some (.sending (entry :: rest)))
      (hqueue : p.applyCh = some queue) (hroom : queue.length < applyCap) :
      Move net p (.send a)
        { p with
          appliers := p.appliers.set a (sendLater p.applyCh rest)
          applyCh := some (queue ++ [entry.command])
          sends := p.sends ++ [entry] } {}
  | applyLoop {command : Command} {queue : List Command}
      (hqueue : p.applyCh = some (command :: queue)) :
      Move net p .applyLoop
        { p with applyCh := some queue, applied := p.applied ++ [command] } {}
  | stop : Move net p .stop { p with stopped := true } {}
  | quit : Move net p .quit { p with run := .stopped } {}
  | abandon {a : Nat} {rest : List LogEntry}
      (hsending : p.appliers[a]? = some (.sending rest)) :
      Move net p (.abandon a)
        { p with appliers := p.appliers.set a .done } {}

theorem giveUp_move {net : Net} {p p' : Proc} {a : Local} {r : Nat}
    {result : ReplicateResult} {out : Output}
    (ha : a = .replicateTimeout r ∨ a = .replicateStopped r)
    (hresult : result ≠ .ok) (h : p.giveUp r result = some (p', out)) :
    Move net p a p' out := by
  simp only [giveUp] at h
  split at h
  · split at h <;> cases h
    exact .giveUp ha hresult ‹_› ‹_› rfl
  · cases h

theorem move {net : Net} {p p' : Proc} {a : Local} {out : Output}
    (h : p.step net a = some (p', out)) : Move net p a p' out := by
  cases a with
  | load =>
      simp only [step, load] at h
      split at h <;> cases h
      exact .load ‹_›
  | timeout =>
      simp only [step, timeout] at h
      split at h <;> cases h
      exact .timeout ‹_›
  | recvStepDown =>
      simp only [step, recvStepDown] at h
      split at h <;> cases h
      exact .recvStepDown ‹_› ‹_›
  | stepDown =>
      simp only [step, stepDown] at h
      split at h <;> cases h
      exact .stepDown ‹_›
  | campaign =>
      simp only [step, campaign] at h
      split at h <;> cases h
      exact .campaign ‹_›
  | voteReply k j =>
      simp only [step, voteReply] at h
      split at h
      · rename_i hrun hans
        split at h <;> cases h
        rename_i hcond
        obtain ⟨hwait, rfl⟩ := hcond
        exact .voteReply hrun hwait hans
      · cases h
  | voteError k =>
      simp only [step, voteError] at h
      split at h
      · split at h <;> cases h
        exact .voteError ‹_› ‹_›
      · cases h
  | electionTimeout =>
      simp only [step, electionTimeout] at h
      split at h <;> cases h
      exact .electionTimeout ‹_›
  | becomeLeader =>
      simp only [step, becomeLeader] at h
      split at h <;> cases h
      exact .becomeLeader ‹_›
  | tick =>
      simp only [step, tick] at h
      split at h <;> cases h
      exact .tick ‹_›
  | spawnHeartbeats =>
      simp only [step, spawnHeartbeats] at h
      split at h <;> cases h
      exact .spawnHeartbeats ‹_›
  | heartbeat k =>
      simp only [step, heartbeat] at h
      split at h
      · split at h <;> cases h
        exact .heartbeat ‹_› ‹_› ‹_› rfl rfl
      · cases h
  | heartbeatError k =>
      simp only [step, heartbeatError] at h
      split at h
      · split at h <;> cases h
        exact .heartbeatError ‹_› ‹_›
      · cases h
  | heartbeatReply k j =>
      simp only [step, heartbeatReply] at h
      split at h
      · rename_i hrun hpeer hans
        split at h
        · rename_i hws
          split at h <;> cases h
          rename_i hcall
          subst hcall
          exact .heartbeatReply hrun hws hpeer hans
        · cases h
      · cases h
  | heartbeatApplied k =>
      simp only [step, heartbeatApplied] at h
      split at h
      · split at h
        · split at h <;> cases h
          exact .heartbeatApplied ‹_› ‹_› ‹_›
        · cases h
      · cases h
  | joinHeartbeats =>
      simp only [step, joinHeartbeats] at h
      split at h
      · split at h <;> cases h
        exact .joinHeartbeats ‹_› ‹_›
      · cases h
  | replicate command =>
      simp only [step, replicate] at h
      split at h <;> cases h
      exact .replicate ‹_›
  | replicateSend r k =>
      simp only [step, replicateSend] at h
      split at h
      · rename_i hcall hpeer
        split at h
        · rename_i hworker
          split at h <;> cases h
          · exact .replicateStale hcall hpeer hworker ‹_›
          · rename_i hok
            obtain ⟨hterm, hstate⟩ := not_or.mp hok
            exact .replicateSend hcall hpeer hworker (not_not.mp hterm)
              (not_not.mp hstate) rfl
        · cases h
      · cases h
  | replicateError r k =>
      simp only [step, replicateError] at h
      split at h
      · split at h <;> cases h
        exact .replicateError ‹_› ‹_›
      · cases h
  | replicateReply r k j =>
      simp only [step, replicateReply] at h
      split at h
      · rename_i hcall hpeer hans
        split at h
        · rename_i hworker
          split at h <;> cases h
          rename_i heq
          subst heq
          exact .replicateReply hcall hpeer hworker hans
        · cases h
      · cases h
  | receiveAck r k =>
      simp only [step, receiveAck] at h
      split at h
      · split at h <;> cases h
        exact .receiveAck ‹_› ‹_› ‹_›
      · cases h
  | replicateTimeout r => exact giveUp_move (.inl rfl) (by decide) h
  | replicateCommit r =>
      simp only [step, replicateCommit] at h
      split at h
      · split at h <;> cases h
        exact .replicateCommit ‹_› ‹_› rfl
      · cases h
  | replicateReturn r =>
      simp only [step, replicateReturn] at h
      split at h
      · split at h
        · split at h <;> cases h
          exact .replicateReturn ‹_› ‹_› ‹_› rfl
        · cases h
      · cases h
  | collect a =>
      simp only [step, collect] at h
      split at h <;> cases h
      exact .collect ‹_›
  | send a =>
      simp only [step, send] at h
      split at h
      · rename_i hsending hqueue
        split at h <;> cases h
        exact .send hsending hqueue ‹_›
      · cases h
  | applyLoop =>
      simp only [step, applyLoop] at h
      split at h <;> cases h
      exact .applyLoop ‹_›
  | stop =>
      simp only [step] at h
      cases h
      exact .stop
  | quit =>
      simp only [step, quit] at h
      split at h <;> cases h
      exact .quit
  | replicateStopped r =>
      simp only [step] at h
      split at h
      · exact giveUp_move (.inr rfl) (by decide) h
      · cases h
  | abandon a =>
      simp only [step, abandon] at h
      split at h
      · split at h <;> cases h
        exact .abandon ‹_›
      · cases h

end Proc

/-! ## The core of a node -/

structure Core where
  id : String
  peers : List String
  currentTerm : Nat
  votedFor : String
  log : LogStore
  state : NodeState

namespace Node

def core (n : Node) : Core where
  id := n.id
  peers := n.peers
  currentTerm := n.currentTerm
  votedFor := n.votedFor
  log := n.log
  state := n.state

@[simp] theorem countHeartbeat_core (n : Node) :
    n.countHeartbeat.core = n.core := rfl

@[simp] theorem lowerNext_core (n : Node) (peer : String) :
    (n.lowerNext peer).core = n.core := by
  unfold lowerNext
  split <;> rfl

@[simp] theorem replicateSuccess_core (n : Node) (peer : String)
    (entry : LogEntry) : (n.replicateSuccess peer entry).core = n.core := rfl

@[simp] theorem heartbeatSuccess_core (n : Node) (peer : String)
    (newMatch : Nat) : (n.heartbeatSuccess peer newMatch).core = n.core := by
  unfold heartbeatSuccess
  split <;> rfl

@[simp] theorem commitEntry_core (n : Node) (index : Nat) :
    (n.commitEntry index).core = n.core := by
  unfold commitEntry
  split <;> rfl

end Node

namespace Proc

@[simp] theorem signalStepDown_node (p : Proc) (term : Nat) :
    (p.signalStepDown term).node = p.node := by
  unfold signalStepDown
  split <;> rfl

@[simp] theorem signalStepDown_run (p : Proc) (term : Nat) :
    (p.signalStepDown term).run = p.run := by
  unfold signalStepDown
  split <;> rfl

@[simp] theorem signalStepDown_replicates (p : Proc) (term : Nat) :
    (p.signalStepDown term).replicates = p.replicates := by
  unfold signalStepDown
  split <;> rfl

@[simp] theorem startApply_node (p : Proc) : p.startApply.node = p.node := rfl

@[simp] theorem setWorker_node (p : Proc) (r : Nat) (c : ReplicateCall)
    (k : Nat) (w : Worker) : (p.setWorker r c k w).node = p.node := rfl

@[simp] theorem setWorker_run (p : Proc) (r : Nat) (c : ReplicateCall)
    (k : Nat) (w : Worker) : (p.setWorker r c k w).run = p.run := rfl

theorem digestHeartbeat_core (p : Proc) (ws : List Heartbeat) (k : Nat)
    (peer : String) (args : AppendEntriesArgs) (reply : AppendEntriesReply) :
    (p.digestHeartbeat ws k peer args reply).node.core = p.node.core := by
  unfold digestHeartbeat
  split
  · simp
  · split
    · simp
    · split <;> simp

theorem digestReplicate_run (p : Proc) (r : Nat) (c : ReplicateCall)
    (k : Nat) (peer : String) (reply : AppendEntriesReply) :
    (p.digestReplicate r c k peer reply).run = p.run := by
  unfold digestReplicate
  split
  · simp
  · split
    · rfl
    · split <;> rfl

theorem digestReplicate_core (p : Proc) (r : Nat) (c : ReplicateCall)
    (k : Nat) (peer : String) (reply : AppendEntriesReply) :
    (p.digestReplicate r c k peer reply).node.core = p.node.core := by
  unfold digestReplicate
  split
  · simp
  · split
    · simp
    · split <;> simp

end Proc

/-! ## Core moves -/

/-- How a process step changes the core of its node and what it sends. -/
inductive CoreMove (net : Net) (p : Proc) : Local → Proc → Output → Prop where
  | quiet {a : Local} {p' : Proc} {out : Output}
      (hcore : p'.node.core = p.node.core) (hvotes : out.voteCalls = [])
      (happends : out.appendCalls = [])
      (hevents : ∀ e ∈ out.events, ∃ x, e = .replicated p.node.id x) :
      CoreMove net p a p' out
  | timeout (hrun : p.run = .loopFollower) :
      CoreMove net p .timeout
        { p with node := p.node.electionTimeout, run := .top } {}
  | stepDown {term : Nat} (hrun : p.run = .stepDown term) :
      CoreMove net p .stepDown
        { p with node := p.node.becomeFollower term, run := .top } {}
  | campaign {p' : Proc} (hrun : p.run = .loopCandidate)
      (hnode : p'.node = p.node.startElection) :
      CoreMove net p .campaign p'
        { voteCalls := p.node.peers.map fun peer =>
            ⟨p.node.id, peer, p.node.voteRequest⟩
          events := [.campaigned p.node.id p.node.voteRequest] }
  | elect {term : Nat} (hrun : p.run = .becomeLeader term)
      (hwins : p.node.wins term = true) :
      CoreMove net p .becomeLeader
        { p with node := p.node.becomeLeader term, run := .top }
        { events := [.elected p.node.id term p.node.log] }
  | append {command : Command} {p' : Proc} (hstate : p.node.state = .leader)
      (hnode : p'.node = p.node.appendCommand command) :
      CoreMove net p (.replicate command) p' {}
  | heartbeat {k : Nat} {peer : String} {ws : List Heartbeat} {p' : Proc}
      (hrun : p.run = .heartbeats ws) (hpeer : p.node.peers[k]? = some peer)
      (hnode : p'.node = p.node) :
      CoreMove net p (.heartbeat k) p'
        { appendCalls := [⟨p.node.id, peer, p.node.heartbeatArgs peer⟩] }
  | replicateSend {r k : Nat} {c : ReplicateCall} {peer : String} {p' : Proc}
      (hcall : p.replicates[r]? = some c)
      (hpeer : p.node.peers[k]? = some peer)
      (hterm : p.node.currentTerm = c.term) (hstate : p.node.state = .leader)
      (hnode : p'.node = p.node) :
      CoreMove net p (.replicateSend r k) p'
        { appendCalls := [⟨p.node.id, peer,
            p.node.replicateArgs peer c.entry c.term c.leaderCommit⟩] }

theorem Node.becomeLeader_of_not_wins {n : Node} {term : Nat}
    (h : n.wins term = false) : n.becomeLeader term = n := by
  simp [Node.becomeLeader, h]

theorem CoreMove.silent {net : Net} {p p' : Proc} {a : Local}
    (hcore : p'.node.core = p.node.core) : CoreMove net p a p' {} :=
  .quiet hcore rfl rfl fun _ h => by cases h

theorem core_move {net : Net} {p p' : Proc} {a : Local} {out : Output}
    (h : p.Move net a p' out) : CoreMove net p a p' out := by
  cases h with
  | timeout hrun => exact .timeout hrun
  | stepDown hrun => exact .stepDown hrun
  | campaign hrun => exact .campaign hrun rfl
  | @becomeLeader term hrun =>
      cases hwins : p.node.wins term with
      | true => exact .elect hrun hwins
      | false =>
          refine .quiet ?_ rfl rfl (by simp)
          show (p.node.becomeLeader term).core = _
          rw [Node.becomeLeader_of_not_wins hwins]
  | replicate hstate => exact .append hstate rfl
  | heartbeat hrun _ hpeer hargs => exact hargs ▸ .heartbeat hrun hpeer rfl
  | replicateSend hcall hpeer _ hterm hstate hargs =>
      exact hargs ▸ .replicateSend hcall hpeer hterm hstate rfl
  | heartbeatReply => exact .silent (p.digestHeartbeat_core ..)
  | replicateReply => exact .silent (p.digestReplicate_core ..)
  | replicateCommit => exact .silent (by simp)
  | replicateReturn => exact .quiet rfl rfl rfl (by simp)
  | _ => exact .silent rfl

/-! ## Where the `run` goroutine goes -/

/-- Program points at which `run` holds nothing a proof has to know. -/
def RunLoc.plain : RunLoc → Bool
  | .top => true
  | .loopFollower => true
  | .loopCandidate => true
  | .stepDown _ => true
  | .stopped => true
  | _ => false

/-- The new program point of `run` after a process step. -/
inductive RunMove (net : Net) (p p' : Proc) (out : Output) : Prop where
  | same (hloc : p'.run = p.run)
  | away (hplain : p'.run.plain = true)
      (hloaded : p'.run = .loopFollower ∨ p'.run = .loopCandidate →
        p'.node.state ≠ .leader)
  | campaign (hrun : p.run = .loopCandidate)
      (hnode : p'.node = p.node.startElection)
      (hcalls : out.voteCalls = p.node.peers.map fun peer =>
        ⟨p.node.id, peer, p.node.voteRequest⟩)
      (hevents : out.events = [.campaigned p.node.id p.node.voteRequest])
      (hloc : p'.run = .counting
        { args := p.node.voteRequest
          firstCall := net.voteCalls.length
          votes := 1
          ballots := p.node.peers.map fun _ => .waiting })
  | counted {c : Candidacy} {k : Nat} {granted : Bool}
      (hrun : p.run = .counting c) (hwait : c.ballots[k]? = some .waiting)
      (hgranted : granted = true → ∃ reply : RequestVoteReply,
        (c.firstCall + k, reply) ∈ net.voteAnswers
          ∧ reply.voteGranted = true)
      (hloc : p'.run = .counting (c.count k granted))
  | won {c : Candidacy} {k : Nat} {reply : RequestVoteReply}
      (hrun : p.run = .counting c) (hwait : c.ballots[k]? = some .waiting)
      (hans : (c.firstCall + k, reply) ∈ net.voteAnswers)
      (hgranted : reply.voteGranted = true)
      (hmajority : p.node.majority ≤ c.votes + 1)
      (hloc : p'.run = .becomeLeader c.args.term)
  | lead (hstate : p.node.state = .leader) (hloc : p'.run = .sendHeartbeats)
  | spawn (hrun : p.run = .sendHeartbeats)
      (hloc : p'.run = .heartbeats (p.node.peers.map fun _ => .lock))
  | beat {ws : List Heartbeat} {k : Nat} {hb : Heartbeat}
      (hrun : p.run = .heartbeats ws)
      (hcall : ∀ call args, hb = .awaiting call args →
        call = net.appendCalls.length ∧ ∃ peer,
          p.node.peers[k]? = some peer
            ∧ out.appendCalls = [⟨p.node.id, peer, args⟩])
      (hloc : p'.run = .heartbeats (ws.set k hb))
  | joined {ws : List Heartbeat} (hrun : p.run = .heartbeats ws)
      (hloc : p'.run = .loopLeader)

/-- Away to a point that `load` does not go to. -/
theorem RunMove.elsewhere {net : Net} {p p' : Proc} {out : Output}
    (hplain : p'.run.plain = true)
    (hne : p'.run ≠ .loopFollower ∧ p'.run ≠ .loopCandidate) :
    RunMove net p p' out :=
  .away hplain fun h => (h.elim hne.1 hne.2).elim

/-- Counting one result, granted or not. -/
theorem RunMove.count {net : Net} {p : Proc} {out : Output} {c : Candidacy}
    {k term : Nat} {granted : Bool} (hrun : p.run = .counting c)
    (hwait : c.ballots[k]? = some .waiting)
    (hgranted : granted = true → ∃ reply : RequestVoteReply,
      (c.firstCall + k, reply) ∈ net.voteAnswers ∧ reply.voteGranted = true) :
    RunMove net p (p.countVote c k granted term) out := by
  by_cases hterm : c.args.term < term
  · refine .elsewhere ?_ ?_ <;> simp [Proc.countVote, hterm, RunLoc.plain]
  by_cases hwon : (granted && p.node.majority ≤ (c.count k granted).votes) = true
  · have hwon' := hwon
    simp only [Bool.and_eq_true, decide_eq_true_eq] at hwon'
    obtain ⟨rfl, hmaj⟩ := hwon'
    obtain ⟨reply, hans, hg⟩ := hgranted rfl
    refine .won hrun hwait hans hg (by simpa [Candidacy.count] using hmaj) ?_
    simp [Proc.countVote, hterm, hmaj]
  by_cases hall : (c.count k granted).ballots.all (· ≠ .waiting) = true
  · have htop : (p.countVote c k granted term).run = .top := by
      simp only [Proc.countVote, hterm, hwon, hall, if_true, if_false]
      rfl
    refine .elsewhere ?_ ?_ <;> simp [htop, RunLoc.plain]
  · refine .counted hrun hwait hgranted ?_
    simp only [Proc.countVote, hterm, hwon, hall, if_false, Bool.false_eq_true]

theorem digestHeartbeat_run {net : Net} {p : Proc} {out : Output}
    {ws : List Heartbeat} {k : Nat} {peer : String} {args : AppendEntriesArgs}
    {reply : AppendEntriesReply} (hrun : p.run = .heartbeats ws) :
    RunMove net p (p.digestHeartbeat ws k peer args reply) out := by
  have hdone : ∀ {p' : Proc}, p'.run = .heartbeats (ws.set k .done) →
      RunMove net p p' out := .beat hrun (fun _ _ h => by cases h)
  unfold Proc.digestHeartbeat
  split
  · exact hdone (Proc.signalStepDown_run ..)
  · split
    · exact hdone rfl
    · split
      · exact .beat hrun (fun _ _ h => by cases h) rfl
      · exact hdone rfl

theorem run_move {net : Net} {p p' : Proc} {a : Local} {out : Output}
    (h : p.Move net a p' out) : RunMove net p p' out := by
  cases h with
  | load =>
      cases hstate : p.node.state with
      | follower => exact .away rfl fun _ hl => by cases hstate.symm.trans hl
      | candidate => exact .away rfl fun _ hl => by cases hstate.symm.trans hl
      | leader => exact .lead hstate rfl
  | campaign hrun =>
      by_cases hpeers : p.node.peers = []
      · refine .elsewhere ?_ ?_ <;> simp [hpeers, RunLoc.plain]
      · exact .campaign hrun rfl rfl rfl (by simp [hpeers])
  | voteReply hrun hwait hans =>
      exact .count hrun hwait fun hg => ⟨_, List.mem_of_getElem? hans, hg⟩
  | voteError hrun hwait => exact .count hrun hwait fun hg => by cases hg
  | tick =>
      by_cases hstate : p.node.state = .leader
      · exact .lead hstate (by simp [hstate])
      · refine .elsewhere ?_ ?_ <;> simp [hstate, RunLoc.plain]
  | spawnHeartbeats hrun => exact .spawn hrun rfl
  | heartbeat hrun _ hpeer _ hws' =>
      refine .beat hrun ?_ (by rw [hws'])
      intro call args heq
      cases heq
      exact ⟨rfl, _, hpeer, rfl⟩
  | heartbeatError hrun | heartbeatApplied hrun =>
      exact .beat hrun (fun _ _ heq => by cases heq) rfl
  | heartbeatReply hrun => exact digestHeartbeat_run hrun
  | joinHeartbeats hrun => exact .joined hrun rfl
  | timeout | recvStepDown | stepDown | electionTimeout | becomeLeader
  | quit => exact .elsewhere rfl (by simp)
  | replicateReply => exact .same (p.digestReplicate_run ..)
  | _ => exact .same rfl

/-! ## The books -/

structure Book where
  commitIndex : Nat
  lastApplied : Nat
  nextIndex : String → Nat
  matchIndex : String → Nat

def Node.book (n : Node) : Book where
  commitIndex := n.commitIndex
  lastApplied := n.lastApplied
  nextIndex := n.nextIndex
  matchIndex := n.matchIndex

/-- How a process step changes the books. -/
inductive BookMove (net : Net) (p p' : Proc) : Local → Prop where
  | same {a : Local} (hbook : p'.node.book = p.node.book) : BookMove net p p' a
  | elect {term : Nat} (hrun : p.run = .becomeLeader term)
      (hwins : p.node.wins term = true)
      (hnode : p'.node = p.node.becomeLeader term) :
      BookMove net p p' .becomeLeader
  | append {command : Command} (hstate : p.node.state = .leader)
      (hnode : p'.node = p.node.appendCommand command) :
      BookMove net p p' (.replicate command)
  | heartbeatSuccess {k j call : Nat} {ws : List Heartbeat} {peer : String}
      {args : AppendEntriesArgs} {reply : AppendEntriesReply}
      (hrun : p.run = .heartbeats ws)
      (hws : ws[k]? = some (.awaiting call args))
      (hpeer : p.node.peers[k]? = some peer)
      (hans : net.appendAnswers[j]? = some (call, reply))
      (hterm : reply.term ≤ args.term) (hentries : args.entries ≠ [])
      (hsuccess : reply.success = true)
      (hbook : p'.node.book = (p.node.heartbeatSuccess peer
        (args.prevLogIndex + args.entries.length)).book) :
      BookMove net p p' (.heartbeatReply k j)
  | lower {a : Local} {peer : String}
      (hbook : p'.node.book = (p.node.lowerNext peer).book) :
      BookMove net p p' a
  | replicateSuccess {r k j call : Nat} {c : ReplicateCall} {peer : String}
      {args : AppendEntriesArgs} {reply : AppendEntriesReply}
      (hcall : p.replicates[r]? = some c)
      (hworker : c.workers[k]? = some (.awaiting call args))
      (hpeer : p.node.peers[k]? = some peer)
      (hans : net.appendAnswers[j]? = some (call, reply))
      (hterm : reply.term ≤ c.term) (hsuccess : reply.success = true)
      (hnode : p'.node = p.node.replicateSuccess peer c.entry) :
      BookMove net p p' (.replicateReply r k j)
  | commit {r : Nat} {c : ReplicateCall} (hcall : p.replicates[r]? = some c)
      (hloc : c.loc = .commit)
      (hnode : p'.node = p.node.commitEntry c.entry.index) :
      BookMove net p p' (.replicateCommit r)
  | claim {a : Nat} (hstart : p.appliers[a]? = some .start)
      (hnode : p'.node = p.node.claim) : BookMove net p p' (.collect a)

@[simp] theorem Node.countHeartbeat_book (n : Node) :
    n.countHeartbeat.book = n.book := rfl

theorem Node.lowerNext_countHeartbeat (n : Node) (peer : String) :
    (n.countHeartbeat.lowerNext peer).book = (n.lowerNext peer).book := by
  unfold Node.lowerNext
  by_cases h : 1 < n.nextIndex peer
  · rw [if_pos h, if_pos (show 1 < n.countHeartbeat.nextIndex peer from h)]
    rfl
  · rw [if_neg h, if_neg (show ¬ 1 < n.countHeartbeat.nextIndex peer from h)]
    rfl

theorem Node.heartbeatSuccess_countHeartbeat (n : Node) (peer : String)
    (newMatch : Nat) : (n.countHeartbeat.heartbeatSuccess peer newMatch).book
      = (n.heartbeatSuccess peer newMatch).book := by
  unfold Node.heartbeatSuccess
  by_cases h : n.matchIndex peer < newMatch
  · rw [if_pos h, if_pos (show n.countHeartbeat.matchIndex peer < _ from h)]
    rfl
  · rw [if_neg h, if_neg (show ¬ n.countHeartbeat.matchIndex peer < _ from h)]
    rfl

theorem digestHeartbeat_book {net : Net} {p : Proc} {ws : List Heartbeat}
    {k j call : Nat} {peer : String} {args : AppendEntriesArgs}
    {reply : AppendEntriesReply} (hrun : p.run = .heartbeats ws)
    (hws : ws[k]? = some (.awaiting call args))
    (hpeer : p.node.peers[k]? = some peer)
    (hans : net.appendAnswers[j]? = some (call, reply)) :
    BookMove net p (p.digestHeartbeat ws k peer args reply)
      (.heartbeatReply k j) := by
  unfold Proc.digestHeartbeat
  split
  · exact .same (by simp)
  · rename_i hterm
    split
    · exact .same rfl
    · rename_i hentries
      split
      · rename_i hsuccess
        exact .heartbeatSuccess hrun hws hpeer hans (Nat.le_of_not_lt hterm)
          hentries hsuccess (p.node.heartbeatSuccess_countHeartbeat ..)
      · exact .lower (p.node.lowerNext_countHeartbeat peer)

theorem digestReplicate_book {net : Net} {p : Proc} {r k j call : Nat}
    {c : ReplicateCall} {peer : String} {args : AppendEntriesArgs}
    {reply : AppendEntriesReply} (hcall : p.replicates[r]? = some c)
    (hworker : c.workers[k]? = some (.awaiting call args))
    (hpeer : p.node.peers[k]? = some peer)
    (hans : net.appendAnswers[j]? = some (call, reply)) :
    BookMove net p (p.digestReplicate r c k peer reply)
      (.replicateReply r k j) := by
  unfold Proc.digestReplicate
  split
  · exact .same (by simp)
  · rename_i hterm
    split
    · rename_i hsuccess
      exact .replicateSuccess hcall hworker hpeer hans (Nat.le_of_not_lt hterm)
        hsuccess rfl
    · split
      · exact .lower rfl
      · exact .same rfl

theorem book_move {net : Net} {p p' : Proc} {a : Local} {out : Output}
    (h : p.Move net a p' out) : BookMove net p p' a := by
  cases h with
  | @becomeLeader term hrun =>
      cases hwins : p.node.wins term with
      | true => exact .elect hrun hwins rfl
      | false => exact .same (by simp [Node.becomeLeader_of_not_wins hwins])
  | stepDown =>
      refine .same ?_
      show (Node.becomeFollower _ _).book = _
      unfold Node.becomeFollower
      split <;> rfl
  | replicate hstate => exact .append hstate rfl
  | heartbeatReply hrun hws hpeer hans =>
      exact digestHeartbeat_book hrun hws hpeer hans
  | replicateReply hcall hpeer hworker hans =>
      exact digestReplicate_book hcall hworker hpeer hans
  | replicateCommit hcall hloc => exact .commit hcall hloc rfl
  | collect hstart => exact .claim hstart rfl
  | _ => exact .same rfl

/-! ## Calls of `Replicate` -/

/-- The goroutine has not posted its result yet. -/
def Worker.isBusy : Worker → Bool
  | .lock => true
  | .awaiting _ _ => true
  | _ => false

/-- The new position of the `k`-th goroutine of a call. -/
inductive WorkerMove (net : Net) (p : Proc) (out : Output) (c : ReplicateCall)
    (k : Nat) : Worker → Prop where
  | retry : WorkerMove net p out c k .lock
  | failed : WorkerMove net p out c k (.done false)
  | sent {peer : String} {args : AppendEntriesArgs}
      (hpeer : p.node.peers[k]? = some peer)
      (hterm : p.node.currentTerm = c.term) (hstate : p.node.state = .leader)
      (hargs : args
        = p.node.replicateArgs peer c.entry c.term c.leaderCommit)
      (hout : out.appendCalls = [⟨p.node.id, peer, args⟩]) :
      WorkerMove net p out c k (.awaiting net.appendCalls.length args)
  | acked {call : Nat} {args : AppendEntriesArgs} {reply : AppendEntriesReply}
      (hworker : c.workers[k]? = some (.awaiting call args))
      (hans : (call, reply) ∈ net.appendAnswers)
      (hterm : reply.term ≤ c.term) (hsuccess : reply.success = true) :
      WorkerMove net p out c k (.done true)

/-- How a process step changes the calls of `Replicate`. -/
inductive CallMove (net : Net) (p p' : Proc) (out : Output) : Prop where
  | same (hcalls : p'.replicates = p.replicates)
  | opened {command : Command} (hstate : p.node.state = .leader)
      (hnode : p'.node = p.node.appendCommand command)
      (hcalls : p'.replicates = p.replicates ++ [p.openCall command])
  | worker {r k : Nat} {c : ReplicateCall} {wk : Worker}
      (hcall : p.replicates[r]? = some c)
      (hbusy : c.workers[k]?.any Worker.isBusy = true)
      (hwk : WorkerMove net p out c k wk)
      (hcalls : p'.replicates
        = p.replicates.set r { c with workers := c.workers.set k wk })
  | ack {r k : Nat} {c : ReplicateCall} {ok : Bool}
      (hcall : p.replicates[r]? = some c) (hloc : c.loc = .waiting)
      (hworker : c.workers[k]? = some (.done ok))
      (hcalls : p'.replicates = p.replicates.set r (p.countAck c k ok))
  | gaveUp {r : Nat} {c : ReplicateCall} {result : ReplicateResult}
      (hcall : p.replicates[r]? = some c) (hloc : c.loc = .waiting)
      (hresult : result ≠ .ok)
      (hcalls : p'.replicates
        = p.replicates.set r { c with loc := .returned result })
  | committed {r a : Nat} {c : ReplicateCall}
      (hcall : p.replicates[r]? = some c) (hloc : c.loc = .commit)
      (hcalls : p'.replicates = p.replicates.set r { c with loc := .applying a })
  | returned {r a : Nat} {c : ReplicateCall}
      (hcall : p.replicates[r]? = some c) (hloc : c.loc = .applying a)
      (hout : out.events = [.replicated p.node.id c.entry])
      (hcalls : p'.replicates
        = p.replicates.set r { c with loc := .returned .ok })

theorem digestReplicate_call {net : Net} {p : Proc} {out : Output} {r k call : Nat}
    {c : ReplicateCall} {peer : String} {args : AppendEntriesArgs}
    {reply : AppendEntriesReply} (hcall : p.replicates[r]? = some c)
    (hworker : c.workers[k]? = some (.awaiting call args))
    (hans : (call, reply) ∈ net.appendAnswers) :
    CallMove net p (p.digestReplicate r c k peer reply) out := by
  have hbusy : c.workers[k]?.any Worker.isBusy = true := by rw [hworker]; rfl
  unfold Proc.digestReplicate
  split
  · exact .worker hcall hbusy .failed (Proc.signalStepDown_replicates ..)
  · rename_i hterm
    split
    · exact .worker hcall hbusy
        (.acked hworker hans (Nat.le_of_not_lt hterm) ‹_›) rfl
    · split
      · exact .worker hcall hbusy .retry rfl
      · exact .worker hcall hbusy .failed rfl

theorem digestHeartbeat_replicates (p : Proc) (ws : List Heartbeat) (k : Nat)
    (peer : String) (args : AppendEntriesArgs) (reply : AppendEntriesReply) :
    (p.digestHeartbeat ws k peer args reply).replicates = p.replicates := by
  unfold Proc.digestHeartbeat
  split
  · simp
  · split
    · rfl
    · split <;> rfl

theorem call_move {net : Net} {p p' : Proc} {a : Local} {out : Output}
    (h : p.Move net a p' out) : CallMove net p p' out := by
  cases h with
  | replicate hstate => exact .opened hstate rfl rfl
  | replicateStale hcall _ hworker =>
      exact .worker hcall (by rw [hworker]; rfl) .failed rfl
  | replicateSend hcall hpeer hworker hterm hstate hargs =>
      exact .worker hcall (by rw [hworker]; rfl)
        (.sent hpeer hterm hstate hargs rfl) rfl
  | replicateError hcall hworker =>
      exact .worker hcall (by rw [hworker]; rfl) .failed rfl
  | replicateReply hcall _ hworker hans =>
      exact digestReplicate_call hcall hworker (List.mem_of_getElem? hans)
  | receiveAck hcall hloc hworker => exact .ack hcall hloc hworker rfl
  | giveUp _ hresult hcall hloc hc' =>
      exact .gaveUp hcall hloc hresult (by rw [hc'])
  | replicateCommit hcall hloc hc' =>
      exact .committed hcall hloc (by rw [hc']; rfl)
  | replicateReturn hcall hloc _ hc' =>
      exact .returned hcall hloc rfl (by rw [hc'])
  | heartbeatReply => exact .same (digestHeartbeat_replicates ..)
  | _ => exact .same rfl

/-! ## Feeding the apply loop -/

structure Feed where
  lastApplied : Nat
  appliers : List Applier
  applyCh : Option (List Command)
  collected : List LogEntry
  sends : List LogEntry
  applied : List Command

def Proc.feed (p : Proc) : Feed where
  lastApplied := p.node.lastApplied
  appliers := p.appliers
  applyCh := p.applyCh
  collected := p.collected
  sends := p.sends
  applied := p.applied

/-- How a process step changes the feed. -/
inductive FeedMove (p p' : Proc) : Local → Prop where
  | same {a : Local} (hfeed : p'.feed = p.feed) : FeedMove p p' a
  | start {a : Local} (hfeed : p'.feed = p.startApply.feed) : FeedMove p p' a
  | collect {a : Nat} (hstart : p.appliers[a]? = some .start)
      (hfeed : p'.feed =
        { p.feed with
          lastApplied := max p.node.lastApplied p.node.commitIndex
          appliers := p.appliers.set a (Proc.sendLater p.applyCh p.node.toApply)
          collected := p.collected ++ p.node.toApply }) :
      FeedMove p p' (.collect a)
  | send {a : Nat} {entry : LogEntry} {rest : List LogEntry}
      {queue : List Command}
      (hsending : p.appliers[a]? = some (.sending (entry :: rest)))
      (hqueue : p.applyCh = some queue)
      (hfeed : p'.feed =
        { p.feed with
          appliers := p.appliers.set a (Proc.sendLater p.applyCh rest)
          applyCh := some (queue ++ [entry.command])
          sends := p.sends ++ [entry] }) :
      FeedMove p p' (.send a)
  | applyLoop {command : Command} {queue : List Command}
      (hqueue : p.applyCh = some (command :: queue))
      (hfeed : p'.feed =
        { p.feed with
          applyCh := some queue
          applied := p.applied ++ [command] }) :
      FeedMove p p' .applyLoop
  | abandon {a : Nat} {rest : List LogEntry}
      (hsending : p.appliers[a]? = some (.sending rest))
      (hfeed : p'.feed = { p.feed with appliers := p.appliers.set a .done }) :
      FeedMove p p' (.abandon a)

@[simp] theorem Proc.signalStepDown_feed (p : Proc) (term : Nat) :
    (p.signalStepDown term).feed = p.feed := by
  unfold Proc.signalStepDown
  split <;> rfl

@[simp] theorem Node.heartbeatSuccess_lastApplied (n : Node) (peer : String)
    (m : Nat) : (n.heartbeatSuccess peer m).lastApplied = n.lastApplied := by
  unfold Node.heartbeatSuccess
  split <;> rfl

@[simp] theorem Node.lowerNext_lastApplied (n : Node) (peer : String) :
    (n.lowerNext peer).lastApplied = n.lastApplied := by
  unfold Node.lowerNext
  split <;> rfl

@[simp] theorem Node.commitEntry_lastApplied (n : Node) (i : Nat) :
    (n.commitEntry i).lastApplied = n.lastApplied := by
  unfold Node.commitEntry
  split <;> rfl

theorem digestHeartbeat_feed (p : Proc) (a : Local) (ws : List Heartbeat)
    (k : Nat) (peer : String) (args : AppendEntriesArgs)
    (reply : AppendEntriesReply) :
    FeedMove p (p.digestHeartbeat ws k peer args reply) a := by
  unfold Proc.digestHeartbeat
  split
  · exact .same (Proc.signalStepDown_feed ..)
  · split
    · exact .same rfl
    · split
      · refine .start ?_
        simp only [Proc.feed, Proc.startApply, Node.heartbeatSuccess_lastApplied]
        rfl
      · refine .same ?_
        simp only [Proc.feed, Node.lowerNext_lastApplied]
        rfl

theorem digestReplicate_feed (p : Proc) (r : Nat) (c : ReplicateCall)
    (k : Nat) (peer : String) (reply : AppendEntriesReply) :
    (p.digestReplicate r c k peer reply).feed = p.feed := by
  unfold Proc.digestReplicate
  split
  · exact Proc.signalStepDown_feed ..
  · split
    · rfl
    · split
      · simp only [Proc.feed, Node.lowerNext_lastApplied]
        rfl
      · rfl

theorem feed_move {net : Net} {p p' : Proc} {a : Local} {out : Output}
    (h : p.Move net a p' out) : FeedMove p p' a := by
  cases h with
  | collect hstart => exact .collect hstart rfl
  | send hsending hqueue => exact .send hsending hqueue rfl
  | applyLoop hqueue => exact .applyLoop hqueue rfl
  | abandon hsending => exact .abandon hsending rfl
  | heartbeatReply => exact digestHeartbeat_feed ..
  | replicateReply => exact .same (digestReplicate_feed ..)
  | replicateCommit =>
      refine .start ?_
      simp only [Proc.feed, Proc.startApply, Node.commitEntry_lastApplied]
  | becomeLeader =>
      refine .same ?_
      simp only [Proc.feed, Node.becomeLeader]
      split <;> rfl
  | stepDown =>
      refine .same ?_
      simp only [Proc.feed, Node.becomeFollower]
      split <;> rfl
  | _ => exact .same rfl

end RaftStore
