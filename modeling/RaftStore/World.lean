import RaftStore.Election
import RaftStore.Replication

/-!
# The running cluster

Every goroutine of a node and everything in flight between nodes, as one
state with one executable step function. A step is what the source does
without another goroutine being able to interfere: one section held
under `n.mu`, one channel operation, or one read of the atomic state.

- A node's process (`Proc`) is its memory, the program counter of the
  `run` goroutine, the calls of `Replicate` with their `replicateToPeer`
  goroutines, the calls of `applyCommitted`, and the channels.
- The network (`Net`) keeps every request ever made and every answer
  ever given. A request is lost when it is never delivered, delayed or
  reordered by when it is, and duplicated when it is delivered twice; an
  answer is late when its goroutine takes it late.
- A goroutine that waits for a reply takes it together with the locked
  section that digests it: since answers stay available, this is the
  same as receiving the reply at any earlier moment.
- `history` records what the properties speak about, newest first.

A process that crashes loses all of it, and comes back as `cmd/node`
starts: `NewNode` takes nothing from the files on disk.
-/

namespace RaftStore

/-! ## Goroutines -/

/-- A slot of `loopCandidate`'s `resultCh`, one for each peer. -/
inductive Ballot where
  | waiting
  | counted (granted : Bool)
  deriving DecidableEq

/-- The locals of one `loopCandidate` call; the request to the `k`-th
peer is the call numbered `firstCall + k`. -/
structure Candidacy where
  args : RequestVoteArgs
  firstCall : Nat
  votes : Nat
  ballots : List Ballot
  deriving DecidableEq

/-- Take the result of the `k`-th peer. -/
def Candidacy.count (c : Candidacy) (k : Nat) (granted : Bool) : Candidacy :=
  { c with
    votes := if granted then c.votes + 1 else c.votes
    ballots := c.ballots.set k (.counted granted) }

/-- A `sendHeartbeatToPeer` goroutine. -/
inductive Heartbeat where
  | lock
  | awaiting (call : Nat) (args : AppendEntriesArgs)
  | applying (applier : Nat)
  | done
  deriving DecidableEq

/-- Where the `run` goroutine is. `stepDown` holds a term already taken
from a channel, with the lock not yet acquired. -/
inductive RunLoc where
  | top
  | loopFollower
  | loopCandidate
  | counting (c : Candidacy)
  | becomeLeader (term : Nat)
  | loopLeader
  | sendHeartbeats
  | heartbeats (ws : List Heartbeat)
  | stepDown (term : Nat)
  | stopped
  deriving DecidableEq

/-- The three `select` loops, which all listen on `stepDownCh` and
`stopCh`. -/
def RunLoc.selects : RunLoc → Bool
  | .loopFollower => true
  | .counting _ => true
  | .loopLeader => true
  | _ => false

/-- A `replicateToPeer` goroutine; `done` is a result waiting in
`ackCh`, `received` one that `Replicate` has taken. -/
inductive Worker where
  | lock
  | awaiting (call : Nat) (args : AppendEntriesArgs)
  | done (ok : Bool)
  | received (ok : Bool)
  deriving DecidableEq

def Worker.isReceived : Worker → Bool
  | .received _ => true
  | _ => false

inductive ReplicateResult where
  | ok
  | timedOut
  | stopped
  deriving DecidableEq

inductive ReplicateLoc where
  | waiting
  | commit
  | applying (applier : Nat)
  | returned (result : ReplicateResult)
  deriving DecidableEq

/-- A call of `Replicate` that appended its entry. -/
structure ReplicateCall where
  entry : LogEntry
  term : Nat
  leaderCommit : Nat
  acks : Nat
  workers : List Worker
  loc : ReplicateLoc
  deriving DecidableEq

/-- A call of `applyCommitted`: the sends happen outside the lock. -/
inductive Applier where
  | start
  | sending (rest : List LogEntry)
  | done
  deriving DecidableEq

/-- One node's process. `collected` and `sends` record the entries its
`applyCommitted` calls took from the log and put on `applyCh`. -/
structure Proc where
  node : Node
  run : RunLoc
  stepDownCh : List Nat
  replicates : List ReplicateCall
  appliers : List Applier
  applyCh : Option (List Command)
  collected : List LogEntry
  sends : List LogEntry
  applied : List Command
  stopped : Bool
  down : Bool

def newProc (id : String) (peers : List String) (applyCh : Bool) : Proc where
  node := newNode id peers
  run := .top
  stepDownCh := []
  replicates := []
  appliers := []
  applyCh := if applyCh then some [] else none
  collected := []
  sends := []
  applied := []
  stopped := false
  down := false

/-! ## The network and the record of the run -/

structure VoteCall where
  src : String
  dst : String
  args : RequestVoteArgs
  deriving DecidableEq

structure AppendCall where
  src : String
  dst : String
  args : AppendEntriesArgs
  deriving DecidableEq

structure Net where
  voteCalls : List VoteCall
  voteAnswers : List (Nat × RequestVoteReply)
  appendCalls : List AppendCall
  appendAnswers : List (Nat × AppendEntriesReply)

inductive Event where
  | campaigned (n : String) (args : RequestVoteArgs)
  | granted (n : String) (args : RequestVoteArgs)
  | elected (n : String) (term : Nat) (log : LogStore)
  | replicated (n : String) (entry : LogEntry)
  | restarted (n : String)
  deriving DecidableEq

structure World where
  proc : String → Proc
  net : Net
  history : List Event

/-- What a step of one process adds to the network and the history. -/
structure Output where
  voteCalls : List VoteCall := []
  appendCalls : List AppendCall := []
  events : List Event := []

/-! ## Steps of one process -/

inductive Local where
  | load
  | timeout
  | recvStepDown
  | stepDown
  | campaign
  | voteReply (k j : Nat)
  | voteError (k : Nat)
  | electionTimeout
  | becomeLeader
  | tick
  | spawnHeartbeats
  | heartbeat (k : Nat)
  | heartbeatError (k : Nat)
  | heartbeatReply (k j : Nat)
  | heartbeatApplied (k : Nat)
  | joinHeartbeats
  | replicate (command : Command)
  | replicateSend (r k : Nat)
  | replicateError (r k : Nat)
  | replicateReply (r k j : Nat)
  | receiveAck (r k : Nat)
  | replicateTimeout (r : Nat)
  | replicateCommit (r : Nat)
  | replicateReturn (r : Nat)
  | collect (a : Nat)
  | send (a : Nat)
  | applyLoop
  | stop
  | quit
  | replicateStopped (r : Nat)
  | abandon (a : Nat)
  deriving DecidableEq

/-- Capacities of `stepDownCh` and of the `applyCh` that `cmd/node` makes. -/
def stepDownCap : Nat := 4

def applyCap : Nat := 256

namespace Proc

/-- `signalStepDown`: a full channel drops the signal. -/
def signalStepDown (p : Proc) (term : Nat) : Proc :=
  if p.stepDownCh.length < stepDownCap then
    { p with stepDownCh := p.stepDownCh ++ [term] }
  else p

/-- Start a call of `applyCommitted`; it gets the next number. -/
def startApply (p : Proc) : Proc :=
  { p with appliers := p.appliers ++ [.start] }

def load (p : Proc) : Option (Proc × Output) :=
  match p.run with
  | .top => some ({ p with run :=
      match p.node.state with
      | .follower => .loopFollower
      | .candidate => .loopCandidate
      | .leader => .sendHeartbeats }, {})
  | _ => none

def timeout (p : Proc) : Option (Proc × Output) :=
  match p.run with
  | .loopFollower =>
      some ({ p with node := p.node.electionTimeout, run := .top }, {})
  | _ => none

def recvStepDown (p : Proc) : Option (Proc × Output) :=
  match p.run.selects, p.stepDownCh with
  | true, term :: rest =>
      some ({ p with run := .stepDown term, stepDownCh := rest }, {})
  | _, _ => none

def stepDown (p : Proc) : Option (Proc × Output) :=
  match p.run with
  | .stepDown term =>
      some ({ p with node := p.node.becomeFollower term, run := .top }, {})
  | _ => none

/-- `loopCandidate` up to its select loop, which has one round a peer. -/
def campaign (net : Net) (p : Proc) : Option (Proc × Output) :=
  match p.run with
  | .loopCandidate =>
      let args := p.node.voteRequest
      some ({ p with
          node := p.node.startElection
          run := if p.node.peers = [] then .top else .counting
            { args := args
              firstCall := net.voteCalls.length
              votes := 1
              ballots := p.node.peers.map fun _ => .waiting } },
        { voteCalls := p.node.peers.map fun peer => ⟨p.node.id, peer, args⟩
          events := [.campaigned p.node.id args] })
  | _ => none

/-- One round of the select loop that takes a result from `resultCh`. -/
def countVote (p : Proc) (c : Candidacy) (k : Nat) (granted : Bool)
    (term : Nat) : Proc :=
  { p with run :=
      if c.args.term < term then .stepDown term
      else if granted && p.node.majority ≤ (c.count k granted).votes then
        .becomeLeader c.args.term
      else if (c.count k granted).ballots.all (· ≠ .waiting) then .top
      else .counting (c.count k granted) }

def voteReply (net : Net) (p : Proc) (k j : Nat) : Option (Proc × Output) :=
  match p.run, net.voteAnswers[j]? with
  | .counting c, some (call, reply) =>
      if c.ballots[k]? = some .waiting ∧ call = c.firstCall + k then
        some (p.countVote c k reply.voteGranted reply.term, {})
      else none
  | _, _ => none

/-- The transport failed: the goroutine posts a refusal with term 0. -/
def voteError (p : Proc) (k : Nat) : Option (Proc × Output) :=
  match p.run with
  | .counting c =>
      if c.ballots[k]? = some .waiting then
        some (p.countVote c k false 0, {})
      else none
  | _ => none

def electionTimeout (p : Proc) : Option (Proc × Output) :=
  match p.run with
  | .counting _ => some ({ p with run := .top }, {})
  | _ => none

def becomeLeader (p : Proc) : Option (Proc × Output) :=
  match p.run with
  | .becomeLeader term =>
      some ({ p with node := p.node.becomeLeader term, run := .top },
        { events := if p.node.wins term then
            [.elected p.node.id term p.node.log] else [] })
  | _ => none

/-- `loopLeader`'s ticker: the state is checked here and not again. -/
def tick (p : Proc) : Option (Proc × Output) :=
  match p.run with
  | .loopLeader => some ({ p with run :=
      if p.node.state = .leader then .sendHeartbeats else .top }, {})
  | _ => none

def spawnHeartbeats (p : Proc) : Option (Proc × Output) :=
  match p.run with
  | .sendHeartbeats =>
      some ({ p with run := .heartbeats (p.node.peers.map fun _ => .lock) }, {})
  | _ => none

def heartbeat (net : Net) (p : Proc) (k : Nat) : Option (Proc × Output) :=
  match p.run, p.node.peers[k]? with
  | .heartbeats ws, some peer =>
      if ws[k]? = some .lock then
        let args := p.node.heartbeatArgs peer
        let ws' := ws.set k (.awaiting net.appendCalls.length args)
        some ({ p with run := .heartbeats ws' },
          { appendCalls := [⟨p.node.id, peer, args⟩] })
      else none
  | _, _ => none

def heartbeatError (p : Proc) (k : Nat) : Option (Proc × Output) :=
  match p.run with
  | .heartbeats ws =>
      match ws[k]? with
      | some (.awaiting _ _) =>
          some ({ p with run := .heartbeats (ws.set k .done) }, {})
      | _ => none
  | _ => none

/-- `sendHeartbeatToPeer` from the reply on. -/
def digestHeartbeat (p : Proc) (ws : List Heartbeat) (k : Nat) (peer : String)
    (args : AppendEntriesArgs) (reply : AppendEntriesReply) : Proc :=
  let newMatch := args.prevLogIndex + args.entries.length
  let p := { p with
    node := p.node.countHeartbeat, run := .heartbeats (ws.set k .done) }
  if args.term < reply.term then p.signalStepDown reply.term
  else if args.entries = [] then p
  else if reply.success then
    { p with
      node := p.node.heartbeatSuccess peer newMatch
      run := .heartbeats (ws.set k (.applying p.appliers.length)) }.startApply
  else { p with node := p.node.lowerNext peer }

def heartbeatReply (net : Net) (p : Proc) (k j : Nat) :
    Option (Proc × Output) :=
  match p.run, p.node.peers[k]?, net.appendAnswers[j]? with
  | .heartbeats ws, some peer, some (call, reply) =>
      match ws[k]? with
      | some (.awaiting call' args) =>
          if call = call' then
            some (p.digestHeartbeat ws k peer args reply, {})
          else none
      | _ => none
  | _, _, _ => none

def heartbeatApplied (p : Proc) (k : Nat) : Option (Proc × Output) :=
  match p.run with
  | .heartbeats ws =>
      match ws[k]? with
      | some (.applying a) =>
          if p.appliers[a]? = some .done then
            some ({ p with run := .heartbeats (ws.set k .done) }, {})
          else none
      | _ => none
  | _ => none

/-- `wg.Wait()` returns. -/
def joinHeartbeats (p : Proc) : Option (Proc × Output) :=
  match p.run with
  | .heartbeats ws =>
      if ws.all (· = .done) then some ({ p with run := .loopLeader }, {})
      else none
  | _ => none

/-! ### `Replicate`

A call on a node that is not Leader returns at once and changes nothing,
so it is not a step. -/

/-- The locals of a new call. Without peers its loop has no round. -/
def openCall (p : Proc) (command : Command) : ReplicateCall where
  entry := p.node.newEntry command
  term := p.node.currentTerm
  leaderCommit := p.node.commitIndex
  acks := 1
  workers := p.node.peers.map fun _ => .lock
  loc := if p.node.peers = [] then .returned .timedOut else .waiting

def replicate (p : Proc) (command : Command) : Option (Proc × Output) :=
  if p.node.state = .leader then
    some ({ p with
      node := p.node.appendCommand command
      replicates := p.replicates ++ [p.openCall command] }, {})
  else none

/-- Move goroutine `k` of call `r`. -/
def setWorker (p : Proc) (r : Nat) (c : ReplicateCall) (k : Nat)
    (w : Worker) : Proc :=
  { p with replicates :=
      p.replicates.set r { c with workers := c.workers.set k w } }

/-- The locked section at the top of `replicateToPeer`'s loop. -/
def replicateSend (net : Net) (p : Proc) (r k : Nat) : Option (Proc × Output) :=
  match p.replicates[r]?, p.node.peers[k]? with
  | some c, some peer =>
      if c.workers[k]? = some .lock then
        if p.node.currentTerm ≠ c.term ∨ p.node.state ≠ .leader then
          some (p.setWorker r c k (.done false), {})
        else
          let args := p.node.replicateArgs peer c.entry c.term c.leaderCommit
          some (p.setWorker r c k (.awaiting net.appendCalls.length args),
            { appendCalls := [⟨p.node.id, peer, args⟩] })
      else none
  | _, _ => none

def replicateError (p : Proc) (r k : Nat) : Option (Proc × Output) :=
  match p.replicates[r]? with
  | some c =>
      match c.workers[k]? with
      | some (.awaiting _ _) => some (p.setWorker r c k (.done false), {})
      | _ => none
  | none => none

/-- `replicateToPeer` from the reply to the end of the round. -/
def digestReplicate (p : Proc) (r : Nat) (c : ReplicateCall) (k : Nat)
    (peer : String) (reply : AppendEntriesReply) : Proc :=
  if c.term < reply.term then
    (p.setWorker r c k (.done false)).signalStepDown reply.term
  else if reply.success then
    { p.setWorker r c k (.done true) with
      node := p.node.replicateSuccess peer c.entry }
  else if 1 < p.node.nextIndex peer then
    { p.setWorker r c k .lock with node := p.node.lowerNext peer }
  else p.setWorker r c k (.done false)

def replicateReply (net : Net) (p : Proc) (r k j : Nat) :
    Option (Proc × Output) :=
  match p.replicates[r]?, p.node.peers[k]?, net.appendAnswers[j]? with
  | some c, some peer, some (call, reply) =>
      match c.workers[k]? with
      | some (.awaiting call' _) =>
          if call = call' then some (p.digestReplicate r c k peer reply, {})
          else none
      | _ => none
  | _, _, _ => none

/-- One round of `Replicate`'s loop that takes a result from `ackCh`. -/
def countAck (p : Proc) (c : ReplicateCall) (k : Nat) (ok : Bool) :
    ReplicateCall :=
  let acks := if ok then c.acks + 1 else c.acks
  let workers := c.workers.set k (.received ok)
  { c with
    acks := acks
    workers := workers
    loc := if ok && p.node.majority ≤ acks then .commit
      else if workers.all Worker.isReceived then .returned .timedOut
      else .waiting }

def receiveAck (p : Proc) (r k : Nat) : Option (Proc × Output) :=
  match p.replicates[r]? with
  | some c =>
      match c.loc, c.workers[k]? with
      | .waiting, some (.done ok) =>
          some ({ p with replicates :=
            p.replicates.set r (p.countAck c k ok) }, {})
      | _, _ => none
  | none => none

/-- `Replicate` gives up waiting. -/
def giveUp (p : Proc) (r : Nat) (result : ReplicateResult) :
    Option (Proc × Output) :=
  match p.replicates[r]? with
  | some c =>
      if c.loc = .waiting then
        some ({ p with replicates :=
          p.replicates.set r { c with loc := .returned result } }, {})
      else none
  | none => none

def replicateCommit (p : Proc) (r : Nat) : Option (Proc × Output) :=
  match p.replicates[r]? with
  | some c =>
      if c.loc = .commit then
        some ({ p with
          node := p.node.commitEntry c.entry.index
          replicates := p.replicates.set r
            { c with loc := .applying p.appliers.length } }.startApply, {})
      else none
  | none => none

def replicateReturn (p : Proc) (r : Nat) : Option (Proc × Output) :=
  match p.replicates[r]? with
  | some c =>
      match c.loc with
      | .applying a =>
          if p.appliers[a]? = some .done then
            some ({ p with replicates :=
                p.replicates.set r { c with loc := .returned .ok } },
              { events := [.replicated p.node.id c.entry] })
          else none
      | _ => none
  | none => none

/-! ### `applyCommitted` and `RunApplyLoop` -/

/-- What is left to send; a nil `applyCh` ends the call. -/
def sendLater (applyCh : Option (List Command)) (rest : List LogEntry) :
    Applier :=
  if applyCh = none ∨ rest = [] then .done else .sending rest

def collect (p : Proc) (a : Nat) : Option (Proc × Output) :=
  if p.appliers[a]? = some .start then
    some ({ p with
      node := p.node.claim
      appliers := p.appliers.set a (sendLater p.applyCh p.node.toApply)
      collected := p.collected ++ p.node.toApply }, {})
  else none

def send (p : Proc) (a : Nat) : Option (Proc × Output) :=
  match p.appliers[a]?, p.applyCh with
  | some (.sending (entry :: rest)), some queue =>
      if queue.length < applyCap then
        some ({ p with
          appliers := p.appliers.set a (sendLater p.applyCh rest)
          applyCh := some (queue ++ [entry.command])
          sends := p.sends ++ [entry] }, {})
      else none
  | _, _ => none

/-- `RunApplyLoop` takes the next command from the channel. -/
def applyLoop (p : Proc) : Option (Proc × Output) :=
  match p.applyCh with
  | some (command :: queue) =>
      some ({ p with
        applyCh := some queue
        applied := p.applied ++ [command] }, {})
  | _ => none

/-! ### Stopping -/

def quit (p : Proc) : Option (Proc × Output) :=
  if p.stopped ∧ (p.run = .top ∨ p.run.selects) then
    some ({ p with run := .stopped }, {})
  else none

def abandon (p : Proc) (a : Nat) : Option (Proc × Output) :=
  match p.appliers[a]? with
  | some (.sending _) =>
      if p.stopped then
        some ({ p with appliers := p.appliers.set a .done }, {})
      else none
  | _ => none

def step (net : Net) (p : Proc) : Local → Option (Proc × Output)
  | .load => p.load
  | .timeout => p.timeout
  | .recvStepDown => p.recvStepDown
  | .stepDown => p.stepDown
  | .campaign => p.campaign net
  | .voteReply k j => p.voteReply net k j
  | .voteError k => p.voteError k
  | .electionTimeout => p.electionTimeout
  | .becomeLeader => p.becomeLeader
  | .tick => p.tick
  | .spawnHeartbeats => p.spawnHeartbeats
  | .heartbeat k => p.heartbeat net k
  | .heartbeatError k => p.heartbeatError k
  | .heartbeatReply k j => p.heartbeatReply net k j
  | .heartbeatApplied k => p.heartbeatApplied k
  | .joinHeartbeats => p.joinHeartbeats
  | .replicate command => p.replicate command
  | .replicateSend r k => p.replicateSend net r k
  | .replicateError r k => p.replicateError r k
  | .replicateReply r k j => p.replicateReply net r k j
  | .receiveAck r k => p.receiveAck r k
  | .replicateTimeout r => p.giveUp r .timedOut
  | .replicateCommit r => p.replicateCommit r
  | .replicateReturn r => p.replicateReturn r
  | .collect a => p.collect a
  | .send a => p.send a
  | .applyLoop => p.applyLoop
  | .stop => some ({ p with stopped := true }, {})
  | .quit => p.quit
  | .replicateStopped r => if p.stopped then p.giveUp r .stopped else none
  | .abandon a => p.abandon a

end Proc

/-! ## Steps of the cluster -/

/-- A cluster: distinct, non-empty ids, and peers lists that are exactly
the other members. `cmd/node` and `NewCluster` never use an empty id. -/
structure Cluster where
  members : List String
  peers : String → List String
  applyCh : String → Bool
  nodup : members.Nodup
  named : "" ∉ members
  peers_nodup : ∀ n ∈ members, (peers n).Nodup
  mem_peers : ∀ n ∈ members, ∀ p, p ∈ peers n ↔ p ∈ members ∧ p ≠ n

/-- `NewCluster`: every node's peers are the other ids, in order. -/
def newCluster (ids : List String) (applyCh : Bool) (nodup : ids.Nodup)
    (named : "" ∉ ids) : Cluster where
  members := ids
  peers n := ids.filter (· ≠ n)
  applyCh _ := applyCh
  nodup := nodup
  named := named
  peers_nodup _ _ := nodup.filter _
  mem_peers n _ p := by simp

inductive Action where
  | local (n : String) (a : Local)
  | deliverVote (call : Nat)
  | deliverAppend (call : Nat)
  | crash (n : String)
  | restart (n : String)
  deriving DecidableEq

namespace World

def setProc (w : World) (n : String) (p : Proc) : World :=
  { w with proc := Function.update w.proc n p }

/-- Install the outcome of a process step. -/
def commit (w : World) (n : String) (p : Proc) (out : Output) : World where
  proc := Function.update w.proc n p
  net := { w.net with
    voteCalls := w.net.voteCalls ++ out.voteCalls
    appendCalls := w.net.appendCalls ++ out.appendCalls }
  history := out.events ++ w.history

/-- `HandleRequestVote` runs on the destination. -/
def answerVote (w : World) (call : Nat) (c : VoteCall) : World :=
  let (node, reply) := (w.proc c.dst).node.handleRequestVote c.args
  { proc := Function.update w.proc c.dst { w.proc c.dst with node := node }
    net := { w.net with voteAnswers := w.net.voteAnswers ++ [(call, reply)] }
    history := if reply.voteGranted then .granted c.dst c.args :: w.history
      else w.history }

/-- `HandleAppendEntries` runs on the destination. -/
def answerAppend (w : World) (call : Nat) (c : AppendCall) : World :=
  let (node, reply, apply) := (w.proc c.dst).node.handleAppendEntries c.args
  let p := { w.proc c.dst with node := node }
  { proc := Function.update w.proc c.dst (if apply then p.startApply else p)
    net := { w.net with
      appendAnswers := w.net.appendAnswers ++ [(call, reply)] }
    history := w.history }

/-- The process starts again: nothing of the Raft state survived. -/
def restart (C : Cluster) (w : World) (n : String) : World where
  proc := Function.update w.proc n (newProc n (C.peers n) (C.applyCh n))
  net := w.net
  history := .restarted n :: w.history

end World

def Cluster.init (C : Cluster) : World where
  proc n := newProc n (C.peers n) (C.applyCh n)
  net := ⟨[], [], [], []⟩
  history := []

def Cluster.step (C : Cluster) (w : World) : Action → Option World
  | .local n a =>
      if n ∈ C.members ∧ (w.proc n).down = false then
        ((w.proc n).step w.net a).map fun r => w.commit n r.1 r.2
      else none
  | .deliverVote call =>
      match w.net.voteCalls[call]? with
      | some c =>
          if (w.proc c.dst).down = false then some (w.answerVote call c)
          else none
      | none => none
  | .deliverAppend call =>
      match w.net.appendCalls[call]? with
      | some c =>
          if (w.proc c.dst).down = false then some (w.answerAppend call c)
          else none
      | none => none
  | .crash n =>
      if n ∈ C.members ∧ (w.proc n).down = false then
        some (w.setProc n { w.proc n with down := true })
      else none
  | .restart n =>
      if n ∈ C.members ∧ (w.proc n).down then some (w.restart C n) else none

end RaftStore
