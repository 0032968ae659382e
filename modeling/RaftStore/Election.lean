import RaftStore.Node

/-!
# Election and the RPC handlers

The locked sections of `raft/election.go`, each as a function on the
node it runs on. `handleAppendEntries` also says whether it started a
goroutine for `applyCommitted`.
-/

namespace RaftStore

namespace Node

/-- `loopFollower`'s timer branch: the store is outside the lock. -/
def electionTimeout (n : Node) : Node := { n with state := .candidate }

/-! ## `loopCandidate` and `becomeLeader` -/

/-- The request `loopCandidate` sends to every peer, as its first locked
section computes it. -/
def voteRequest (n : Node) : RequestVoteArgs where
  term := n.currentTerm + 1
  candidateID := n.id
  lastLogIndex := n.log.lastIndexAndTerm.1
  lastLogTerm := n.log.lastIndexAndTerm.2

/-- The first locked section of `loopCandidate`, with its metric. The
state is not looked at: a handler may have put the node back to Follower
since `run` loaded it. -/
def startElection (n : Node) : Node :=
  { n with
    currentTerm := n.currentTerm + 1
    votedFor := n.id
    metrics := { n.metrics with
      electionsStarted := n.metrics.electionsStarted + 1 } }

/-- `becomeLeader`'s two tests: the term and the CAS from Candidate. -/
def wins (n : Node) (term : Nat) : Bool :=
  n.currentTerm = term && n.state = .candidate

def becomeLeader (n : Node) (term : Nat) : Node :=
  if n.wins term then
    { n with
      state := .leader
      nextIndex := fun p =>
        if p ∈ n.peers then n.log.lastIndexAndTerm.1 + 1 else n.nextIndex p
      matchIndex := fun p => if p ∈ n.peers then 0 else n.matchIndex p
      metrics := { n.metrics with currentLeaderID := n.id } }
  else n

/-! ## `HandleRequestVote` -/

/-- The candidate's log is at least as up to date as ours. -/
def logOK (n : Node) (args : RequestVoteArgs) : Bool :=
  n.log.lastIndexAndTerm.2 < args.lastLogTerm
    || (args.lastLogTerm = n.log.lastIndexAndTerm.2
      && n.log.lastIndexAndTerm.1 ≤ args.lastLogIndex)

def alreadyVoted (n : Node) (args : RequestVoteArgs) : Bool :=
  n.votedFor ≠ "" && n.votedFor ≠ args.candidateID

/-- Both handlers step down first when the request has a higher term. -/
def observeTerm (n : Node) (term : Nat) : Node :=
  if n.currentTerm < term then n.becomeFollower term else n

def handleRequestVote (n : Node) (args : RequestVoteArgs) :
    Node × RequestVoteReply :=
  if args.term < n.currentTerm then
    (n, { term := n.currentTerm, voteGranted := false })
  else
    let n := n.observeTerm args.term
    if n.alreadyVoted args || !n.logOK args then
      (n, { term := n.currentTerm, voteGranted := false })
    else
      ({ n with
          votedFor := args.candidateID
          metrics := { n.metrics with
            votesGranted := n.metrics.votesGranted + 1 } },
        { term := n.currentTerm, voteGranted := true })

end Node

/-! ## `HandleAppendEntries` -/

namespace LogStore

/-- The consistency check: `PrevLogIndex = 0` passes untested. -/
def matchesPrev (l : LogStore) (args : AppendEntriesArgs) : Bool :=
  args.prevLogIndex = 0 ||
    match l.entryAt args.prevLogIndex with
    | some prev => prev.term = args.prevLogTerm
    | none => false

/-- One round of the append loop: skip, truncate and rewrite, or append. -/
def install (l : LogStore) (entry : LogEntry) : LogStore :=
  match l.entryAt entry.index with
  | some existing =>
      if existing.term = entry.term then l
      else (l.truncateAfter (entry.index - 1)).appendEntry entry
  | none => l.appendEntry entry

def installAll (l : LogStore) (entries : List LogEntry) : LogStore :=
  entries.foldl install l

end LogStore

namespace Node

/-- What happens before the consistency check once the term is accepted:
a higher term is adopted, a candidate steps down, the leader is noted. -/
def observeLeader (n : Node) (args : AppendEntriesArgs) : Node :=
  let n := n.observeTerm args.term
  { n with
    state := if n.state = .candidate then .follower else n.state
    metrics := { n.metrics with
      heartbeatsRecvd := n.metrics.heartbeatsRecvd + 1
      currentLeaderID := args.leaderID } }

/-- The rest of the handler after the consistency check passed. -/
def acceptEntries (n : Node) (args : AppendEntriesArgs) : Node :=
  let log := n.log.installAll args.entries
  { n with
    log := log
    commitIndex := if n.commitIndex < args.leaderCommit then
      min args.leaderCommit log.lastIndex else n.commitIndex }

/-- The node, the reply, and whether `go n.applyCommitted()` was reached. -/
def handleAppendEntries (n : Node) (args : AppendEntriesArgs) :
    Node × AppendEntriesReply × Bool :=
  if args.term < n.currentTerm then
    (n, { term := n.currentTerm, success := false }, false)
  else
    let n := n.observeLeader args
    if n.log.matchesPrev args then
      (n.acceptEntries args, { term := n.currentTerm, success := true },
        n.commitIndex < args.leaderCommit)
    else
      (n, { term := n.currentTerm, success := false }, false)

end Node

end RaftStore
