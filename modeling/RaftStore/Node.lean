import RaftStore.Log

/-!
# Nodes and messages

The node of `raft/raft.go` and the request and reply types of
`raft/transport.go`: everything a locked section reads or writes. The
channels and the goroutines around it are in `World`.

The maps `nextIndex` and `matchIndex` are functions with Go's zero value
for a missing key. `resetTimerCh` is left out: it only moves the moment
an election timer fires, and here a timer may fire at any moment.
-/

namespace RaftStore

inductive NodeState where
  | follower
  | candidate
  | leader
  deriving DecidableEq

structure RequestVoteArgs where
  term : Nat
  candidateID : String
  lastLogIndex : Nat
  lastLogTerm : Nat
  deriving DecidableEq

structure RequestVoteReply where
  term : Nat
  voteGranted : Bool
  deriving DecidableEq

structure AppendEntriesArgs where
  term : Nat
  leaderID : String
  prevLogIndex : Nat
  prevLogTerm : Nat
  entries : List LogEntry
  leaderCommit : Nat
  deriving DecidableEq

structure AppendEntriesReply where
  term : Nat
  success : Bool
  deriving DecidableEq

structure NodeMetrics where
  electionsStarted : Nat
  votesGranted : Nat
  heartbeatsSent : Nat
  heartbeatsRecvd : Nat
  currentLeaderID : String
  deriving DecidableEq

structure Node where
  id : String
  peers : List String
  currentTerm : Nat
  votedFor : String
  log : LogStore
  commitIndex : Nat
  lastApplied : Nat
  nextIndex : String → Nat
  matchIndex : String → Nat
  state : NodeState
  metrics : NodeMetrics

def newNode (id : String) (peers : List String) : Node where
  id := id
  peers := peers
  currentTerm := 0
  votedFor := ""
  log := newLogStore
  commitIndex := 0
  lastApplied := 0
  nextIndex := fun _ => 0
  matchIndex := fun _ => 0
  state := .follower
  metrics := ⟨0, 0, 0, 0, ""⟩

namespace Node

/-- The quorum size both `loopCandidate` and `Replicate` count up to. -/
def majority (n : Node) : Nat := (n.peers.length + 1) / 2 + 1

def becomeFollower (n : Node) (term : Nat) : Node :=
  if n.currentTerm < term then
    { n with currentTerm := term, votedFor := "", state := .follower }
  else
    { n with state := .follower }

end Node

end RaftStore
