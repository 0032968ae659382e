import Mathlib.Logic.Function.Basic
import RaftStore.Node

/-!
# Replication

The locked sections of `raft/replication.go`: appending a command,
building the requests of `replicateToPeer` and `sendHeartbeatToPeer`,
digesting their replies, the commit rule, and collecting committed
entries. A loop over an index range is a fold or a filter over
`List.range'`.
-/

namespace RaftStore

namespace LogStore

/-- Term of the entry before a request's entries, 0 when it is the
sentinel or not in the log. -/
def prevTerm (l : LogStore) (prevLogIndex : Nat) : Nat :=
  if 0 < prevLogIndex then
    match l.entryAt prevLogIndex with
    | some prev => prev.term
    | none => 0
  else 0

/-- The entries with indices `lo..hi` that the log has. -/
def slice (l : LogStore) (lo hi : Nat) : List LogEntry :=
  (List.range' lo (hi + 1 - lo)).filterMap l.entryAt

end LogStore

namespace Node

/-! ## `Replicate` -/

/-- The entry `Replicate` creates on a leader. -/
def newEntry (n : Node) (command : Command) : LogEntry where
  term := n.currentTerm
  index := n.log.lastIndexAndTerm.1 + 1
  command := command

def appendCommand (n : Node) (command : Command) : Node :=
  { n with
    log := n.log.appendEntry (n.newEntry command)
    matchIndex := Function.update n.matchIndex n.id (n.newEntry command).index }

/-- The locked section after a majority of acks. -/
def commitEntry (n : Node) (index : Nat) : Node :=
  if n.commitIndex < index then { n with commitIndex := index } else n

/-! ## `replicateToPeer` -/

def replicateArgs (n : Node) (peer : String) (entry : LogEntry)
    (term leaderCommit : Nat) : AppendEntriesArgs where
  term := term
  leaderID := n.id
  prevLogIndex := n.nextIndex peer - 1
  prevLogTerm := n.log.prevTerm (n.nextIndex peer - 1)
  entries := n.log.slice (n.nextIndex peer) entry.index
  leaderCommit := leaderCommit

def replicateSuccess (n : Node) (peer : String) (entry : LogEntry) : Node :=
  { n with
    matchIndex := if n.matchIndex peer < entry.index then
      Function.update n.matchIndex peer entry.index else n.matchIndex
    nextIndex := Function.update n.nextIndex peer (entry.index + 1) }

/-- Both senders lower `nextIndex` on a rejection, but not below 1. -/
def lowerNext (n : Node) (peer : String) : Node :=
  if 1 < n.nextIndex peer then
    { n with nextIndex :=
        Function.update n.nextIndex peer (n.nextIndex peer - 1) }
  else n

/-! ## `sendHeartbeatToPeer` -/

/-- The first locked section. It never looks at `state`; an up-to-date
peer gets an empty request with `PrevLogIndex = 0`. -/
def heartbeatArgs (n : Node) (peer : String) : AppendEntriesArgs :=
  if n.nextIndex peer ≤ n.log.lastIndexAndTerm.1 then
    { term := n.currentTerm
      leaderID := n.id
      prevLogIndex := n.nextIndex peer - 1
      prevLogTerm := n.log.prevTerm (n.nextIndex peer - 1)
      entries := n.log.entriesFrom (n.nextIndex peer)
      leaderCommit := n.commitIndex }
  else
    { term := n.currentTerm
      leaderID := n.id
      prevLogIndex := 0
      prevLogTerm := 0
      entries := []
      leaderCommit := n.commitIndex }

/-! ## `advanceCommitIndex` -/

/-- Self plus the peers known to hold `idx`. -/
def replicaCount (n : Node) (idx : Nat) : Nat :=
  1 + n.peers.countP fun p => idx ≤ n.matchIndex p

/-- The commit rule at one index. -/
def committable (n : Node) (idx : Nat) : Bool :=
  match n.log.entryAt idx with
  | some entry => entry.term = n.currentTerm && n.majority ≤ n.replicaCount idx
  | none => false

/-- The loop of `advanceCommitIndex`: the last committable index wins. -/
def lastCommittable (n : Node) : Nat :=
  (List.range' (n.commitIndex + 1)
    (n.log.lastIndexAndTerm.1 - n.commitIndex)).foldl
    (fun commit idx => if n.committable idx then idx else commit)
    n.commitIndex

def advanceCommitIndex (n : Node) : Node :=
  { n with commitIndex := n.lastCommittable }

/-- The success branch of `sendHeartbeatToPeer`. -/
def heartbeatSuccess (n : Node) (peer : String) (newMatch : Nat) : Node :=
  (if n.matchIndex peer < newMatch then
    { n with
      matchIndex := Function.update n.matchIndex peer newMatch
      nextIndex := Function.update n.nextIndex peer (newMatch + 1) }
  else n).advanceCommitIndex

def countHeartbeat (n : Node) : Node :=
  { n with metrics := { n.metrics with
      heartbeatsSent := n.metrics.heartbeatsSent + 1 } }

/-! ## `applyCommitted` -/

/-- What one call collects under the lock. -/
def toApply (n : Node) : List LogEntry :=
  n.log.slice (n.lastApplied + 1) n.commitIndex

def claim (n : Node) : Node :=
  { n with lastApplied := max n.lastApplied n.commitIndex }

end Node

end RaftStore
