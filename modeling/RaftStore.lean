import RaftStore.Election
import RaftStore.Replication
import RaftStore.World
import RaftStore.Lib.Runs
import RaftStore.Lib.Quorum
import RaftStore.Lib.LeaderLog
import RaftStore.Lib.LeaderLogInv
import RaftStore.Lib.LeaderComplete
import RaftStore.LogScan
import RaftStore.Moves
import RaftStore.Handlers
import RaftStore.Steps
import RaftStore.Votes
import RaftStore.Elections
import RaftStore.Leadership
import RaftStore.LogInv
import RaftStore.Pieces
import RaftStore.Refinement
import RaftStore.Commands
import RaftStore.Commit
import RaftStore.StateMachineSafety
import RaftStore.ApplyOrder
import RaftStore.Slices
import RaftStore.CatchUp
import RaftStore.Lib.LastWrite
import RaftStore.Store
import RaftStore.Lifetimes
import RaftStore.Recovery
import RaftStore.Redelivery
import RaftStore.Hashing
import RaftStore.Pipeline
import RaftStore.Serving
import RaftStore.Lib.Percent
import RaftStore.Http
import RaftStore.Router
import RaftStore.OneNode
import RaftStore.Timers
import RaftStore.StepDown
import RaftStore.Collection
import RaftStore.CommitRule
import RaftStore.Quorums
import RaftStore.Lib.Utf8
import RaftStore.Lib.Json
import RaftStore.Lib.JsonCut
import RaftStore.FileWal
import RaftStore.SnapshotFile
import RaftStore.FileStore
import RaftStore.Faults
import RaftStore.FileLifetimes
import RaftStore.FileRecovery
import RaftStore.Settings
import RaftStore.FileSettings
import RaftStore.LogLoops
import RaftStore.Lib.Text
import RaftStore.Topology
import RaftStore.Peers
import RaftStore.Voters
import RaftStore.Permanence
import RaftStore.Lib.Broadcast
import RaftStore.TotalOrder
import RaftStore.Acknowledged
import RaftStore.Partition
import RaftStore.InMemory
import RaftStore.Lib.Base64
import RaftStore.Lib.JsonRead
import RaftStore.Wire
import RaftStore.Integrity
import RaftStore.Service
import RaftStore.Lib.Possible
import RaftStore.Scheduling
import RaftStore.Progress
import RaftStore.Metrics
import RaftStore.Bodies
import RaftStore.Shutdown
