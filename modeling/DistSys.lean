import DistSys.Core.Exec
import DistSys.Core.GoValues
import DistSys.Core.GoText
import DistSys.Core.Utf8
import DistSys.Core.Fields
import DistSys.Core.JsonString
import DistSys.Core.Grouping
import DistSys.Core.Majority
import DistSys.Core.Replica
import DistSys.Core.ReplicaInv
import DistSys.Core.ReplicaSafety
import DistSys.Core.ReplicaLocal
import DistSys.Core.ReplicaStep
import DistSys.Core.ReplicaLead
import DistSys.Core.ReplicaRun
import DistSys.Core.Handoff
import DistSys.Core.HandoffInv
import DistSys.Core.HandoffRelease
import DistSys.Core.Linearizable
import DistSys.Core.Ledger
import DistSys.Core.LedgerPoints
import DistSys.Core.Links
import DistSys.Core.Intervals
import DistSys.Core.Locality
import DistSys.Raft.Types
import DistSys.Raft.Node
import DistSys.Raft.Cluster
import DistSys.Raft.Step
import DistSys.Raft.Outcome
import DistSys.Raft.FullLog
import DistSys.Raft.Relation
import DistSys.Raft.RelationMono
import DistSys.Raft.NodeElection
import DistSys.Raft.NodeMerge
import DistSys.Raft.NodeAppend
import DistSys.Raft.NodeCommit
import DistSys.Raft.NodeReplicate
import DistSys.Raft.NodeSnapshot
import DistSys.Raft.SimElection
import DistSys.Raft.SimReplicate
import DistSys.Raft.SimService
import DistSys.Raft.Simulation
import DistSys.Raft.CommitRule
import DistSys.Raft.Safety
import DistSys.Raft.Leadership
import DistSys.Raft.Effect
import DistSys.Raft.StepEffect
import DistSys.Raft.Durability
import DistSys.Raft.ApplyOrder
import DistSys.Raft.StaleSnapshot
import DistSys.Raft.OrderedDelivery
import DistSys.Raft.SnapshotContent
import DistSys.Raft.Uncompacted
import DistSys.Raft.Compacts
import DistSys.Raft.Compaction
import DistSys.Raft.LogInvariant
import DistSys.Raft.Convergence
import DistSys.Raft.NodeStep
import DistSys.Raft.Progress
import DistSys.Raft.AppendSpec
import DistSys.Raft.SnapshotOrigin
import DistSys.Shardctrler.Server
import DistSys.Shardctrler.Assign
import DistSys.Shardctrler.Donors
import DistSys.Shardctrler.Balance
import DistSys.Shardctrler.Numbered
import DistSys.Shardctrler.Moves
import DistSys.Shardctrler.Rebalance
import DistSys.Shardctrler.Movement
import DistSys.Shardctrler.MapOrder
import DistSys.Shardctrler.World
import DistSys.Shardctrler.Results
import DistSys.Shardctrler.Linearized
import DistSys.ShardKv.Server
import DistSys.ShardKv.Apply
import DistSys.ShardKv.Replicas
import DistSys.ShardKv.World
import DistSys.ShardKv.Trace
import DistSys.ShardKv.Orderly
import DistSys.ShardKv.Migration
import DistSys.ShardKv.Simulation
import DistSys.ShardKv.Status
import DistSys.ShardKv.Exclusive
import DistSys.ShardKv.Refinement
import DistSys.ShardKv.Release
import DistSys.ShardKv.Once
import DistSys.ShardKv.Clerk
import DistSys.ShardKv.Execute
import DistSys.ShardKv.Reply
import DistSys.KvRaft.Server
import DistSys.KvRaft.World
import DistSys.KvRaft.Results
import DistSys.KvRaft.Replay
import DistSys.KvRaft.Calls
import DistSys.KvRaft.Linearized
import DistSys.KvRaft.OverRaft
import DistSys.KvRaft.Channels
import DistSys.KvRaft.WakeUp
import DistSys.KvRaft.Steps
import DistSys.KvRaft.Replicated
import DistSys.KvRaft.Answers
import DistSys.Mr.Coordinator
import DistSys.Mr.Phases
import DistSys.Mr.PhaseSafety
import DistSys.Mr.Worker
import DistSys.Mr.Distributed
import DistSys.Mr.Equivalence
import DistSys.Mr.Intermediate
import DistSys.Mr.Process
import DistSys.Mr.Joint
import DistSys.Mr.Finishing
import DistSys.Mr.WordCount
import DistSys.Porcupine.Bitset
import DistSys.Porcupine.Checker
import DistSys.Porcupine.Linked
import DistSys.Porcupine.Search
import DistSys.Porcupine.Loop
import DistSys.Porcupine.Verdict
import DistSys.Porcupine.Operations
import DistSys.Porcupine.Parallel
import DistSys.Porcupine.Events
import DistSys.Porcupine.KvModel
import DistSys.KvRaft.Checked
import DistSys.Labrpc.Network
import DistSys.Labrpc.Steps
import DistSys.Labrpc.Delivery
import DistSys.Labrpc.Lifetime
