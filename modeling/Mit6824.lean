import Mit6824.Runs
import Mit6824.Numbered
import Mit6824.Clients
import Mit6824.Consensus.Logs
import Mit6824.Consensus.History
import Mit6824.Consensus.Invariant
import Mit6824.Consensus.Steps
import Mit6824.Consensus.Safety
import Mit6824.Raft.State
import Mit6824.Raft.Handlers
import Mit6824.Raft.Leader
import Mit6824.Raft.Frame
import Mit6824.Raft.Messages
import Mit6824.Raft.LogView
import Mit6824.Raft.Replication
import Mit6824.Raft.WholeLog
import Mit6824.Raft.Snapshots
import Mit6824.Raft.Acknowledged
import Mit6824.Raft.Server
import Mit6824.Raft.Quorums
import Mit6824.Raft.Moves
import Mit6824.Raft.Cluster
import Mit6824.Raft.Events
import Mit6824.Raft.Routing
import Mit6824.Raft.Election
import Mit6824.Raft.Restart
import Mit6824.Raft.Terms
import Mit6824.Raft.Votes
import Mit6824.Raft.Stream
import Mit6824.Raft.Totality
import Mit6824.Raft.AppendRule
import Mit6824.Raft.Repair
import Mit6824.Raft.Pieces
import Mit6824.Raft.Refinement
import Mit6824.Raft.Simulation
import Mit6824.Raft.Delivery
import Mit6824.Raft.Awaited
import Mit6824.Raft.LogMatching
import Mit6824.Raft.SortedTerms
import Mit6824.Raft.Commitment
import Mit6824.Raft.Agreement
import Mit6824.Raft.StateMachine
import Mit6824.Raft.Durability
import Mit6824.Raft.Provenance
import Mit6824.Raft.Hosting
import Mit6824.Raft.Services
import Mit6824.Raft.Serving
import Mit6824.Raft.MatchIndex
import Mit6824.Raft.CurrentTerm
import Mit6824.Raft.TermIndex
import Mit6824.Dedup
import Mit6824.Linearizability.Models
import Mit6824.GoMap
import Mit6824.LinkedList
import Mit6824.Linearization
import Mit6824.Lanes
import Mit6824.Linearizability.Bitset
import Mit6824.Linearizability.FiniteSets
import Mit6824.Linearizability.Checker
import Mit6824.Linearizability.Entries
import Mit6824.Linearizability.Lifts
import Mit6824.Linearizability.Search
import Mit6824.Linearizability.Operations
import Mit6824.Linearizability.CheckOperations
import Mit6824.KvRaft.Server
import Mit6824.KvRaft.ExactlyOnce
import Mit6824.KvRaft.Node
import Mit6824.KvRaft.PutAppend
import Mit6824.KvRaft.Replay
import Mit6824.KvRaft.Clerk
import Mit6824.KvRaft.Get
import Mit6824.KvRaft.Deployment
import Mit6824.KvRaft.Replicas
import Mit6824.KvRaft.Execution
import Mit6824.KvRaft.Clients
import Mit6824.KvRaft.Linearizable
import Mit6824.ShardMaster.Server
import Mit6824.ShardMaster.Rebalance
import Mit6824.ShardMaster.History
import Mit6824.ShardMaster.Assignment
import Mit6824.ShardMaster.Replicas
import Mit6824.ShardMaster.Node
import Mit6824.ShardMaster.Query
import Mit6824.ShardMaster.Service
import Mit6824.ShardMaster.Deployment
import Mit6824.ShardMaster.Linearizable
import Mit6824.Grouping
import Mit6824.MapReduce.Files
import Mit6824.MapReduce.Tasks
import Mit6824.MapReduce.Job
import Mit6824.MapReduce.Rerun
import Mit6824.MapReduce.ReduceAgain
import Mit6824.MapReduce.InvertedIndex
import Mit6824.MapReduce.Schedule
import Mit6824.MapReduce.Batches
import Mit6824.MapReduce.SteadyWorkers
import Mit6824.MapReduce.Worker
import Mit6824.MapReduce.Holdings
import Mit6824.MapReduce.Distributed
import Mit6824.MapReduce.SameDisk
