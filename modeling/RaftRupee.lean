import RaftRupee.Lib.Transition
import RaftRupee.Lib.Simulation
import RaftRupee.Lib.Crash
import RaftRupee.Lib.Quorum
import RaftRupee.Lib.Ballot
import RaftRupee.Lib.Prefix
import RaftRupee.Lib.Checker
import RaftRupee.Lib.Bytes
import RaftRupee.Lib.Checksum
import RaftRupee.Lib.Reorder
import RaftRupee.Lib.Rounds
import RaftRupee.Lib.Window
import RaftRupee.Lib.Replication.Entry
import RaftRupee.Lib.Replication.Lineage
import RaftRupee.Lib.Replication.State
import RaftRupee.Lib.Replication.Matching
import RaftRupee.Lib.Replication.Safety
import RaftRupee.Core.Message
import RaftRupee.Core.Log
import RaftRupee.Core.Node
import RaftRupee.Core.Moves
import RaftRupee.Core.Contiguous
import RaftRupee.Core.Positions
import RaftRupee.Core.Calls
import RaftRupee.Core.HardState
import RaftRupee.Core.Invocations
import RaftRupee.Core.Applying
import RaftRupee.Core.Persistence
import RaftRupee.Core.AppendOnly
import RaftRupee.Core.PreVotes
import RaftRupee.Core.Hostile
import RaftRupee.Core.Answers
import RaftRupee.Core.Lease
import RaftRupee.Core.Entries
import RaftRupee.Core.Standoff
import RaftRupee.Core.Following
import RaftRupee.Core.Agreeing
import RaftRupee.Core.Replaying
import RaftRupee.Core.Backtracking
import RaftRupee.Core.Cursors
import RaftRupee.Core.Contacts
import RaftRupee.Core.Terms
import RaftRupee.Core.TermOrder
import RaftRupee.Sim.Storage
import RaftRupee.Sim.Invariants
import RaftRupee.Sim.Disk
import RaftRupee.Sim.Network
import RaftRupee.Sim.Simulator
import RaftRupee.Sim.Reproducible
import RaftRupee.Sim.Cluster
import RaftRupee.Sim.Layer
import RaftRupee.Sim.Restarts
import RaftRupee.Sim.Snapshots
import RaftRupee.Sim.Votes
import RaftRupee.Sim.PreVoting
import RaftRupee.Sim.Steps
import RaftRupee.Sim.Standoff
import RaftRupee.Sim.Contacts
import RaftRupee.Sim.Isolation
import RaftRupee.Sim.View
import RaftRupee.Sim.Sync
import RaftRupee.Sim.Proposals
import RaftRupee.Sim.Election
import RaftRupee.Sim.Mirroring
import RaftRupee.Sim.Compaction
import RaftRupee.Sim.Representation
import RaftRupee.Sim.Delays
import RaftRupee.Sim.Embedding
import RaftRupee.Sim.Partition
import RaftRupee.Sim.Harness
import RaftRupee.Sim.Client
import RaftRupee.Sim.Cursors
import RaftRupee.Sim.LogMatching
import RaftRupee.Sim.Refinement
import RaftRupee.Sim.Leaders
import RaftRupee.Sim.Replicas
import RaftRupee.Sim.Solo
import RaftRupee.Sim.Agreement
import RaftRupee.Sim.Committed
import RaftRupee.Sim.MatchIndex
import RaftRupee.Server.Quorum
import RaftRupee.Server.Codec
import RaftRupee.Server.Sending
import RaftRupee.Server.Wal
import RaftRupee.Server.Recovery
import RaftRupee.Server.Sector
import RaftRupee.Server.Scanning
import RaftRupee.Server.Integrity
import RaftRupee.Server.Process
import RaftRupee.Server.Elections
import RaftRupee.Server.Logs
import RaftRupee.Sim.Panics
