import Mathlib.Algebra.Group.Nat.Even
import RaftRupee.Core.PreVotes

namespace RaftRupee

-- What `main` reads off its arguments. `addresses` lists the map of the members in whatever order its
-- keys come, and the server's own address must be among them.
structure Server where
  id        : NodeId
  addresses : List (NodeId × String)
  nodup     : (addresses.map (·.1)).Nodup
  self_mem  : id ∈ addresses.map (·.1)

namespace Server

variable (server : Server)

def members : List NodeId :=
  server.addresses.map (·.1)

-- The peers are all the keys: `main` removes the server's own address from the map only afterwards.
def config (rngSeed : SmallRng) : Config where
  id                     := server.id
  peers                  := server.members
  electionTimeoutTicks   := 15
  heartbeatIntervalTicks := 3
  rngSeed                := rngSeed
  heartbeat_lt           := by decide

-- A node of the server, which keeps its id and its peers for good.
structure Runs (node : RaftNode) : Prop where
  id    : node.id = server.id
  peers : node.peers = server.members

-- Members other than the server itself, as many as half of the cluster.
structure Half (others : List NodeId) : Prop where
  nodup  : others.Nodup
  subset : ∀ v ∈ others, v ∈ server.members ∧ v ≠ server.id
  length : others.length = server.members.length / 2

end Server

-- A reply of `voter` in term `T` arrives.
def Invocation.vote (receiver : NodeId) (T : ℕ) (voter : NodeId) : Invocation :=
  .step { sender := voter, receiver, term := T, kind := .requestVoteResponse true }

def Invocation.preVote (receiver : NodeId) (T : ℕ) (voter : NodeId) : Invocation :=
  .step { sender := voter, receiver, term := T, kind := .preVoteResponse true }

namespace RaftNode

variable {node : RaftNode} {T q i : ℕ} {receiver : NodeId} {voters : List NodeId}

/-! ### Gathering votes -/

end RaftNode

/-! ### The three sites -/

namespace Server

variable (server : Server)

variable {server} {node : RaftNode} {others : List NodeId}

theorem length_pos (server : Server) : 0 < server.members.length :=
  List.length_pos_of_mem server.self_mem

-- The quorum of the core, which expects the peers to be the other members.
theorem Runs.majority (h : server.Runs node) :
    node.majority = (server.members.length + 1) / 2 + 1 := by
  rw [RaftNode.majority, h.peers]

theorem Half.exists (server : Server) : ∃ others, server.Half others := by
  have hlen : (server.members.erase server.id).length = server.members.length - 1 :=
    List.length_erase_of_mem server.self_mem
  have hpos := server.length_pos
  refine ⟨(server.members.erase server.id).take (server.members.length / 2), ?_, fun v hv => ?_, ?_⟩
  · exact (server.nodup.erase _).sublist (List.take_sublist ..)
  · have hm := List.mem_of_mem_take hv
    exact ⟨List.mem_of_mem_erase hm, fun hc => (server.nodup.mem_erase_iff.mp hm).left hc⟩
  · rw [List.length_take, hlen]
    omega

-- The members that hold an entry are counted among the peers.
theorem Half.length_le (h : server.Half others) (hr : server.Runs node) {i : ℕ}
    (hm : ∀ v ∈ others, ∃ m, node.matchIndex v = some m ∧ i ≤ m) :
    1 + others.length ≤ node.replicaCount i := by
  rw [RaftNode.replicaCount, List.countP_eq_length_filter]
  refine Nat.add_le_add_left (h.nodup.subperm fun v hv => ?_).length_le 1
  obtain ⟨m, hm, hi⟩ := hm v hv
  rw [List.mem_filter, hr.peers]
  exact ⟨(h.subset v hv).left, by simpa [hm] using hi⟩

end Server
end RaftRupee
