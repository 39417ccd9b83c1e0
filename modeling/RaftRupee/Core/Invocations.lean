import RaftRupee.Core.Calls
import RaftRupee.Core.Contiguous

namespace RaftRupee

-- The calls by which a node is driven.
inductive Invocation
  | tick
  | propose (command : Command)
  | compactLogs (index : ℕ) (term : ℕ) (data : Command)
  | step (msg : Message)
  deriving DecidableEq, Repr

def Invocation.cause : Invocation → Cause
  | tick              => .tick
  | propose _         => .propose
  | compactLogs i t _ => .compactLogs i t
  | step msg          => .handle msg

-- An invocation with what it returned, and the node that it left behind.
structure Returned where
  invocation : Invocation
  node       : RaftNode
  actions    : List Action

namespace RaftNode

variable {node : RaftNode} {c : Invocation} {cs : List Invocation} {o : Outcome} {rs : List Returned}
variable {msg : Message}

def invoke (node : RaftNode) : Invocation → Option Outcome
  | .tick                 => some node.tick
  | .propose command      => some <| node.propose command
  | .compactLogs i t data => some <| node.compactLogs i t data
  | .step msg             => node.step msg

-- Fails when one of the calls panics.
def invokeAll (node : RaftNode) : List Invocation → Option (List Returned)
  | [] => some []
  | c :: cs => do
    let (node, actions) ← node.invoke c
    let rest ← node.invokeAll cs
    some ({ invocation := c, node, actions } :: rest)

-- A node as it is started, or restarted from what it has stored.
inductive Started : RaftNode → Prop
  | new (config : Config) : Started (.new config)
  | restore (config : Config) (term : ℕ) (votedFor : Option NodeId) {log : RaftLog} :
    log.Contiguous → Started (.restore config term votedFor log log.firstIndex log.firstIndex)

-- A member of three that starts for the first time.
def fresh : RaftNode :=
  .new {
    id                     := 1
    peers                  := [2, 3]
    electionTimeoutTicks   := 2
    heartbeatIntervalTicks := 1
    rngSeed                := { draws := fun _ => 0 }
    heartbeat_lt           := Nat.one_lt_two }

theorem invoke_call (h : node.invoke c = some o) : Call c.cause node.kernel o.1.kernel o.2 := by
  cases c
  case tick =>
    cases h
    exact .same <| tick_move _
  case propose command =>
    cases h
    have h := @propose_move .propose node command [] (by simp)
    rw [List.append_nil] at h
    exact .same h
  case compactLogs =>
    cases h
    exact .same <| compactLogs_move ..
  case step => exact step_call h

-- Pre-votes and the replies to them are handled in whatever term they come.
theorem step_of_isPreVote (hk : msg.kind.isPreVote) : node.step msg = node.dispatch msg := by
  unfold step
  simp only [hk, Bool.not_true, Bool.false_and, Bool.and_false, Bool.false_eq_true, if_false,
    List.nil_append]
  cases node.dispatch msg <;> rfl

-- So is any message of the node's own term.
theorem step_of_term (ht : msg.term = node.currentTerm) : node.step msg = node.dispatch msg := by
  unfold step
  simp only [ht, gt_iff_lt, lt_irrefl, decide_false, Bool.false_and, Bool.false_eq_true, if_false,
    List.nil_append]
  cases node.dispatch msg <;> rfl

-- The term gate drops what comes from an earlier term.
theorem step_of_stale (hp : msg.kind.isPreVote = false) (hc : msg.kind.isClient = false)
    (ht : msg.term < node.currentTerm) : node.step msg = some (node, []) := by
  simp [step, hp, hc, ht, not_lt.mpr ht.le]

theorem becomeFollower_currentTerm (node : RaftNode) (term : ℕ) (leader : Option NodeId) :
    (node.becomeFollower term leader).1.currentTerm = term := by
  unfold becomeFollower
  dsimp only
  split <;> rfl

theorem becomeFollower_no_send (node : RaftNode) (term : ℕ) (leader : Option NodeId) :
    ∀ a ∈ (node.becomeFollower term leader).2, ¬a.isSend := by
  unfold becomeFollower
  dsimp only
  split <;> simp [Action.isSend]

theorem becomeFollower_id (node : RaftNode) (term : ℕ) (leader : Option NodeId) :
    (node.becomeFollower term leader).1.id = node.id := by
  unfold becomeFollower
  dsimp only
  split <;> rfl

theorem becomeFollower_of_lt {term : ℕ} (leader : Option NodeId) (h : node.currentTerm < term) :
    node.becomeFollower term leader = (resetElectionTimer { node with
      currentTerm := term, role := .follower, leaderId := leader, votedFor := none },
      [.persistHardState term none]) := by
  simp [becomeFollower, resetElectionTimer, h]

-- A message of a later term makes the node a follower before it is looked at.
theorem step_of_later (hp : msg.kind.isPreVote = false) (hc : msg.kind.isClient = false)
    (ht : node.currentTerm < msg.term) : node.step msg =
      ((node.becomeFollower msg.term none).1.dispatch msg).map fun o =>
        (o.1, .persistHardState msg.term none :: o.2) := by
  have hlater := becomeFollower_of_lt none ht
  rw [step]
  simp only [hp, hc, Bool.not_false, Bool.and_self, Bool.and_true, decide_eq_true ht, if_true]
  rw [if_neg (by simp [hlater, resetElectionTimer]), hlater]
  cases (resetElectionTimer { node with
    currentTerm := msg.term, role := .follower, leaderId := none, votedFor := none }).dispatch msg <;> rfl

theorem invokeAll_of_invoke (h : node.invoke c = some o) (hs : o.1.invokeAll cs = some rs) :
    node.invokeAll (c :: cs) = some (⟨c, o.1, o.2⟩ :: rs) := by
  simp [invokeAll, h, hs]

theorem invokeAll_cons (h : node.invokeAll (c :: cs) = some rs) : ∃ o rest,
    node.invoke c = some o ∧ o.1.invokeAll cs = some rest ∧ rs = ⟨c, o.1, o.2⟩ :: rest := by
  obtain ⟨o, ho, h⟩ := Option.bind_eq_some_iff.mp h
  obtain ⟨rest, hr, h⟩ := Option.bind_eq_some_iff.mp h
  exact ⟨o, rest, ho, hr, (Option.some.inj h).symm⟩

end RaftNode
end RaftRupee
