import RaftRupee.Core.Invocations

namespace RaftRupee.RaftNode

variable {node : RaftNode} {msg : Message} {o : Outcome} {i t term : ℕ}

/-! ### Votes during a lease -/

-- A vote request is answered with no, if at all, and the node does not cast its vote for the sender.
structure Refuses (node : RaftNode) (msg : Message) (o : Outcome) : Prop where
  reply    : ∀ reply granted, .send reply ∈ o.2 → reply.kind = .requestVoteResponse granted →
    granted = false
  votedFor : o.1.votedFor = some msg.sender →
    node.votedFor = some msg.sender ∧ o.1.currentTerm = node.currentTerm

-- The vote is cast or not on what is left of the request once the term is settled.
theorem handleRequestVote_eq (sender : NodeId) (hl : ¬node.leaderLeaseActive) (hv : node.votedFor = none) :
    node.handleRequestVote sender i t = if node.isLogUpToDate i t then
      ({ node with votedFor := some sender, electionElapsed := 0 },
        [.persistHardState node.currentTerm (some sender),
          .send <| node.message sender <| .requestVoteResponse true])
    else
      (node, [.send <| node.message sender <| .requestVoteResponse false]) := by
  simp [handleRequestVote, hl, hv]
  rfl

theorem handleRequestVote_of_lease (sender : NodeId) (hl : node.leaderLeaseActive) :
    node.handleRequestVote sender i t =
      (node, [.send <| node.message sender <| .requestVoteResponse false]) := by
  simp [handleRequestVote, hl]

-- A request of a later term ends the lease before it is looked at.
theorem step_requestVote_of_lt (hk : msg.kind = .requestVote i t) (ht : node.currentTerm < msg.term) :
    let later := (node.becomeFollower msg.term none).1
    node.step msg = some (if node.isLogUpToDate i t then
      ({ later with votedFor := some msg.sender, electionElapsed := 0 },
        [.persistHardState msg.term none, .persistHardState msg.term (some msg.sender),
          .send <| later.message msg.sender <| .requestVoteResponse true])
    else
      (later, [.persistHardState msg.term none,
        .send <| later.message msg.sender <| .requestVoteResponse false])) := by
  have hlater := becomeFollower_of_lt none ht
  have hfree : ¬(node.becomeFollower msg.term none).1.leaderLeaseActive := by
    simp [hlater, leaderLeaseActive, resetElectionTimer]
  have hvote := handleRequestVote_eq (i := i) (t := t) msg.sender hfree (by rw [hlater]; rfl)
  have hup : (node.becomeFollower msg.term none).1.isLogUpToDate i t = node.isLogUpToDate i t := by
    rw [hlater]
    rfl
  have hterm : (node.becomeFollower msg.term none).1.currentTerm = msg.term := by
    rw [hlater]
    rfl
  rw [hup] at hvote
  rw [step_of_later (by rw [hk]; rfl) (by rw [hk]; rfl) ht, dispatch, hk]
  dsimp only
  rw [hvote]
  split <;> simp [hterm]

-- A lease keeps out the requests of the node's own term, and those it would not grant anyway.
theorem lease_refuses_iff (hk : msg.kind = .requestVote i t) (hl : node.leaderLeaseActive) :
    (∃ o, node.step msg = some o ∧ Refuses node msg o) ↔
      msg.term ≤ node.currentTerm ∨ ¬node.isLogUpToDate i t := by
  rcases Nat.lt_trichotomy msg.term node.currentTerm with ht | ht | ht
  case inl =>
    have hstep := step_of_stale (by rw [hk]; rfl) (by rw [hk]; rfl) ht
    exact iff_of_true ⟨_, hstep, by simp, fun hv => ⟨hv, rfl⟩⟩ (.inl ht.le)
  case inr.inl =>
    have hstep := step_of_term ht
    simp only [dispatch, hk] at hstep
    rw [handleRequestVote_of_lease msg.sender hl] at hstep
    refine iff_of_true ⟨_, hstep, ?_, fun hv => ⟨hv, rfl⟩⟩ (.inl ht.le)
    intro reply granted hm hg
    rw [List.mem_singleton, Action.send.injEq] at hm
    rw [hm] at hg
    exact (MessageKind.requestVoteResponse.inj hg).symm
  case inr.inr =>
    rw [step_requestVote_of_lt hk ht, or_iff_right ht.not_ge]
    split
    case isTrue hup =>
      refine iff_of_false ?_ (not_not.mpr hup)
      rintro ⟨_, ho, hr⟩
      cases ho
      have hvote := hr.votedFor rfl
      exact absurd (hvote.right.symm.trans (becomeFollower_currentTerm ..)) ht.ne
    case isFalse hup =>
      rw [becomeFollower_of_lt none ht]
      refine iff_of_true ⟨_, rfl, ?_, by simp [resetElectionTimer]⟩ hup
      intro reply granted hm hg
      simp only [List.mem_cons, Action.send.injEq, List.not_mem_nil, or_false] at hm
      rcases hm with hm | hm
      case inl => contradiction
      case inr =>
        rw [hm] at hg
        exact (MessageKind.requestVoteResponse.inj hg).symm

-- A member that has heard from the leader of term 1.
def led : RaftNode :=
  (fresh.becomeFollower 1 (some 2)).1

-- It refuses another candidate of that term.
theorem lease_refuses_iff_candidate : ∃ o, led.step ⟨3, 1, 1, .requestVote 0 0⟩ = some o ∧
    Refuses led ⟨3, 1, 1, .requestVote 0 0⟩ o :=
  (@lease_refuses_iff led ⟨3, 1, 1, .requestVote 0 0⟩ 0 0 rfl rfl).mpr (.inl le_rfl)

-- A candidate of term 2 gets its vote.
theorem not_lease_refuses : (fresh.step ⟨2, 1, 1, .appendEntries 0 0 [] 0⟩).map (·.1) = some led ∧
    led.leaderLeaseActive ∧ ∃ o, led.step ⟨3, 1, 2, .requestVote 0 0⟩ = some o ∧
      .send ⟨1, 3, 2, .requestVoteResponse true⟩ ∈ o.2 ∧ o.1.votedFor = some 3 ∧
      ¬Refuses led ⟨3, 1, 2, .requestVote 0 0⟩ o := by
  refine ⟨rfl, rfl, _, rfl, by decide, rfl, fun hr => ?_⟩
  exact absurd (hr.votedFor rfl).left (by decide)

end RaftRupee.RaftNode
