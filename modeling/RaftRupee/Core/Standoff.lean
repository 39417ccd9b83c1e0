import RaftRupee.Core.PreVotes

namespace RaftRupee

variable {node : RaftNode} {call : Invocation} {o : Outcome} {msg : Message}

-- What nodes say to each other while none of them is a candidate. A reply carries the term of its sender.
def Message.Idle (msg : Message) (T : ℕ) : Prop :=
  (∃ i t, msg.kind = .preVote i t) ∨ (∃ granted, msg.kind = .preVoteResponse granted ∧ msg.term = T) ∨
    ∃ success hint, msg.kind = .clientResponse success hint

-- A call by a timer or a client, or for a message of this kind.
def Invocation.Idle : Invocation → Prop
  | step msg => (∃ command, msg.kind = .clientRequest command) ∨ ∃ T, msg.Idle T
  | _        => True

-- The node stays in its term and does not lead. As a pre-candidate it counts itself and those who have
-- backed it in its term.
structure Waits (node : RaftNode) (call : Invocation) (o : Outcome) : Prop where
  term     : o.1.currentTerm = node.currentTerm
  role     : o.1.role ≠ .leader
  preVotes : o.1.role = .preCandidate → ∀ v ∈ o.1.preVotesReceived, v = node.id ∨
    call.Backs v node.currentTerm ∨ node.role = .preCandidate ∧ v ∈ node.preVotesReceived
  sends    : ∀ msg, .send msg ∈ o.2 → msg.sender = node.id ∧ msg.Idle node.currentTerm

theorem Waits.same (hr : node.role ≠ .leader) : Waits node call (node, []) where
  term          := rfl
  role          := hr
  preVotes hp v := fun hv => .inr <| .inr ⟨hp, hv⟩
  sends         := by simp

theorem Waits.reply {receiver : NodeId} {kind : MessageKind} (hr : node.role ≠ .leader)
    (hm : (node.message receiver kind).Idle node.currentTerm) :
    Waits node call (node, [.send <| node.message receiver kind]) where
  term          := rfl
  role          := hr
  preVotes hp v := fun hv => .inr <| .inr ⟨hp, hv⟩
  sends msg hs  := by
    cases List.mem_singleton.mp hs
    exact ⟨rfl, hm⟩

namespace RaftNode

theorem startPreVote_waits (hp : node.peers ≠ []) : Waits node call node.startPreVote := by
  unfold startPreVote
  rw [if_neg (by simpa using hp)]
  refine ⟨rfl, by simp [resetElectionTimer], fun _ v hv => .inl (Finset.mem_singleton.mp hv), fun msg hs => ?_⟩
  obtain ⟨_, _, hm⟩ := List.mem_map.mp hs
  cases hm
  exact ⟨rfl, .inl ⟨_, _, rfl⟩⟩

theorem tick_waits (hp : node.peers ≠ []) (hr : node.role ≠ .leader) : Waits node .tick node.tick := by
  have elapse (elapsed : ℕ) : Waits node .tick ({ node with electionElapsed := elapsed }, []) :=
    ⟨rfl, hr, fun hc _ hv => .inr <| .inr ⟨hc, hv⟩, by simp⟩
  unfold tick
  split
  case h_1 h => exact absurd h hr
  all_goals
    dsimp only
    split
    · let expired : RaftNode := { node with electionElapsed := 0 }
      have hp' : expired.peers ≠ [] := hp
      have h : Waits expired .tick expired.startPreVote := startPreVote_waits hp'
      exact ⟨h.term, h.role, h.preVotes, h.sends⟩
    · exact elapse _

-- A granted pre-vote has an effect if it comes in the term of the node, and completes no majority.
theorem handlePreVoteResponse_waits {granted : Bool} (hk : msg.kind = .preVoteResponse granted)
    (hr : node.role ≠ .leader) (hq : ∀ p, node.role = .preCandidate →
      (Invocation.step msg).Backs p node.currentTerm → (insert p node.preVotesReceived).card < node.majority) :
    Waits node (.step msg) (node.handlePreVoteResponse msg.sender msg.term granted) := by
  unfold handlePreVoteResponse
  split
  case isTrue  => exact .same hr
  case isFalse hw =>
    obtain ⟨hc, ht⟩ := awaited hw
    split
    case isFalse   => exact .same hr
    case isTrue hg =>
      subst hg
      have hbacks : (Invocation.step msg).Backs msg.sender node.currentTerm :=
        ⟨msg.receiver, congrArg _ <| Message.ext rfl rfl ht hk⟩
      dsimp only
      split
      case isTrue hm => exact absurd (hq _ hc hbacks) (Nat.not_lt.mpr hm)
      case isFalse   =>
        refine ⟨rfl, hr, fun _ v hv => ?_, by simp⟩
        rcases Finset.mem_insert.mp hv with rfl | hv
        · exact .inr <| .inl hbacks
        · exact .inr <| .inr ⟨hc, hv⟩

theorem invoke_waits (hp : node.peers ≠ []) (hr : node.role ≠ .leader) (hc : call.Idle)
    (hq : ∀ p, node.role = .preCandidate → call.Backs p node.currentTerm →
      (insert p node.preVotesReceived).card < node.majority)
    (h : node.invoke call = some o) : Waits node call o := by
  cases call
  case tick =>
    cases h
    exact tick_waits hp hr
  case propose command =>
    cases h
    rw [propose, if_pos hr]
    exact .same hr
  case compactLogs i t data =>
    cases h
    unfold compactLogs
    split
    case isTrue  => exact .same hr
    case isFalse => exact ⟨rfl, hr, fun hc _ hv => .inr <| .inr ⟨hc, hv⟩, by simp⟩
  case step msg =>
    have hkind : msg.kind.isPreVote ∨ msg.kind.isClient := by
      rcases hc with ⟨_, hk⟩ | ⟨_, ⟨_, _, hk⟩ | ⟨_, hk, _⟩ | ⟨_, _, hk⟩⟩ <;>
        simp [hk, MessageKind.isPreVote, MessageKind.isClient]
    have hd : node.dispatch msg = some o := by
      rcases step_cases h with ⟨hn, _⟩ | ⟨_, hd⟩ | ⟨hn, _⟩
      case inr.inl => exact hd
      all_goals simp_all
    unfold dispatch at hd
    rcases hc with ⟨_, hk⟩ | ⟨_, ⟨_, _, hk⟩ | ⟨_, hk, _⟩ | ⟨_, _, hk⟩⟩
    all_goals
      rw [hk] at hd
      cases hd
    · rw [handleClientRequest, if_neg hr]
      exact .reply hr <| .inr <| .inr ⟨_, _, rfl⟩
    · exact .reply hr <| .inr <| .inl ⟨_, rfl, rfl⟩
    · exact handlePreVoteResponse_waits hk hr hq
    · exact .same hr

end RaftNode
end RaftRupee
