import RaftRupee.Core.PreVotes
import RaftRupee.Sim.Votes

namespace RaftRupee

namespace RaftNode

variable {node : RaftNode}

theorem startRealElection_preVotesReceived (node : RaftNode) :
    node.startRealElection.1.preVotesReceived = node.preVotesReceived := by
  unfold startRealElection
  dsimp only
  split <;> rfl

-- A pre-candidate drops the grants that do not carry its own term.
theorem preVotesReceived_handlePreVoteResponse (sender : NodeId) (t : ℕ) (hr : node.role = .preCandidate) :
    (node.handlePreVoteResponse sender t true).1.preVotesReceived =
      if t = node.currentTerm then insert sender node.preVotesReceived else node.preVotesReceived := by
  unfold handlePreVoteResponse
  by_cases ht : t = node.currentTerm
  case neg => simp [ht]
  case pos =>
    rw [if_neg (by simp [hr, ht]), if_pos rfl, if_pos ht]
    dsimp only
    split
    case isTrue  => exact startRealElection_preVotesReceived _
    case isFalse => rfl

end RaftNode

namespace Cluster

variable {C : Cluster} {guard : State → Event → Prop} {s s' s₁ s₂ s₃ : State} {c p k : ℕ} {t : ℕ}
variable {packet : Packet}

theorem step_deliver (h : C.step s (.deliver p k) = some s') : ∃ packet o,
    s.network[k]? = some packet ∧ packet.msg.receiver = p ∧ (s.nodes p).step packet.msg = some o ∧
    ∃ w, (s.record p (s.nodes p) o.1).processActions p o.1.currentTerm (some packet.msg) o.2 = some w ∧
      s' = { w with nodes := Function.update s.nodes p o.1 } := by
  simp only [Event.deliver, Cluster.step] at h
  split at h
  case isFalse => contradiction
  case isTrue =>
    obtain ⟨o, ho, h⟩ := Option.bind_eq_some_iff.mp h
    obtain ⟨w, hw, h⟩ := Option.bind_eq_some_iff.mp h
    obtain ⟨packet, hp, ho⟩ := Option.bind_eq_some_iff.mp ho
    split at ho
    case isFalse => contradiction
    case isTrue hr =>
      refine ⟨packet, o, hp, hr, ho, w, ?_, (Option.some.inj h).symm⟩
      rwa [State.handled, hp] at hw

-- Peer `p` grants what `c` asks for as a pre-candidate in term `t`, and `c` gets the reply while it is
-- still, or again, a pre-candidate in that term.
structure PreVoteExchange (C : Cluster) (c p t : ℕ) (s s₁ s₂ s₃ : State) : Prop where
  asked   : ∃ k request i lt answers, s.network[k]? = some { msg := request, answers } ∧
    request.sender = c ∧ request.term = t + 1 ∧ request.kind = .preVote i lt ∧
    C.step s (.deliver p k) = some s₁
  granted : ∃ j reply, s₁.network[s.network.length]? = some reply ∧
    reply.msg.kind = .preVoteResponse true ∧ s₂.network[j]? = some reply ∧
    C.step s₂ (.deliver c j) = some s₃
  role    : (s₂.nodes c).role = .preCandidate
  term    : (s₂.nodes c).currentTerm = t

-- The reply is of use if the granter is in the term of the candidate, and only then.
theorem pre_vote_counts_iff (r : C.system.Reachable guard s) (hp : p ∈ C.members)
    (h : PreVoteExchange C c p t s s₁ s₂ s₃) : p ∈ (s₃.nodes c).preVotesReceived ↔
      (s.nodes p).currentTerm = t ∨ p ∈ (s₂.nodes c).preVotesReceived := by
  obtain ⟨k, request, i, lt, answers, hreq, _, _, hkind, hask⟩ := h.asked
  obtain ⟨j, reply, hsent, hgrant, hreply, hget⟩ := h.granted
  have hid : (s.nodes p).id = p := (((voteLayer C _).invariant r).memory p hp).id_eq
  -- What the peer sends carries its own term.
  have hmsg : reply.msg.sender = p ∧ reply.msg.term = (s.nodes p).currentTerm := by
    obtain ⟨packet, o, hpacket, _, hstep, w, hw, rfl⟩ := step_deliver hask
    cases hreq.symm.trans hpacket
    rw [RaftNode.step_of_isPreVote (by simp [hkind, MessageKind.isPreVote]), RaftNode.dispatch] at hstep
    simp only [hkind, Option.some.injEq] at hstep
    subst hstep
    cases hw
    simp only [World.record, List.getElem?_concat_length, Option.some.injEq] at hsent
    subst hsent
    exact ⟨hid, rfl⟩
  -- The candidate compares it with its own.
  obtain ⟨packet, o, hpacket, _, hstep, w, _, hs⟩ := step_deliver hget
  have hnode : s₃.nodes c = o.1 := hs ▸ Function.update_self ..
  cases hreply.symm.trans hpacket
  rw [RaftNode.step_of_isPreVote (by simp [hgrant, MessageKind.isPreVote]), RaftNode.dispatch] at hstep
  simp only [hgrant, Option.some.injEq] at hstep
  have hcounted := RaftNode.preVotesReceived_handlePreVoteResponse p (s.nodes p).currentTerm h.role
  rw [hmsg.left, hmsg.right] at hstep
  rw [hnode, ← hstep, hcounted, h.term]
  split <;> simp_all

-- All nodes are in term 0.
theorem pre_vote_counts_three : ∃ s s₁ s₃, (ofSize 3 (by decide)).system.Reachable (fun _ _ => True) s ∧
    PreVoteExchange (ofSize 3 (by decide)) 1 2 0 s s₁ s₁ s₃ ∧
    (2 ∈ (s₃.nodes 1).preVotesReceived ↔
      (s.nodes 2).currentTerm = 0 ∨ 2 ∈ (s₁.nodes 1).preVotesReceived) := by
  let C := ofSize 3 (by decide)
  let s := (C.system.run (fun _ _ => True) C.init [.tick 1, .tick 1]).get (by decide +kernel)
  let s₁ := (C.step s (.deliver 2 0)).get (by decide +kernel)
  let s₃ := (C.step s₁ (.deliver 1 2)).get (by decide +kernel)
  have r : C.system.Reachable (fun _ _ => True) s := TransitionSystem.reachable_run ..
  have h : PreVoteExchange C 1 2 0 s s₁ s₁ s₃ :=
    { asked   := ⟨0, ⟨1, 2, 1, .preVote 0 0⟩, 0, 0, none, by decide +kernel, rfl, rfl, rfl,
        (Option.some_get (by decide +kernel)).symm⟩
      granted := ⟨2, ⟨⟨2, 1, 0, .preVoteResponse true⟩, some ⟨1, 2, 1, .preVote 0 0⟩⟩,
        by decide +kernel, rfl, by decide +kernel, (Option.some_get (by decide +kernel)).symm⟩
      role    := by decide +kernel
      term    := by decide +kernel }
  exact ⟨_, _, _, r, h, pre_vote_counts_iff r (by decide +kernel) h⟩

-- Node 2 has started an election in term 1 that nobody has heard of. Node 1 asks in term 0.
theorem not_pre_vote_counts : ∃ s s₁ s₃, (ofSize 3 (by decide)).system.Reachable (fun _ _ => True) s ∧
    (s.nodes 1).role = .preCandidate ∧ (s.nodes 1).currentTerm = 0 ∧
    PreVoteExchange (ofSize 3 (by decide)) 1 2 0 s s₁ s₁ s₃ ∧
    2 ∉ (s₃.nodes 1).preVotesReceived ∧ (s₃.nodes 1).role = .preCandidate := by
  let C := ofSize 3 (by decide)
  let s := (C.system.run (fun _ _ => True) C.init
    [.tick 2, .tick 2, .deliver 3 1, .deliver 2 2, .tick 1, .tick 1]).get (by decide +kernel)
  let s₁ := (C.step s (.deliver 2 5)).get (by decide +kernel)
  let s₃ := (C.step s₁ (.deliver 1 7)).get (by decide +kernel)
  have r : C.system.Reachable (fun _ _ => True) s := TransitionSystem.reachable_run ..
  have h : PreVoteExchange C 1 2 0 s s₁ s₁ s₃ :=
    { asked   := ⟨5, ⟨1, 2, 1, .preVote 0 0⟩, 0, 0, none, by decide +kernel, rfl, rfl, rfl,
        (Option.some_get (by decide +kernel)).symm⟩
      granted := ⟨7, ⟨⟨2, 1, 1, .preVoteResponse true⟩, some ⟨1, 2, 1, .preVote 0 0⟩⟩,
        by decide +kernel, rfl, by decide +kernel, (Option.some_get (by decide +kernel)).symm⟩
      role    := by decide +kernel
      term    := by decide +kernel }
  exact ⟨_, _, _, r, by decide +kernel, by decide +kernel, h, by decide +kernel, by decide +kernel⟩

end Cluster
end RaftRupee
