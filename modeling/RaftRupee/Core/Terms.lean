import RaftRupee.Core.Answers
import RaftRupee.Core.Contacts
import RaftRupee.Core.Persistence

namespace RaftRupee

/-! ### The terms of messages -/

-- What node `id` sends in term `T`. Only the questions for pre-votes name another term.
def Action.Stamped (id : NodeId) (T : ℕ) : Action → Prop
  | send msg => msg.sender = id ∧ (msg.term = T ∨ msg.kind.isPreVote)
  | _        => True

theorem Action.stamped_of_not_isSend {id : NodeId} {T : ℕ} {a : Action} (h : ¬a.isSend) : a.Stamped id T := by
  cases a
  case send => exact absurd rfl h
  all_goals trivial

-- An election makes the node a candidate or a leader, and nothing else but a later message changes its term.
theorem Move.currentTerm_of_follower {m : Cause} {k k' : Kernel} {as : List Action} (h : Move m k k' as)
    (hr : k'.role = .follower) : k'.currentTerm = k.currentTerm := by
  cases h
  case campaign => simp [Kernel.campaign] at hr
  case lone     => simp [Kernel.lead] at hr
  case elect    => simp [Kernel.lead] at hr
  case propose he _   => exact he ▸ rfl
  case proposeAlone h => rw [h.eq]
  case confirm h      => rw [h.eq]
  case accept h       => rw [h.eq]
  all_goals rfl

namespace RaftNode

variable {node : RaftNode} {o : Outcome} {msg : Message} {call : Invocation} {as : List Action}

-- The messages of a call carry the term in which it leaves the node.
def Stamps (o : Outcome) : Prop :=
  ∀ a ∈ o.2, a.Stamped o.1.id o.1.currentTerm

theorem stamps_of_no_send (h : ∀ a ∈ o.2, ¬a.isSend) : Stamps o :=
  fun a ha => Action.stamped_of_not_isSend (h a ha)

theorem stamps_nil (node : RaftNode) : Stamps (node, []) :=
  stamps_of_no_send (by simp)

theorem Stamps.append (h : Stamps o) (ha : ∀ a ∈ as, ¬a.isSend) : Stamps (o.1, as ++ o.2) :=
  List.forall_mem_append.mpr ⟨fun a hm => Action.stamped_of_not_isSend (ha a hm), h⟩

-- A call that ends with a message.
theorem stamps_of_last {receiver : NodeId} {kind : MessageKind} (as : List Action) (ha : ∀ a ∈ as, ¬a.isSend) :
    Stamps (node, as ++ [.send <| node.message receiver kind]) := by
  have hlast : Stamps (node, [.send <| node.message receiver kind]) := by
    simp [Stamps, Action.Stamped, message]
  exact hlast.append ha

theorem replicateToPeer_stamped (node : RaftNode) (peer : NodeId) :
    (node.replicateToPeer peer).Stamped node.id node.currentTerm := by
  unfold replicateToPeer
  dsimp only
  split <;> exact ⟨rfl, .inl rfl⟩

theorem broadcast_stamped (node : RaftNode) :
    ∀ a ∈ node.peers.map node.replicateToPeer, a.Stamped node.id node.currentTerm :=
  List.forall_mem_map.mpr fun peer _ => node.replicateToPeer_stamped peer

theorem maybeAdvanceCommitIndex_stamps (node : RaftNode) : Stamps node.maybeAdvanceCommitIndex :=
  stamps_of_no_send <| (maybeAdvanceCommitIndex_advances node).forall_mem <| by simp [Action.isSend]

theorem becomeLeader_stamps (node : RaftNode) : Stamps node.becomeLeader :=
  List.forall_mem_cons.mpr ⟨trivial, broadcast_stamped _⟩

theorem startRealElection_stamps (node : RaftNode) : Stamps node.startRealElection := by
  unfold startRealElection
  dsimp only
  split
  case isFalse => simp [Stamps, Action.Stamped, message]
  case isTrue hp =>
    -- There is nobody to ask, and nobody to lead.
    have hpeers : node.peers = [] := by simpa using hp
    simp [Stamps, Action.Stamped, becomeLeader, broadcastHeartbeats, resetElectionTimer, hpeers]

theorem startPreVote_stamps (node : RaftNode) : Stamps node.startPreVote := by
  unfold startPreVote
  dsimp only
  split
  case isFalse => simp [Stamps, Action.Stamped, message, resetElectionTimer, MessageKind.isPreVote]
  case isTrue hp =>
    have hpeers : node.peers = [] := by simpa using hp
    simp only [hpeers, List.map_nil, List.nil_append]
    exact startRealElection_stamps _

/-! ### Handlers -/

theorem tick_stamps (node : RaftNode) : Stamps node.tick := by
  unfold tick
  split
  all_goals
    dsimp only
    split
  case h_1.isTrue => exact broadcast_stamped _
  all_goals first | exact startPreVote_stamps _ | exact stamps_nil _

theorem propose_stamps (node : RaftNode) (command : Command) : Stamps (node.propose command) := by
  unfold propose
  split
  case isTrue  => exact stamps_nil node
  case isFalse =>
    dsimp only
    split
    case isFalse => exact List.forall_mem_cons.mpr ⟨trivial, broadcast_stamped _⟩
    case isTrue hp =>
      have hpeers : node.peers = [] := by simpa using hp
      refine Stamps.append (maybeAdvanceCommitIndex_stamps _) ?_
      simp [broadcastAppendEntries, hpeers, Action.isSend]

theorem compactLogs_stamps (node : RaftNode) (i t : ℕ) (data : Command) :
    Stamps (node.compactLogs i t data) := by
  unfold compactLogs
  split <;> exact stamps_of_no_send (by simp [Action.isSend])

theorem handleClientRequest_stamps (node : RaftNode) (sender : NodeId) (command : Command) :
    Stamps (node.handleClientRequest sender command) := by
  unfold handleClientRequest
  split
  case isFalse => exact stamps_of_last [] (by simp)
  case isTrue  =>
    refine List.forall_mem_append.mpr ⟨node.propose_stamps command, ?_⟩
    simp [Action.Stamped, message]

theorem handlePreVote_stamps (node : RaftNode) (sender : NodeId) (T i t : ℕ) :
    Stamps (node.handlePreVote sender T i t) :=
  stamps_of_last [] (by simp)

theorem handlePreVoteResponse_stamps (node : RaftNode) (sender : NodeId) (T : ℕ) (granted : Bool) :
    Stamps (node.handlePreVoteResponse sender T granted) := by
  unfold handlePreVoteResponse
  split
  case isTrue  => exact stamps_nil node
  case isFalse =>
    split
    case isFalse => exact stamps_nil node
    case isTrue  =>
      dsimp only
      split
      case isTrue  => exact startRealElection_stamps _
      case isFalse => exact stamps_nil _

theorem handleRequestVote_stamps (node : RaftNode) (sender : NodeId) (i t : ℕ) :
    Stamps (node.handleRequestVote sender i t) := by
  unfold handleRequestVote
  dsimp only
  split
  case isTrue  => exact stamps_of_last [_] (by simp [Action.isSend])
  case isFalse => exact stamps_of_last [] (by simp)

theorem handleRequestVoteResponse_stamps (node : RaftNode) (sender : NodeId) (T : ℕ) (granted : Bool) :
    Stamps (node.handleRequestVoteResponse sender T granted) := by
  unfold handleRequestVoteResponse
  split
  case isTrue  => exact stamps_nil node
  case isFalse =>
    split
    case isFalse => exact stamps_nil node
    case isTrue  =>
      dsimp only
      split
      case isTrue  => exact becomeLeader_stamps _
      case isFalse => exact stamps_nil _

theorem handleAppendEntries_stamps {sender : NodeId} {T i t c : ℕ} {es : List LogEntry}
    (h : node.handleAppendEntries sender T i t es c = some o) : Stamps o := by
  unfold handleAppendEntries at h
  split at h
  case isTrue =>
    cases h
    exact stamps_of_last [] (by simp)
  case isFalse =>
    have hdown := node.becomeFollower_no_send T (some sender)
    generalize node.becomeFollower T (some sender) = down at h hdown
    obtain ⟨down, as⟩ := down
    dsimp only at h hdown
    split at h
    case h_1 =>
      cases h
      exact stamps_of_last as hdown
    case h_2 =>
      split at h
      case isTrue =>
        cases h
        exact stamps_of_last as hdown
      case isFalse =>
        obtain ⟨merged, hm, h⟩ := Option.bind_eq_some_iff.mp h
        obtain ⟨_, _, hmerge⟩ := mergeEntries_merges hm
        have hcommit := followLeaderCommit_no_send merged.1 c
        cases h
        refine stamps_of_last _ <| List.forall_mem_append.mpr ⟨List.forall_mem_append.mpr ⟨hdown, ?_⟩, hcommit⟩
        exact hmerge.replay.right

theorem handleAppendEntriesResponse_stamps (node : RaftNode) (sender : NodeId) (T : ℕ) (success : Bool)
    (t i : Option ℕ) : Stamps (node.handleAppendEntriesResponse sender T success t i) := by
  unfold handleAppendEntriesResponse
  split
  case isTrue  => exact stamps_nil node
  case isFalse =>
    split
    case isTrue  => exact maybeAdvanceCommitIndex_stamps _
    case isFalse => exact List.forall_mem_singleton.mpr <| replicateToPeer_stamped ..

theorem handleInstallSnapshot_stamps (node : RaftNode) (sender : NodeId) (T i t : ℕ) (data : Command)
    (done : Bool) : Stamps (node.handleInstallSnapshot sender T i t data done) := by
  unfold handleInstallSnapshot
  split
  case isTrue  => exact stamps_of_last [] (by simp)
  case isFalse =>
    have hdown := node.becomeFollower_no_send T (some sender)
    generalize node.becomeFollower T (some sender) = down at hdown
    dsimp only
    split
    case isTrue  => exact stamps_of_last _ hdown
    case isFalse =>
      split
      case isFalse => exact stamps_of_last _ hdown
      case isTrue  => exact Stamps.append (stamps_of_last [_] (by simp [Action.isSend])) hdown

theorem handleInstallSnapshotResponse_stamps (node : RaftNode) (sender : NodeId) (T : ℕ) :
    Stamps (node.handleInstallSnapshotResponse sender T) := by
  unfold handleInstallSnapshotResponse
  split
  case isTrue  => exact stamps_nil node
  case isFalse => exact maybeAdvanceCommitIndex_stamps _

theorem dispatch_stamps (h : node.dispatch msg = some o) : Stamps o := by
  unfold dispatch at h
  split at h
  case h_7 => exact handleAppendEntries_stamps h
  all_goals
    simp only [Option.some.injEq] at h
    subst h
  case h_1  => exact handleClientRequest_stamps _ _ _
  case h_2  => exact stamps_nil node
  case h_3  => exact handlePreVote_stamps _ _ _ _ _
  case h_4  => exact handlePreVoteResponse_stamps _ _ _ _
  case h_5  => exact handleRequestVote_stamps _ _ _ _
  case h_6  => exact handleRequestVoteResponse_stamps _ _ _ _
  case h_8  => exact handleAppendEntriesResponse_stamps _ _ _ _ _ _
  case h_9  => exact handleInstallSnapshot_stamps _ _ _ _ _ _ _
  case h_10 => exact handleInstallSnapshotResponse_stamps _ _ _

theorem invoke_stamps (h : node.invoke call = some o) : Stamps o := by
  cases call
  case step msg =>
    rcases step_cases h with ⟨_, _, rfl⟩ | ⟨_, hd⟩ | ⟨_, _, later, hd, rfl⟩
    · exact stamps_nil node
    · exact dispatch_stamps hd
    · have hbump : ∀ a ∈ [Action.persistHardState msg.term none], ¬a.isSend := by simp [Action.isSend]
      exact (dispatch_stamps hd).append hbump
  all_goals cases h
  case tick        => exact tick_stamps node
  case propose     => exact propose_stamps _ _
  case compactLogs => exact compactLogs_stamps _ _ _ _

/-! ### The terms of nodes -/

-- What a call can do to the term of a node with peers.
inductive TermStep (node : RaftNode) (call : Invocation) (T : ℕ) : Prop
  | stay : T = node.currentTerm → TermStep node call T
  | follow {msg : Message} :
    call = .step msg → !msg.kind.isPreVote && !msg.kind.isClient → T = msg.term → TermStep node call T
  | elect {p : NodeId} :
    node.role = .preCandidate → call.Backs p node.currentTerm →
    node.majority ≤ (insert p node.preVotesReceived).card → T = node.currentTerm + 1 → TermStep node call T

theorem invoke_termStep (hp : node.peers ≠ []) (h : node.invoke call = some o) :
    TermStep node call o.1.currentTerm := by
  rcases invoke_preVoteStep hp h with ⟨_, ht, _, _⟩ | ⟨_, _, rfl⟩ | ⟨hr, hb, hq, ht, _⟩ | ha
  · exact .stay ht
  · exact .stay rfl
  · exact .elect hr hb hq ht
  · rcases ha with ⟨_, ht, _, _⟩ | ⟨_, ⟨ht, _⟩ | hr⟩
    · exact .stay ht
    · exact .stay ht
    · cases call
      case step msg =>
        rcases step_cases h with ⟨_, _, rfl⟩ | ⟨ht, hd⟩ | ⟨hg, hlater, later, hd, rfl⟩
        · exact .stay rfl
        · exact .stay <| (dispatch_move hd ht).currentTerm_of_follower hr
        · have hterm := node.becomeFollower_currentTerm msg.term none
          have hmove := dispatch_move hd fun _ => hterm.symm
          exact .follow rfl hg <| (hmove.currentTerm_of_follower hr).trans hterm
      all_goals
        rcases o with ⟨_, _⟩
        rcases invoke_call h with hm | ⟨hc, _, _, _⟩
        · exact .stay <| hm.currentTerm_of_follower hr
        · cases hc

/-! ### Leaders -/

-- A leader is deposed by a message of a later term, or by another leader of its own term.
structure Reigns (node : RaftNode) (o : Outcome) : Prop where
  role : o.1.role = .leader
  term : o.1.currentTerm = node.currentTerm

theorem maybeAdvanceCommitIndex_reigns {leader : RaftNode} (hr : leader.role = .leader)
    (ht : leader.currentTerm = node.currentTerm) : Reigns node leader.maybeAdvanceCommitIndex where
  role := (maybeAdvanceCommitIndex_logOnly leader).role_eq.trans hr
  term := (maybeAdvanceCommitIndex_logOnly leader).currentTerm_eq.trans ht

theorem propose_reigns (hr : node.role = .leader) (command : Command) :
    Reigns node (node.propose command) := by
  unfold propose
  rw [if_neg (by simp [hr])]
  dsimp only
  split
  case isFalse => exact ⟨hr, rfl⟩
  case isTrue  =>
    let proposer : RaftNode :=
      { node with log := node.log.append [⟨node.log.lastIndex + 1, node.currentTerm, command⟩] }
    have hadvance : Reigns node proposer.maybeAdvanceCommitIndex := maybeAdvanceCommitIndex_reigns hr rfl
    exact ⟨hadvance.role, hadvance.term⟩

theorem dispatch_reigns (hr : node.role = .leader) (hl : ¬msg.kind.fromLeader)
    (h : node.dispatch msg = some o) : Reigns node o := by
  have same : Reigns node (node, []) := ⟨hr, rfl⟩
  unfold dispatch at h
  split at h
  case h_7 hk => simp [hk, MessageKind.fromLeader] at hl
  case h_9 hk => simp [hk, MessageKind.fromLeader] at hl
  all_goals cases h
  case h_1 command _ =>
    rw [handleClientRequest, if_pos hr]
    obtain ⟨hrole, hterm⟩ := propose_reigns hr command
    exact ⟨hrole, hterm⟩
  case h_2 => exact same
  case h_3 => exact ⟨hr, rfl⟩
  case h_4 =>
    rw [handlePreVoteResponse, if_pos (.inl (by simp [hr]))]
    exact same
  case h_5 =>
    unfold handleRequestVote
    dsimp only
    split <;> exact ⟨hr, rfl⟩
  case h_6 =>
    rw [handleRequestVoteResponse, if_pos (.inl (by simp [hr]))]
    exact same
  case h_8 =>
    unfold handleAppendEntriesResponse
    split
    case isTrue  => exact same
    case isFalse =>
      split
      case isTrue  => exact maybeAdvanceCommitIndex_reigns hr rfl
      case isFalse => exact ⟨hr, rfl⟩
  case h_10 =>
    unfold handleInstallSnapshotResponse
    split
    case isTrue  => exact same
    case isFalse => exact maybeAdvanceCommitIndex_reigns hr rfl

theorem step_reigns (hr : node.role = .leader) (ht : msg.term ≤ node.currentTerm ∨ msg.kind.isPreVote)
    (hl : msg.kind.fromLeader → msg.term ≠ node.currentTerm) (h : node.step msg = some o) :
    Reigns node o := by
  rcases step_cases h with ⟨_, _, rfl⟩ | ⟨hgate, hd⟩ | ⟨hg, hlater, _⟩
  case inl     => exact ⟨hr, rfl⟩
  case inr.inl =>
    refine dispatch_reigns hr (fun hf => hl hf <| hgate ?_) hd
    cases hk : msg.kind <;> simp_all [MessageKind.fromLeader, MessageKind.isPreVote, MessageKind.isClient]
  case inr.inr =>
    have hp : msg.kind.isPreVote = false := by simpa using (Bool.and_eq_true_iff.mp hg).left
    rcases ht with ht | ht
    · omega
    · simp [hp] at ht

end RaftNode

-- A pre-candidate counts itself and those who have backed it in its term.
theorem PreVoteStep.counts {node : RaftNode} {call : Invocation} {o : Outcome} (h : PreVoteStep node call o)
    (hr : o.1.role = .preCandidate) : o.1.currentTerm = node.currentTerm ∧ ∀ v ∈ o.1.preVotesReceived,
      v = node.id ∨ call.Backs v node.currentTerm ∨ node.role = .preCandidate ∧ v ∈ node.preVotesReceived := by
  rcases h with ⟨_, ht, hv, _⟩ | ⟨hn, hb, rfl⟩ | ⟨_, _, _, _, hc⟩ | ⟨hn, ht, hv, _⟩ | ⟨hn, _⟩
  · exact ⟨ht, fun v hm => .inl <| by simpa [hv] using hm⟩
  · refine ⟨rfl, fun v hm => ?_⟩
    rcases Finset.mem_insert.mp hm with rfl | hm
    · exact .inr <| .inl hb
    · exact .inr <| .inr ⟨hn, hm⟩
  · exact absurd (hc.symm.trans hr) (by simp)
  · exact ⟨ht, fun v hm => .inr <| .inr ⟨hn.symm.trans hr, hv ▸ hm⟩⟩
  · exact absurd hr hn

end RaftRupee
