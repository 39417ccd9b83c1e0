import RaftRupee.Core.Following
import RaftRupee.Core.PreVotes

namespace RaftRupee

section

variable {m : Cause} {k k' : Kernel} {as : List Action} {a : Action} {id : NodeId} {msg : Message}

-- If the action sends what only a leader sends, then `k` is a leader, which replicates its log.
def Action.FromLeader (k : Kernel) (a : Action) : Prop :=
  ∀ msg, a = .send msg → msg.kind.fromLeader → k.role = .leader ∧ Replicates k a

theorem Action.fromLeader_of_not_send (h : ¬a.isSend) : a.FromLeader k := by
  rintro msg rfl
  exact absurd rfl h

theorem Action.fromLeader_send {kind : MessageKind} {receiver : NodeId} (h : ¬kind.fromLeader) :
    (Action.send (k'.message receiver kind)).FromLeader k := by
  rintro _ ⟨rfl⟩ hk
  exact absurd hk h

theorem Action.IsHint.fromLeader (h : a.IsHint id) : a.FromLeader k := by
  rintro ⟨_, _, _, kind⟩ rfl hk
  have hkind := h.right
  cases kind
  case appendEntries | installSnapshot => simp [MessageKind.isHint] at hkind
  all_goals simp [MessageKind.fromLeader] at hk

theorem Replicates.fromLeader (h : Replicates k a) (hr : k.role = .leader) : a.FromLeader k :=
  fun _ _ _ => ⟨hr, h⟩

theorem Replicates.sender_eq (h : Replicates k (.send msg)) :
    msg.sender = k.id ∧ msg.term = k.currentTerm := by
  cases h <;> exact ⟨rfl, rfl⟩

-- What a leader sends as its snapshot is the base of its log, but not the data.
theorem Replicates.snapshot_eq {i t o : ℕ} {data : Command} {done : Bool}
    (h : Replicates k (.send msg)) (hk : msg.kind = .installSnapshot i t o data done) :
    data = RaftNode.simulatedSnapshot ∧ (i ≠ 0 → i = k.log.firstIndex ∧ t = k.log.sentinel.term) := by
  cases h
  case entries => cases hk
  case snapshot snap hs =>
    cases hk
    refine ⟨rfl, fun hi => ?_⟩
    rw [RaftLog.snapshotMeta] at hs
    split at hs
    case isTrue  => exact absurd (by rw [← hs]; rfl) hi
    case isFalse => exact ⟨by rw [← hs]; rfl, by rw [← hs]; rfl⟩

theorem Call.fromLeader (h : Call m k k' as) : ∀ a ∈ as, a.FromLeader k' := by
  intro a ha
  cases h.emits a ha
  case hint h         => exact h.fromLeader
  case send h         => exact Action.fromLeader_send h
  case replicate hr h => exact h.fromLeader hr
  case snapshot       => exact Action.fromLeader_of_not_send Bool.false_ne_true
  case other h _      => exact Action.fromLeader_of_not_send h

end

namespace RaftNode

variable {node : RaftNode} {o : Outcome} {msg : Message} {call : Invocation}

-- While it knows a leader, the node does not start an election, and casts no vote in its own term.
def Patient (node : RaftNode) : Invocation → Prop
  | .tick     => node.role ≠ .leader → node.electionTimeout ≤ node.electionElapsed + 1 → node.leaderId = none
  | .step msg =>
    match msg.kind with
    | .requestVote i t =>
      msg.term = node.currentTerm → node.role ≠ .leader →
        node.votedFor = none ∨ node.votedFor = some msg.sender → node.isLogUpToDate i t →
          !node.leaderLeaseActive → node.leaderId = none
    | _ => True
  | _         => True

instance : Decidable (node.Patient call) := by
  unfold Patient
  split
  case h_2 => split <;> infer_instance
  all_goals infer_instance

-- A node that looks for votes knows no leader.
def Leaderless (node : RaftNode) : Prop :=
  node.role = .preCandidate ∨ node.role = .candidate → node.leaderId = none

-- What a node knows about the leader after a call.
inductive Hears (node : RaftNode) (call : Invocation) (o : Outcome) : Prop
  | lead : o.1.role = .leader → Hears node call o
  | free : o.1.leaderId = none → Hears node call o
  | contact {msg : Message} :
    call = .step msg → msg.kind.fromLeader → node.currentTerm ≤ msg.term → o.1.role = .follower →
    o.1.currentTerm = msg.term → o.1.leaderId = some msg.sender → o.1.electionElapsed = 0 →
    Hears node call o
  | keep :
    o.1.role = node.role → o.1.currentTerm = node.currentTerm → o.1.leaderId = node.leaderId →
    o.1.electionElapsed = node.electionElapsed + (if call = .tick then 1 else 0) →
    Hears node call o

theorem Hears.leaderless (h : Hears node call o) (hl : node.Leaderless) : o.1.Leaderless := by
  intro hr
  cases h
  case lead h          => simp [h] at hr
  case free h          => exact h
  case contact h _ _ _ => simp [h] at hr
  case keep h _ hid _  => exact hid.trans (hl (h ▸ hr))

theorem startRealElection_leaderId (node : RaftNode) : node.startRealElection.1.role = .leader ∨
    node.startRealElection.1.leaderId = node.leaderId := by
  unfold startRealElection
  dsimp only
  split
  case isTrue  => exact .inl rfl
  case isFalse => exact .inr rfl

theorem startPreVote_leaderId (node : RaftNode) : node.startPreVote.1.role = .leader ∨
    node.startPreVote.1.leaderId = node.leaderId := by
  unfold startPreVote
  dsimp only
  split
  case isFalse => exact .inr rfl
  case isTrue  => exact startRealElection_leaderId _

theorem tick_hears (hg : node.Patient .tick) : Hears node .tick node.tick := by
  unfold tick
  split
  case h_1 hr =>
    dsimp only
    split <;> exact .lead hr
  all_goals
    rename_i hr
    dsimp only
    split
    case isFalse => exact .keep rfl rfl rfl rfl
    case isTrue hle =>
      have hn : node.leaderId = none := hg (by simp [hr]) hle
      rcases startPreVote_leaderId { node with electionElapsed := 0 } with h | h
      · exact .lead h
      · exact .free (h.trans hn)

theorem propose_role (node : RaftNode) (command : Command) : (node.propose command).1.role = node.role := by
  unfold propose
  split
  case isTrue  => rfl
  case isFalse =>
    dsimp only
    split
    case isFalse => rfl
    case isTrue  => exact (maybeAdvanceCommitIndex_logOnly _).role_eq

theorem propose_hears (node : RaftNode) (command : Command) (hc : call ≠ .tick) :
    Hears node call (node.propose command) := by
  by_cases hr : node.role = .leader
  case pos => exact .lead ((propose_role node command).trans hr)
  case neg =>
    rw [propose, if_pos hr]
    exact .keep rfl rfl rfl (by simp [hc])

theorem compactLogs_hears (node : RaftNode) (i t : ℕ) (data : Command) (hc : call ≠ .tick) :
    Hears node call (node.compactLogs i t data) := by
  unfold compactLogs
  split <;> exact .keep rfl rfl rfl (by simp [hc])

theorem handleClientRequest_hears (node : RaftNode) (sender : NodeId) (command : Command)
    (hc : call ≠ .tick) : Hears node call (node.handleClientRequest sender command) := by
  unfold handleClientRequest
  split
  case isFalse   => exact .keep rfl rfl rfl (by simp [hc])
  case isTrue hr => exact .lead ((propose_role node command).trans hr)

theorem handlePreVoteResponse_hears (hl : node.Leaderless) (sender : NodeId) (term : ℕ) (granted : Bool)
    (hc : call ≠ .tick) : Hears node call (node.handlePreVoteResponse sender term granted) := by
  unfold handlePreVoteResponse
  split
  case isTrue     => exact .keep rfl rfl rfl (by simp [hc])
  case isFalse hr =>
    split
    case isFalse => exact .keep rfl rfl rfl (by simp [hc])
    case isTrue  =>
      dsimp only
      split
      case isFalse => exact .keep rfl rfl rfl (by simp [hc])
      case isTrue  =>
        have hn : node.leaderId = none := hl <| .inl (awaited hr).left
        rcases startRealElection_leaderId
          { node with preVotesReceived := insert sender node.preVotesReceived } with h | h
        · exact .lead h
        · exact .free (h.trans hn)

theorem handleRequestVote_hears {i t : ℕ} (hk : msg.kind = .requestVote i t)
    (ht : msg.term = node.currentTerm) (hg : node.Patient (.step msg)) :
    Hears node (.step msg) (node.handleRequestVote msg.sender i t) := by
  simp only [Patient, hk] at hg
  unfold handleRequestVote
  dsimp only
  split
  case isFalse   => exact .keep rfl rfl rfl (by simp)
  case isTrue hv =>
    by_cases hr : node.role = .leader
    · exact .lead hr
    · exact .free (hg ht hr hv.left hv.right.left hv.right.right)

theorem handleRequestVoteResponse_hears (node : RaftNode) (sender : NodeId) (term : ℕ) (granted : Bool)
    (hc : call ≠ .tick) : Hears node call (node.handleRequestVoteResponse sender term granted) := by
  unfold handleRequestVoteResponse
  split
  case isTrue  => exact .keep rfl rfl rfl (by simp [hc])
  case isFalse =>
    split
    case isFalse => exact .keep rfl rfl rfl (by simp [hc])
    case isTrue  =>
      dsimp only
      split
      case isFalse => exact .keep rfl rfl rfl (by simp [hc])
      case isTrue  => exact .lead rfl

-- A reply of a peer concerns a leader only.
theorem handleAppendEntriesResponse_hears (node : RaftNode) (sender : NodeId) (term : ℕ) (success : Bool)
    (t i : Option ℕ) (hc : call ≠ .tick) :
    Hears node call (node.handleAppendEntriesResponse sender term success t i) := by
  unfold handleAppendEntriesResponse
  split
  case isTrue     => exact .keep rfl rfl rfl (by simp [hc])
  case isFalse hr =>
    have hr := (awaited hr).left
    split
    case isTrue  => exact .lead ((maybeAdvanceCommitIndex_logOnly _).role_eq.trans hr)
    case isFalse => exact .lead hr

theorem handleInstallSnapshotResponse_hears (node : RaftNode) (sender : NodeId) (term : ℕ)
    (hc : call ≠ .tick) : Hears node call (node.handleInstallSnapshotResponse sender term) := by
  unfold handleInstallSnapshotResponse
  split
  case isTrue     => exact .keep rfl rfl rfl (by simp [hc])
  case isFalse hr =>
    have hr := (awaited hr).left
    exact .lead ((maybeAdvanceCommitIndex_logOnly _).role_eq.trans hr)

-- The message of a leader makes the node its follower, whatever becomes of the log.
theorem step_fromLeader (hk : msg.kind.fromLeader) (ht : node.currentTerm ≤ msg.term)
    (h : node.step msg = some o) : o.1.role = .follower ∧ o.1.currentTerm = msg.term ∧
      o.1.leaderId = some msg.sender ∧ o.1.electionElapsed = 0 := by
  obtain ⟨follower, hj, ho⟩ : ∃ follower, Joins node msg follower ∧ LogOnly follower.1 o.1 := by
    cases hkind : msg.kind
    case appendEntries =>
      obtain ⟨follower, hj, hstep⟩ := step_appendEntries hkind ht
      rw [hstep] at h
      obtain ⟨received, hr, rfl⟩ := Option.map_eq_some_iff.mp h
      have honly := receiveEntries_logOnly hr
      exact ⟨follower, hj, honly⟩
    case installSnapshot =>
      obtain ⟨follower, hj, hstep⟩ := step_installSnapshot hkind ht
      rw [hstep] at h
      cases h
      exact ⟨follower, hj, receiveSnapshot_logOnly ..⟩
    all_goals simp [hkind, MessageKind.fromLeader] at hk
  have hr : follower.1.role = .follower := congrArg Kernel.role hj.kernel_eq
  exact ⟨ho.role_eq.trans hr, ho.currentTerm_eq.trans hj.currentTerm_eq,
    ho.leaderId_eq.trans hj.leaderId_eq, ho.electionElapsed_eq.trans hj.electionElapsed_eq⟩

-- Any other message, past the term gate.
theorem dispatch_hears (hk : ¬msg.kind.fromLeader) (hl : node.Leaderless) (hg : node.Patient (.step msg))
    (ht : !msg.kind.isPreVote && !msg.kind.isClient → msg.term = node.currentTerm)
    (h : node.dispatch msg = some o) : Hears node (.step msg) o := by
  unfold dispatch at h
  split at h
  case h_7 hkind => exact absurd (by simp [hkind, MessageKind.fromLeader]) hk
  all_goals
    rename_i hkind
    simp only [Option.some.injEq] at h
    subst h
  case h_1  => exact handleClientRequest_hears _ _ _ nofun
  case h_2  => exact .keep rfl rfl rfl rfl
  case h_3  => exact .keep rfl rfl rfl rfl
  case h_4  => exact handlePreVoteResponse_hears hl _ _ _ nofun
  case h_5  =>
    exact handleRequestVote_hears hkind (ht (by simp [hkind, MessageKind.isPreVote, MessageKind.isClient])) hg
  case h_6  => exact handleRequestVoteResponse_hears _ _ _ _ nofun
  case h_8  => exact handleAppendEntriesResponse_hears _ _ _ _ _ _ nofun
  case h_9  => exact absurd (by simp [hkind, MessageKind.fromLeader]) hk
  case h_10 => exact handleInstallSnapshotResponse_hears _ _ _ nofun

theorem step_hears (hl : node.Leaderless) (hg : node.Patient (.step msg)) (h : node.step msg = some o) :
    Hears node (.step msg) o := by
  rcases step_cases h with ⟨_, _, rfl⟩ | ⟨ht, hd⟩ | ⟨hgate, hlt, later, hd, rfl⟩
  case inl => exact .keep rfl rfl rfl rfl
  case inr.inl =>
    by_cases hk : msg.kind.fromLeader
    case neg => exact dispatch_hears hk hl hg ht hd
    case pos =>
      have hgate : !msg.kind.isPreVote && !msg.kind.isClient := by
        cases hkind : msg.kind <;> simp_all [MessageKind.fromLeader, MessageKind.isPreVote,
          MessageKind.isClient]
      obtain ⟨hr, ht', hid, he⟩ := step_fromLeader hk (ht hgate).ge h
      exact .contact rfl hk (ht hgate).ge hr ht' hid he
  case inr.inr =>
    by_cases hk : msg.kind.fromLeader
    case pos =>
      obtain ⟨hr, ht', hid, he⟩ := step_fromLeader hk hlt.le h
      exact .contact rfl hk hlt.le hr ht' hid he
    case neg =>
      -- The node has forgotten the leader of its last term.
      have hn : (node.becomeFollower msg.term none).1.leaderId = none := by
        rw [becomeFollower_of_lt none hlt]
        rfl
      have hpatient : (node.becomeFollower msg.term none).1.Patient (.step msg) := by
        unfold Patient
        dsimp only
        split
        · exact fun _ _ _ _ _ => hn
        · trivial
      rcases dispatch_hears hk (fun _ => hn) hpatient (fun _ => (becomeFollower_currentTerm ..).symm) hd
        with h | h | ⟨hm, hk', _⟩ | ⟨_, _, hid, _⟩
      · exact .lead h
      · exact .free h
      · cases hm
        exact absurd hk' hk
      · exact .free (hid.trans hn)

theorem invoke_hears (hl : node.Leaderless) (hg : node.Patient call) (h : node.invoke call = some o) :
    Hears node call o := by
  cases call
  case step => exact step_hears hl hg h
  all_goals
    cases h
  case tick        => exact tick_hears hg
  case propose     => exact propose_hears _ _ nofun
  case compactLogs => exact compactLogs_hears _ _ _ _ nofun

end RaftNode
end RaftRupee
