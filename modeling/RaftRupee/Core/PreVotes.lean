import RaftRupee.Core.HardState
import RaftRupee.Core.Invocations

namespace RaftRupee

variable {node : RaftNode} {call : Invocation} {cs : List Invocation} {o : Outcome} {msg : Message}
variable {r : Returned} {rs history since : List Returned} {T : ℕ}

-- Asking a peer for its pre-vote, which `start_pre_vote` alone does.
def Action.isPreVote : Action → Bool
  | send { kind := .preVote .., .. } => true
  | _                                => false

-- A granted pre-vote of peer `p` in term `T` arrives.
def Invocation.Backs (call : Invocation) (p : NodeId) (T : ℕ) : Prop :=
  ∃ receiver, call = .step { sender := p, receiver, term := T, kind := .preVoteResponse true }

-- A call that is not about pre-votes.
inductive Aside (node : RaftNode) (o : Outcome) : Prop
  | keep :
    o.1.role = node.role → o.1.currentTerm = node.currentTerm →
    o.1.preVotesReceived = node.preVotesReceived → (∀ a ∈ o.2, ¬a.isPreVote) → Aside node o
  | leave :
    o.1.role ≠ .preCandidate →
    (o.1.currentTerm = node.currentTerm ∧ node.role ≠ .follower) ∨ o.1.role = .follower → Aside node o

-- What a call can do to the pre-votes of a node with peers.
inductive PreVoteStep (node : RaftNode) (call : Invocation) (o : Outcome) : Prop
  | enter :
    o.1.role = .preCandidate → o.1.currentTerm = node.currentTerm →
    o.1.preVotesReceived = {node.id} → (∃ a ∈ o.2, a.isPreVote) → PreVoteStep node call o
  | gather {p : NodeId} :
    node.role = .preCandidate → call.Backs p node.currentTerm →
    o = ({ node with preVotesReceived := insert p node.preVotesReceived }, []) →
    PreVoteStep node call o
  | elect {p : NodeId} :
    node.role = .preCandidate → call.Backs p node.currentTerm →
    node.majority ≤ (insert p node.preVotesReceived).card →
    o.1.currentTerm = node.currentTerm + 1 → o.1.role = .candidate → PreVoteStep node call o
  | aside : Aside node o → PreVoteStep node call o

namespace RaftNode

theorem becomeFollower_role (node : RaftNode) (term : ℕ) (leader : Option NodeId) :
    (node.becomeFollower term leader).1.role = .follower := by
  unfold becomeFollower
  dsimp only
  split <;> rfl

theorem startPreVote_enters (hp : node.peers ≠ []) :
    node.startPreVote.1.role = .preCandidate ∧
      node.startPreVote.1.currentTerm = node.currentTerm ∧
      node.startPreVote.1.preVotesReceived = {node.id} ∧ ∃ a ∈ node.startPreVote.2, a.isPreVote := by
  obtain ⟨peer, hm⟩ := List.exists_mem_of_ne_nil _ hp
  unfold startPreVote
  rw [if_neg (by simpa using hp)]
  exact ⟨rfl, rfl, rfl, _, List.mem_map_of_mem hm, rfl⟩

theorem startRealElection_elects (hp : node.peers ≠ []) :
    node.startRealElection.1.currentTerm = node.currentTerm + 1 ∧
      node.startRealElection.1.role = .candidate := by
  unfold startRealElection
  rw [if_neg (by simpa using hp)]
  exact ⟨rfl, rfl⟩

theorem tick_preVoteStep (hp : node.peers ≠ []) : PreVoteStep node call node.tick := by
  unfold tick
  split
  case h_1 hr =>
    dsimp only
    split <;> exact .aside <| .leave (by simp [hr]) <| .inl ⟨rfl, by simp [hr]⟩
  all_goals
    dsimp only
    split
    · let expired : RaftNode := { node with electionElapsed := 0 }
      obtain ⟨hr, ht, hv, ha⟩ := startPreVote_enters (show expired.peers ≠ [] from hp)
      exact .enter hr ht hv ha
    · exact .aside <| .keep rfl rfl rfl (by simp)

theorem propose_aside (node : RaftNode) (command : Command) : Aside node (node.propose command) := by
  unfold propose
  split
  case isTrue     => exact .keep rfl rfl rfl (by simp)
  case isFalse hr =>
    have hr : node.role = .leader := not_not.mp hr
    dsimp only
    split
    case isFalse => exact .leave (by simp [hr]) <| .inl ⟨rfl, by simp [hr]⟩
    case isTrue =>
      have ha := maybeAdvanceCommitIndex_advances { node with
        log := node.log.append [⟨node.log.lastIndex + 1, node.currentTerm, command⟩] }
      refine .leave (fun hc => ?_) <| .inl ⟨ha.currentTerm_eq, by simp [hr]⟩
      exact absurd (hr.symm.trans <| ha.role_eq.symm.trans hc) (by simp)

-- A leader moves its commit index.
theorem advance_aside {leader : RaftNode} (hr : leader.role = .leader) (hn : node.role = .leader)
    (ht : leader.currentTerm = node.currentTerm) : Aside node leader.maybeAdvanceCommitIndex := by
  have ha := maybeAdvanceCommitIndex_advances leader
  refine .leave (fun hc => ?_) <| .inl ⟨ha.currentTerm_eq.trans ht, by simp [hn]⟩
  exact absurd (hr.symm.trans <| ha.role_eq.symm.trans hc) (by simp)

theorem handleClientRequest_aside (node : RaftNode) (sender : NodeId) (command : Command) :
    Aside node (node.handleClientRequest sender command) := by
  unfold handleClientRequest
  split
  case isFalse   => exact .keep rfl rfl rfl (by simp [Action.isPreVote, message])
  case isTrue hr =>
    rcases node.propose_aside command with ⟨hr', ht, _, _⟩ | ⟨hr', ht⟩
    case keep  => exact .leave (by simp [hr', hr]) <| .inl ⟨ht, by simp [hr]⟩
    case leave => exact .leave hr' ht

theorem handlePreVoteResponse_preVoteStep (hp : node.peers ≠ []) {granted : Bool}
    (hk : msg.kind = .preVoteResponse granted) :
    PreVoteStep node (.step msg) (node.handlePreVoteResponse msg.sender msg.term granted) := by
  unfold handlePreVoteResponse
  split
  case isTrue     => exact .aside <| .keep rfl rfl rfl (by simp)
  case isFalse hr =>
    obtain ⟨hr, ht⟩ := awaited hr
    split
    case isFalse   => exact .aside <| .keep rfl rfl rfl (by simp)
    case isTrue hg =>
      subst hg
      have hbacks : (Invocation.step msg).Backs msg.sender node.currentTerm :=
        ⟨msg.receiver, congrArg _ <| Message.ext rfl rfl ht hk⟩
      dsimp only
      split
      case isFalse   => exact .gather hr hbacks rfl
      case isTrue hq =>
        let backed : RaftNode :=
          { node with preVotesReceived := insert msg.sender node.preVotesReceived }
        obtain ⟨ht, hc⟩ := startRealElection_elects (show backed.peers ≠ [] from hp)
        exact .elect hr hbacks hq ht hc

theorem handleRequestVote_aside (node : RaftNode) (sender : NodeId) (i t : ℕ) :
    Aside node (node.handleRequestVote sender i t) := by
  unfold handleRequestVote
  dsimp only
  split <;> exact .keep rfl rfl rfl (by simp [Action.isPreVote, message])

theorem handleRequestVoteResponse_aside (node : RaftNode) (sender : NodeId) (term : ℕ) (granted : Bool) :
    Aside node (node.handleRequestVoteResponse sender term granted) := by
  unfold handleRequestVoteResponse
  split
  case isTrue     => exact .keep rfl rfl rfl (by simp)
  case isFalse hr =>
    have hr := (awaited hr).left
    split
    case isFalse => exact .keep rfl rfl rfl (by simp)
    case isTrue  =>
      dsimp only
      split
      case isFalse => exact .keep rfl rfl rfl (by simp)
      case isTrue  => exact .leave (by simp [becomeLeader]) <| .inl ⟨rfl, by simp [hr]⟩

theorem handleAppendEntries_aside {sender : NodeId} {term i t c : ℕ} {es : List LogEntry}
    (h : node.handleAppendEntries sender term i t es c = some o) : Aside node o := by
  unfold handleAppendEntries at h
  split at h
  case isTrue =>
    cases h
    exact .keep rfl rfl rfl (by simp [Action.isPreVote, message])
  case isFalse =>
    have hr := node.becomeFollower_role term (some sender)
    generalize node.becomeFollower term (some sender) = down at h hr
    have follow {o : Outcome} (hr : o.1.role = .follower) : Aside node o :=
      .leave (by simp [hr]) (.inr hr)
    obtain ⟨down, as⟩ := down
    dsimp only at h hr
    split at h
    case h_1 =>
      cases h
      exact follow hr
    case h_2 =>
      split at h
      case isTrue =>
        cases h
        exact follow hr
      case isFalse =>
        obtain ⟨merged, hm, h⟩ := Option.bind_eq_some_iff.mp h
        obtain ⟨log, he, _⟩ := mergeEntries_merges hm
        cases h
        have hmr : merged.1.role = .follower := he ▸ hr
        exact follow <| (followLeaderCommit_follows merged.1 c).role_eq.trans hmr

theorem handleAppendEntriesResponse_aside (node : RaftNode) (sender : NodeId) (term : ℕ) (success : Bool)
    (t i : Option ℕ) : Aside node (node.handleAppendEntriesResponse sender term success t i) := by
  unfold handleAppendEntriesResponse
  split
  case isTrue     => exact .keep rfl rfl rfl (by simp)
  case isFalse hr =>
    have hr := (awaited hr).left
    split
    case isTrue  => exact advance_aside hr hr rfl
    case isFalse => exact .leave (by simp [hr]) <| .inl ⟨rfl, by simp [hr]⟩

theorem handleInstallSnapshot_aside (node : RaftNode) (sender : NodeId) (term i t : ℕ) (data : Command)
    (done : Bool) : Aside node (node.handleInstallSnapshot sender term i t data done) := by
  unfold handleInstallSnapshot
  split
  case isTrue  => exact .keep rfl rfl rfl (by simp [Action.isPreVote, message])
  case isFalse =>
    have hr := node.becomeFollower_role term (some sender)
    generalize node.becomeFollower term (some sender) = down at hr
    dsimp only
    split
    case isTrue  => exact .leave (by simp [hr]) (.inr hr)
    case isFalse => split <;> exact .leave (by simp [hr]) (.inr hr)

theorem handleInstallSnapshotResponse_aside (node : RaftNode) (sender : NodeId) (term : ℕ) :
    Aside node (node.handleInstallSnapshotResponse sender term) := by
  unfold handleInstallSnapshotResponse
  split
  case isTrue     => exact .keep rfl rfl rfl (by simp)
  case isFalse hr =>
    have hr := (awaited hr).left
    exact advance_aside hr hr rfl

-- Past the term gate, a message that is not about pre-votes.
theorem dispatch_aside (h : node.dispatch msg = some o) (hk : !msg.kind.isPreVote) : Aside node o := by
  unfold dispatch at h
  split at h
  case h_7 => exact handleAppendEntries_aside h
  all_goals
    simp only [Option.some.injEq] at h
    subst h
  case h_1  => exact handleClientRequest_aside ..
  case h_2  => exact .keep rfl rfl rfl (by simp)
  case h_5  => exact handleRequestVote_aside ..
  case h_6  => exact handleRequestVoteResponse_aside ..
  case h_8  => exact handleAppendEntriesResponse_aside ..
  case h_9  => exact handleInstallSnapshot_aside ..
  case h_10 => exact handleInstallSnapshotResponse_aside ..
  all_goals simp_all [MessageKind.isPreVote]

theorem dispatch_follower (hr : node.role = .follower) (h : node.dispatch msg = some o)
    (hk : !msg.kind.isPreVote) : o.1.role = .follower := by
  rcases dispatch_aside h hk with ⟨hr', _, _, _⟩ | ⟨_, ⟨_, hn⟩ | hr'⟩
  · exact hr'.trans hr
  · exact absurd hr hn
  · exact hr'

theorem dispatch_preVoteStep (hp : node.peers ≠ []) (h : node.dispatch msg = some o) :
    PreVoteStep node (.step msg) o := by
  cases hk : msg.kind.isPreVote
  case false => exact .aside <| dispatch_aside h <| by simp [hk]
  case true =>
    unfold dispatch at h
    split at h
    case h_3 =>
      cases h
      exact .aside <| .keep rfl rfl rfl <| by simp [handlePreVote, Action.isPreVote, message]
    case h_4 hk =>
      cases h
      exact handlePreVoteResponse_preVoteStep hp hk
    all_goals simp_all [MessageKind.isPreVote]

theorem step_preVoteStep (hp : node.peers ≠ []) (h : node.step msg = some o) :
    PreVoteStep node (.step msg) o := by
  rcases step_cases h with ⟨_, _, rfl⟩ | ⟨_, hd⟩ | ⟨hg, _, later, hd, rfl⟩
  case inl     => exact .aside <| .keep rfl rfl rfl (by simp)
  case inr.inl => exact dispatch_preVoteStep hp hd
  case inr.inr =>
    -- Whatever the message is about, the node is a follower of the later term.
    have hr : later.1.role = .follower :=
      dispatch_follower (node.becomeFollower_role msg.term none) hd (Bool.and_eq_true_iff.mp hg).left
    exact .aside <| .leave (by simp [hr]) (.inr hr)

theorem invoke_preVoteStep (hp : node.peers ≠ []) (h : node.invoke call = some o) :
    PreVoteStep node call o := by
  cases call
  case step => exact step_preVoteStep hp h
  all_goals
    cases h
  case tick        => exact tick_preVoteStep hp
  case propose     => exact .aside <| propose_aside ..
  case compactLogs =>
    unfold compactLogs
    split <;> exact .aside <| .keep rfl rfl rfl (by simp [Action.isPreVote])

end RaftNode
/-! ### What an election rests on -/

-- The node that a run leaves behind.
def latest : RaftNode → List Returned → RaftNode
  | node, []    => node
  | _, r :: rs  => latest r.node rs

-- The node starts to ask for pre-votes, as a pre-candidate in term `T`.
def Returned.Enters (r : Returned) (T : ℕ) : Prop :=
  r.node.role = .preCandidate ∧ r.node.currentTerm = T ∧ ∃ a ∈ r.actions, a.isPreVote

-- The calls since the most recent entry, which was made in term `T`.
def SinceEntry (history : List Returned) (T : ℕ) (since : List Returned) : Prop :=
  ∃ earlier entry, history = earlier ++ entry :: since ∧ entry.Enters T ∧
    ∀ r ∈ since, ∀ a ∈ r.actions, ¬a.isPreVote

-- A pre-candidate has received the pre-votes that it counts since then.
def RaftNode.Backed (node : RaftNode) (history : List Returned) : Prop :=
  node.role = .preCandidate → ∃ since, SinceEntry history node.currentTerm since ∧
    ∀ p ∈ node.preVotesReceived, p = node.id ∨ ∃ r ∈ since, r.invocation.Backs p node.currentTerm

theorem SinceEntry.append (h : SinceEntry history T since) (hr : ∀ a ∈ r.actions, ¬a.isPreVote) :
    SinceEntry (history ++ [r]) T (since ++ [r]) := by
  obtain ⟨earlier, entry, rfl, he, hs⟩ := h
  refine ⟨earlier, entry, by simp, he, List.forall_mem_append.mpr ⟨hs, ?_⟩⟩
  simpa using hr

namespace RaftNode

theorem Backed.invoke (hb : node.Backed history) (hp : node.peers ≠ []) (h : node.invoke call = some o) :
    o.1.Backed (history ++ [⟨call, o.1, o.2⟩]) := by
  intro hr
  cases invoke_preVoteStep hp h
  case enter ht hv ha =>
    have hid : o.1.id = node.id := (invoke_call h).id_eq.left
    refine ⟨[], ⟨history, _, rfl, ⟨hr, rfl, ha⟩, by simp⟩, fun p hm => .inl ?_⟩
    rw [hv, Finset.mem_singleton] at hm
    exact hm.trans hid.symm
  case gather p hn hbacks ho =>
    subst ho
    obtain ⟨since, hs, hv⟩ := hb hn
    refine ⟨_, hs.append (by simp), fun v hm => ?_⟩
    rcases Finset.mem_insert.mp hm with rfl | hm
    · exact .inr ⟨_, List.mem_append_right _ List.mem_cons_self, hbacks⟩
    · exact (hv v hm).imp_right <| .imp fun _ h => ⟨List.mem_append_left _ h.left, h.right⟩
  case elect hc => exact absurd (hr.symm.trans hc) (by simp)
  case aside ha =>
    cases ha
    case leave hn _ => exact absurd hr hn
    case keep hr' ht hv ha =>
      have hid : o.1.id = node.id := (invoke_call h).id_eq.left
      obtain ⟨since, hs, hb⟩ := hb (hr'.symm.trans hr)
      rw [← ht, ← hid, ← hv] at *
      refine ⟨_, hs.append ha, fun v hm => (hb v hm).imp_right <| .imp fun _ h => ?_⟩
      exact ⟨List.mem_append_left _ h.left, h.right⟩

theorem Backed.invokeAll (hb : node.Backed history) (hp : node.peers ≠ [])
    (h : node.invokeAll cs = some rs) :
    (latest node rs).Backed (history ++ rs) ∧ (latest node rs).id = node.id ∧
      (latest node rs).peers = node.peers := by
  induction cs generalizing node history rs
  case nil =>
    cases h
    rw [List.append_nil]
    exact ⟨hb, rfl, rfl⟩
  case cons c cs hi =>
    obtain ⟨o, rest, ho, hrest, rfl⟩ := invokeAll_cons h
    obtain ⟨hid, hpeers⟩ : o.1.id = node.id ∧ o.1.peers = node.peers := (invoke_call ho).id_eq
    have hi := hi (hb.invoke hp ho) (hpeers ▸ hp) hrest
    rw [List.append_assoc] at hi
    exact ⟨hi.left, hi.right.left.trans hid, hi.right.right.trans hpeers⟩

-- A node that raises its own term has the pre-votes of half of the cluster, itself aside.
theorem Backed.elect (hb : node.Backed history) (hp : node.peers ≠ []) (h : node.invoke call = some o)
    (ht : node.currentTerm < o.1.currentTerm) (hr : o.1.role ≠ .follower) :
    o.1.currentTerm = node.currentTerm + 1 ∧
    ∃ (since : List Returned) (voters : Finset NodeId), SinceEntry history node.currentTerm since ∧
      node.id ∉ voters ∧ (node.peers.length + 1) / 2 ≤ voters.card ∧
      ∀ p ∈ voters, ∃ c ∈ since.map (·.invocation) ++ [call], c.Backs p node.currentTerm := by
  cases invoke_preVoteStep hp h
  case enter ht' _ _   => omega
  case gather ho       => simp [ho] at ht
  case aside ha =>
    cases ha
    case keep ht' _ _  => omega
    case leave h       => exact h.elim (fun h => absurd h.left ht.ne') fun h => absurd h hr
  case elect p hn hbacks hq ht _ =>
    obtain ⟨since, hs, hv⟩ := hb hn
    refine ⟨ht, since, (insert p node.preVotesReceived).erase node.id, hs, by simp, ?_, fun v hm => ?_⟩
    case refine_1 =>
      have := Finset.pred_card_le_card_erase (a := node.id) (s := insert p node.preVotesReceived)
      rw [majority] at hq
      omega
    case refine_2 =>
      obtain ⟨hne, hm⟩ := Finset.mem_erase.mp hm
      rcases Finset.mem_insert.mp hm with rfl | hm
      · exact ⟨call, by simp, hbacks⟩
      · obtain ⟨r, hr, h⟩ := (hv v hm).resolve_left hne
        exact ⟨_, List.mem_append_left _ <| List.mem_map_of_mem hr, h⟩

-- A clock alone does not elect anyone.
theorem tick_unchanged (hp : node.peers ≠ []) :
    node.tick.1.currentTerm = node.currentTerm ∧ node.tick.1.votedFor = node.votedFor ∧
      node.tick.1.log = node.log ∧ node.tick.1.peers = node.peers := by
  unfold tick
  split
  all_goals
    dsimp only
    split
  case h_2.isTrue | h_3.isTrue | h_4.isTrue =>
    unfold startPreVote
    rw [if_neg (by simpa using hp)]
    exact ⟨rfl, rfl, rfl, rfl⟩
  all_goals exact ⟨rfl, rfl, rfl, rfl⟩

theorem ticks_unchanged (hp : node.peers ≠ []) (n : ℕ) :
    ∃ rs, node.invokeAll (.replicate n .tick) = some rs ∧ ∀ r ∈ rs,
      r.node.currentTerm = node.currentTerm ∧ r.node.votedFor = node.votedFor ∧
      r.node.log = node.log := by
  induction n generalizing node
  case zero => exact ⟨[], rfl, by simp⟩
  case succ n hi =>
    obtain ⟨ht, hv, hl, hpeers⟩ := tick_unchanged hp
    have hp : node.tick.1.peers ≠ [] := hpeers ▸ hp
    obtain ⟨rs, hrs, h⟩ := hi hp
    rw [ht, hv, hl] at h
    refine ⟨⟨.tick, node.tick.1, node.tick.2⟩ :: rs, ?_, List.forall_mem_cons.mpr ⟨⟨ht, hv, hl⟩, h⟩⟩
    simp [List.replicate_succ, RaftNode.invokeAll, invoke, hrs]

end RaftNode

variable {config : Config} {term commitIndex lastApplied : ℕ} {votedFor : Option NodeId} {log : RaftLog}

-- Whatever a node with peers has been through, it starts an election on pre-votes only.
theorem pre_votes_guard_elections (hp : config.peers ≠ [])
    (h : (RaftNode.restore config term votedFor log commitIndex lastApplied).invokeAll cs = some rs) :
    let node := latest (.restore config term votedFor log commitIndex lastApplied) rs
    (∀ call o, node.invoke call = some o →
      node.currentTerm < o.1.currentTerm → o.1.role ≠ .follower →
      o.1.currentTerm = node.currentTerm + 1 ∧
      ∃ (since : List Returned) (voters : Finset NodeId), SinceEntry rs node.currentTerm since ∧
        config.id ∉ voters ∧ (config.peers.length + 1) / 2 ≤ voters.card ∧
        ∀ p ∈ voters, ∃ c ∈ since.map (·.invocation) ++ [call], c.Backs p node.currentTerm) ∧
    ∀ n, ∃ rs', node.invokeAll (.replicate n .tick) = some rs' ∧ ∀ r ∈ rs',
      r.node.currentTerm = node.currentTerm ∧ r.node.votedFor = node.votedFor ∧
        r.node.log = node.log := by
  intro node
  have hstart : (RaftNode.restore config term votedFor log commitIndex lastApplied).Backed [] := by
    intro hr
    contradiction
  obtain ⟨hb, hid, hpeers⟩ := hstart.invokeAll hp h
  have hid : node.id = config.id := hid
  have hpeers : node.peers = config.peers := hpeers
  rw [← hpeers] at hp
  refine ⟨fun call o ho ht hr => ?_, RaftNode.ticks_unchanged hp⟩
  rw [← hid, ← hpeers]
  exact hb.elect hp ho ht hr

-- One of two peers backs the election of a node whose timer has expired.
theorem pre_votes_guard_elections_three : ∃ (start : RaftNode) (rs since : List Returned) (call : Invocation)
    (o : Outcome) (voters : Finset NodeId),
    start.invokeAll [.tick, .tick] = some rs ∧ (latest start rs).invoke call = some o ∧
    (latest start rs).currentTerm < o.1.currentTerm ∧
    SinceEntry rs (latest start rs).currentTerm since ∧ 1 ∉ voters ∧ 1 ≤ voters.card ∧
    ∀ p ∈ voters, ∃ c ∈ since.map (·.invocation) ++ [call], c.Backs p (latest start rs).currentTerm := by
  let config : Config :=
    { id                     := 1
      peers                  := [2, 3]
      electionTimeoutTicks   := 2
      heartbeatIntervalTicks := 1
      rngSeed                := { draws := fun _ => 0 }
      heartbeat_lt           := by decide }
  let start : RaftNode := .restore config 0 none .new 0 0
  let call : Invocation := .step ⟨2, 1, 0, .preVoteResponse true⟩
  have hsome : (start.invokeAll [.tick, .tick]).isSome := by decide +kernel
  have helects : ((start.invokeAll [.tick, .tick]).bind fun rs => ((latest start rs).invoke call).map
      fun o => decide ((latest start rs).currentTerm < o.1.currentTerm ∧ o.1.role ≠ .follower)) =
      some true := by decide +kernel
  obtain ⟨rs, hrs⟩ := Option.isSome_iff_exists.mp hsome
  rw [hrs, Option.bind_some] at helects
  obtain ⟨o, ho, he⟩ := Option.map_eq_some_iff.mp helects
  obtain ⟨ht, hr⟩ := of_decide_eq_true he
  have hguard := pre_votes_guard_elections (show config.peers ≠ [] by decide) hrs
  obtain ⟨_, since, voters, hs, hid, hcard, hv⟩ := hguard.left call o ho ht hr
  have hhalf : (config.peers.length + 1) / 2 = 1 := by simp [config]
  exact ⟨start, rs, since, call, o, voters, hrs, ho, ht, hs, hid, hhalf ▸ hcard, hv⟩

end RaftRupee
