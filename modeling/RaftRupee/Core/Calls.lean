import RaftRupee.Core.Moves

namespace RaftRupee
namespace RaftNode

variable {m : Cause} {node : RaftNode} {msg : Message} {r : Outcome}

-- A reply is only looked at in the role and in the term in which it has been asked for.
theorem awaited {role : Role} {term : ℕ} (h : ¬(node.role ≠ role ∨ term ≠ node.currentTerm)) :
    node.role = role ∧ term = node.currentTerm :=
  (not_or.mp h).imp not_not.mp not_not.mp

theorem replicateToPeer_replicates (node : RaftNode) (peer : NodeId) :
    Replicates node.kernel (node.replicateToPeer peer) := by
  unfold replicateToPeer
  dsimp only
  split
  case isTrue    => exact .snapshot rfl
  case isFalse h => exact .entries <| not_le.mp h

theorem broadcast_replicates (node : RaftNode) :
    ∀ a ∈ node.broadcastHeartbeats, Replicates node.kernel a := by
  simp only [broadcastHeartbeats, List.mem_map, forall_exists_index, and_imp]
  rintro _ peer _ rfl
  exact replicateToPeer_replicates node peer

theorem applyCommittedEntries_applies (node : RaftNode) :
    Applies node.kernel node.applyCommittedEntries.1.kernel node.applyCommittedEntries.2 := by
  unfold applyCommittedEntries
  split
  case isFalse h => exact .none <| .inl <| not_lt.mp h
  case isTrue hlt =>
    dsimp only
    split
    case h_1 h      => exact .none <| .inr <| List.getLast?_eq_none_iff.mp h
    case h_2 last h => exact .some hlt rfl h

-- The loop ends with the last index that a majority has reached in the current term.
theorem newCommit_spec (h : node.commitIndex < node.newCommit) :
    node.newCommit ≤ node.log.lastIndex ∧ node.log.termAt node.newCommit = some node.currentTerm ∧
      node.majority ≤ node.replicaCount node.newCommit := by
  have loop : ∀ (ns : List ℕ) (c : ℕ),
      let n := ns.foldl (fun newCommit n =>
        if node.log.termAt n ≠ some node.currentTerm then newCommit
        else if node.replicaCount n ≥ node.majority then n else newCommit) c
      n = c ∨ n ∈ ns ∧ node.log.termAt n = some node.currentTerm ∧
        node.majority ≤ node.replicaCount n := by
    intro ns
    induction ns
    case nil => simp
    case cons n ns hi =>
      intro c
      simp only [List.foldl_cons, List.mem_cons]
      rcases hi (if node.log.termAt n ≠ some node.currentTerm then c
        else if node.replicaCount n ≥ node.majority then n else c) with h | h
      case inr => exact .inr ⟨.inr h.left, h.right⟩
      case inl =>
        rw [h]
        split
        case isTrue => exact .inl rfl
        case isFalse ht =>
          split
          case isTrue hc  => exact .inr ⟨.inl rfl, not_not.mp ht, hc⟩
          case isFalse    => exact .inl rfl
  rcases loop (List.range' (node.commitIndex + 1) (node.log.lastIndex - node.commitIndex))
    node.commitIndex with hc | ⟨hm, hs⟩
  case inl => exact absurd hc h.ne'
  case inr =>
    have := List.mem_range'_1.mp hm
    exact ⟨by unfold newCommit; omega, hs⟩

theorem maybeAdvanceCommitIndex_advances (node : RaftNode) :
    Advances node.kernel node.maybeAdvanceCommitIndex.1.kernel node.maybeAdvanceCommitIndex.2 := by
  unfold maybeAdvanceCommitIndex
  split
  case isFalse => exact .none
  case isTrue h =>
    obtain ⟨hl, ht, hq⟩ := newCommit_spec h
    have ha := applyCommittedEntries_applies { node with commitIndex := node.newCommit }
    exact .some h hl ht hq ha

theorem applyCommittedEntries_commitIndex (node : RaftNode) :
    node.applyCommittedEntries.1.commitIndex = node.commitIndex := by
  unfold applyCommittedEntries
  split
  · dsimp only
    split <;> rfl
  · rfl

theorem maybeAdvanceCommitIndex_commitIndex (node : RaftNode) :
    node.maybeAdvanceCommitIndex.1.commitIndex = max node.commitIndex node.newCommit := by
  unfold maybeAdvanceCommitIndex
  split
  · rw [applyCommittedEntries_commitIndex]
    simp
    omega
  · simp
    omega

theorem followLeaderCommit_follows (node : RaftNode) (leaderCommit : ℕ) :
    Follows node.kernel leaderCommit (node.followLeaderCommit leaderCommit).1.kernel
      (node.followLeaderCommit leaderCommit).2 := by
  unfold followLeaderCommit
  dsimp only
  split
  case isFalse  => exact .none
  case isTrue h =>
    have ha := applyCommittedEntries_applies
      { node with commitIndex := min leaderCommit node.log.lastIndex }
    exact .some h.right ha

/-! ### Elections -/

theorem startRealElection_alone (h : node.peers = []) :
    node.startRealElection.1.kernel = node.kernel.campaign.lead ∧
      node.startRealElection.2 =
        node.kernel.campaignActions ++ [.appendEntries [node.kernel.campaign.noop]] := by
  simp only [startRealElection, h, List.isEmpty_nil, if_true]
  simp [becomeLeader, broadcastHeartbeats, resetElectionTimer, kernel, Kernel.lead, Kernel.campaign,
    Kernel.campaignActions, noop, Kernel.noop, h]

theorem startRealElection_move (hm : ∀ msg, m = .handle msg → msg.kind.isPreVote)
    (hr : node.role ≠ .leader) :
    Move m node.kernel node.startRealElection.1.kernel node.startRealElection.2 := by
  by_cases h : node.peers = []
  case pos =>
    obtain ⟨hk, ha⟩ := startRealElection_alone h
    exact hk ▸ ha ▸ .lone hm hr h
  case neg =>
    unfold startRealElection
    rw [if_neg (by simpa using h)]
    exact .campaign hm hr h

theorem startPreVote_move (hr : node.role ≠ .leader) :
    Move .tick node.kernel node.startPreVote.1.kernel node.startPreVote.2 := by
  unfold startPreVote
  dsimp only
  split
  case isTrue h =>
    have h : node.peers = [] := List.isEmpty_iff.mp h
    let preCandidate := resetElectionTimer
      { node with role := .preCandidate, preVotesReceived := {node.id} }
    obtain ⟨hk, ha⟩ := startRealElection_alone (show preCandidate.peers = [] from h)
    rw [List.map_eq_nil_iff.mpr h, List.nil_append]
    change Move .tick node.kernel preCandidate.startRealElection.1.kernel preCandidate.startRealElection.2
    rw [hk, ha]
    exact .lone (by simp) hr h
  case isFalse =>
    refine .idle (.inr <| .inr rfl) fun a ha => ?_
    obtain ⟨_, _, ha⟩ := List.mem_map.mp ha
    exact ha ▸ ⟨rfl, rfl⟩

theorem tick_move (node : RaftNode) : Move .tick node.kernel node.tick.1.kernel node.tick.2 := by
  unfold tick
  split
  case h_1 hr =>
    dsimp only
    split
    · have h := broadcast_replicates { node with heartbeatElapsed := 0 }
      exact .replicate hr h
    · exact .idle (.inl rfl) (by simp)
  all_goals
    rename_i hr
    dsimp only
    split
    · let expired : RaftNode := { node with electionElapsed := 0 }
      have h : expired.role ≠ .leader := by simp [expired, hr]
      exact startPreVote_move h
    · exact .idle (.inl rfl) (by simp)

theorem isLogUpToDate_iff {i t : ℕ} : node.isLogUpToDate i t ↔
    node.log.lastTerm < t ∨ node.log.lastTerm = t ∧ node.log.lastIndex ≤ i := by
  unfold isLogUpToDate
  split <;> simp <;> omega

theorem handlePreVote_move (node : RaftNode) (sender : NodeId) (t i lt : ℕ) :
    Move m node.kernel (node.handlePreVote sender t i lt).1.kernel
      (node.handlePreVote sender t i lt).2 :=
  .idle (.inl rfl) <| by simp [handlePreVote, Action.IsHint, message, MessageKind.isHint, kernel]

theorem handlePreVoteResponse_move {granted : Bool} (hk : msg.kind = .preVoteResponse granted) :
    Move (.handle msg) node.kernel (node.handlePreVoteResponse msg.sender msg.term granted).1.kernel
      (node.handlePreVoteResponse msg.sender msg.term granted).2 := by
  unfold handlePreVoteResponse
  split
  case isTrue => exact .idle (.inl rfl) (by simp)
  case isFalse hr =>
    split
    case isFalse => exact .idle (.inl rfl) (by simp)
    case isTrue =>
      dsimp only
      split
      case isFalse => exact .idle (.inl rfl) (by simp)
      case isTrue =>
        let backed : RaftNode :=
          { node with preVotesReceived := insert msg.sender node.preVotesReceived }
        have h : backed.role ≠ .leader := fun hc => hr <| .inl <| by simp_all [backed]
        exact startRealElection_move (by simp [hk, MessageKind.isPreVote]) h

theorem handleRequestVote_move {i t : ℕ} (hk : msg.kind = .requestVote i t)
    (ht : msg.term = node.currentTerm) :
    Move (.handle msg) node.kernel (node.handleRequestVote msg.sender i t).1.kernel
      (node.handleRequestVote msg.sender i t).2 := by
  unfold handleRequestVote
  dsimp only
  split
  case isTrue h =>
    exact .vote rfl hk ht h.left <| isLogUpToDate_iff.mp h.right.left
  case isFalse =>
    exact .idle (.inl rfl) <| by simp [Action.IsHint, message, MessageKind.isHint, kernel]

theorem handleRequestVoteResponse_move {granted : Bool}
    (hk : msg.kind = .requestVoteResponse granted) (ht : msg.term = node.currentTerm) :
    Move (.handle msg) node.kernel (node.handleRequestVoteResponse msg.sender msg.term granted).1.kernel
      (node.handleRequestVoteResponse msg.sender msg.term granted).2 := by
  unfold handleRequestVoteResponse
  split
  case isTrue => exact .idle (.inl rfl) (by simp)
  case isFalse hr =>
    have hr := (awaited hr).left
    split
    case isFalse => exact .idle (.inl rfl) (by simp)
    case isTrue hg =>
      subst hg
      dsimp only
      split
      case isFalse => exact .collect rfl hk ht hr
      case isTrue hq =>
        have hs := broadcast_replicates
          ({ node with votesReceived := insert msg.sender node.votesReceived }.becomeLeader).1
        exact .elect rfl hk ht hr rfl hq hs

-- What becomes of a vote, and of a pre-vote, that is counted.
theorem handleRequestVoteResponse_granted (voter : NodeId) (hr : node.role = .candidate) :
    let backed := { node with votesReceived := insert voter node.votesReceived }
    node.handleRequestVoteResponse voter node.currentTerm true =
      if node.majority ≤ backed.votesReceived.card then backed.becomeLeader else (backed, []) := by
  intro backed
  rw [handleRequestVoteResponse, if_neg (by simp [hr]), if_pos rfl]
  rfl

theorem handlePreVoteResponse_granted (voter : NodeId) (hr : node.role = .preCandidate) :
    let backed := { node with preVotesReceived := insert voter node.preVotesReceived }
    node.handlePreVoteResponse voter node.currentTerm true =
      if node.majority ≤ backed.preVotesReceived.card then backed.startRealElection else (backed, []) := by
  intro backed
  rw [handlePreVoteResponse, if_neg (by simp [hr]), if_pos rfl]
  rfl

/-! ### Log replication -/

-- A proposal, followed by the reply to the client, if there is one.
theorem propose_move (node : RaftNode) (command : Command) {hints : List Action}
    (hh : ∀ a ∈ hints, a.IsHint node.id) :
    Move m node.kernel (node.propose command).1.kernel ((node.propose command).2 ++ hints) := by
  unfold propose
  split
  case isTrue => exact .idle (.inl rfl) hh
  case isFalse hr =>
    have hr : node.role = .leader := not_not.mp hr
    let entry : LogEntry := ⟨node.log.lastIndex + 1, node.currentTerm, command⟩
    let node' : RaftNode := { node with log := node.log.append [entry] }
    dsimp only
    split
    case isTrue hp =>
      have hp : node.peers = [] := List.isEmpty_iff.mp hp
      have hs : node'.broadcastAppendEntries = [] := List.map_eq_nil_iff.mpr hp
      have ha := maybeAdvanceCommitIndex_advances node'
      have h := Move.proposeAlone (m := m) (k := node.kernel) (e := entry) hr hp rfl rfl ha hh
      rwa [← List.nil_append (node'.maybeAdvanceCommitIndex.2), ← hs] at h
    case isFalse hp =>
      have hp : node.peers ≠ [] := by simpa using hp
      refine .propose hr hp rfl rfl rfl fun a ha => ?_
      rcases List.mem_append.mp ha with ha | ha
      · exact .inl <| broadcast_replicates node' a ha
      · exact .inr <| hh a ha

theorem compactLogs_move (node : RaftNode) (i t : ℕ) (data : Command) :
    Move (.compactLogs i t) node.kernel (node.compactLogs i t data).1.kernel
      (node.compactLogs i t data).2 := by
  unfold compactLogs
  split
  case isTrue    => exact .idle (.inl rfl) (by simp)
  case isFalse h => exact .compact rfl <| not_lt.mp h

theorem handleClientRequest_move (node : RaftNode) (sender : NodeId) (command : Command) :
    Move m node.kernel (node.handleClientRequest sender command).1.kernel
      (node.handleClientRequest sender command).2 := by
  unfold handleClientRequest
  split
  case isTrue =>
    have hi : (node.propose command).1.id = node.id :=
      (@propose_move m node command [] (by simp)).id_eq.left
    refine propose_move node command fun a ha => ?_
    rw [List.mem_singleton] at ha
    exact ha ▸ ⟨hi, rfl⟩
  case isFalse =>
    exact .idle (.inl rfl) <| by simp [Action.IsHint, message, MessageKind.isHint, kernel]

theorem mergeEntries_merges {entries : List LogEntry} (h : node.mergeEntries entries = some r) :
    ∃ log, r.1 = { node with log } ∧ Merges node.log entries log r.2 := by
  unfold mergeEntries at h
  split at h
  case h_1 =>
    cases h
    exact ⟨_, rfl, .nil⟩
  case h_2 first rest =>
    dsimp only at h
    split at h
    case isTrue => contradiction
    case isFalse hf =>
      split at h
      case isTrue hl =>
        obtain ⟨log, hlog, h⟩ := Option.map_eq_some_iff.mp h
        cases h
        exact ⟨log, rfl, .splice rfl (by omega) hl rfl hlog⟩
      case isFalse hl =>
        cases h
        exact ⟨_, rfl, .keep <| by omega⟩

-- Within a term, a call of `become_follower` only changes the role and the timer.
theorem becomeFollower_same (node : RaftNode) (leader : Option NodeId) :
    (node.becomeFollower node.currentTerm leader).1.kernel =
        { node.kernel with role := .follower } ∧
      (node.becomeFollower node.currentTerm leader).2 = [] := by
  simp [becomeFollower, resetElectionTimer, kernel]

theorem handleAppendEntries_move {i t c : ℕ} {es : List LogEntry}
    (hk : msg.kind = .appendEntries i t es c) (ht : msg.term = node.currentTerm)
    (h : node.handleAppendEntries msg.sender msg.term i t es c = some r) :
    Move (.handle msg) node.kernel r.1.kernel r.2 := by
  unfold handleAppendEntries at h
  rw [if_neg (by omega), ht] at h
  obtain ⟨hd, hda⟩ := becomeFollower_same node (some msg.sender)
  generalize node.becomeFollower node.currentTerm (some msg.sender) = down at h hd hda
  obtain ⟨down, as⟩ := down
  subst hda
  have hid : down.id = node.id := congrArg Kernel.id hd
  have hlog : down.log = node.log := congrArg Kernel.log hd
  dsimp only at h
  split at h
  case h_1 =>
    cases h
    rw [hd]
    exact .idle (.inr <| .inl rfl) <| by simp [Action.IsHint, message, MessageKind.isHint, hid, kernel]
  case h_2 lt hl =>
    split at h
    case isTrue =>
      cases h
      rw [hd]
      exact .idle (.inr <| .inl rfl) <| by simp [Action.IsHint, message, MessageKind.isHint, hid, kernel]
    case isFalse hne =>
      obtain ⟨merged, hm, h⟩ := Option.bind_eq_some_iff.mp h
      obtain ⟨log, hmn, hmerge⟩ := mergeEntries_merges hm
      cases h
      have hmk : merged.1.kernel = { node.kernel with role := .follower, log } := by
        have : merged.1.kernel = { down.kernel with log } := hmn ▸ rfl
        rw [this, hd]
      have hf := hmk ▸ followLeaderCommit_follows merged.1 c
      have hreply : (merged.1.followLeaderCommit c).1.message msg.sender
          (.appendEntriesResponse true none none) =
          node.kernel.message msg.sender (.appendEntriesResponse true none none) := by
        have hid := congrArg Kernel.id hf.eq
        have hterm := congrArg Kernel.currentTerm hf.eq
        simp_all [message, Kernel.message, kernel]
      rw [hreply]
      rw [hlog] at hl hmerge
      exact .accept rfl hk ht (hl.trans <| congrArg some <| not_not.mp hne) hmerge hf

theorem handleAppendEntriesResponse_move {success : Bool} {t i : Option ℕ}
    (hk : msg.kind = .appendEntriesResponse success t i) (ht : msg.term = node.currentTerm) :
    Move (.handle msg) node.kernel
      (node.handleAppendEntriesResponse msg.sender msg.term success t i).1.kernel
      (node.handleAppendEntriesResponse msg.sender msg.term success t i).2 := by
  unfold handleAppendEntriesResponse
  split
  case isTrue => exact .idle (.inl rfl) (by simp)
  case isFalse hr =>
    have hr := (awaited hr).left
    split
    case isTrue hs =>
      subst hs
      have ha := maybeAdvanceCommitIndex_advances { node with
        nextIndex  := Function.update node.nextIndex msg.sender (some (node.log.lastIndex + 1))
        matchIndex := Function.update node.matchIndex msg.sender (some node.log.lastIndex) }
      exact .confirm rfl ht hr (.inl ⟨⟨_, _, hk⟩, rfl⟩) ha
    case isFalse =>
      refine .replicate hr fun a ha => ?_
      cases List.mem_singleton.mp ha
      have h : ∀ {node' : RaftNode} {peer : NodeId}, node'.kernel = node.kernel →
          Replicates node.kernel (node'.replicateToPeer peer) :=
        fun h => h ▸ replicateToPeer_replicates ..
      exact h rfl

theorem handleInstallSnapshotResponse_move (hk : msg.kind = .installSnapshotResponse)
    (ht : msg.term = node.currentTerm) :
    Move (.handle msg) node.kernel
      (node.handleInstallSnapshotResponse msg.sender msg.term).1.kernel
      (node.handleInstallSnapshotResponse msg.sender msg.term).2 := by
  unfold handleInstallSnapshotResponse
  split
  case isTrue => exact .idle (.inl rfl) (by simp)
  case isFalse hr =>
    have hr := (awaited hr).left
    have ha := maybeAdvanceCommitIndex_advances { node with
      matchIndex := Function.update node.matchIndex msg.sender (some node.log.firstIndex)
      nextIndex  := Function.update node.nextIndex msg.sender (some (node.log.firstIndex + 1)) }
    exact .confirm rfl ht hr (.inr ⟨hk, rfl⟩) ha

theorem handleInstallSnapshot_move {i t o : ℕ} {data : Command} {done : Bool}
    (hk : msg.kind = .installSnapshot i t o data done) (ht : msg.term = node.currentTerm) :
    Move (.handle msg) node.kernel
      (node.handleInstallSnapshot msg.sender msg.term i t data done).1.kernel
      (node.handleInstallSnapshot msg.sender msg.term i t data done).2 := by
  unfold handleInstallSnapshot
  rw [if_neg (by omega), ht]
  obtain ⟨hd, hda⟩ := becomeFollower_same node (some msg.sender)
  generalize node.becomeFollower node.currentTerm (some msg.sender) = down at hd hda
  obtain ⟨down, as⟩ := down
  subst hda
  have hid : down.id = node.id := congrArg Kernel.id hd
  have hterm : down.currentTerm = node.currentTerm := congrArg Kernel.currentTerm hd
  have hcommit : down.commitIndex = node.commitIndex := congrArg Kernel.commitIndex hd
  have hreply : Action.send (down.message msg.sender .installSnapshotResponse) =
      .send (node.kernel.message msg.sender .installSnapshotResponse) := by
    simp [message, Kernel.message, hid, hterm, kernel]
  dsimp only
  split
  case isTrue h =>
    rw [hd, List.nil_append, hreply]
    exact .skip rfl hk ht <| .inl <| h.trans_eq hcommit
  case isFalse h =>
    split
    case isFalse hn =>
      rw [hd, List.nil_append, hreply]
      exact .skip rfl hk ht <| .inr <| by simpa using hn
    case isTrue hn =>
      subst hn
      have hinst : Move (.handle msg) node.kernel _ [.persistSnapshot i t data, _] := .install rfl hk ht <|
        hcommit.symm.trans_lt (not_le.mp h)
      rw [← hreply] at hinst
      have hk' : RaftNode.kernel { down with
          log := down.log.installSnapshot { lastIncludedIndex := i, lastIncludedTerm := t }
          commitIndex := i
          lastApplied := i } = { down.kernel with
          log := down.log.installSnapshot { lastIncludedIndex := i, lastIncludedTerm := t }
          commitIndex := i
          lastApplied := i } := rfl
      rw [hk', hd, List.nil_append]
      exact hinst

/-! ### The entry point -/

theorem becomeFollower_later {term : ℕ} (leader : Option NodeId) (h : node.currentTerm < term) :
    (node.becomeFollower term leader).1.kernel = node.kernel.bump term ∧
      (node.becomeFollower term leader).2 = [.persistHardState term none] := by
  simp [becomeFollower, resetElectionTimer, kernel, Kernel.bump, h]

theorem dispatch_move (h : node.dispatch msg = some r)
    (ht : !msg.kind.isPreVote && !msg.kind.isClient → msg.term = node.currentTerm) :
    Move (.handle msg) node.kernel r.1.kernel r.2 := by
  unfold dispatch at h
  split at h
  case h_7 i t es c hk =>
    exact handleAppendEntries_move hk
      (ht <| by simp [hk, MessageKind.isPreVote, MessageKind.isClient]) h
  all_goals
    rename_i hk
    simp only [Option.some.injEq] at h
    subst h
    simp only [hk, MessageKind.isPreVote, MessageKind.isClient, Bool.not_false, Bool.not_true,
      Bool.and_false, Bool.and_true, Bool.false_eq_true, false_implies, true_implies] at ht
  case h_1 => exact handleClientRequest_move ..
  case h_2 => exact .idle (.inl rfl) (by simp)
  case h_3 => exact handlePreVote_move ..
  case h_4 => exact handlePreVoteResponse_move hk
  case h_5 => exact handleRequestVote_move hk ht
  case h_6 => exact handleRequestVoteResponse_move hk ht
  case h_8 => exact handleAppendEntriesResponse_move hk ht
  case h_9 => exact handleInstallSnapshot_move hk ht
  case h_10 => exact handleInstallSnapshotResponse_move hk ht

-- The term gate drops a message, lets it pass, or makes the node a follower of its term first.
theorem step_cases (h : node.step msg = some r) :
    (!msg.kind.isPreVote && !msg.kind.isClient) ∧ msg.term < node.currentTerm ∧ r = (node, []) ∨
      (!msg.kind.isPreVote && !msg.kind.isClient → msg.term = node.currentTerm) ∧
        node.dispatch msg = some r ∨
      (!msg.kind.isPreVote && !msg.kind.isClient) ∧ node.currentTerm < msg.term ∧ ∃ later,
        (node.becomeFollower msg.term none).1.dispatch msg = some later ∧
          r = (later.1, .persistHardState msg.term none :: later.2) := by
  unfold step at h
  dsimp only at h
  cases hg : !msg.kind.isPreVote && !msg.kind.isClient
  case false =>
    simp only [hg, Bool.and_false, Bool.false_eq_true, if_false] at h
    obtain ⟨_, hd, h⟩ := Option.bind_eq_some_iff.mp h
    cases h
    exact .inr <| .inl ⟨by simp, hd⟩
  case true =>
    simp only [hg, Bool.and_true, decide_eq_true_eq] at h
    split at h
    case isTrue hlater =>
      obtain ⟨hk, ha⟩ := becomeFollower_later none hlater
      have hterm : (node.becomeFollower msg.term none).1.currentTerm = msg.term :=
        congrArg Kernel.currentTerm hk
      rw [hterm, if_neg (lt_irrefl _), ha] at h
      obtain ⟨later, hd, h⟩ := Option.bind_eq_some_iff.mp h
      cases h
      exact .inr <| .inr ⟨rfl, hlater, later, hd, rfl⟩
    case isFalse hlater =>
      split at h
      case isTrue hstale =>
        cases h
        exact .inl ⟨rfl, hstale, rfl⟩
      case isFalse hstale =>
        obtain ⟨_, hd, h⟩ := Option.bind_eq_some_iff.mp h
        cases h
        exact .inr <| .inl ⟨fun _ => (not_lt.mp hlater).antisymm (not_lt.mp hstale), hd⟩

theorem step_call (h : node.step msg = some r) : Call (.handle msg) node.kernel r.1.kernel r.2 := by
  rcases step_cases h with ⟨_, _, rfl⟩ | ⟨ht, hd⟩ | ⟨hg, hlt, later, hd, rfl⟩
  case inl     => exact .same <| .idle (.inl rfl) (by simp)
  case inr.inl => exact .same <| dispatch_move hd ht
  case inr.inr =>
    obtain ⟨hk, _⟩ := becomeFollower_later none hlt
    have hterm : (node.becomeFollower msg.term none).1.currentTerm = msg.term :=
      congrArg Kernel.currentTerm hk
    exact .later rfl (by simp_all) hlt <| hk ▸ dispatch_move hd fun _ => hterm.symm

end RaftNode
end RaftRupee
