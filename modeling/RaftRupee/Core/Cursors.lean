import RaftRupee.Core.Backtracking
import RaftRupee.Core.Contacts

namespace RaftRupee

-- An AppendEntries probes at an entry that the log has, and names the term of this entry.
def Action.ProbesLog (log : RaftLog) (a : Action) : Prop :=
  ∀ msg i t es c, a = .send msg → msg.kind = .appendEntries i t es c → log.termAt i = some t

def Action.isEntries : Action → Bool
  | send { kind := .appendEntries .., .. } => true
  | _                                      => false

section

variable {m : Cause} {k k' : Kernel} {as : List Action} {a : Action} {log : RaftLog}

theorem Action.probesLog_of_not_isEntries (h : ¬a.isEntries) : a.ProbesLog log := by
  rintro ⟨_, _, _, kind⟩ i t es c rfl hk
  cases hk
  exact absurd rfl h

-- Only a leader sends entries.
theorem Call.not_isEntries (h : Call m k k' as) (hr : k'.role ≠ .leader) : ∀ a ∈ as, ¬a.isEntries := by
  rintro (⟨_, _, _, kind⟩ | _) ha he
  case send =>
    cases kind
    case appendEntries => exact hr (h.fromLeader _ ha _ rfl rfl).left
    all_goals cases he
  all_goals cases he

end

namespace RaftNode

variable {node node' leader : RaftNode} {o : Outcome} {p : NodeId} {msg : Message} {call : Invocation}

-- The cursors of a leader for its peers.
structure Cursors (node : RaftNode) : Prop where
  lt : ∀ p ∈ node.peers, ∃ m n, node.matchIndex p = some m ∧ node.nextIndex p = some n ∧ m < n
  le : ∀ p n, node.nextIndex p = some n → n ≤ node.log.lastIndex + 1

theorem Cursors.of_eq (h : node.Cursors) (hp : node'.peers = node.peers)
    (hm : node'.matchIndex = node.matchIndex) (hn : node'.nextIndex = node.nextIndex)
    (hl : node.log.lastIndex ≤ node'.log.lastIndex) : node'.Cursors where
  lt         := by rw [hp, hm, hn]; exact h.lt
  le p n hpn := (h.le p n (hn ▸ hpn)).trans (Nat.succ_le_succ hl)

theorem Cursors.le_update {n : ℕ} (h : node.Cursors) (hle : n ≤ node.log.lastIndex + 1) (q : NodeId) (k : ℕ)
    (hk : Function.update node.nextIndex p (some n) q = some k) : k ≤ node.log.lastIndex + 1 := by
  by_cases hqp : q = p
  case pos =>
    rw [hqp, Function.update_self, Option.some.injEq] at hk
    exact hk ▸ hle
  case neg => exact h.le q k (by simpa [hqp] using hk)

-- The cursors of one peer are moved.
theorem Cursors.update {m n : ℕ} (h : node.Cursors) (hlt : m < n) (hle : n ≤ node.log.lastIndex + 1) :
    Cursors { node with
      nextIndex  := Function.update node.nextIndex p (some n)
      matchIndex := Function.update node.matchIndex p (some m) } where
  lt q hq := by
    by_cases hqp : q = p
    case pos => exact ⟨m, n, by simp [hqp], by simp [hqp], hlt⟩
    case neg => simpa [hqp] using h.lt q hq
  le := h.le_update hle

theorem Cursors.retreat {n : ℕ} (h : node.Cursors) (hlt : (node.matchIndex p).getD 0 < n)
    (hle : n ≤ node.log.lastIndex + 1) :
    Cursors { node with nextIndex := Function.update node.nextIndex p (some n) } where
  lt q hq := by
    obtain ⟨m, n', hm, hn', hmn⟩ := h.lt q hq
    by_cases hqp : q = p
    case pos => exact ⟨m, n, hm, by simp [hqp], by simpa [← hqp, hm] using hlt⟩
    case neg => exact ⟨m, n', hm, by simp [hqp, hn'], hmn⟩
  le := h.le_update hle

-- What the cursors of a leader are for: the term of each probe is one of its log.
theorem replicateToPeer_probesLog (h : node.Cursors) (hc : node.log.Contiguous) (peer : NodeId) :
    (node.replicateToPeer peer).ProbesLog node.log := by
  unfold replicateToPeer
  dsimp only
  split
  case isTrue    => exact Action.probesLog_of_not_isEntries (by simp [Action.isEntries, message])
  case isFalse hn =>
    rintro msg i t es c hm hk
    cases hm
    cases hk
    have hle : (node.nextIndex peer).getD 1 ≤ node.log.lastIndex + 1 := by
      cases hp : node.nextIndex peer
      case none   => simp
      case some n => exact h.le peer n hp
    obtain ⟨e, he⟩ := Option.isSome_iff_exists.mp <| hc.isSome_entryAt.mpr
      (show _ ≤ (node.nextIndex peer).getD 1 - 1 ∧ _ from ⟨by omega, by omega⟩)
    simp [RaftLog.termAt, he]

theorem broadcast_probesLog (h : node.Cursors) (hc : node.log.Contiguous) :
    ∀ a ∈ node.broadcastHeartbeats, a.ProbesLog node.log := by
  intro a ha
  obtain ⟨peer, _, rfl⟩ := List.mem_map.mp ha
  exact replicateToPeer_probesLog h hc peer

-- What a call has to do to the cursors of a leader.
structure KeepsCursors (node : RaftNode) (o : Outcome) : Prop where
  cursors : o.1.role = .leader → o.1.Cursors
  mono    : node.role = .leader → o.1.role = .leader → o.1.currentTerm = node.currentTerm →
    ∀ p ∈ node.peers, ∀ m, node.matchIndex p = some m → ∃ m', o.1.matchIndex p = some m' ∧ m ≤ m'
  probes  : ∀ a ∈ o.2, a.ProbesLog o.1.log

theorem keepsCursors_of_call {m : Cause} (h : Call m node.kernel o.1.kernel o.2) (hr : o.1.role ≠ .leader) :
    KeepsCursors node o where
  cursors hl    := absurd hl hr
  mono _ hl _   := absurd hl hr
  probes a ha   := Action.probesLog_of_not_isEntries <| h.not_isEntries hr a ha

-- A call that moves no cursor.
theorem keepsCursors_of_eq (h : node.role = .leader → node.Cursors) (hr : o.1.role = node.role)
    (hp : o.1.peers = node.peers) (hm : o.1.matchIndex = node.matchIndex)
    (hn : o.1.nextIndex = node.nextIndex) (hl : node.log.lastIndex ≤ o.1.log.lastIndex)
    (hs : ∀ a ∈ o.2, a.ProbesLog o.1.log) : KeepsCursors node o where
  cursors hleader  := (h (hr ▸ hleader)).of_eq hp hm hn hl
  mono _ _ _ p _ m := by rw [hm]; exact fun h => ⟨m, h, le_rfl⟩
  probes           := hs

theorem keepsCursors_of_logOnly (h : node.role = .leader → node.Cursors) (ho : LogOnly node o.1)
    (hl : node.log.lastIndex ≤ o.1.log.lastIndex) (hs : ∀ a ∈ o.2, a.ProbesLog o.1.log) :
    KeepsCursors node o :=
  keepsCursors_of_eq h ho.role_eq ho.peers_eq ho.matchIndex_eq ho.nextIndex_eq hl hs

/-! ### What moves the cursors -/

theorem becomeLeader_cursors (hc : node.log.Contiguous) :
    node.becomeLeader.1.Cursors ∧ ∀ a ∈ node.becomeLeader.2, a.ProbesLog node.becomeLeader.1.log := by
  have he : Consecutive (node.log.lastIndex + 1) [node.noop] := ⟨rfl, trivial⟩
  have hlast : node.becomeLeader.1.log.lastIndex = node.log.lastIndex + 1 := hc.lastIndex_append he
  have hcursors : node.becomeLeader.1.Cursors := by
    refine ⟨fun p hp => ⟨0, node.log.lastIndex + 1, if_pos hp, if_pos hp, Nat.succ_pos _⟩, ?_⟩
    intro p n hn
    simp only [becomeLeader, Option.ite_none_right_eq_some, Option.some.injEq] at hn
    omega
  refine ⟨hcursors, List.forall_mem_cons.mpr ⟨?_, ?_⟩⟩
  · exact Action.probesLog_of_not_isEntries Bool.false_ne_true
  · exact broadcast_probesLog hcursors (hc.append he)

theorem startRealElection_cursors (hc : node.log.Contiguous) :
    (node.startRealElection.1.role = .leader → node.startRealElection.1.Cursors) ∧
      ∀ a ∈ node.startRealElection.2, a.ProbesLog node.startRealElection.1.log := by
  have hrequests (candidate : RaftNode) (log : RaftLog) : ∀ a ∈
      (.persistHardState candidate.currentTerm (some node.id) : Action) :: node.peers.map fun peer =>
        .send <| candidate.message peer <| .requestVote node.log.lastIndex node.log.lastTerm,
      a.ProbesLog log := by
    simp only [List.forall_mem_cons, List.forall_mem_map]
    exact ⟨Action.probesLog_of_not_isEntries Bool.false_ne_true,
      fun _ _ => Action.probesLog_of_not_isEntries Bool.false_ne_true⟩
  unfold startRealElection
  dsimp only
  split
  case isFalse => exact ⟨nofun, hrequests _ _⟩
  case isTrue  =>
    obtain ⟨h, hs⟩ := @becomeLeader_cursors (resetElectionTimer { node with
      currentTerm   := node.currentTerm + 1
      role          := .candidate
      votedFor      := some node.id
      votesReceived := {node.id} }) hc
    exact ⟨fun _ => h, List.forall_mem_append.mpr ⟨hrequests _ _, hs⟩⟩

theorem startPreVote_cursors (hc : node.log.Contiguous) :
    (node.startPreVote.1.role = .leader → node.startPreVote.1.Cursors) ∧
      ∀ a ∈ node.startPreVote.2, a.ProbesLog node.startPreVote.1.log := by
  have hrequests (log : RaftLog) : ∀ a ∈ node.peers.map fun peer =>
      Action.send { node.message peer <| .preVote node.log.lastIndex node.log.lastTerm with
        term := node.currentTerm + 1 }, a.ProbesLog log := by
    simp only [List.forall_mem_map]
    exact fun _ _ => Action.probesLog_of_not_isEntries Bool.false_ne_true
  unfold startPreVote
  dsimp only
  split
  case isFalse => exact ⟨nofun, hrequests _⟩
  case isTrue  =>
    obtain ⟨h, hs⟩ := @startRealElection_cursors
      (resetElectionTimer { node with role := .preCandidate, preVotesReceived := {node.id} }) hc
    exact ⟨h, List.forall_mem_append.mpr ⟨hrequests _, hs⟩⟩

-- A node that was no leader before.
theorem keepsCursors_of_new (hr : node.role ≠ .leader) (h : (o.1.role = .leader → o.1.Cursors) ∧
    ∀ a ∈ o.2, a.ProbesLog o.1.log) : KeepsCursors node o where
  cursors  := h.left
  mono hl  := absurd hl hr
  probes   := h.right

theorem tick_keepsCursors (hc : node.log.Contiguous) (h : node.role = .leader → node.Cursors) :
    KeepsCursors node node.tick := by
  unfold tick
  split
  case h_1 hr =>
    dsimp only
    split
    case isFalse => exact keepsCursors_of_eq h rfl rfl rfl rfl le_rfl (by simp)
    case isTrue  =>
      refine keepsCursors_of_eq h rfl rfl rfl rfl le_rfl <| broadcast_probesLog ?_ hc
      exact (h hr).of_eq rfl rfl rfl le_rfl
  all_goals
    rename_i hr
    dsimp only
    split
    case isFalse => exact keepsCursors_of_eq h rfl rfl rfl rfl le_rfl (by simp)
    case isTrue  => exact keepsCursors_of_new (by simp [hr]) <| startPreVote_cursors hc

theorem maybeAdvanceCommitIndex_probesLog (leader : RaftNode) (log : RaftLog) :
    ∀ a ∈ leader.maybeAdvanceCommitIndex.2, a.ProbesLog log :=
  leader.maybeAdvanceCommitIndex_advances.forall_mem fun _ =>
    Action.probesLog_of_not_isEntries Bool.false_ne_true

theorem propose_keepsCursors (hc : node.log.Contiguous) (h : node.role = .leader → node.Cursors)
    (command : Command) : KeepsCursors node (node.propose command) := by
  unfold propose
  split
  case isTrue     => exact keepsCursors_of_eq h rfl rfl rfl rfl le_rfl (by simp)
  case isFalse hr =>
    have hr : node.role = .leader := not_not.mp hr
    let entry : LogEntry := ⟨node.log.lastIndex + 1, node.currentTerm, command⟩
    have he : Consecutive (node.log.lastIndex + 1) [entry] := ⟨rfl, trivial⟩
    have hlast : node.log.lastIndex ≤ (node.log.append [entry]).lastIndex := by
      rw [hc.lastIndex_append he]
      omega
    let proposer : RaftNode := { node with log := node.log.append [entry] }
    have hsends (log : RaftLog) (hl : log = proposer.log) :
        ∀ a ∈ Action.appendEntries [entry] :: proposer.broadcastAppendEntries, a.ProbesLog log := by
      have hcursors : proposer.Cursors := (h hr).of_eq rfl rfl rfl hlast
      rw [hl]
      refine List.forall_mem_cons.mpr ⟨?_, broadcast_probesLog hcursors (hc.append he)⟩
      exact Action.probesLog_of_not_isEntries Bool.false_ne_true
    dsimp only
    split
    case isFalse => exact keepsCursors_of_logOnly h ⟨rfl⟩ hlast <| hsends _ rfl
    case isTrue  =>
      have hlog := (maybeAdvanceCommitIndex_advances proposer).log_eq
      have honly : LogOnly node proposer.maybeAdvanceCommitIndex.1 :=
        LogOnly.trans ⟨rfl⟩ <| maybeAdvanceCommitIndex_logOnly proposer
      refine keepsCursors_of_logOnly h honly ?_ ?_
      · exact hlast.trans_eq (congrArg RaftLog.lastIndex hlog).symm
      · exact List.forall_mem_append.mpr
          ⟨hsends _ hlog, maybeAdvanceCommitIndex_probesLog proposer _⟩

theorem compactLogs_keepsCursors (hc : node.log.Contiguous) (h : node.role = .leader → node.Cursors)
    (i t : ℕ) (data : Command) : KeepsCursors node (node.compactLogs i t data) := by
  unfold compactLogs
  split
  case isTrue  => exact keepsCursors_of_eq h rfl rfl rfl rfl le_rfl (by simp)
  case isFalse =>
    refine keepsCursors_of_logOnly h ⟨rfl⟩ ?_ ?_
    · exact (le_max_right ..).trans_eq hc.lastIndex_compact.symm
    · simpa using Action.probesLog_of_not_isEntries (by simp [Action.isEntries])

/-! ### Replies -/

-- The reply moves the cursors of its sender to where they are in order, and no match index back.
def OrderedReply (node : RaftNode) (msg : Message) : Prop :=
  let matched := (node.matchIndex msg.sender).getD 0
  let last    := node.log.lastIndex
  match msg.kind with
  | .appendEntriesResponse false (some t) c =>
    (∃ i ≤ last, matched ≤ i ∧ node.log.termAt i = some t) ∨
      (∀ i ≤ last, node.log.termAt i ≠ some t) ∧ matched < max (c.getD 1) 1 ∧ c.getD 1 ≤ last + 1
  | .appendEntriesResponse false none (some c) => matched < max c 1 ∧ c ≤ last + 1
  | .appendEntriesResponse false none none     =>
    matched = 0 ∨ matched + 1 < (node.nextIndex msg.sender).getD 1
  | .installSnapshotResponse                   => matched ≤ node.log.firstIndex
  | _                                          => True

instance : Decidable (node.OrderedReply msg) :=
  match msg with
  | { kind := .appendEntriesResponse false (some _) _, .. }    => inferInstanceAs (Decidable (_ ∨ _))
  | { kind := .appendEntriesResponse false none (some _), .. } => inferInstanceAs (Decidable (_ ∧ _))
  | { kind := .appendEntriesResponse false none none, .. }     => inferInstanceAs (Decidable (_ ∨ _))
  | { kind := .installSnapshotResponse, .. }                   => inferInstanceAs (Decidable (_ ≤ _))
  | { kind := .appendEntriesResponse true .., .. }
  | { kind := .clientRequest .., .. } | { kind := .clientResponse .., .. }
  | { kind := .preVote .., .. } | { kind := .preVoteResponse .., .. }
  | { kind := .requestVote .., .. } | { kind := .requestVoteResponse .., .. }
  | { kind := .appendEntries .., .. } | { kind := .installSnapshot .., .. } => isTrue trivial

-- Where the leader probes next.
theorem OrderedReply.backtrack {t c : Option ℕ} (h : node.OrderedReply msg) (hn : node.Cursors)
    (hc : node.log.Contiguous) (hk : msg.kind = .appendEntriesResponse false t c) :
    (node.matchIndex msg.sender).getD 0 < max (node.backtrack msg.sender t c) 1 ∧
      node.backtrack msg.sender t c ≤ node.log.lastIndex + 1 := by
  unfold OrderedReply at h
  unfold RaftNode.backtrack
  rw [hk] at h
  rcases t with _ | t
  case none =>
    rcases c with _ | c
    case some => exact h
    case none =>
      have hle : (node.nextIndex msg.sender).getD 1 ≤ node.log.lastIndex + 1 := by
        cases hp : node.nextIndex msg.sender
        case none   => simp
        case some n => exact hn.le _ n hp
      dsimp only at h ⊢
      omega
  case some =>
    dsimp only at h ⊢
    split
    case h_1 i hi =>
      obtain ⟨hterm, hlast⟩ := RaftLog.lastIndexOfTerm_eq_some hi
      have hle := (hc.bounds_of_termAt hterm).right
      rcases h with ⟨j, hj, hmj, hjt⟩ | ⟨hnone, _⟩
      case inr => exact absurd hterm (hnone i hle)
      case inl =>
        have hij : j ≤ i := by
          by_contra hlt
          exact hlast j (not_le.mp hlt) hj hjt
        omega
    case h_2 hi =>
      rcases h with ⟨j, hj, _, hjt⟩ | ⟨_, h⟩
      case inr => exact h
      case inl => exact absurd hjt <| RaftLog.lastIndexOfTerm_eq_none hi (hc.bounds_of_termAt hjt).left hj

-- A leader that counts a reply moves its cursors for the sender, and may commit.
theorem keepsCursors_of_confirm {m n : ℕ} (h : node.Cursors) (hlt : m < n) (hle : n ≤ node.log.lastIndex + 1)
    (hm : ∀ m', p ∈ node.peers → node.matchIndex p = some m' → m' ≤ m) :
    KeepsCursors node (maybeAdvanceCommitIndex { node with
      nextIndex  := Function.update node.nextIndex p (some n)
      matchIndex := Function.update node.matchIndex p (some m) }) := by
  let confirmed : RaftNode := { node with
    nextIndex  := Function.update node.nextIndex p (some n)
    matchIndex := Function.update node.matchIndex p (some m) }
  have honly := maybeAdvanceCommitIndex_logOnly confirmed
  have hlog := (maybeAdvanceCommitIndex_advances confirmed).log_eq
  refine ⟨fun _ => ?_, fun _ _ _ q hq k hk => ?_, maybeAdvanceCommitIndex_probesLog confirmed _⟩
  · exact (h.update hlt hle).of_eq honly.peers_eq honly.matchIndex_eq honly.nextIndex_eq
      (congrArg RaftLog.lastIndex hlog).ge
  · rw [honly.matchIndex_eq]
    by_cases hqp : q = p
    case pos => exact ⟨m, by simp [confirmed, hqp], hm k (hqp ▸ hq) (hqp ▸ hk)⟩
    case neg => exact ⟨k, by simp [confirmed, hqp, hk], le_rfl⟩

theorem handleAppendEntriesResponse_keepsCursors {success : Bool} {t c : Option ℕ}
    (hk : msg.kind = .appendEntriesResponse success t c) (hc : node.log.Contiguous)
    (h : node.role = .leader → node.Cursors)
    (ho : node.role = .leader → msg.term = node.currentTerm → node.OrderedReply msg) :
    KeepsCursors node (node.handleAppendEntriesResponse msg.sender msg.term success t c) := by
  unfold handleAppendEntriesResponse
  split
  case isTrue     => exact keepsCursors_of_eq h rfl rfl rfl rfl le_rfl (by simp)
  case isFalse hr =>
    obtain ⟨hr, ht⟩ := awaited hr
    split
    case isTrue =>
      refine keepsCursors_of_confirm (h hr) (Nat.lt_succ_self _) le_rfl fun m hp hm => ?_
      obtain ⟨m', n, hm', hn, hlt⟩ := (h hr).lt _ hp
      have hle := (h hr).le _ n hn
      rw [hm, Option.some.injEq] at hm'
      omega
    case isFalse hs =>
      rw [Bool.not_eq_true] at hs
      subst hs
      obtain ⟨hlt, hle⟩ := (ho hr ht).backtrack (h hr) hc hk
      let n := max (node.backtrack msg.sender t c) 1
      have hn : (if node.backtrack msg.sender t c = 0 then 1 else node.backtrack msg.sender t c) = n := by
        split <;> omega
      have hcursors := (h hr).retreat hlt (show n ≤ node.log.lastIndex + 1 by omega)
      dsimp only
      rw [hn]
      refine ⟨fun _ => hcursors, fun _ _ _ _ _ m hm => ⟨m, hm, le_rfl⟩, ?_⟩
      simpa using replicateToPeer_probesLog hcursors hc msg.sender

theorem handleInstallSnapshotResponse_keepsCursors (hk : msg.kind = .installSnapshotResponse)
    (hc : node.log.Contiguous) (h : node.role = .leader → node.Cursors)
    (ho : node.role = .leader → msg.term = node.currentTerm → node.OrderedReply msg) :
    KeepsCursors node (node.handleInstallSnapshotResponse msg.sender msg.term) := by
  unfold handleInstallSnapshotResponse
  split
  case isTrue     => exact keepsCursors_of_eq h rfl rfl rfl rfl le_rfl (by simp)
  case isFalse hr =>
    obtain ⟨hr, ht⟩ := awaited hr
    have hle : node.log.firstIndex ≤ node.log.lastIndex := hc.lastIndex_eq ▸ Nat.le_add_right ..
    have hmatch := ho hr ht
    simp only [OrderedReply, hk] at hmatch
    refine keepsCursors_of_confirm (h hr) (Nat.lt_succ_self _) (Nat.succ_le_succ hle) ?_
    exact fun m _ hm => by simpa [hm] using hmatch

/-! ### Calls -/

theorem handleClientRequest_keepsCursors (hc : node.log.Contiguous) (h : node.role = .leader → node.Cursors)
    (sender : NodeId) (command : Command) :
    KeepsCursors node (node.handleClientRequest sender command) := by
  have hreply (node : RaftNode) (log : RaftLog) (ok : Bool) (hint : Option NodeId) :
      (Action.send <| node.message sender <| .clientResponse ok hint).ProbesLog log :=
    Action.probesLog_of_not_isEntries Bool.false_ne_true
  unfold handleClientRequest
  split
  case isFalse =>
    refine keepsCursors_of_logOnly h ⟨rfl⟩ le_rfl ?_
    simpa using hreply node _ _ _
  case isTrue  =>
    obtain ⟨hcursors, hmono, hprobes⟩ := propose_keepsCursors hc h command
    refine ⟨hcursors, hmono, List.forall_mem_append.mpr ⟨hprobes, ?_⟩⟩
    simpa using hreply _ _ _ _

theorem handlePreVoteResponse_keepsCursors (hc : node.log.Contiguous)
    (h : node.role = .leader → node.Cursors) (sender : NodeId) (term : ℕ) (granted : Bool) :
    KeepsCursors node (node.handlePreVoteResponse sender term granted) := by
  unfold handlePreVoteResponse
  split
  case isTrue     => exact keepsCursors_of_logOnly h ⟨rfl⟩ le_rfl (by simp)
  case isFalse hr =>
    split
    case isFalse => exact keepsCursors_of_logOnly h ⟨rfl⟩ le_rfl (by simp)
    case isTrue  =>
      dsimp only
      split
      case isFalse => exact keepsCursors_of_eq h rfl rfl rfl rfl le_rfl (by simp)
      case isTrue  =>
        refine keepsCursors_of_new ?_ <| startRealElection_cursors hc
        simp [(awaited hr).left]

theorem handleRequestVoteResponse_keepsCursors (hc : node.log.Contiguous)
    (h : node.role = .leader → node.Cursors) (sender : NodeId) (term : ℕ) (granted : Bool) :
    KeepsCursors node (node.handleRequestVoteResponse sender term granted) := by
  unfold handleRequestVoteResponse
  split
  case isTrue     => exact keepsCursors_of_logOnly h ⟨rfl⟩ le_rfl (by simp)
  case isFalse hr =>
    split
    case isFalse => exact keepsCursors_of_logOnly h ⟨rfl⟩ le_rfl (by simp)
    case isTrue  =>
      dsimp only
      split
      case isFalse => exact keepsCursors_of_eq h rfl rfl rfl rfl le_rfl (by simp)
      case isTrue  =>
        obtain ⟨hcursors, hprobes⟩ := @becomeLeader_cursors
          { node with votesReceived := insert sender node.votesReceived } hc
        refine keepsCursors_of_new ?_ ⟨fun _ => hcursors, hprobes⟩
        simp [(awaited hr).left]

theorem handleRequestVote_keepsCursors (h : node.role = .leader → node.Cursors) (sender : NodeId)
    (i t : ℕ) : KeepsCursors node (node.handleRequestVote sender i t) := by
  unfold handleRequestVote
  dsimp only
  split
  all_goals
    refine keepsCursors_of_eq h rfl rfl rfl rfl le_rfl fun a ha => ?_
    refine Action.probesLog_of_not_isEntries ?_
    revert a
    simp [Action.isEntries, message]

theorem handleAppendEntries_role {sender : NodeId} {term i t c : ℕ} {es : List LogEntry}
    (ht : node.currentTerm ≤ term) (h : node.handleAppendEntries sender term i t es c = some o) :
    o.1.role = .follower := by
  rw [handleAppendEntries_of_le sender ht] at h
  obtain ⟨received, hr, rfl⟩ := Option.map_eq_some_iff.mp h
  exact (receiveEntries_logOnly hr).role_eq.trans (node.becomeFollower_role term _)

theorem handleInstallSnapshot_role {sender : NodeId} {term i t : ℕ} {data : Command} {done : Bool}
    (ht : node.currentTerm ≤ term) :
    (node.handleInstallSnapshot sender term i t data done).1.role = .follower := by
  rw [handleInstallSnapshot_of_le sender ht]
  exact (receiveSnapshot_logOnly ..).role_eq.trans (node.becomeFollower_role term _)

-- A message in the term of the node.
theorem dispatch_keepsCursors (hc : node.log.Contiguous) (h : node.role = .leader → node.Cursors)
    (ho : node.role = .leader → msg.term = node.currentTerm → node.OrderedReply msg)
    (ht : !msg.kind.isPreVote && !msg.kind.isClient → msg.term = node.currentTerm)
    (hd : node.dispatch msg = some o) : KeepsCursors node o := by
  have hmove := dispatch_move hd ht
  unfold dispatch at hd
  split at hd
  case h_7 i t es c hk =>
    have hterm := ht (by simp [hk, MessageKind.isPreVote, MessageKind.isClient])
    refine keepsCursors_of_call (.same hmove) ?_
    simp [handleAppendEntries_role hterm.ge hd]
  all_goals
    simp only [Option.some.injEq] at hd
    subst hd
  case h_1  => exact handleClientRequest_keepsCursors hc h ..
  case h_2  => exact keepsCursors_of_logOnly h ⟨rfl⟩ le_rfl (by simp)
  case h_3  =>
    refine keepsCursors_of_logOnly h ⟨rfl⟩ le_rfl ?_
    exact List.forall_mem_singleton.mpr <| Action.probesLog_of_not_isEntries Bool.false_ne_true
  case h_4  => exact handlePreVoteResponse_keepsCursors hc h ..
  case h_5  => exact handleRequestVote_keepsCursors h ..
  case h_6  => exact handleRequestVoteResponse_keepsCursors hc h ..
  case h_8 hk  => exact handleAppendEntriesResponse_keepsCursors hk hc h ho
  case h_9 hk  =>
    have hterm := ht (by simp [hk, MessageKind.isPreVote, MessageKind.isClient])
    refine keepsCursors_of_call (.same hmove) ?_
    simp [handleInstallSnapshot_role hterm.ge]
  case h_10 hk => exact handleInstallSnapshotResponse_keepsCursors hk hc h ho

theorem step_keepsCursors (hc : node.log.Contiguous) (h : node.role = .leader → node.Cursors)
    (ho : node.role = .leader → msg.term = node.currentTerm → node.OrderedReply msg)
    (hs : node.step msg = some o) : KeepsCursors node o := by
  have hcall := step_call hs
  rcases step_cases hs with ⟨_, _, rfl⟩ | ⟨ht, hd⟩ | ⟨hg, _, later, hd, rfl⟩
  case inl     => exact keepsCursors_of_logOnly h ⟨rfl⟩ le_rfl (by simp)
  case inr.inl => exact dispatch_keepsCursors hc h ho ht hd
  case inr.inr =>
    -- A node that has gone to a later term is a follower there, and none that counts votes.
    refine keepsCursors_of_call hcall ?_
    simp [dispatch_follower (node.becomeFollower_role msg.term none) hd (Bool.and_eq_true_iff.mp hg).left]

end RaftNode
end RaftRupee
