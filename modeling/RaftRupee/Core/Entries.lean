import RaftRupee.Core.AppendOnly

namespace RaftRupee

variable {m : Cause} {k k' : Kernel} {as : List Action} {a : Action} {e : LogEntry} {es : List LogEntry}

def MessageKind.entries : MessageKind → List LogEntry
  | appendEntries _ _ es _ => es
  | _                      => []

def Action.message : Action → Option Message
  | send msg => some msg
  | _        => none

-- The entries that an action sends, writes or applies.
def Action.entries : Action → List LogEntry
  | send msg                                             => msg.kind.entries
  | appendEntries es | truncateAndAppend _ es | apply es => es
  | persistHardState .. | persistSnapshot ..             => []

def Cause.Carries (m : Cause) (e : LogEntry) : Prop :=
  ∃ msg, m = .handle msg ∧ e ∈ msg.kind.entries

-- A leader appends the entry to its log.
structure Creates (k k' : Kernel) (e : LogEntry) : Prop where
  index : e.index = k.log.lastIndex + 1
  term  : e.term = k'.currentTerm
  role  : k'.role = .leader
  log   : k'.log = k.log.append [e]

/-! ### Entries that are created -/

theorem Move.creates (h : Move m k k' as) (ha : .appendEntries es ∈ as) : ∃ e, es = [e] ∧ Creates k k' e := by
  have not_send {bs : List Action} (hb : ∀ b ∈ bs, b.isSend) : .appendEntries es ∉ bs :=
    fun hm => Bool.false_ne_true (hb _ hm)
  cases h
  case idle hs      => exact absurd ha <| not_send fun b hb => (hs b hb).isSend
  case campaign     => simp [Kernel.campaignActions] at ha
  case replicate hs => exact absurd ha <| not_send fun b hb => (hs b hb).isSend
  case lone         =>
    obtain rfl : es = [k.campaign.noop] := by simpa [Kernel.campaignActions] using ha
    exact ⟨_, rfl, rfl, rfl, rfl, rfl⟩
  case elect he _ hs =>
    subst he
    rcases List.mem_cons.mp ha with he | ha
    · cases he
      exact ⟨_, rfl, rfl, rfl, rfl, rfl⟩
    · exact absurd ha <| not_send fun b hb => (hs b hb).isSend
  case propose e sends hr _ hi ht he hs =>
    subst he
    rcases List.mem_cons.mp ha with he | ha
    · cases he
      exact ⟨e, rfl, hi, ht, hr, rfl⟩
    · exact absurd ha <| not_send fun b hb => (hs b hb).elim (·.isSend) (·.isSend)
  case proposeAlone e commit sends hr _ hi ht hs hc =>
    have hcommit : .appendEntries es ∉ commit := fun hm =>
      hc.forall_mem (P := (· ≠ .appendEntries es)) (by simp) _ hm rfl
    simp only [List.cons_append, List.mem_cons, List.mem_append] at ha
    rcases ha with he | ha | ha
    · cases he
      exact ⟨e, rfl, hi, ht.trans hc.currentTerm_eq.symm, hc.role_eq.trans hr, hc.log_eq⟩
    · exact absurd ha hcommit
    · exact absurd ha <| not_send fun b hb => (hs b hb).isSend
  case confirm hc =>
    exact absurd ha fun hm => hc.forall_mem (P := (· ≠ .appendEntries es)) (by simp) _ hm rfl
  case accept merge commit _ _ _ _ hm hf =>
    have hmerge : .appendEntries es ∉ merge := by cases hm <;> simp
    have hcommit : .appendEntries es ∉ commit := fun hc =>
      hf.forall_mem (P := (· ≠ .appendEntries es)) (by simp) _ hc rfl
    simp [hmerge, hcommit] at ha
  all_goals simp at ha

theorem Call.creates (h : Call m k k' as) (ha : .appendEntries es ∈ as) : ∃ e, es = [e] ∧ Creates k k' e := by
  cases h
  case same h => exact h.creates ha
  case later h =>
    obtain ⟨e, he, hc⟩ := h.creates (List.mem_of_ne_of_mem (by simp) ha)
    exact ⟨e, he, hc.index, hc.term, hc.role, hc.log⟩

/-! ### Entries that are passed on -/

@[simp]
theorem Action.entries_message (receiver : NodeId) (kind : MessageKind) :
    (Action.send (k.message receiver kind)).entries = kind.entries :=
  rfl

theorem Action.IsHint.entries {id : NodeId} (h : a.IsHint id) : a.entries = [] := by
  cases a
  case send msg =>
    obtain ⟨_, _, _, kind⟩ := msg
    cases kind
    case appendEntries => exact absurd h.right Bool.false_ne_true
    all_goals rfl
  all_goals exact h.elim

theorem Kernel.campaignActions_entries (k : Kernel) : ∀ a ∈ k.campaignActions, a.entries = [] := by
  simp only [campaignActions, List.forall_mem_cons, List.forall_mem_map]
  exact ⟨rfl, fun _ _ => rfl⟩

theorem Replicates.entries_mem (h : Replicates k a) : ∀ e ∈ a.entries, e ∈ k.log.rest := by
  cases h
  case snapshot => simp [MessageKind.entries]
  case entries  => exact k.log.entriesFrom_subset _

theorem Applies.entries_mem (h : Applies k k' as) : ∀ a ∈ as, ∀ e ∈ a.entries, e ∈ k.log.rest := by
  cases h
  case none => simp
  case some hes _ =>
    intro a ha e he
    cases List.mem_singleton.mp ha
    exact k.log.entriesFrom_subset _ <| (List.takeWhile_prefix _).subset <| hes ▸ he

theorem Advances.entries_mem (h : Advances k k' as) : ∀ a ∈ as, ∀ e ∈ a.entries, e ∈ k'.log.rest := by
  rw [h.log_eq]
  cases h
  case none    => simp
  case some ha => exact ha.entries_mem

theorem Follows.entries_mem {c : ℕ} (h : Follows k c k' as) : ∀ a ∈ as, ∀ e ∈ a.entries, e ∈ k'.log.rest := by
  rw [h.log_eq]
  cases h
  case none    => simp
  case some ha => exact ha.entries_mem

theorem Merges.entries {log log' : RaftLog} (h : Merges log es log' as) :
    (∀ e ∈ log'.rest, e ∈ log.rest ∨ e ∈ es) ∧ ∀ a ∈ as, ∀ e ∈ a.entries, e ∈ es := by
  cases h
  case splice hs ht =>
    subst hs
    refine ⟨fun e he => ?_, fun a ha e he => ?_⟩
    · unfold RaftLog.truncateAndAppend at ht
      split at ht
      case isFalse => contradiction
      case isTrue  =>
        cases ht
        exact (List.mem_append.mp he).imp List.mem_of_mem_take List.mem_of_mem_drop
    · cases List.mem_singleton.mp ha
      exact List.mem_of_mem_drop he
  all_goals exact ⟨fun _ => .inl, by simp⟩

-- What an action carries is in the log afterwards, or in the message that is handled.
theorem Move.entries_mem (h : Move m k k' as) :
    ∀ a ∈ as, ∀ e ∈ a.entries, e ∈ k'.log.rest ∨ m.Carries e := by
  have created {es} (ha : .appendEntries es ∈ as) : ∀ e ∈ es, e ∈ k'.log.rest := by
    obtain ⟨e, rfl, hc⟩ := h.creates ha
    simp [hc.log, RaftLog.append]
  intro a ha e he
  cases h
  case idle hs          => simp [(hs a ha).entries] at he
  case replicate hs     => exact .inl <| (hs a ha).entries_mem e he
  case confirm hc       => exact .inl <| hc.entries_mem a ha e he
  case lone =>
    rcases List.mem_append.mp ha with ha' | ha'
    · simp [k.campaignActions_entries a ha'] at he
    · cases List.mem_singleton.mp ha'
      exact .inl <| created ha e he
  case elect he' _ hs =>
    subst he'
    rcases List.mem_cons.mp ha with rfl | ha'
    · exact .inl <| created ha e he
    · exact .inl <| (hs a ha').entries_mem e he
  case propose he' hs =>
    rcases List.mem_cons.mp ha with rfl | ha'
    · exact .inl <| created ha e he
    · rcases hs a ha' with hs | hs
      · exact .inl <| hs.entries_mem e he
      · simp [hs.entries] at he
  case proposeAlone hs hc =>
    simp only [List.cons_append, List.mem_cons, List.mem_append] at ha
    rcases ha with rfl | ha' | ha'
    · exact .inl <| created (List.mem_append_left _ List.mem_cons_self) e he
    · exact .inl <| hc.entries_mem a ha' e he
    · simp [(hs a ha').entries] at he
  case accept merge commit hm hk _ _ hmerge hf =>
    simp only [List.mem_append, List.mem_singleton] at ha
    rcases ha with (ha | ha) | rfl
    · have hmem := hmerge.entries.right a ha e he
      exact .inr ⟨_, hm, by rwa [hk]⟩
    · exact .inl <| hf.entries_mem a ha e he
    · simp [MessageKind.entries] at he
  case campaign => simp [k.campaignActions_entries a ha] at he
  all_goals grind [Action.entries, MessageKind.entries, Action.entries_message]

theorem Call.entries_mem (h : Call m k k' as) :
    ∀ a ∈ as, ∀ e ∈ a.entries, e ∈ k'.log.rest ∨ m.Carries e := by
  cases h
  case same h  => exact h.entries_mem
  case later h =>
    intro a ha e he
    rcases List.mem_cons.mp ha with rfl | ha
    · cases he
    · exact h.entries_mem a ha e he

-- What is in the log afterwards was there before, or in the message, or the call has created it.
theorem Move.log_entries (h : Move m k k' as) :
    ∀ e ∈ k'.log.rest, e ∈ k.log.rest ∨ m.Carries e ∨ .appendEntries [e] ∈ as := by
  have created {es} (ha : .appendEntries es ∈ as) (e) (he : e ∈ k'.log.rest) :
      e ∈ k.log.rest ∨ m.Carries e ∨ .appendEntries [e] ∈ as := by
    obtain ⟨f, rfl, hc⟩ := h.creates ha
    rw [hc.log] at he
    refine (List.mem_append.mp he).imp_right fun he => .inr ?_
    exact List.mem_singleton.mp he ▸ ha
  intro e he
  cases h
  case lone            => exact created (List.mem_append_right _ List.mem_cons_self) e he
  case elect he' _ _   => exact created List.mem_cons_self e he
  case propose he' _   => exact created List.mem_cons_self e he
  case proposeAlone hc => exact created (List.mem_append_left _ List.mem_cons_self) e he
  case confirm hc      => exact .inl (hc.log_eq ▸ he)
  case accept hm hk _ _ hmerge hf =>
    rw [hf.log_eq] at he
    exact (hmerge.entries.left e he).imp_right fun he => .inl ⟨_, hm, by rwa [hk]⟩
  case install => cases he
  case compact =>
    rw [RaftLog.rest_compact] at he
    exact .inl (List.mem_of_mem_drop he)
  all_goals exact .inl he

theorem Call.log_entries (h : Call m k k' as) :
    ∀ e ∈ k'.log.rest, e ∈ k.log.rest ∨ m.Carries e ∨ .appendEntries [e] ∈ as := by
  cases h
  case same h  => exact h.log_entries
  case later h =>
    exact fun e he => (h.log_entries e he).imp_right <| .imp_right <| List.mem_cons_of_mem _

/-! ### Commands -/

-- The action asks another node to append a command.
def Action.isRequest : Action → Bool
  | send { kind := .clientRequest _, .. } => true
  | _                                     => false

theorem Action.IsHint.not_request {id : NodeId} (h : a.IsHint id) : ¬a.isRequest := by
  cases a
  case send msg =>
    obtain ⟨_, _, _, kind⟩ := msg
    cases kind
    case clientRequest => exact absurd h.right Bool.false_ne_true
    all_goals exact Bool.false_ne_true
  all_goals exact h.elim

theorem Replicates.not_request (h : Replicates k a) : ¬a.isRequest := by
  cases h <;> exact Bool.false_ne_true

theorem Kernel.campaignActions_not_request (k : Kernel) : ∀ a ∈ k.campaignActions, ¬a.isRequest := by
  simp only [campaignActions, List.forall_mem_cons, List.forall_mem_map]
  exact ⟨Bool.false_ne_true, fun _ _ => Bool.false_ne_true⟩

-- Only clients send requests.
theorem Move.not_request (h : Move m k k' as) : ∀ a ∈ as, ¬a.isRequest := by
  have apply_not (es : List LogEntry) : ¬(Action.apply es).isRequest := Bool.false_ne_true
  have append_not (es : List LogEntry) : ¬(Action.appendEntries es).isRequest := Bool.false_ne_true
  cases h
  case idle h         => exact fun a ha => (h a ha).not_request
  case campaign       => exact k.campaignActions_not_request
  case replicate h    => exact fun a ha => (h a ha).not_request
  case confirm ha     => exact ha.forall_mem apply_not
  case lone           =>
    exact List.forall_mem_append.mpr
      ⟨k.campaignActions_not_request, List.forall_mem_singleton.mpr (append_not _)⟩
  case elect h        =>
    exact List.forall_mem_cons.mpr ⟨append_not _, fun a ha => (h a ha).not_request⟩
  case propose h      =>
    exact List.forall_mem_cons.mpr ⟨append_not _, fun a ha => (h a ha).elim (·.not_request) (·.not_request)⟩
  case proposeAlone hh ha =>
    simp only [List.forall_mem_append, List.forall_mem_cons]
    exact ⟨⟨append_not _, ha.forall_mem apply_not⟩, fun a ha => (hh a ha).not_request⟩
  case accept merge _ _ _ _ _ hm hf =>
    have hmerge : ∀ a ∈ merge, ¬a.isRequest := by
      cases hm
      case splice => exact List.forall_mem_singleton.mpr Bool.false_ne_true
      all_goals exact fun _ ha => absurd ha List.not_mem_nil
    simp only [List.forall_mem_append, List.forall_mem_singleton]
    exact ⟨⟨hmerge, hf.forall_mem apply_not⟩, Bool.false_ne_true⟩
  all_goals simp [Action.isRequest, Kernel.message]

theorem Call.not_request (h : Call m k k' as) : ∀ a ∈ as, ¬a.isRequest := by
  cases h
  case same h  => exact h.not_request
  case later h => exact List.forall_mem_cons.mpr ⟨Bool.false_ne_true, h.not_request⟩

theorem AppendOnly.lastIndex_le {log log' : RaftLog} {T : ℕ} (h : AppendOnly T log log') (hc : log.Contiguous)
    (hc' : log'.Contiguous) : log.lastIndex ≤ log'.lastIndex := by
  obtain ⟨new, hr, _⟩ := h.entries
  have hlen := congrArg List.length hr
  rw [Consecutive.filter hc, List.length_append, List.length_drop] at hlen
  have hl := hc.lastIndex_eq
  have hl' := hc'.lastIndex_eq
  have hb := h.base_le
  omega

-- The command that a call asks the leader to append.
def Invocation.proposal : Invocation → Option Command
  | propose command                             => some command
  | step { kind := .clientRequest command, .. } => some command
  | _                                           => none

-- What the action appends to the log is a no-op.
def Action.NoopsOnly (a : Action) : Prop :=
  ∀ es, a = .appendEntries es → ∀ e ∈ es, e.command = []

namespace RaftNode

variable {node : RaftNode} {c : Invocation} {o : Outcome} {msg : Message}

theorem noopsOnly_of_isSend (h : a.isSend) : a.NoopsOnly := by
  rintro es rfl
  cases h

theorem becomeLeader_noops (node : RaftNode) : ∀ a ∈ node.becomeLeader.2, a.NoopsOnly := by
  refine List.forall_mem_cons.mpr ⟨?_, fun a ha => noopsOnly_of_isSend (broadcast_replicates _ a ha).isSend⟩
  rintro es he
  cases he
  simp [noop]

theorem startRealElection_noops (node : RaftNode) : ∀ a ∈ node.startRealElection.2, a.NoopsOnly := by
  unfold startRealElection
  dsimp only
  split
  case isTrue =>
    simp only [List.forall_mem_append, List.forall_mem_cons, List.forall_mem_map]
    exact ⟨⟨by simp [Action.NoopsOnly], fun _ _ => noopsOnly_of_isSend rfl⟩, becomeLeader_noops _⟩
  case isFalse =>
    simp only [List.forall_mem_cons, List.forall_mem_map]
    exact ⟨by simp [Action.NoopsOnly], fun _ _ => noopsOnly_of_isSend rfl⟩

theorem startPreVote_noops (node : RaftNode) : ∀ a ∈ node.startPreVote.2, a.NoopsOnly := by
  unfold startPreVote
  dsimp only
  split
  case isTrue =>
    simp only [List.forall_mem_append, List.forall_mem_map]
    exact ⟨fun _ _ => noopsOnly_of_isSend rfl, startRealElection_noops _⟩
  case isFalse =>
    simp only [List.forall_mem_map]
    exact fun _ _ => noopsOnly_of_isSend rfl

theorem tick_noops (node : RaftNode) : ∀ a ∈ node.tick.2, a.NoopsOnly := by
  unfold tick
  split
  case h_1 =>
    dsimp only
    split
    case isTrue  => exact fun a ha => noopsOnly_of_isSend (broadcast_replicates _ a ha).isSend
    case isFalse => simp
  all_goals
    dsimp only
    split
    case isTrue  => exact startPreVote_noops _
    case isFalse => simp

theorem becomeFollower_noops (node : RaftNode) (term : ℕ) (leader : Option NodeId) :
    ∀ a ∈ (node.becomeFollower term leader).2, a.NoopsOnly := by
  unfold becomeFollower
  dsimp only
  split <;> simp [Action.NoopsOnly]

theorem handleAppendEntries_noops {sender : NodeId} {term i t n : ℕ}
    (h : node.handleAppendEntries sender term i t es n = some o) : ∀ a ∈ o.2, a.NoopsOnly := by
  unfold handleAppendEntries at h
  split at h
  case isTrue =>
    cases h
    simp [Action.NoopsOnly]
  case isFalse =>
    have hdown := node.becomeFollower_noops term (some sender)
    generalize node.becomeFollower term (some sender) = follower at h hdown
    obtain ⟨follower, down⟩ := follower
    dsimp only at h hdown
    split at h
    case h_1 =>
      cases h
      exact List.forall_mem_append.mpr ⟨hdown, by simp [Action.NoopsOnly]⟩
    case h_2 =>
      split at h
      case isTrue =>
        cases h
        exact List.forall_mem_append.mpr ⟨hdown, by simp [Action.NoopsOnly]⟩
      case isFalse =>
        obtain ⟨⟨_, merge⟩, hm, h⟩ := Option.bind_eq_some_iff.mp h
        cases h
        simp only [List.forall_mem_append, List.forall_mem_singleton]
        refine ⟨⟨⟨hdown, ?_⟩, ?_⟩, noopsOnly_of_isSend rfl⟩
        · obtain ⟨_, _, hmerge⟩ := mergeEntries_merges hm
          cases hmerge <;> simp [Action.NoopsOnly]
        · exact (followLeaderCommit_follows _ n).forall_mem fun _ => by simp [Action.NoopsOnly]

theorem handlePreVoteResponse_noops (node : RaftNode) (sender : NodeId) (t : ℕ) (granted : Bool) :
    ∀ a ∈ (node.handlePreVoteResponse sender t granted).2, a.NoopsOnly := by
  unfold handlePreVoteResponse
  split
  case isTrue => simp
  case isFalse =>
    split
    case isFalse => simp
    case isTrue  =>
      dsimp only
      split
      case isTrue  => exact startRealElection_noops _
      case isFalse => simp

theorem handleRequestVoteResponse_noops (node : RaftNode) (sender : NodeId) (t : ℕ) (granted : Bool) :
    ∀ a ∈ (node.handleRequestVoteResponse sender t granted).2, a.NoopsOnly := by
  unfold handleRequestVoteResponse
  split
  case isTrue => simp
  case isFalse =>
    split
    case isFalse => simp
    case isTrue  =>
      dsimp only
      split
      case isTrue  => exact becomeLeader_noops _
      case isFalse => simp

theorem maybeAdvanceCommitIndex_noops (node : RaftNode) :
    ∀ a ∈ node.maybeAdvanceCommitIndex.2, a.NoopsOnly :=
  (maybeAdvanceCommitIndex_advances node).forall_mem fun _ => by simp [Action.NoopsOnly]

theorem handleInstallSnapshot_noops (node : RaftNode) (sender : NodeId) (term i t : ℕ) (data : Command)
    (done : Bool) : ∀ a ∈ (node.handleInstallSnapshot sender term i t data done).2, a.NoopsOnly := by
  unfold handleInstallSnapshot
  dsimp only
  have hdown := node.becomeFollower_noops term (some sender)
  split
  case isTrue => simp [Action.NoopsOnly]
  case isFalse =>
    split
    case isTrue => exact List.forall_mem_append.mpr ⟨hdown, by simp [Action.NoopsOnly]⟩
    case isFalse =>
      split <;> exact List.forall_mem_append.mpr ⟨hdown, by simp [Action.NoopsOnly]⟩

-- Only what is proposed gives the log an entry with a command.
theorem dispatch_noops (h : node.dispatch msg = some o) (hp : (Invocation.step msg).proposal = none) :
    ∀ a ∈ o.2, a.NoopsOnly := by
  unfold dispatch at h
  split at h
  case h_1 command hk =>
    obtain ⟨_, _, _, _⟩ := msg
    cases hk
    contradiction
  case h_7 => exact handleAppendEntries_noops h
  all_goals cases h
  case h_2 => simp
  case h_3 => simp [handlePreVote, Action.NoopsOnly]
  case h_4 => exact handlePreVoteResponse_noops _ _ _ _
  case h_5 =>
    unfold handleRequestVote
    dsimp only
    split <;> simp [Action.NoopsOnly]
  case h_6 => exact handleRequestVoteResponse_noops _ _ _ _
  case h_8 =>
    unfold handleAppendEntriesResponse
    split
    case isTrue => simp
    case isFalse =>
      split
      case isTrue  => exact maybeAdvanceCommitIndex_noops _
      case isFalse =>
        dsimp only
        rw [List.forall_mem_singleton]
        exact noopsOnly_of_isSend (replicateToPeer_replicates ..).isSend
  case h_9 => exact handleInstallSnapshot_noops _ _ _ _ _ _ _
  case h_10 =>
    unfold handleInstallSnapshotResponse
    split
    case isTrue  => simp
    case isFalse => exact maybeAdvanceCommitIndex_noops _

theorem propose_creates {command : Command} (ha : .appendEntries es ∈ (node.propose command).2) :
    ∀ e ∈ es, e.command = command := by
  unfold propose at ha
  dsimp only at ha
  split at ha
  case isTrue => simp at ha
  case isFalse =>
    have hsends (node : RaftNode) : .appendEntries es ∉ node.broadcastAppendEntries := fun hm =>
      Bool.false_ne_true (broadcast_replicates node _ hm).isSend
    have hcommit (node : RaftNode) : .appendEntries es ∉ node.maybeAdvanceCommitIndex.2 := fun hm =>
      (maybeAdvanceCommitIndex_advances node).forall_mem (P := (· ≠ .appendEntries es)) (by simp) _ hm rfl
    split at ha <;> simp [hsends, hcommit] at ha <;> simp [ha]

theorem kind_of_proposal {command : Command} (h : (Invocation.step msg).proposal = some command) :
    msg.kind = .clientRequest command := by
  obtain ⟨_, _, _, kind⟩ := msg
  cases kind
  case clientRequest =>
    cases h
    rfl
  all_goals contradiction

-- An entry that a call creates is a no-op, or has the command that is proposed.
theorem invoke_command (h : node.invoke c = some o) (ha : .appendEntries [e] ∈ o.2) :
    e.command = [] ∨ c.proposal = some e.command := by
  cases c
  case tick =>
    cases h
    exact .inl <| tick_noops _ _ ha _ rfl e List.mem_cons_self
  case propose command =>
    cases h
    exact .inr <| congrArg some (propose_creates ha e List.mem_cons_self).symm
  case compactLogs =>
    cases h
    unfold compactLogs at ha
    split at ha <;> simp at ha
  case step msg =>
    rcases hp : (Invocation.step msg).proposal with _ | command
    case none =>
      refine .inl ?_
      have hstep : node.step msg = some o := h
      rcases step_cases hstep with ⟨_, _, rfl⟩ | ⟨_, hd⟩ | ⟨_, _, later, hd, rfl⟩
      · simp at ha
      · exact dispatch_noops hd hp _ ha _ rfl e List.mem_cons_self
      · exact dispatch_noops hd hp _ (List.mem_of_ne_of_mem (by simp) ha) _ rfl e List.mem_cons_self
    case some =>
      have hk := kind_of_proposal hp
      simp only [invoke, step, hk, MessageKind.isPreVote, MessageKind.isClient, Bool.not_true,
        Bool.and_false, Bool.false_eq_true, if_false, dispatch] at h
      cases h
      unfold handleClientRequest at ha
      dsimp only at ha
      split at ha
      case isFalse => simp at ha
      case isTrue  =>
        have ha' : .appendEntries [e] ∈ (node.propose command).2 := by simpa using ha
        exact .inr <| congrArg some (propose_creates ha' e List.mem_cons_self).symm

end RaftNode

end RaftRupee
