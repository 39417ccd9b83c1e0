import RaftRupee.Core.Invocations

namespace RaftRupee

namespace MessageKind

def isRequest : MessageKind → Bool
  | preVote .. | requestVote .. | appendEntries .. | installSnapshot .. | clientRequest .. => true
  | _ => false

-- The kind of reply that a request asks for.
def isReplyTo : MessageKind → MessageKind → Bool
  | preVoteResponse _, preVote ..             => true
  | requestVoteResponse _, requestVote ..     => true
  | appendEntriesResponse .., appendEntries .. => true
  | installSnapshotResponse, installSnapshot .. => true
  | clientResponse .., clientRequest _        => true
  | _, _                                      => false

-- The reply to a snapshot has nothing to refuse with but its term.
def isRejection : MessageKind → Bool
  | preVoteResponse granted | requestVoteResponse granted => !granted
  | appendEntriesResponse success _ _                     => !success
  | installSnapshotResponse                               => true
  | _                                                     => false

-- The entries of a message follow the index that it names.
def Gapless : MessageKind → Prop
  | appendEntries i _ es _ => Consecutive (i + 1) es
  | _                      => True

end MessageKind

def Action.isReplyTo (request : MessageKind) : Action → Bool
  | send msg => msg.kind.isReplyTo request
  | _        => false

namespace RaftNode

variable {node : RaftNode} {msg : Message} {o : Outcome} {as : List Action}

-- The actions contain exactly one reply to the request, which is addressed to the sender of the request
-- and carries the term of the node that the call leaves behind.
def Replies (msg : Message) (o : Outcome) : Prop :=
  ∃ kind, o.2.filter (·.isReplyTo msg.kind) = [.send (o.1.message msg.sender kind)]

-- What a request of an earlier term comes to.
structure Rejects (node : RaftNode) (msg : Message) (o : Outcome) : Prop where
  rejection      : ∀ reply, .send reply ∈ o.2 → reply.kind.isReplyTo msg.kind → reply.kind.isRejection
  currentTerm_eq : o.1.currentTerm = node.currentTerm
  votedFor_eq    : o.1.votedFor = node.votedFor
  log_eq         : o.1.log = node.log
  commitIndex_eq : o.1.commitIndex = node.commitIndex
  role_eq        : o.1.role = node.role

structure Answers (node : RaftNode) (msg : Message) (o : Outcome) : Prop where
  replies : Replies msg o
  stale   : msg.kind.isClient = false → msg.term < node.currentTerm → Rejects node msg o

/-! ### The replies among the actions -/

theorem replies_append (h : Replies msg o) (ha : as.filter (·.isReplyTo msg.kind) = []) :
    Replies msg (o.1, as ++ o.2) := by
  obtain ⟨kind, hk⟩ := h
  exact ⟨kind, by rw [List.filter_append, ha, hk, List.nil_append]⟩

-- A handler that ends with its reply.
theorem replies_of_last (as : List Action) {kind : MessageKind} (h : kind.isReplyTo msg.kind)
    (ha : as.filter (·.isReplyTo msg.kind) = []) :
    Replies msg (node, as ++ [.send (node.message msg.sender kind)]) := by
  refine ⟨kind, ?_⟩
  rw [List.filter_append, ha]
  simp [Action.isReplyTo, message, h]

theorem filter_of_no_send (request : MessageKind) (h : ∀ a ∈ as, ¬a.isSend) :
    as.filter (·.isReplyTo request) = [] := by
  refine List.filter_eq_nil_iff.mpr fun a ha hr => h a ha ?_
  cases a
  case send => rfl
  all_goals contradiction

-- Once the consistency check has passed, the entries attach above the base of any log.
theorem mergeEntries_of_termAt {i t : ℕ} {es : List LogEntry} (ht : node.log.termAt i = some t)
    (he : Consecutive (i + 1) es) :
    ∃ log as, node.mergeEntries es = some ({ node with log }, as) ∧ ∀ a ∈ as, ¬a.isSend := by
  have hi : node.log.firstIndex ≤ i := by
    by_contra hlt
    simp [RaftLog.termAt, RaftLog.entryAt, not_le.mp hlt] at ht
  cases es
  case nil => exact ⟨_, _, rfl, by simp⟩
  case cons e es =>
    obtain ⟨n, _, ha, _, _⟩ := node.log.attachIndex_eq he
    unfold mergeEntries
    dsimp only
    rw [he.left, ha, if_neg (by omega)]
    split
    case isFalse => exact ⟨_, _, rfl, by simp⟩
    case isTrue  =>
      rw [RaftLog.truncateAndAppend_eq (by omega)]
      exact ⟨_, _, rfl, by simp [Action.isSend]⟩

theorem followLeaderCommit_no_send (node : RaftNode) (c : ℕ) :
    ∀ a ∈ (node.followLeaderCommit c).2, ¬a.isSend :=
  (followLeaderCommit_follows node c).forall_mem <| by simp [Action.isSend]

/-! ### The handlers of requests -/

theorem handlePreVote_replies {i t : ℕ} (hk : msg.kind = .preVote i t) :
    Replies msg (node.handlePreVote msg.sender msg.term i t) :=
  replies_of_last [] (by rw [hk]; rfl) rfl

theorem handleRequestVote_replies {i t : ℕ} (hk : msg.kind = .requestVote i t) :
    Replies msg (node.handleRequestVote msg.sender i t) := by
  unfold handleRequestVote
  dsimp only
  split
  · exact replies_of_last [_] (by rw [hk]; rfl) rfl
  · exact replies_of_last [] (by rw [hk]; rfl) rfl

theorem handleAppendEntries_replies {i t c : ℕ} {es : List LogEntry}
    (hk : msg.kind = .appendEntries i t es c) (he : Consecutive (i + 1) es) :
    ∃ o, node.handleAppendEntries msg.sender msg.term i t es c = some o ∧ Replies msg o := by
  have hreply {s : Bool} {ct ci : Option ℕ} :
      (MessageKind.appendEntriesResponse s ct ci).isReplyTo msg.kind := by
    rw [hk]
    rfl
  unfold handleAppendEntries
  split
  case isTrue  => exact ⟨_, rfl, replies_of_last [] hreply rfl⟩
  case isFalse =>
    have hdown := node.becomeFollower_no_send msg.term (some msg.sender)
    generalize node.becomeFollower msg.term (some msg.sender) = down at hdown
    obtain ⟨down, as⟩ := down
    dsimp only at hdown ⊢
    split
    case h_1 => exact ⟨_, rfl, replies_of_last _ hreply (filter_of_no_send _ hdown)⟩
    case h_2 ht =>
      split
      case isTrue  => exact ⟨_, rfl, replies_of_last _ hreply (filter_of_no_send _ hdown)⟩
      case isFalse =>
        obtain ⟨log, merge, hm, hno⟩ := mergeEntries_of_termAt ht he
        have hcommit := followLeaderCommit_no_send { down with log } c
        refine ⟨_, by rw [hm]; rfl, replies_of_last _ hreply <| filter_of_no_send _ ?_⟩
        exact List.forall_mem_append.mpr ⟨List.forall_mem_append.mpr ⟨hdown, hno⟩, hcommit⟩

theorem handleInstallSnapshot_replies {i t offset : ℕ} {data : Command} {done : Bool}
    (hk : msg.kind = .installSnapshot i t offset data done) :
    Replies msg (node.handleInstallSnapshot msg.sender msg.term i t data done) := by
  have hreply : MessageKind.installSnapshotResponse.isReplyTo msg.kind := by
    rw [hk]
    rfl
  unfold handleInstallSnapshot
  split
  case isTrue  => exact replies_of_last [] hreply rfl
  case isFalse =>
    have hdown := filter_of_no_send msg.kind <|
      node.becomeFollower_no_send msg.term (some msg.sender)
    generalize node.becomeFollower msg.term (some msg.sender) = down at hdown
    dsimp only
    split
    case isTrue  => exact replies_of_last _ hreply hdown
    case isFalse =>
      split
      case isFalse => exact replies_of_last _ hreply hdown
      case isTrue  => exact replies_append (replies_of_last [_] hreply rfl) hdown

-- A proposal is sent to the peers and to nobody else.
theorem propose_no_reply (node : RaftNode) (command command' : Command) :
    ((node.propose command).2.filter (·.isReplyTo (.clientRequest command'))) = [] := by
  refine List.filter_eq_nil_iff.mpr ?_
  unfold propose
  split
  case isTrue  => simp
  case isFalse =>
    dsimp only
    generalize node.log.append [⟨node.log.lastIndex + 1, node.currentTerm, command⟩] = log
    have hsends : ∀ a ∈ broadcastAppendEntries { node with log },
        ¬a.isReplyTo (.clientRequest command') := by
      intro a ha
      cases broadcast_replicates { node with log } a ha <;> simp [Action.isReplyTo, Kernel.message,
        MessageKind.isReplyTo]
    split
    case isFalse => exact List.forall_mem_cons.mpr ⟨by simp [Action.isReplyTo], hsends⟩
    case isTrue  =>
      refine List.forall_mem_append.mpr ⟨List.forall_mem_cons.mpr ⟨by simp [Action.isReplyTo], hsends⟩, ?_⟩
      exact (maybeAdvanceCommitIndex_advances { node with log }).forall_mem <| by simp [Action.isReplyTo]

theorem handleClientRequest_replies {command : Command} (hk : msg.kind = .clientRequest command) :
    Replies msg (node.handleClientRequest msg.sender command) := by
  have hreply {s : Bool} {hint : Option NodeId} :
      (MessageKind.clientResponse s hint).isReplyTo msg.kind := by
    rw [hk]
    rfl
  unfold handleClientRequest
  split
  case isFalse => exact replies_of_last [] hreply rfl
  case isTrue  =>
    have hno := node.propose_no_reply command command
    rw [← hk] at hno
    exact replies_of_last _ hreply hno

theorem dispatch_replies (node : RaftNode) (hr : msg.kind.isRequest) (hg : msg.kind.Gapless) :
    ∃ o, node.dispatch msg = some o ∧ Replies msg o := by
  unfold dispatch
  split
  case h_1 hk  => exact ⟨_, rfl, handleClientRequest_replies hk⟩
  case h_3 hk  => exact ⟨_, rfl, handlePreVote_replies hk⟩
  case h_5 hk  => exact ⟨_, rfl, handleRequestVote_replies hk⟩
  case h_7 hk  => exact handleAppendEntries_replies hk (by rwa [hk] at hg)
  case h_9 hk  => exact ⟨_, rfl, handleInstallSnapshot_replies hk⟩
  all_goals simp_all [MessageKind.isRequest]

/-! ### Which requests are answered -/

theorem step_replies (hr : msg.kind.isRequest) (hg : msg.kind.Gapless)
    (h : msg.kind.isPreVote ∨ msg.kind.isClient ∨ node.currentTerm ≤ msg.term) :
    ∃ o, node.step msg = some o ∧ Replies msg o := by
  unfold step
  dsimp only
  split
  case isFalse hlater =>
    rw [if_neg]
    · obtain ⟨o, hd, ho⟩ := node.dispatch_replies hr hg
      exact ⟨_, by rw [hd]; rfl, ho⟩
    · rintro hstale
      simp only [Bool.and_eq_true, decide_eq_true_eq, Bool.not_eq_true'] at hstale
      simp [hstale.right] at h
      omega
  case isTrue =>
    have hdown := filter_of_no_send msg.kind <| node.becomeFollower_no_send msg.term none
    have hterm := node.becomeFollower_currentTerm msg.term none
    generalize node.becomeFollower msg.term none = down at hdown hterm
    rw [if_neg (by simp [hterm])]
    obtain ⟨o, hd, ho⟩ := down.1.dispatch_replies hr hg
    exact ⟨_, by rw [hd]; rfl, replies_append ho hdown⟩

-- A pre-vote in an earlier term is refused, and no pre-vote changes the node.
theorem handlePreVote_rejects {i t : ℕ} (ht : msg.term < node.currentTerm) :
    Rejects node msg (node.handlePreVote msg.sender msg.term i t) where
  rejection reply hm _ := by
    simp only [handlePreVote, List.mem_singleton, Action.send.injEq] at hm
    simp [hm, message, MessageKind.isRejection, not_le.mpr ht]
  currentTerm_eq := rfl
  votedFor_eq    := rfl
  log_eq         := rfl
  commitIndex_eq := rfl
  role_eq        := rfl

-- The branches of the handlers that would reply to a request of an earlier term are never reached: a
-- request is answered if and only if it passes by the term gate or is not of an earlier term.
theorem step_answers_iff (node : RaftNode) (msg : Message) (hr : msg.kind.isRequest)
    (hg : msg.kind.Gapless) : (∃ o, node.step msg = some o ∧ Answers node msg o) ↔
      msg.kind.isPreVote ∨ msg.kind.isClient ∨ node.currentTerm ≤ msg.term := by
  constructor
  case mp =>
    rintro ⟨o, ho, ⟨_, hkind⟩, _⟩
    by_contra h
    simp only [not_or, Bool.not_eq_true, not_le] at h
    rw [step_of_stale h.left h.right.left h.right.right, Option.some.injEq] at ho
    simp [← ho] at hkind
  case mpr =>
    intro h
    obtain ⟨o, ho, hreplies⟩ := step_replies hr hg h
    refine ⟨o, ho, hreplies, fun hc ht => ?_⟩
    have hp : msg.kind.isPreVote := by simpa [hc, not_le.mpr ht] using h
    rw [step_of_isPreVote hp, dispatch] at ho
    cases hk : msg.kind <;> simp only [hk, MessageKind.isPreVote, Bool.false_eq_true] at hp
    case preVote =>
      simp only [hk, Option.some.injEq] at ho
      exact ho ▸ handlePreVote_rejects ht
    case preVoteResponse => simp [hk, MessageKind.isRequest] at hr

-- A member that has started again from its disk, in term 2.
def rejoined : RaftNode :=
  .restore {
    id                     := 1
    peers                  := [2, 3]
    electionTimeoutTicks   := 2
    heartbeatIntervalTicks := 1
    rngSeed                := { draws := fun _ => 0 }
    heartbeat_lt           := Nat.one_lt_two } 2 (some 2) .new 0 0

-- It answers a heartbeat of its term.
theorem step_answers_iff_heartbeat :
    ∃ o, rejoined.step ⟨2, 1, 2, .appendEntries 0 0 [] 0⟩ = some o ∧
      Answers rejoined ⟨2, 1, 2, .appendEntries 0 0 [] 0⟩ o :=
  (step_answers_iff rejoined ⟨2, 1, 2, .appendEntries 0 0 [] 0⟩ rfl trivial).mpr (by decide)

-- A candidate of term 1 hears nothing from it.
theorem not_step_answers : rejoined.step ⟨3, 1, 1, .requestVote 0 0⟩ = some (rejoined, []) ∧
    ¬∃ o, rejoined.step ⟨3, 1, 1, .requestVote 0 0⟩ = some o ∧
      Answers rejoined ⟨3, 1, 1, .requestVote 0 0⟩ o := by
  refine ⟨rfl, ?_⟩
  rintro ⟨o, ho, ⟨_, hkind⟩, _⟩
  cases ho
  contradiction

end RaftNode
end RaftRupee
