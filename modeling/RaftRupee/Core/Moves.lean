import RaftRupee.Core.Node

namespace RaftRupee

-- The part of a node's memory that safety depends on, which leaves out timers, pre-votes and probing.
@[ext]
structure Kernel where
  id            : NodeId
  peers         : List NodeId
  currentTerm   : ℕ
  votedFor      : Option NodeId
  log           : RaftLog
  commitIndex   : ℕ
  lastApplied   : ℕ
  role          : Role
  matchIndex    : NodeId → Option ℕ
  votesReceived : Finset NodeId

def RaftNode.kernel (node : RaftNode) : Kernel where
  id            := node.id
  peers         := node.peers
  currentTerm   := node.currentTerm
  votedFor      := node.votedFor
  log           := node.log
  commitIndex   := node.commitIndex
  lastApplied   := node.lastApplied
  role          := node.role
  matchIndex    := node.matchIndex
  votesReceived := node.votesReceived

-- Messages that carry neither a vote, nor entries, nor an acknowledgement.
def MessageKind.isHint : MessageKind → Bool
  | requestVoteResponse granted       => !granted
  | appendEntriesResponse success _ _ => !success
  | preVote .. | preVoteResponse .. | clientResponse .. => true
  | _                                 => false

-- Sending a hint as node `id`.
def Action.IsHint (id : NodeId) : Action → Prop
  | send msg => msg.sender = id ∧ msg.kind.isHint
  | _        => False

def Action.isSend : Action → Bool
  | send _ => true
  | _      => false

theorem Action.IsHint.isSend {id : NodeId} {a : Action} (h : a.IsHint id) : a.isSend := by
  cases a
  case send => rfl
  all_goals exact h.elim

namespace Kernel

variable (k : Kernel)

def message (receiver : NodeId) (kind : MessageKind) : Message where
  sender   := k.id
  receiver := receiver
  term     := k.currentTerm
  kind     := kind

def majority : ℕ :=
  (k.peers.length + 1) / 2 + 1

def replicaCount (n : ℕ) : ℕ :=
  1 + k.peers.countP fun peer => (k.matchIndex peer).getD 0 ≥ n

def noop : LogEntry where
  index   := k.log.lastIndex + 1
  term    := k.currentTerm
  command := []

def campaign : Kernel :=
  { k with
    currentTerm   := k.currentTerm + 1
    role          := .candidate
    votedFor      := some k.id
    votesReceived := {k.id} }

def campaignActions : List Action :=
  .persistHardState (k.currentTerm + 1) (some k.id) :: k.peers.map fun peer =>
    .send <| k.campaign.message peer <| .requestVote k.log.lastIndex k.log.lastTerm

def lead : Kernel :=
  { k with
    role       := .leader
    matchIndex := fun peer => if peer ∈ k.peers then some 0 else none
    log        := k.log.append [k.noop] }

end Kernel

/-! ### What a call can do -/

-- What makes a node act.
inductive Cause
  | tick
  | propose
  | compactLogs (index : ℕ) (term : ℕ)
  | handle (msg : Message)

-- What a leader sends to a peer whose `next_index` is `next`.
inductive Replicates (k : Kernel) : Action → Prop
  | snapshot {peer : NodeId} {snap : SnapshotMeta} :
    k.log.snapshotMeta.getD { lastIncludedIndex := 0, lastIncludedTerm := 0 } = snap →
    Replicates k (.send (k.message peer (.installSnapshot snap.lastIncludedIndex
      snap.lastIncludedTerm 0 RaftNode.simulatedSnapshot true)))
  | entries {peer : NodeId} {next : ℕ} :
    k.log.firstIndex < next →
    Replicates k (.send (k.message peer (.appendEntries (next - 1)
      ((k.log.termAt (next - 1)).getD 0) (k.log.entriesFrom next) k.commitIndex)))

theorem Replicates.isSend {k : Kernel} {a : Action} (h : Replicates k a) : a.isSend := by
  cases h <;> rfl

inductive Applies (k : Kernel) : Kernel → List Action → Prop
  | none :
    k.commitIndex ≤ k.lastApplied ∨
      (k.log.entriesFrom (k.lastApplied + 1)).takeWhile (·.index ≤ k.commitIndex) = [] →
    Applies k k []
  | some {es : List LogEntry} {last : LogEntry} :
    k.lastApplied < k.commitIndex →
    (k.log.entriesFrom (k.lastApplied + 1)).takeWhile (·.index ≤ k.commitIndex) = es →
    es.getLast? = some last → Applies k { k with lastApplied := last.index } [.apply es]

theorem Applies.eq {k k' : Kernel} {as : List Action} (h : Applies k k' as) :
    k' = { k with lastApplied := k'.lastApplied } := by
  cases h <;> rfl

theorem Applies.forall_mem {k k' : Kernel} {as : List Action} {P : Action → Prop}
    (h : Applies k k' as) (hp : ∀ es, P (.apply es)) : ∀ a ∈ as, P a := by
  cases h <;> simp [hp]

inductive Advances (k : Kernel) : Kernel → List Action → Prop
  | none : Advances k k []
  | some {n : ℕ} {k' : Kernel} {as : List Action} :
    k.commitIndex < n → n ≤ k.log.lastIndex → k.log.termAt n = some k.currentTerm →
    k.majority ≤ k.replicaCount n → Applies { k with commitIndex := n } k' as → Advances k k' as

theorem Advances.eq {k k' : Kernel} {as : List Action} (h : Advances k k' as) :
    k' = { k with commitIndex := k'.commitIndex, lastApplied := k'.lastApplied } := by
  cases h
  case none    => rfl
  case some ha => rw [ha.eq]

theorem Advances.forall_mem {k k' : Kernel} {as : List Action} {P : Action → Prop}
    (h : Advances k k' as) (hp : ∀ es, P (.apply es)) : ∀ a ∈ as, P a := by
  cases h
  case none    => simp
  case some ha => exact ha.forall_mem hp

theorem Advances.log_eq {k k' : Kernel} {as : List Action} (h : Advances k k' as) :
    k'.log = k.log := by
  rw [h.eq]

theorem Advances.role_eq {k k' : Kernel} {as : List Action} (h : Advances k k' as) :
    k'.role = k.role := by
  rw [h.eq]

theorem Advances.currentTerm_eq {k k' : Kernel} {as : List Action} (h : Advances k k' as) :
    k'.currentTerm = k.currentTerm := by
  rw [h.eq]

theorem Advances.commitIndex_le {k k' : Kernel} {as : List Action} (h : Advances k k' as) :
    k.commitIndex ≤ k'.commitIndex := by
  cases h
  case none => exact le_rfl
  case some h _ _ _ ha =>
    rw [ha.eq]
    exact h.le

theorem Advances.of_lt {k k' : Kernel} {as : List Action} (h : Advances k k' as)
    (hc : k.commitIndex < k'.commitIndex) : k'.commitIndex ≤ k.log.lastIndex ∧
      k.log.termAt k'.commitIndex = .some k.currentTerm ∧ k.majority ≤ k.replicaCount k'.commitIndex := by
  cases h
  case none => exact absurd hc (lt_irrefl _)
  case some hl ht hq ha =>
    rw [ha.eq]
    exact ⟨hl, ht, hq⟩

inductive Follows (k : Kernel) (leaderCommit : ℕ) : Kernel → List Action → Prop
  | none : Follows k leaderCommit k []
  | some {k' : Kernel} {as : List Action} :
    k.commitIndex < min leaderCommit k.log.lastIndex →
    Applies { k with commitIndex := min leaderCommit k.log.lastIndex } k' as →
    Follows k leaderCommit k' as

theorem Follows.eq {k k' : Kernel} {c : ℕ} {as : List Action} (h : Follows k c k' as) :
    k' = { k with commitIndex := k'.commitIndex, lastApplied := k'.lastApplied } := by
  cases h
  case none    => rfl
  case some ha => rw [ha.eq]

theorem Follows.forall_mem {k k' : Kernel} {c : ℕ} {as : List Action} {P : Action → Prop}
    (h : Follows k c k' as) (hp : ∀ es, P (.apply es)) : ∀ a ∈ as, P a := by
  cases h
  case none    => simp
  case some ha => exact ha.forall_mem hp

theorem Follows.log_eq {k k' : Kernel} {c : ℕ} {as : List Action} (h : Follows k c k' as) :
    k'.log = k.log := by
  rw [h.eq]

theorem Follows.role_eq {k k' : Kernel} {c : ℕ} {as : List Action} (h : Follows k c k' as) :
    k'.role = k.role := by
  rw [h.eq]

theorem Follows.commitIndex_le {k k' : Kernel} {c : ℕ} {as : List Action} (h : Follows k c k' as) :
    k.commitIndex ≤ k'.commitIndex := by
  cases h
  case none => exact le_rfl
  case some h ha =>
    rw [ha.eq]
    exact h.le

inductive Merges (log : RaftLog) : List LogEntry → RaftLog → List Action → Prop
  | nil : Merges log [] log []
  | keep {e : LogEntry} {es : List LogEntry} :
    e.index + (e :: es).length ≤ log.attachIndex e.index (e :: es) → Merges log (e :: es) log []
  | splice {e : LogEntry} {es suffix : List LogEntry} {log' : RaftLog} {attach offset : ℕ} :
    log.attachIndex e.index (e :: es) = attach → attach = e.index + offset →
    offset < (e :: es).length → (e :: es).drop offset = suffix →
    log.truncateAndAppend attach suffix = some log' →
    Merges log (e :: es) log' [.truncateAndAppend attach suffix]

-- What a call can do to the kernel, with the actions that it returns, once the term is settled.
inductive Move (m : Cause) (k : Kernel) : Kernel → List Action → Prop
  | idle {role : Role} {as : List Action} :
    role = k.role ∨ role = .follower ∨ role = .preCandidate → (∀ a ∈ as, a.IsHint k.id) →
    Move m k { k with role } as
  -- A timer or the reply to a pre-vote starts an election.
  | campaign :
    (∀ msg, m = .handle msg → msg.kind.isPreVote) → k.role ≠ .leader → k.peers ≠ [] →
    Move m k k.campaign k.campaignActions
  | lone :
    (∀ msg, m = .handle msg → msg.kind.isPreVote) → k.role ≠ .leader → k.peers = [] →
    Move m k k.campaign.lead (k.campaignActions ++ [.appendEntries [k.campaign.noop]])
  | vote {msg : Message} {i t : ℕ} :
    m = .handle msg → msg.kind = .requestVote i t → msg.term = k.currentTerm →
    k.votedFor = none ∨ k.votedFor = some msg.sender →
    k.log.lastTerm < t ∨ k.log.lastTerm = t ∧ k.log.lastIndex ≤ i →
    Move m k { k with votedFor := some msg.sender }
      [.persistHardState k.currentTerm (some msg.sender),
        .send <| k.message msg.sender <| .requestVoteResponse true]
  | collect {msg : Message} :
    m = .handle msg → msg.kind = .requestVoteResponse true → msg.term = k.currentTerm →
    k.role = .candidate → Move m k { k with votesReceived := insert msg.sender k.votesReceived } []
  | elect {msg : Message} {k' : Kernel} {sends : List Action} :
    m = .handle msg → msg.kind = .requestVoteResponse true → msg.term = k.currentTerm →
    k.role = .candidate → { k with votesReceived := insert msg.sender k.votesReceived } = k' →
    k'.majority ≤ k'.votesReceived.card → (∀ a ∈ sends, Replicates k'.lead a) →
    Move m k k'.lead (.appendEntries [k'.noop] :: sends)
  | replicate {sends : List Action} :
    k.role = .leader → (∀ a ∈ sends, Replicates k a) → Move m k k sends
  | propose {e : LogEntry} {k' : Kernel} {sends : List Action} :
    k.role = .leader → k.peers ≠ [] → e.index = k.log.lastIndex + 1 → e.term = k.currentTerm →
    { k with log := k.log.append [e] } = k' →
    (∀ a ∈ sends, Replicates k' a ∨ a.IsHint k.id) →
    Move m k k' (.appendEntries [e] :: sends)
  | proposeAlone {e : LogEntry} {k' : Kernel} {commit sends : List Action} :
    k.role = .leader → k.peers = [] → e.index = k.log.lastIndex + 1 → e.term = k.currentTerm →
    Advances { k with log := k.log.append [e] } k' commit → (∀ a ∈ sends, a.IsHint k.id) →
    Move m k k' (.appendEntries [e] :: commit ++ sends)
  -- A success reply, and the reply to a snapshot.
  | confirm {msg : Message} {n : ℕ} {k' : Kernel} {as : List Action} :
    m = .handle msg → msg.term = k.currentTerm → k.role = .leader →
    (∃ t i, msg.kind = .appendEntriesResponse true t i) ∧ n = k.log.lastIndex ∨
      msg.kind = .installSnapshotResponse ∧ n = k.log.firstIndex →
    Advances { k with matchIndex := Function.update k.matchIndex msg.sender (some n) } k' as →
    Move m k k' as
  | accept {msg : Message} {i t c : ℕ} {es : List LogEntry} {log : RaftLog} {k' : Kernel}
      {merge commit : List Action} :
    m = .handle msg → msg.kind = .appendEntries i t es c → msg.term = k.currentTerm →
    k.log.termAt i = some t → Merges k.log es log merge →
    Follows { k with role := .follower, log } c k' commit →
    Move m k k' (merge ++ commit ++
      [.send <| k.message msg.sender <| .appendEntriesResponse true none none])
  | skip {msg : Message} {i t o : ℕ} {data : Command} {done : Bool} :
    m = .handle msg → msg.kind = .installSnapshot i t o data done → msg.term = k.currentTerm →
    i ≤ k.commitIndex ∨ done = false →
    Move m k { k with role := .follower }
      [.send <| k.message msg.sender .installSnapshotResponse]
  | install {msg : Message} {i t o : ℕ} {data : Command} :
    m = .handle msg → msg.kind = .installSnapshot i t o data true → msg.term = k.currentTerm →
    k.commitIndex < i →
    Move m k { k with
        role        := .follower
        log         := k.log.installSnapshot { lastIncludedIndex := i, lastIncludedTerm := t }
        commitIndex := i
        lastApplied := i }
      [.persistSnapshot i t data, .send <| k.message msg.sender .installSnapshotResponse]
  | compact {i t : ℕ} {data : Command} :
    m = .compactLogs i t → i ≤ k.commitIndex →
    Move m k { k with log := k.log.compact i t } [.persistSnapshot i t data]

theorem Move.id_eq {m : Cause} {k k' : Kernel} {as : List Action} (h : Move m k k' as) :
    k'.id = k.id ∧ k'.peers = k.peers := by
  cases h
  case elect he _ _     => simp [Kernel.lead, ← he]
  case propose he _     => simp [← he]
  case proposeAlone h   => rw [h.eq]; simp
  case confirm h        => rw [h.eq]; simp
  case accept h         => rw [h.eq]; simp
  all_goals simp [Kernel.lead, Kernel.campaign]

def Kernel.bump (k : Kernel) (term : ℕ) : Kernel :=
  { k with currentTerm := term, role := .follower, votedFor := none }

-- A call that handles a message of a later term goes to that term first.
inductive Call (m : Cause) (k : Kernel) : Kernel → List Action → Prop
  | same {k' : Kernel} {as : List Action} : Move m k k' as → Call m k k' as
  | later {msg : Message} {k' : Kernel} {as : List Action} :
    m = .handle msg → msg.kind.isPreVote = false → k.currentTerm < msg.term →
    Move m (k.bump msg.term) k' as →
    Call m k k' (.persistHardState msg.term none :: as)

/-! ### What a call emits -/

-- What only a leader sends.
def MessageKind.fromLeader : MessageKind → Bool
  | appendEntries .. | installSnapshot .. => true
  | _                                     => false

-- A snapshot comes from a compaction, or from a leader that is ahead of the node.
inductive Cause.Snapshots (m : Cause) (k : Kernel) (i t : ℕ) (data : Command) : Prop
  | compact : m = .compactLogs i t → i ≤ k.commitIndex → Snapshots m k i t data
  | install {msg : Message} {o : ℕ} :
    m = .handle msg → msg.kind = .installSnapshot i t o data true → k.commitIndex < i →
    Snapshots m k i t data

-- The actions of a call that leads from `k` to `k'`, one by one.
inductive Emits (m : Cause) (k k' : Kernel) : Action → Prop
  | hint {a : Action} : a.IsHint k.id → Emits m k k' a
  | send {k₀ : Kernel} {receiver : NodeId} {kind : MessageKind} :
    ¬kind.fromLeader → Emits m k k' (.send (k₀.message receiver kind))
  | replicate {a : Action} : k'.role = .leader → Replicates k' a → Emits m k k' a
  | snapshot {i t : ℕ} {data : Command} :
    m.Snapshots k i t data → Emits m k k' (.persistSnapshot i t data)
  | other {a : Action} : ¬a.isSend → (∀ i t data, a ≠ .persistSnapshot i t data) → Emits m k k' a

section

variable {m : Cause} {k k' : Kernel} {as : List Action}

theorem Kernel.campaignActions_emits (k : Kernel) : ∀ a ∈ k.campaignActions, Emits m k k' a := by
  simp only [campaignActions, List.forall_mem_cons, List.forall_mem_map]
  exact ⟨.other Bool.false_ne_true (by simp), fun _ _ => .send Bool.false_ne_true⟩

theorem Move.emits (h : Move m k k' as) : ∀ a ∈ as, Emits m k k' a := by
  have apply_emits (es : List LogEntry) : Emits m k k' (.apply es) := .other Bool.false_ne_true (by simp)
  have append_emits (es : List LogEntry) : Emits m k k' (.appendEntries es) :=
    .other Bool.false_ne_true (by simp)
  cases h
  case idle h             => exact fun a ha => .hint (h a ha)
  case campaign           => exact Kernel.campaignActions_emits k
  case collect            => exact fun _ ha => absurd ha List.not_mem_nil
  case replicate hr h     => exact fun a ha => .replicate hr (h a ha)
  case confirm ha         => exact ha.forall_mem apply_emits
  case compact hm hi      => exact List.forall_mem_singleton.mpr <| .snapshot (.compact hm hi)
  case skip               => exact List.forall_mem_singleton.mpr <| .send Bool.false_ne_true
  case lone               =>
    exact List.forall_mem_append.mpr
      ⟨Kernel.campaignActions_emits k, List.forall_mem_singleton.mpr (append_emits _)⟩
  case vote               =>
    simp only [List.forall_mem_cons]
    exact ⟨.other Bool.false_ne_true (by simp), .send Bool.false_ne_true, by simp⟩
  case install hm hk _ hi =>
    simp only [List.forall_mem_cons]
    exact ⟨.snapshot (.install hm hk hi), .send Bool.false_ne_true, by simp⟩
  case elect h            =>
    exact List.forall_mem_cons.mpr ⟨append_emits _, fun a ha => .replicate rfl (h a ha)⟩
  case propose hr _ _ _ he h =>
    refine List.forall_mem_cons.mpr ⟨append_emits _, fun a ha => ?_⟩
    exact (h a ha).elim (.replicate (he ▸ hr)) .hint
  case proposeAlone hh ha =>
    simp only [List.forall_mem_append, List.forall_mem_cons]
    exact ⟨⟨append_emits _, ha.forall_mem apply_emits⟩, fun a ha => .hint (hh a ha)⟩
  case accept merge _ _ _ _ _ hm hf =>
    have hmerge : ∀ a ∈ merge, Emits m k k' a := by
      cases hm
      case splice => exact List.forall_mem_singleton.mpr <| .other Bool.false_ne_true (by simp)
      all_goals exact fun _ ha => absurd ha List.not_mem_nil
    simp only [List.forall_mem_append, List.forall_mem_singleton]
    exact ⟨⟨hmerge, hf.forall_mem apply_emits⟩, .send Bool.false_ne_true⟩

theorem Call.emits (h : Call m k k' as) : ∀ a ∈ as, Emits m k k' a := by
  cases h
  case same h  => exact h.emits
  case later h =>
    refine List.forall_mem_cons.mpr ⟨.other Bool.false_ne_true (by simp), fun a ha => ?_⟩
    cases h.emits a ha
    case hint h         => exact .hint h
    case send h         => exact .send h
    case replicate hr h => exact .replicate hr h
    case other h h'     => exact .other h h'
    case snapshot h     =>
      cases h
      case compact hm hi    => exact .snapshot (.compact hm hi)
      case install hm hk hi => exact .snapshot (.install hm hk hi)

theorem Call.snapshots {i t : ℕ} {data : Command} (h : Call m k k' as) (ha : .persistSnapshot i t data ∈ as) :
    m.Snapshots k i t data := by
  cases h.emits _ ha
  case hint h        => exact h.elim
  case replicate _ h => cases h
  case snapshot h    => exact h
  case other _ h     => exact absurd rfl (h i t data)

end

end RaftRupee
