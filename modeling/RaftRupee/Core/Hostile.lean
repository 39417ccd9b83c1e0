import Mathlib.Data.List.TakeWhile
import RaftRupee.Core.Invocations

namespace RaftRupee

-- `u64::MAX`. A step of `Term::next`, of `LogIndex::next` or of `commit_index.0 + 1` from there on
-- overflows.
def maxU64 : ℕ :=
  0xffffffffffffffff

/-! ### The terms and indices whose successor a call takes -/

def RaftLog.attachSuccs (log : RaftLog) : List LogEntry → List ℕ
  | []      => []
  | e :: es => if log.termAt e.index = some e.term then e.index :: log.attachSuccs es else []

namespace RaftNode

def applySuccs (node : RaftNode) : List ℕ :=
  if node.commitIndex > node.lastApplied then [node.lastApplied] else []

def advanceSuccs (node : RaftNode) : List ℕ :=
  node.commitIndex :: if node.newCommit > node.commitIndex then
    applySuccs { node with commitIndex := node.newCommit }
  else
    []

def leaderSuccs (node : RaftNode) : List ℕ :=
  [node.log.lastIndex]

def electionSuccs (node : RaftNode) : List ℕ :=
  node.currentTerm :: if node.peers.isEmpty then node.leaderSuccs else []

def preVoteSuccs (node : RaftNode) : List ℕ :=
  node.currentTerm :: if node.peers.isEmpty then node.electionSuccs else []

def tickSuccs (node : RaftNode) : List ℕ :=
  match node.role with
  | .leader => []
  | .follower | .candidate | .preCandidate =>
    if node.electionElapsed + 1 ≥ node.electionTimeout then node.preVoteSuccs else []

def clientRequestSuccs (node : RaftNode) (command : Command) : List ℕ :=
  if node.role ≠ .leader then
    []
  else
    let entry : LogEntry :=
      { index := node.log.lastIndex + 1, term := node.currentTerm, command := command }
    node.log.lastIndex :: if node.peers.isEmpty then
      advanceSuccs { node with log := node.log.append [entry] }
    else
      []

def preVoteResponseSuccs (node : RaftNode) (sender : NodeId) (term : ℕ) (granted : Bool) : List ℕ :=
  if node.role = .preCandidate ∧ term = node.currentTerm ∧ granted ∧
      (insert sender node.preVotesReceived).card ≥ node.majority then
    node.electionSuccs
  else
    []

def requestVoteResponseSuccs (node : RaftNode) (sender : NodeId) (term : ℕ) (granted : Bool) :
    List ℕ :=
  if node.role = .candidate ∧ term = node.currentTerm ∧ granted ∧
      (insert sender node.votesReceived).card ≥ node.majority then
    node.leaderSuccs
  else
    []

def followSuccs (node : RaftNode) (leaderCommit : ℕ) : List ℕ :=
  let newCommit := min leaderCommit node.log.lastIndex
  if leaderCommit > node.commitIndex ∧ newCommit > node.commitIndex then
    applySuccs { node with commitIndex := newCommit }
  else
    []

def appendEntriesSuccs (node : RaftNode) (term prevLogIndex prevLogTerm : ℕ)
    (entries : List LogEntry) (leaderCommit : ℕ) : List ℕ :=
  if term < node.currentTerm then
    []
  else
    match node.log.termAt prevLogIndex with
    | none   => [node.log.lastIndex]
    | some t =>
      if t ≠ prevLogTerm then
        []
      else
        node.log.attachSuccs entries ++
          ((node.mergeEntries entries).map (·.1.followSuccs leaderCommit)).getD []

def appendEntriesResponseSuccs (node : RaftNode) (sender : NodeId) (term : ℕ) (success : Bool)
    (conflictTerm : Option ℕ) : List ℕ :=
  if node.role ≠ .leader ∨ term ≠ node.currentTerm then
    []
  else if success then
    node.log.lastIndex :: advanceSuccs { node with
      matchIndex := Function.update node.matchIndex sender (some node.log.lastIndex) }
  else
    (conflictTerm.bind node.log.lastIndexOfTerm).toList

def installSnapshotResponseSuccs (node : RaftNode) (sender : NodeId) (term : ℕ) : List ℕ :=
  if node.role ≠ .leader ∨ term ≠ node.currentTerm then
    []
  else
    node.log.firstIndex :: advanceSuccs { node with
      matchIndex := Function.update node.matchIndex sender (some node.log.firstIndex) }

def dispatchSuccs (node : RaftNode) (msg : Message) : List ℕ :=
  match msg.kind with
  | .clientRequest command        => node.clientRequestSuccs command
  | .preVoteResponse g            => node.preVoteResponseSuccs msg.sender msg.term g
  | .requestVoteResponse g        => node.requestVoteResponseSuccs msg.sender msg.term g
  | .appendEntries i t es c       => node.appendEntriesSuccs msg.term i t es c
  | .appendEntriesResponse s t _  => node.appendEntriesResponseSuccs msg.sender msg.term s t
  | .installSnapshotResponse      => node.installSnapshotResponseSuccs msg.sender msg.term
  | .clientResponse .. | .preVote .. | .requestVote .. | .installSnapshot .. => []

def stepSuccs (node : RaftNode) (msg : Message) : List ℕ :=
  let gated := !msg.kind.isPreVote && !msg.kind.isClient
  let node := if msg.term > node.currentTerm && gated then (node.becomeFollower msg.term none).1 else node
  if msg.term < node.currentTerm && gated then [] else node.dispatchSuccs msg

-- A message is handled without a panic and leaves the log contiguous, and neither the call nor a tick
-- that follows it overflows, whether or not that tick finds the election timer run out.
def Withstands (node : RaftNode) (msg : Message) : Prop :=
  ∃ o, node.step msg = some o ∧ o.1.log.Contiguous ∧ (∀ n ∈ node.stepSuccs msg, n < maxU64) ∧
    ∀ elapsed timeout, ∀ n ∈ tickSuccs { o.1 with
      electionElapsed := elapsed, electionTimeout := timeout }, n < maxU64

end RaftNode

/-! ### What a message must be like -/

-- What can be deserialised: every number is a `u64`.
def LogEntry.Fits (e : LogEntry) : Prop :=
  e.index ≤ maxU64 ∧ e.term ≤ maxU64

def MessageKind.Fits : MessageKind → Prop
  | requestVote i t | preVote i t   => i ≤ maxU64 ∧ t ≤ maxU64
  | appendEntries i t es c          => i ≤ maxU64 ∧ t ≤ maxU64 ∧ (∀ e ∈ es, e.Fits) ∧ c ≤ maxU64
  | appendEntriesResponse _ t i     => (∀ n ∈ t, n ≤ maxU64) ∧ ∀ n ∈ i, n ≤ maxU64
  | installSnapshot i t offset _ _  => i ≤ maxU64 ∧ t ≤ maxU64 ∧ offset ≤ maxU64
  | clientResponse _ hint           => ∀ n ∈ hint, n ≤ maxU64
  | requestVoteResponse _ | preVoteResponse _ | installSnapshotResponse | clientRequest _ => True

structure Message.Fits (msg : Message) : Prop where
  sender   : msg.sender ≤ maxU64
  receiver : msg.receiver ≤ maxU64
  term     : msg.term ≤ maxU64
  kind     : msg.kind.Fits

namespace RaftLog

-- The entries of a message that the log holds already, and the index that follows them.
def held (log : RaftLog) (es : List LogEntry) : List LogEntry :=
  es.takeWhile fun e => log.termAt e.index = some e.term

def resumeIndex (log : RaftLog) (first : ℕ) (es : List LogEntry) : ℕ :=
  ((log.held es).getLast?.map (·.index + 1)).getD first

-- The entries from that index on, if the message is indexed consecutively.
def fresh (log : RaftLog) : List LogEntry → List LogEntry
  | []          => []
  | first :: es => (first :: es).drop (log.resumeIndex first.index (first :: es) - first.index)

-- They attach to the log without a gap, above its base.
def Attachable (log : RaftLog) : List LogEntry → Prop
  | []          => True
  | first :: es =>
    let next := log.resumeIndex first.index (first :: es)
    first.index ≤ next ∧ (log.fresh (first :: es) = [] ∨
      log.firstIndex < next ∧ next ≤ log.lastIndex + 1 ∧ Consecutive next (log.fresh (first :: es)))

def lastIndexWith (log : RaftLog) (es : List LogEntry) : ℕ :=
  ((log.fresh es).getLast?.map (·.index)).getD log.lastIndex

end RaftLog

namespace Kernel

variable (k : Kernel)

-- The node can start an election when its log ends at `lastIndex`.
def CanCampaign (lastIndex : ℕ) : Prop :=
  k.currentTerm < maxU64 ∧ (k.peers = [] → lastIndex < maxU64)

def Electable : Prop :=
  k.role = .leader ∨ k.CanCampaign k.log.lastIndex

-- The messages past the term gate that do no harm.
def Harmless (preVotes : Finset NodeId) (msg : Message) : Prop :=
  match msg.kind with
  | .clientRequest _ =>
    if k.role = .leader then
      k.log.lastIndex < maxU64 ∧ (k.peers = [] → k.commitIndex < maxU64)
    else
      k.CanCampaign k.log.lastIndex
  | .preVoteResponse granted =>
    if k.role = .preCandidate ∧ msg.term = k.currentTerm ∧ granted ∧
        k.majority ≤ (insert msg.sender preVotes).card then
      if k.peers = [] then k.CanCampaign k.log.lastIndex else k.currentTerm + 1 < maxU64
    else
      k.Electable
  | .requestVoteResponse granted =>
    if k.role = .candidate ∧ granted ∧ k.majority ≤ (insert msg.sender k.votesReceived).card then
      k.log.lastIndex < maxU64
    else
      k.Electable
  | .appendEntries i t es _ =>
    match k.log.termAt i with
    | none    => k.log.lastIndex < maxU64 ∧ k.CanCampaign k.log.lastIndex
    | some t' =>
      if t' = t then
        k.log.Attachable es ∧ (∀ e ∈ k.log.held es, e.index < maxU64) ∧
          k.CanCampaign (k.log.lastIndexWith es)
      else
        k.CanCampaign k.log.lastIndex
  | .appendEntriesResponse success t _ =>
    if k.role = .leader then
      if success then
        k.log.lastIndex < maxU64 ∧ k.commitIndex < maxU64
      else
        ∀ t' ∈ t, k.log.termAt maxU64 ≠ some t'
    else
      k.CanCampaign k.log.lastIndex
  | .installSnapshot i _ _ _ done =>
    k.CanCampaign (if k.commitIndex < i ∧ done then i else k.log.lastIndex)
  | .installSnapshotResponse =>
    if k.role = .leader then k.commitIndex < maxU64 else k.CanCampaign k.log.lastIndex
  | .clientResponse .. | .preVote .. | .requestVote .. => k.Electable

end Kernel

-- A message of an earlier term is ignored, and one of a later term makes the node a follower first.
def RaftNode.Harmless (node : RaftNode) (msg : Message) : Prop :=
  if msg.kind.isPreVote ∨ msg.kind.isClient ∨ msg.term = node.currentTerm then
    node.kernel.Harmless node.preVotesReceived msg
  else if msg.term < node.currentTerm then
    node.kernel.Electable
  else
    (node.kernel.bump msg.term).Harmless node.preVotesReceived msg

/-! ### Reading and attaching entries -/

section

variable {log log' : RaftLog} {es : List LogEntry} {e : LogEntry} {i t : ℕ}

theorem RaftLog.lastIndexOfTerm_lt (log : RaftLog) (h : log.Contiguous) (hl : log.lastIndex ≤ maxU64) :
    (∀ n, log.lastIndexOfTerm t = some n → n < maxU64) ↔ log.termAt maxU64 ≠ some t := by
  constructor
  case mp =>
    intro hn ht
    have hb := h.bounds_of_termAt ht
    have hlast : log.lastIndex = maxU64 := le_antisymm hl hb.right
    refine lt_irrefl maxU64 <| hn _ ?_
    rw [lastIndexOfTerm, hlast, show maxU64 + 1 - log.firstIndex = maxU64 - log.firstIndex + 1 by omega,
      List.range'_concat, List.reverse_append, List.reverse_singleton, List.singleton_append,
      show log.firstIndex + 1 * (maxU64 - log.firstIndex) = maxU64 by omega]
    exact List.find?_cons_of_pos (by simpa using ht)
  case mpr =>
    intro hne n hn
    have hterm : log.termAt n = some t := by simpa using List.find?_some hn
    have hle := (h.bounds_of_termAt hterm).right.trans hl
    exact hle.lt_of_ne fun hc => hne <| hc ▸ hterm

theorem RaftLog.attachIndex_eq_resumeIndex (log : RaftLog) (first : ℕ) (es : List LogEntry) :
    log.attachIndex first es = log.resumeIndex first es := by
  induction es generalizing first
  case nil => rfl
  case cons e es hi =>
    rw [attachIndex]
    split
    case isFalse h => simp [resumeIndex, held, h]
    case isTrue h =>
      rw [hi, resumeIndex, resumeIndex, held, held, List.takeWhile_cons_of_pos (by simpa using h),
        List.getLast?_cons]
      cases (es.takeWhile fun e => log.termAt e.index = some e.term).getLast? <;> rfl

theorem RaftLog.attachSuccs_eq (log : RaftLog) (es : List LogEntry) :
    log.attachSuccs es = (log.held es).map (·.index) := by
  induction es
  case nil => rfl
  case cons e es hi =>
    rw [attachSuccs]
    split
    case isFalse h => simp [held, h]
    case isTrue h =>
      rw [hi, held, held, List.takeWhile_cons_of_pos (by simpa using h)]
      rfl

-- A log that holds some of the entries is resumed inside of it.
theorem RaftLog.Contiguous.resumeIndex_le (h : log.Contiguous) (first : ℕ) (he : log.held es ≠ []) :
    log.firstIndex < log.resumeIndex first es ∧ log.resumeIndex first es ≤ log.lastIndex + 1 := by
  have hlast := List.getLast?_eq_some_getLast he
  have hmem : log.termAt ((log.held es).getLast he).index = some ((log.held es).getLast he).term := by
    have hm := List.getLast_mem he
    simpa using List.mem_takeWhile_imp hm
  have hb := h.bounds_of_termAt hmem
  rw [resumeIndex, hlast]
  simp only [Option.map_some, Option.getD_some]
  omega

-- The condition under which the cut leaves a contiguous log.
theorem RaftLog.Contiguous.truncateAndAppend_iff (h : log.Contiguous) (hi : log.firstIndex < i)
    (hl : i ≤ log.lastIndex + 1) (ht : log.truncateAndAppend i es = some log') :
    log'.Contiguous ↔ Consecutive i es := by
  rw [truncateAndAppend_eq hi] at ht
  cases ht
  rw [h.lastIndex_eq] at hl
  have hlen : (log.rest.take (i - log.firstIndex - 1)).length = i - log.firstIndex - 1 := by
    rw [List.length_take]
    omega
  rw [Contiguous, Consecutive.append, hlen]
  change _ ∧ Consecutive (log.firstIndex + 1 + (i - log.firstIndex - 1)) es ↔ _
  rw [show log.firstIndex + 1 + (i - log.firstIndex - 1) = i by omega]
  exact and_iff_right <| Consecutive.take h _

-- Entries that do not reach the end of the log.
theorem RaftLog.Contiguous.not_contiguous_of_gap (h : log.Contiguous) (hl : log.lastIndex + 1 < i)
    (he : e.index = i) (ht : log.truncateAndAppend i (e :: es) = some log') : ¬log'.Contiguous := by
  have hb := h.lastIndex_eq
  rw [truncateAndAppend_eq (by omega)] at ht
  cases ht
  rw [List.take_of_length_le (by omega), Contiguous, Consecutive.append]
  intro hc
  have : e.index = log.firstIndex + 1 + log.rest.length := hc.right.left
  omega

-- When a merge succeeds, and leaves a contiguous log.
theorem RaftNode.mergeEntries_iff {node : RaftNode} (h : node.log.Contiguous) :
    (∃ o, node.mergeEntries es = some o ∧ o.1.log.Contiguous) ↔ node.log.Attachable es := by
  cases es
  case nil => simpa [mergeEntries, RaftLog.Attachable] using h
  case cons e es =>
    rw [mergeEntries, RaftLog.Attachable, RaftLog.attachIndex_eq_resumeIndex]
    have hresume : node.log.held (e :: es) ≠ [] → _ := h.resumeIndex_le e.index
    have hempty : node.log.held (e :: es) = [] →
        node.log.resumeIndex e.index (e :: es) = e.index := by
      intro hn
      simp [RaftLog.resumeIndex, hn]
    dsimp only
    simp only [RaftLog.fresh]
    generalize node.log.resumeIndex e.index (e :: es) = next at hresume hempty
    split
    case isTrue hlt =>
      simp only [reduceCtorEq, false_and, exists_false, false_iff, not_and]
      omega
    case isFalse hlt =>
      rw [and_iff_right (not_lt.mp hlt)]
      split
      case isFalse hge =>
        have hnil : (e :: es).drop (next - e.index) = [] := List.drop_eq_nil_of_le <| not_lt.mp hge
        simpa [hnil] using h
      case isTrue hlen =>
        have hcons : (e :: es).drop (next - e.index) ≠ [] := by
          rw [ne_eq, List.drop_eq_nil_iff]
          omega
        rw [or_iff_right hcons]
        constructor
        case mp =>
          rintro ⟨o, ho, hc⟩
          obtain ⟨log', ht, rfl⟩ := Option.map_eq_some_iff.mp ho
          have hbase : node.log.firstIndex < next := by
            by_contra hn
            simp [RaftLog.truncateAndAppend, hn] at ht
          have hlast : next ≤ node.log.lastIndex + 1 := by
            by_cases hh : node.log.held (e :: es) = []
            case neg => exact (hresume hh).right
            case pos =>
              by_contra hn
              rw [hempty hh, Nat.sub_self, List.drop_zero] at ht
              exact h.not_contiguous_of_gap (by have := hempty hh; omega) rfl ht hc
          exact ⟨hbase, hlast, (h.truncateAndAppend_iff hbase hlast ht).mp hc⟩
        case mpr =>
          rintro ⟨hbase, hlast, hc⟩
          have ht : node.log.truncateAndAppend next ((e :: es).drop (next - e.index)) = some _ :=
            RaftLog.truncateAndAppend_eq hbase
          exact ⟨_, Option.map_eq_some_iff.mpr ⟨_, ht, rfl⟩,
            (h.truncateAndAppend_iff hbase hlast ht).mpr hc⟩

-- Where the log ends after the merge.
theorem RaftNode.lastIndex_mergeEntries {node : RaftNode} {o : Outcome} (h : node.log.Contiguous)
    (ho : node.mergeEntries es = some o) (hc : o.1.log.Contiguous) :
    o.1.log.lastIndex = node.log.lastIndexWith es := by
  have ha := (mergeEntries_iff h).mp ⟨o, ho, hc⟩
  cases es
  case nil =>
    cases ho
    rfl
  case cons e es =>
    rw [RaftLog.Attachable] at ha
    rw [mergeEntries, RaftLog.attachIndex_eq_resumeIndex] at ho
    obtain ⟨hle, ha⟩ := ha
    dsimp only at ho
    rw [if_neg (by omega)] at ho
    simp only [RaftLog.lastIndexWith]
    rcases ha with hnil | ⟨hbase, hlast, hcons⟩
    case inl =>
      have hlen := List.drop_eq_nil_iff.mp hnil
      rw [if_neg (by omega)] at ho
      cases ho
      rw [hnil]
      rfl
    case inr =>
      split at ho
      case isFalse hlen =>
        have hnil : node.log.fresh (e :: es) = [] := List.drop_eq_nil_of_le <| not_lt.mp hlen
        cases ho
        rw [hnil]
        rfl
      case isTrue hlen =>
        obtain ⟨log', ht, rfl⟩ := Option.map_eq_some_iff.mp ho
        have hend := (h.truncateAndAppend hlast hcons ht).right.right
        change log'.lastIndex = _
        change log'.lastIndex + 1 = _ + (node.log.fresh (e :: es)).length at hend
        have hpos : 0 < (node.log.fresh (e :: es)).length := by
          rw [RaftLog.fresh, List.length_drop]
          omega
        rw [List.getLast?_eq_getElem?]
        rw [List.getElem?_eq_getElem (by omega)]
        have := hcons.index_eq (j := (node.log.fresh (e :: es)).length - 1)
          (List.getElem?_eq_getElem (by omega))
        simp only [Option.map_some, Option.getD_some, this]
        omega

end

/-! ### Handling a message -/

-- What a call leaves is contiguous, and neither it nor an election afterwards overflows.
structure Intact (o : Outcome) (succs : List ℕ) : Prop where
  contiguous : o.1.log.Contiguous
  succs      : ∀ n ∈ succs, n < maxU64
  electable  : o.1.kernel.Electable

namespace RaftNode

variable {node : RaftNode} {sender : NodeId} {term i t c o : ℕ} {es : List LogEntry} {msg : Message}
variable {granted success done : Bool} {command data : Command} {ct ci : Option ℕ} {r : Outcome}

theorem intact_iff {succs : List ℕ} (h : r.1.log.Contiguous) :
    Intact r succs ↔ (∀ n ∈ succs, n < maxU64) ∧ r.1.kernel.Electable :=
  ⟨fun h => ⟨h.succs, h.electable⟩, fun h' => ⟨h, h'.left, h'.right⟩⟩

-- A call that takes no successor and leaves the kernel alone.
theorem intact_idle (h : node.log.Contiguous) (hk : r.1.kernel = node.kernel) :
    Intact r [] ↔ node.kernel.Electable := by
  have hl : r.1.log = node.log := congrArg Kernel.log hk
  rw [intact_iff (hl ▸ h), hk]
  simp

theorem electable_of_ne {k : Kernel} (h : k.role ≠ .leader) :
    k.Electable ↔ k.CanCampaign k.log.lastIndex :=
  or_iff_right h

-- A follower in the term of `node` goes on as long as it can start an election.
theorem follower_intact {succs : List ℕ} (h : r.1.log.Contiguous) (hr : r.1.role = .follower)
    (ht : r.1.currentTerm = node.currentTerm) (hp : r.1.peers = node.peers) : Intact r succs ↔
      (∀ n ∈ succs, n < maxU64) ∧ node.kernel.CanCampaign r.1.log.lastIndex := by
  have hne : r.1.kernel.role ≠ .leader := by simp [kernel, hr]
  rw [intact_iff h, electable_of_ne hne, Kernel.CanCampaign, Kernel.CanCampaign]
  simp only [kernel, ht, hp]

theorem tickSuccs_iff : (∀ elapsed timeout, ∀ n ∈ tickSuccs { node with
      electionElapsed := elapsed, electionTimeout := timeout }, n < maxU64) ↔
    node.kernel.Electable := by
  unfold tickSuccs Kernel.Electable Kernel.CanCampaign preVoteSuccs electionSuccs leaderSuccs
  cases hr : node.role
  case leader => simp [kernel, hr]
  all_goals
    simp only [kernel, hr, reduceCtorEq, false_or]
    constructor
    case mp =>
      intro h
      have h := h 0 0
      by_cases hp : node.peers = [] <;> simp_all
    case mpr =>
      intro h _ _
      split <;> by_cases hp : node.peers = [] <;> simp_all

theorem applySuccs_lt (node : RaftNode) {bound : ℕ} (h : node.commitIndex ≤ bound) :
    ∀ n ∈ node.applySuccs, n < bound := by
  unfold applySuccs
  split
  case isFalse => simp
  case isTrue =>
    rw [List.forall_mem_singleton]
    omega

theorem advanceSuccs_iff (h : node.log.lastIndex ≤ maxU64) :
    (∀ n ∈ node.advanceSuccs, n < maxU64) ↔ node.commitIndex < maxU64 := by
  rw [advanceSuccs, List.forall_mem_cons]
  refine and_iff_left ?_
  split
  case isFalse => simp
  case isTrue hc =>
    have hle := (newCommit_spec hc).left.trans h
    exact applySuccs_lt { node with commitIndex := node.newCommit } hle

theorem advance_intact {succs : List ℕ} (h : node.log.Contiguous) (hr : node.role = .leader) :
    Intact node.maybeAdvanceCommitIndex succs ↔ ∀ n ∈ succs, n < maxU64 := by
  have ha := maybeAdvanceCommitIndex_advances node
  have hl : node.maybeAdvanceCommitIndex.1.log = node.log := ha.log_eq
  rw [intact_iff (hl ▸ h)]
  exact and_iff_left <| .inl <| ha.role_eq.trans hr

theorem followSuccs_lt (h : c ≤ maxU64) : ∀ n ∈ node.followSuccs c, n < maxU64 := by
  unfold followSuccs
  dsimp only
  split
  case isFalse => simp
  case isTrue =>
    have hle : min c node.log.lastIndex ≤ maxU64 := (Nat.min_le_left ..).trans h
    exact applySuccs_lt { node with commitIndex := min c node.log.lastIndex } hle

/-! ### The handlers, one by one -/

theorem clientRequest_intact (h : node.log.Contiguous) :
    Intact (node.handleClientRequest sender command) (node.clientRequestSuccs command) ↔
      if node.role = .leader then
        node.log.lastIndex < maxU64 ∧ (node.peers = [] → node.commitIndex < maxU64)
      else
        node.kernel.CanCampaign node.log.lastIndex := by
  unfold handleClientRequest clientRequestSuccs
  by_cases hr : node.role = .leader
  case neg =>
    rw [if_neg hr, if_pos hr, if_neg hr]
    exact (intact_idle h rfl).trans <| electable_of_ne hr
  case pos =>
    rw [if_pos hr, if_neg (not_not.mpr hr), if_pos hr]
    let entry : LogEntry := ⟨node.log.lastIndex + 1, node.currentTerm, command⟩
    let node' : RaftNode := { node with log := node.log.append [entry] }
    have he : Consecutive (node.log.lastIndex + 1) [entry] := ⟨rfl, trivial⟩
    have hpropose : (node.propose command).1.log = node'.log ∧
        (node.propose command).1.role = .leader := by
      unfold propose
      rw [if_neg (not_not.mpr hr)]
      dsimp only
      split
      case isFalse => exact ⟨rfl, hr⟩
      case isTrue =>
        have ha := maybeAdvanceCommitIndex_advances node'
        exact ⟨ha.log_eq, ha.role_eq.trans hr⟩
    rw [intact_iff (hpropose.left ▸ h.append he), and_iff_left (.inl hpropose.right),
      List.forall_mem_cons]
    refine and_congr_right fun hl => ?_
    by_cases hp : node.peers = []
    case neg => simp [hp]
    case pos =>
      have hlast : node'.log.lastIndex ≤ maxU64 := by
        rw [show node'.log.lastIndex = node.log.lastIndex + 1 from h.lastIndex_append he]
        exact hl
      rw [if_pos (List.isEmpty_iff.mpr hp)]
      exact (advanceSuccs_iff hlast).trans (by simp [hp, node'])

theorem preVoteResponse_intact (h : node.log.Contiguous) :
    Intact (node.handlePreVoteResponse sender t granted) (node.preVoteResponseSuccs sender t granted) ↔
      if node.role = .preCandidate ∧ t = node.currentTerm ∧ granted ∧
          node.majority ≤ (insert sender node.preVotesReceived).card then
        if node.peers = [] then
          node.kernel.CanCampaign node.log.lastIndex
        else
          node.currentTerm + 1 < maxU64
      else
        node.kernel.Electable := by
  unfold preVoteResponseSuccs
  by_cases hw : node.role = .preCandidate ∧ t = node.currentTerm ∧ granted ∧
      node.majority ≤ (insert sender node.preVotesReceived).card
  case neg =>
    rw [if_neg hw, if_neg hw]
    refine intact_idle h ?_
    unfold handlePreVoteResponse
    split
    case isTrue => rfl
    case isFalse hr =>
      split
      case isFalse => rfl
      case isTrue hg =>
        dsimp only
        split
        case isFalse   => rfl
        case isTrue hq =>
          obtain ⟨hr, ht⟩ := awaited hr
          exact absurd ⟨hr, ht, hg, hq⟩ hw
  case pos =>
    rw [if_pos hw, if_pos hw]
    obtain ⟨hr, ht, hg, hq⟩ := hw
    let backed : RaftNode := { node with preVotesReceived := insert sender node.preVotesReceived }
    have hwin : node.handlePreVoteResponse sender t granted = backed.startRealElection := by
      rw [ht, hg, handlePreVoteResponse_granted sender hr]
      exact if_pos hq
    rw [hwin, electionSuccs]
    by_cases hp : node.peers = []
    case pos =>
      have hk : backed.startRealElection.1.kernel = node.kernel.campaign.lead :=
        (startRealElection_alone (show backed.peers = [] from hp)).left
      have hl : backed.startRealElection.1.log = node.log.append [node.kernel.campaign.noop] :=
        congrArg Kernel.log hk
      rw [intact_iff (hl ▸ h.append ⟨rfl, trivial⟩), hk, and_iff_left (.inl rfl)]
      simp [hp, Kernel.CanCampaign, leaderSuccs, kernel]
    case neg =>
      have hk : backed.startRealElection.1.kernel = node.kernel.campaign := by
        rw [startRealElection, if_neg (by simpa [backed] using hp)]
        rfl
      have hl : backed.startRealElection.1.log = node.log := congrArg Kernel.log hk
      rw [intact_iff (hl ▸ h), hk, electable_of_ne (by simp [Kernel.campaign])]
      simp [hp, Kernel.CanCampaign, Kernel.campaign, kernel]
      omega

theorem requestVote_intact (h : node.log.Contiguous) :
    Intact (node.handleRequestVote sender i t) [] ↔ node.kernel.Electable := by
  unfold handleRequestVote
  dsimp only
  split
  case isFalse => exact intact_idle h rfl
  case isTrue  => exact (intact_iff h).trans (by simp [Kernel.Electable, Kernel.CanCampaign, kernel])

theorem requestVoteResponse_intact (h : node.log.Contiguous) (ht : t = node.currentTerm) :
    Intact (node.handleRequestVoteResponse sender t granted)
        (node.requestVoteResponseSuccs sender t granted) ↔
      if node.role = .candidate ∧ granted ∧
          node.majority ≤ (insert sender node.votesReceived).card then
        node.log.lastIndex < maxU64
      else
        node.kernel.Electable := by
  subst ht
  unfold requestVoteResponseSuccs
  by_cases hr : node.role = .candidate ∧ granted
  case neg =>
    rw [if_neg (by tauto), if_neg (by tauto)]
    refine intact_idle h ?_
    unfold handleRequestVoteResponse
    split
    case isTrue  => rfl
    case isFalse => rw [if_neg (by simp_all)]
  case pos =>
    obtain ⟨hr, rfl⟩ := hr
    let backed : RaftNode := { node with votesReceived := insert sender node.votesReceived }
    rw [handleRequestVoteResponse_granted sender hr]
    by_cases hq : node.majority ≤ (insert sender node.votesReceived).card
    case pos =>
      rw [if_pos hq, if_pos ⟨hr, rfl, rfl, hq⟩, if_pos ⟨hr, rfl, hq⟩]
      have hc : Consecutive (node.log.lastIndex + 1) [backed.noop] := ⟨rfl, trivial⟩
      refine (intact_iff (h.append hc)).trans ?_
      simp [leaderSuccs, Kernel.Electable, becomeLeader, kernel]
    case neg =>
      rw [if_neg hq, if_neg (by simp [hq]), if_neg (by simp [hq])]
      exact (intact_iff h).trans (by simp [Kernel.Electable, Kernel.CanCampaign, kernel])

theorem installSnapshot_intact (h : node.log.Contiguous) (ht : term = node.currentTerm) :
    Intact (node.handleInstallSnapshot sender term i t data done) [] ↔
      node.kernel.CanCampaign (if node.commitIndex < i ∧ done then i else node.log.lastIndex) := by
  subst ht
  unfold handleInstallSnapshot
  rw [if_neg (lt_irrefl _)]
  have hk := (becomeFollower_same node (some sender)).left
  generalize node.becomeFollower node.currentTerm (some sender) = down at hk
  obtain ⟨down, as⟩ := down
  have hl : down.log = node.log := congrArg Kernel.log hk
  have hi : down.commitIndex = node.commitIndex := congrArg Kernel.commitIndex hk
  have hr : down.role = .follower := congrArg Kernel.role hk
  have ht : down.currentTerm = node.currentTerm := congrArg Kernel.currentTerm hk
  have hp : down.peers = node.peers := congrArg Kernel.peers hk
  have keep {as : List Action} : Intact (down, as) [] ↔ node.kernel.CanCampaign node.log.lastIndex := by
    rw [follower_intact (hl ▸ h) hr ht hp, hl]
    simp
  dsimp only
  by_cases hc : i ≤ node.commitIndex
  case pos =>
    rw [if_pos (hc.trans_eq hi.symm), if_neg (by omega)]
    exact keep
  case neg =>
    rw [if_neg (by omega)]
    cases done
    case false =>
      rw [if_neg (by simp), if_neg (by simp)]
      exact keep
    case true =>
      rw [if_pos rfl, if_pos ⟨not_le.mp hc, rfl⟩]
      refine (follower_intact ?_ hr ht hp).trans <| and_iff_right (by simp)
      exact trivial

-- Only a leader looks at a reply in its term.
theorem leader_intact {succs : List ℕ} {P : Prop} (h : node.log.Contiguous)
    (hl : node.role = .leader → (Intact r succs ↔ P)) :
    Intact (if node.role ≠ .leader ∨ node.currentTerm ≠ node.currentTerm then (node, []) else r)
        (if node.role ≠ .leader ∨ node.currentTerm ≠ node.currentTerm then [] else succs) ↔
      if node.role = .leader then P else node.kernel.CanCampaign node.log.lastIndex := by
  by_cases hr : node.role = .leader
  case neg =>
    rw [if_pos (.inl hr), if_pos (.inl hr), if_neg hr]
    exact (intact_idle h rfl).trans <| electable_of_ne hr
  case pos =>
    have hgate : ¬(node.role ≠ .leader ∨ node.currentTerm ≠ node.currentTerm) := by simp [hr]
    rw [if_neg hgate, if_neg hgate, if_pos hr]
    exact hl hr

theorem appendEntriesResponse_intact (h : node.log.Contiguous) (hl : node.log.lastIndex ≤ maxU64)
    (ht : term = node.currentTerm) :
    Intact (node.handleAppendEntriesResponse sender term success ct ci)
        (node.appendEntriesResponseSuccs sender term success ct) ↔
      if node.role = .leader then
        if success then
          node.log.lastIndex < maxU64 ∧ node.commitIndex < maxU64
        else
          ∀ t ∈ ct, node.log.termAt maxU64 ≠ some t
      else
        node.kernel.CanCampaign node.log.lastIndex := by
  subst ht
  unfold handleAppendEntriesResponse appendEntriesResponseSuccs
  refine leader_intact h fun hr => ?_
  cases success
  case true =>
    simp only [if_true]
    refine (advance_intact (by exact h) (by exact hr)).trans ?_
    rw [List.forall_mem_cons]
    exact and_congr_right fun _ => advanceSuccs_iff hl
  case false =>
    simp only [Bool.false_eq_true, if_false]
    rw [intact_iff (by exact h), and_iff_left (.inl hr)]
    cases ct
    case none   => simp
    case some t => simpa using node.log.lastIndexOfTerm_lt h hl

theorem installSnapshotResponse_intact (h : node.log.Contiguous) (hl : node.log.lastIndex ≤ maxU64)
    (hb : node.log.firstIndex ≤ node.commitIndex) (ht : term = node.currentTerm) :
    Intact (node.handleInstallSnapshotResponse sender term)
        (node.installSnapshotResponseSuccs sender term) ↔
      if node.role = .leader then
        node.commitIndex < maxU64
      else
        node.kernel.CanCampaign node.log.lastIndex := by
  subst ht
  unfold handleInstallSnapshotResponse installSnapshotResponseSuccs
  refine leader_intact h fun hr => ?_
  refine (advance_intact (by exact h) (by exact hr)).trans ?_
  rw [List.forall_mem_cons]
  refine Iff.trans ?_ <| and_iff_right_of_imp hb.trans_lt
  exact and_congr_right fun _ => advanceSuccs_iff hl

-- A merge only looks at the log.
theorem mergeEntries_of_log {node' : RaftNode} (hl : node'.log = node.log) :
    node'.mergeEntries es = (node.mergeEntries es).map fun o => ({ node' with log := o.1.log }, o.2) := by
  have hid : { node' with log := node.log } = node' := hl ▸ rfl
  cases es
  case nil => simp [mergeEntries, hid]
  case cons e es =>
    unfold mergeEntries
    dsimp only
    rw [hl]
    split
    case isTrue  => rfl
    case isFalse =>
      split
      case isFalse => simp [hid]
      case isTrue  => rw [Option.map_map]; rfl

theorem appendEntries_intact (h : node.log.Contiguous) (hc : c ≤ maxU64) (ht : term = node.currentTerm) :
    (∃ o, node.handleAppendEntries sender term i t es c = some o ∧
        Intact o (node.appendEntriesSuccs term i t es c)) ↔
      match node.log.termAt i with
      | none    => node.log.lastIndex < maxU64 ∧ node.kernel.CanCampaign node.log.lastIndex
      | some t' =>
        if t' = t then
          node.log.Attachable es ∧ (∀ e ∈ node.log.held es, e.index < maxU64) ∧
            node.kernel.CanCampaign (node.log.lastIndexWith es)
        else
          node.kernel.CanCampaign node.log.lastIndex := by
  subst ht
  unfold handleAppendEntries appendEntriesSuccs
  rw [if_neg (lt_irrefl _), if_neg (lt_irrefl _)]
  have hk := (becomeFollower_same node (some sender)).left
  generalize node.becomeFollower node.currentTerm (some sender) = down at hk
  obtain ⟨down, as⟩ := down
  have hl : down.log = node.log := congrArg Kernel.log hk
  have hr : down.role = .follower := congrArg Kernel.role hk
  have ht : down.currentTerm = node.currentTerm := congrArg Kernel.currentTerm hk
  have hp : down.peers = node.peers := congrArg Kernel.peers hk
  have keep {as : List Action} {succs : List ℕ} : Intact (down, as) succs ↔
      (∀ n ∈ succs, n < maxU64) ∧ node.kernel.CanCampaign node.log.lastIndex := by
    rw [follower_intact (hl ▸ h) hr ht hp, hl]
  dsimp only
  rw [hl]
  cases hterm : node.log.termAt i
  case none =>
    simp only [Option.some.injEq, exists_eq_left']
    exact keep.trans (by simp)
  case some t' =>
    simp only [ne_eq, ite_not]
    by_cases hne : t' = t
    case neg =>
      rw [if_neg hne, if_neg hne, if_neg hne]
      simp only [Option.some.injEq, exists_eq_left']
      exact keep.trans (by simp)
    case pos =>
      rw [if_pos hne, if_pos hne, if_pos hne, ← mergeEntries_iff h, RaftLog.attachSuccs_eq,
        mergeEntries_of_log hl]
      cases hm : node.mergeEntries es
      case none => simp
      case some merged =>
        simp only [Option.map_some, Option.bind_eq_bind, Option.bind_some, Option.some.injEq,
          exists_eq_left', Option.getD_some]
        let spliced : RaftNode := { down with log := merged.1.log }
        have hf := followLeaderCommit_follows spliced c
        have hlog : (spliced.followLeaderCommit c).1.log = merged.1.log := hf.log_eq
        have hsuccs : (∀ n ∈ (node.log.held es).map (·.index) ++ merged.1.followSuccs c, n < maxU64) ↔
            ∀ e ∈ node.log.held es, e.index < maxU64 := by
          rw [List.forall_mem_append, List.forall_mem_map]
          exact and_iff_left <| followSuccs_lt hc
        have hmerged (hcont : merged.1.log.Contiguous) {as : List Action} {succs : List ℕ} :
            Intact ((spliced.followLeaderCommit c).1, as) succs ↔ (∀ n ∈ succs, n < maxU64) ∧
              node.kernel.CanCampaign (node.log.lastIndexWith es) := by
          have hk' := hf.eq
          rw [← lastIndex_mergeEntries h hm hcont, ← hlog]
          exact follower_intact (hlog.symm ▸ hcont) (hf.role_eq.trans hr)
            ((congrArg Kernel.currentTerm hk').trans ht) ((congrArg Kernel.peers hk').trans hp)
        constructor
        case mp =>
          intro hi
          have hcont : merged.1.log.Contiguous := hlog ▸ hi.contiguous
          exact ⟨hcont, ((hmerged hcont).mp hi).imp_left hsuccs.mp⟩
        case mpr =>
          rintro ⟨hcont, hi⟩
          exact (hmerged hcont).mpr <| hi.imp_left hsuccs.mpr

/-! ### All messages -/

theorem dispatch_intact (h : node.log.Contiguous) (hb : node.log.firstIndex ≤ node.commitIndex)
    (hl : node.log.lastIndex ≤ maxU64) (hf : msg.kind.Fits)
    (ht : !msg.kind.isPreVote && !msg.kind.isClient → msg.term = node.currentTerm) :
    (∃ o, node.dispatch msg = some o ∧ Intact o (node.dispatchSuccs msg)) ↔
      node.kernel.Harmless node.preVotesReceived msg := by
  unfold dispatch dispatchSuccs Kernel.Harmless
  cases hk : msg.kind
  case appendEntries =>
    rw [hk] at hf
    exact appendEntries_intact h hf.right.right.right <| ht <| by
      simp [hk, MessageKind.isPreVote, MessageKind.isClient]
  all_goals
    simp only [hk, MessageKind.isPreVote, MessageKind.isClient, Bool.not_false, Bool.not_true,
      Bool.and_false, Bool.and_true, Bool.false_eq_true, false_implies, true_implies] at ht
    simp only [Option.some.injEq, exists_eq_left']
  case clientRequest           => exact clientRequest_intact h
  case clientResponse          => exact intact_idle h rfl
  case preVote                 => exact intact_idle h rfl
  case preVoteResponse         => exact preVoteResponse_intact h
  case requestVote             => exact requestVote_intact h
  case requestVoteResponse     => exact requestVoteResponse_intact h ht
  case appendEntriesResponse   => exact appendEntriesResponse_intact h hl ht
  case installSnapshot         => exact installSnapshot_intact h ht
  case installSnapshotResponse => exact installSnapshotResponse_intact h hl hb ht

theorem withstands_eq : node.Withstands msg ↔
    ∃ o, node.step msg = some o ∧ Intact o (node.stepSuccs msg) := by
  refine exists_congr fun o => and_congr_right fun _ => ?_
  rw [tickSuccs_iff]
  exact ⟨fun h => ⟨h.left, h.right.left, h.right.right⟩, fun h => ⟨h.contiguous, h.succs, h.electable⟩⟩

-- What the term gate settles before a message is dispatched.
theorem step_intact {down : RaftNode} {as : List Action} {succs : List ℕ} :
    (∃ o, ((down.dispatch msg).bind fun r => some (r.1, as ++ r.2)) = some o ∧ Intact o succs) ↔
      ∃ o, down.dispatch msg = some o ∧ Intact o succs := by
  cases down.dispatch msg
  case none => simp
  case some =>
    simp only [Option.bind_some, Option.some.injEq, exists_eq_left']
    exact ⟨fun h => ⟨h.contiguous, h.succs, h.electable⟩, fun h => ⟨h.contiguous, h.succs, h.electable⟩⟩

-- Exactly the harmless messages are withstood.
theorem withstands_iff (h : node.log.Contiguous) (hb : node.log.firstIndex ≤ node.commitIndex)
    (hl : node.log.lastIndex ≤ maxU64) (hf : msg.Fits) : node.Withstands msg ↔ node.Harmless msg := by
  rw [withstands_eq]
  unfold step stepSuccs Harmless
  dsimp only
  cases hg : !msg.kind.isPreVote && !msg.kind.isClient
  case false =>
    have hkind : msg.kind.isPreVote ∨ msg.kind.isClient := by
      cases hp : msg.kind.isPreVote <;> simp_all
    simp only [Bool.and_false, Bool.false_eq_true, if_false]
    rw [if_pos (hkind.imp_right .inl)]
    exact step_intact.trans <| dispatch_intact h hb hl hf.kind (by simp [hg])
  case true =>
    have hkind : msg.kind.isPreVote = false ∧ msg.kind.isClient = false := by simpa using hg
    simp only [hkind.left, hkind.right, Bool.false_eq_true, false_or, Bool.and_true, decide_eq_true_eq]
    rcases Nat.lt_trichotomy msg.term node.currentTerm with hlt | heq | hgt
    case inl =>
      have hngt : ¬msg.term > node.currentTerm := by omega
      simp only [if_neg hngt, if_pos hlt, if_neg hlt.ne, Option.some.injEq, exists_eq_left']
      exact intact_idle h rfl
    case inr.inl =>
      have hngt : ¬msg.term > node.currentTerm := by omega
      have hnlt : ¬msg.term < node.currentTerm := by omega
      simp only [if_neg hngt, if_neg hnlt, if_pos heq]
      exact step_intact.trans <| dispatch_intact h hb hl hf.kind fun _ => heq
    case inr.inr =>
      obtain ⟨hk, _⟩ := becomeFollower_later none hgt
      have hv : (node.becomeFollower msg.term none).1.preVotesReceived = node.preVotesReceived := by
        unfold becomeFollower
        dsimp only
        split <;> rfl
      have hnlt : ¬msg.term < node.currentTerm := by omega
      simp only [if_pos hgt, if_neg hnlt, if_neg hgt.ne']
      rw [← hk, ← hv]
      generalize node.becomeFollower msg.term none = down at hk hv
      have hterm : down.1.currentTerm = msg.term := congrArg Kernel.currentTerm hk
      have hlog : down.1.log = node.log := congrArg Kernel.log hk
      have hcommit : down.1.commitIndex = node.commitIndex := congrArg Kernel.commitIndex hk
      simp only [hterm, lt_irrefl, if_false]
      rw [← hlog] at h hl hb
      rw [← hcommit] at hb
      exact step_intact.trans <| dispatch_intact h hb hl hf.kind fun _ => hterm.symm

-- A fresh node takes in what follows its empty log.
theorem withstands_iff_append : ∃ (node : RaftNode) (msg : Message),
    node.log.Contiguous ∧ node.log.firstIndex ≤ node.commitIndex ∧ msg.Fits ∧
    (node.Withstands msg ↔ node.Harmless msg) ∧ node.Withstands msg := by
  let config : Config :=
    { id                     := 1
      peers                  := [2, 3]
      electionTimeoutTicks   := 2
      heartbeatIntervalTicks := 1
      rngSeed                := { draws := fun _ => 0 }
      heartbeat_lt           := by decide }
  let msg : Message := ⟨2, 1, 0, .appendEntries 0 0 [⟨1, 0, [7]⟩] 1⟩
  have hfits : msg.Fits :=
    ⟨by decide, by decide, by decide, by decide, by decide, by simp [LogEntry.Fits, maxU64], by decide⟩
  have hlog : (new config).log.Contiguous := trivial
  have hiff : (new config).Withstands msg ↔ _ := withstands_iff hlog le_rfl (by decide) hfits
  have hheld : (new config).log.held [⟨1, 0, [7]⟩] = [] := rfl
  refine ⟨new config, msg, hlog, le_rfl, hfits, hiff, hiff.mpr ⟨⟨le_rfl, .inr ?_⟩, ?_, ?_⟩⟩
  · exact ⟨by decide, by decide, rfl, trivial⟩
  · intro e he
    have he : e ∈ (new config).log.held [⟨1, 0, [7]⟩] := he
    exact absurd (hheld ▸ he) (by simp)
  · exact ⟨by decide, by simp [kernel, new, config]⟩

-- Anyone can send an entry that is said to follow the base and carries the index of the base itself.
theorem not_withstands : ∃ (node : RaftNode) (msg : Message),
    node.log.Contiguous ∧ node.log.firstIndex ≤ node.commitIndex ∧ node.log.lastIndex ≤ maxU64 ∧
    msg.Fits ∧ node.step msg = none ∧ ¬node.Withstands msg := by
  let config : Config :=
    { id                     := 1
      peers                  := [2, 3]
      electionTimeoutTicks   := 2
      heartbeatIntervalTicks := 1
      rngSeed                := { draws := fun _ => 0 }
      heartbeat_lt           := by decide }
  let msg : Message := ⟨999, 1, 1, .appendEntries 0 0 [⟨0, 1, []⟩] 0⟩
  have hfits : msg.Fits :=
    ⟨by decide, by decide, by decide, by decide, by decide, by simp [LogEntry.Fits, maxU64], by decide⟩
  have hnone : ((new config).step msg).isNone := by decide +kernel
  have hpanic : (new config).step msg = none := Option.isNone_iff_eq_none.mp hnone
  refine ⟨new config, msg, trivial, le_rfl, by decide, hfits, hpanic, ?_⟩
  rintro ⟨o, ho, _⟩
  exact absurd (hpanic.symm.trans ho) (by simp)

end RaftNode

end RaftRupee
