import Mathlib.Data.Finset.Card
import Mathlib.Logic.Function.Basic
import RaftRupee.Core.Log

namespace RaftRupee

-- `SmallRng` is third-party code. We only rely on it being a stream of draws, so a generator is the
-- stream that is still to come. `gen_range(0..hi)` takes the next draw into the range.
structure SmallRng where
  draws : ℕ → ℕ

def SmallRng.genRange (rng : SmallRng) (hi : ℕ) : ℕ × SmallRng :=
  (rng.draws 0 % hi, { draws := fun k => rng.draws (k + 1) })

inductive Role
  | follower
  | preCandidate
  | candidate
  | leader
  deriving DecidableEq, Repr

inductive Action
  | send (msg : Message)
  | appendEntries (entries : List LogEntry)
  | truncateAndAppend (fromIndex : ℕ) (entries : List LogEntry)
  | persistHardState (term : ℕ) (votedFor : Option NodeId)
  | apply (entries : List LogEntry)
  | persistSnapshot (lastIncludedIndex : ℕ) (lastIncludedTerm : ℕ) (data : Command)
  deriving DecidableEq, Repr

-- The assertion of `RaftNode::new` is a field, and the seed is the stream that it seeds.
structure Config where
  id                     : NodeId
  peers                  : List NodeId
  electionTimeoutTicks   : ℕ
  heartbeatIntervalTicks : ℕ
  rngSeed                : SmallRng
  heartbeat_lt           : heartbeatIntervalTicks < electionTimeoutTicks

-- The maps and sets of the source are only read by key and overwritten, so a `HashMap` is a partial
-- function and a `HashSet` a finite set.
structure RaftNode where
  id                  : NodeId
  peers               : List NodeId
  currentTerm         : ℕ
  votedFor            : Option NodeId
  log                 : RaftLog
  commitIndex         : ℕ
  lastApplied         : ℕ
  role                : Role
  nextIndex           : NodeId → Option ℕ
  matchIndex          : NodeId → Option ℕ
  electionTimeoutBase : ℕ
  electionTimeout     : ℕ
  electionElapsed     : ℕ
  heartbeatInterval   : ℕ
  heartbeatElapsed    : ℕ
  votesReceived       : Finset NodeId
  preVotesReceived    : Finset NodeId
  rng                 : SmallRng
  leaderId            : Option NodeId

-- What a call of the state machine yields: the mutated node and the actions it returns, in order.
abbrev Outcome := RaftNode × List Action

def randomizeElectionTimeout (base : ℕ) (rng : SmallRng) : ℕ × SmallRng :=
  let draw := rng.genRange base
  (base + draw.1, draw.2)

namespace RaftNode

def new (config : Config) : RaftNode :=
  let timeout := randomizeElectionTimeout config.electionTimeoutTicks config.rngSeed
  { id                  := config.id
    peers               := config.peers
    currentTerm         := 0
    votedFor            := none
    log                 := .new
    commitIndex         := 0
    lastApplied         := 0
    role                := .follower
    nextIndex           := fun _ => none
    matchIndex          := fun _ => none
    electionTimeoutBase := config.electionTimeoutTicks
    electionTimeout     := timeout.1
    electionElapsed     := 0
    heartbeatInterval   := config.heartbeatIntervalTicks
    heartbeatElapsed    := 0
    votesReceived       := ∅
    preVotesReceived    := ∅
    rng                 := timeout.2
    leaderId            := none }

def restore (config : Config) (currentTerm : ℕ) (votedFor : Option NodeId) (log : RaftLog)
    (commitIndex lastApplied : ℕ) : RaftNode :=
  { new config with currentTerm, votedFor, log, commitIndex, lastApplied }

-- `(self.peers.len() + 1) / 2 + 1`, at each of the three quorum sites.
def majority (node : RaftNode) : ℕ :=
  (node.peers.length + 1) / 2 + 1

def message (node : RaftNode) (receiver : NodeId) (kind : MessageKind) : Message where
  sender   := node.id
  receiver := receiver
  term     := node.currentTerm
  kind     := kind

-- `election_elapsed = 0` together with the redrawn `election_timeout`.
def resetElectionTimer (node : RaftNode) : RaftNode :=
  let timeout := randomizeElectionTimeout node.electionTimeoutBase node.rng
  { node with electionElapsed := 0, electionTimeout := timeout.1, rng := timeout.2 }

/-! ### Log replication: the sending side -/

def simulatedSnapshot : Command :=
  "simulated-compacted-snapshot".toList.map (.ofNat ·.toNat)

def replicateToPeer (node : RaftNode) (peer : NodeId) : Action :=
  let next := (node.nextIndex peer).getD 1
  if next ≤ node.log.firstIndex then
    let snap := node.log.snapshotMeta.getD { lastIncludedIndex := 0, lastIncludedTerm := 0 }
    .send <| node.message peer <|
      .installSnapshot snap.lastIncludedIndex snap.lastIncludedTerm 0 simulatedSnapshot true
  else
    let prevLogIndex := next - 1
    let prevLogTerm := (node.log.termAt prevLogIndex).getD 0
    let entries := node.log.entriesFrom next
    .send <| node.message peer <|
      .appendEntries prevLogIndex prevLogTerm entries node.commitIndex

def broadcastHeartbeats (node : RaftNode) : List Action :=
  node.peers.map node.replicateToPeer

def broadcastAppendEntries (node : RaftNode) : List Action :=
  node.peers.map node.replicateToPeer

/-! ### Committing and applying -/

def applyCommittedEntries (node : RaftNode) : Outcome :=
  if node.commitIndex > node.lastApplied then
    let toApply := (node.log.entriesFrom (node.lastApplied + 1)).takeWhile
      (·.index ≤ node.commitIndex)
    match toApply.getLast? with
    | none      => (node, [])
    | some last => ({ node with lastApplied := last.index }, [.apply toApply])
  else
    (node, [])

-- The leader and every peer whose `match_index` has reached `n`.
def replicaCount (node : RaftNode) (n : ℕ) : ℕ :=
  1 + node.peers.countP fun peer => (node.matchIndex peer).getD 0 ≥ n

-- The loop of `maybe_advance_commit_index` over `commit_index + 1 ..= last`.
def newCommit (node : RaftNode) : ℕ :=
  (List.range' (node.commitIndex + 1) (node.log.lastIndex - node.commitIndex)).foldl
    (fun newCommit n =>
      if node.log.termAt n ≠ some node.currentTerm then
        newCommit
      else if node.replicaCount n ≥ node.majority then
        n
      else
        newCommit)
    node.commitIndex

def maybeAdvanceCommitIndex (node : RaftNode) : Outcome :=
  if node.newCommit > node.commitIndex then
    applyCommittedEntries { node with commitIndex := node.newCommit }
  else
    (node, [])

/-! ### Role changes -/

def becomeFollower (node : RaftNode) (term : ℕ) (leader : Option NodeId) : Outcome :=
  let follower := resetElectionTimer
    { node with currentTerm := term, role := .follower, leaderId := leader }
  if term > node.currentTerm then
    ({ follower with votedFor := none }, [.persistHardState term none])
  else
    (follower, [])

def noop (node : RaftNode) : LogEntry where
  index   := node.log.lastIndex + 1
  term    := node.currentTerm
  command := []

def becomeLeader (node : RaftNode) : Outcome :=
  let lastIndex := node.log.lastIndex
  let leader := { node with
    role             := .leader
    leaderId         := some node.id
    heartbeatElapsed := 0
    nextIndex        := fun peer => if peer ∈ node.peers then some (lastIndex + 1) else none
    matchIndex       := fun peer => if peer ∈ node.peers then some 0 else none
    log              := node.log.append [node.noop] }
  (leader, .appendEntries [node.noop] :: leader.broadcastHeartbeats)

def startRealElection (node : RaftNode) : Outcome :=
  let candidate := resetElectionTimer
    { node with
      currentTerm   := node.currentTerm + 1
      role          := .candidate
      votedFor      := some node.id
      votesReceived := {node.id} }
  let requests := node.peers.map fun peer =>
    .send <| candidate.message peer <| .requestVote node.log.lastIndex node.log.lastTerm
  let actions := .persistHardState candidate.currentTerm (some node.id) :: requests
  if node.peers.isEmpty then
    let leader := candidate.becomeLeader
    (leader.1, actions ++ leader.2)
  else
    (candidate, actions)

def startPreVote (node : RaftNode) : Outcome :=
  let preCandidate := resetElectionTimer
    { node with role := .preCandidate, preVotesReceived := {node.id} }
  let requests := node.peers.map fun peer =>
    .send { node.message peer <| .preVote node.log.lastIndex node.log.lastTerm with
      term := node.currentTerm + 1 }
  if node.peers.isEmpty then
    let elected := preCandidate.startRealElection
    (elected.1, requests ++ elected.2)
  else
    (preCandidate, requests)

/-! ### Votes -/

def isLogUpToDate (node : RaftNode) (candidateLastIndex : ℕ) (candidateLastTerm : ℕ) :
    Bool :=
  if candidateLastTerm ≠ node.log.lastTerm then
    candidateLastTerm > node.log.lastTerm
  else
    candidateLastIndex ≥ node.log.lastIndex

def leaderLeaseActive (node : RaftNode) : Bool :=
  node.leaderId.isSome && node.electionElapsed < node.electionTimeoutBase

def handlePreVote (node : RaftNode) (sender : NodeId) (proposedTerm : ℕ)
    (lastLogIndex : ℕ) (lastLogTerm : ℕ) : Outcome :=
  let logOk := node.isLogUpToDate lastLogIndex lastLogTerm
  let grant := proposedTerm ≥ node.currentTerm && logOk && !node.leaderLeaseActive
  (node, [.send <| node.message sender <| .preVoteResponse grant])

def handlePreVoteResponse (node : RaftNode) (sender : NodeId) (msgTerm : ℕ)
    (voteGranted : Bool) : Outcome :=
  if node.role ≠ .preCandidate ∨ msgTerm ≠ node.currentTerm then
    (node, [])
  else if voteGranted then
    let node := { node with preVotesReceived := insert sender node.preVotesReceived }
    if node.preVotesReceived.card ≥ node.majority then node.startRealElection else (node, [])
  else
    (node, [])

def handleRequestVote (node : RaftNode) (sender : NodeId) (lastLogIndex : ℕ)
    (lastLogTerm : ℕ) : Outcome :=
  let canVote := node.votedFor = none ∨ node.votedFor = some sender
  let logOk := node.isLogUpToDate lastLogIndex lastLogTerm
  if canVote ∧ logOk ∧ !node.leaderLeaseActive then
    let node := { node with votedFor := some sender, electionElapsed := 0 }
    (node, [.persistHardState node.currentTerm (some sender),
      .send <| node.message sender <| .requestVoteResponse true])
  else
    (node, [.send <| node.message sender <| .requestVoteResponse false])

def handleRequestVoteResponse (node : RaftNode) (sender : NodeId) (msgTerm : ℕ)
    (voteGranted : Bool) : Outcome :=
  if node.role ≠ .candidate ∨ msgTerm ≠ node.currentTerm then
    (node, [])
  else if voteGranted then
    let node := { node with votesReceived := insert sender node.votesReceived }
    if node.votesReceived.card ≥ node.majority then node.becomeLeader else (node, [])
  else
    (node, [])

end RaftNode

/-! ### Log replication: the receiving side -/

-- The loop that looks for the first entry of the message that the log does not hold.
def RaftLog.attachIndex (log : RaftLog) (attachIdx : ℕ) : List LogEntry → ℕ
  | []      => attachIdx
  | e :: es => if log.termAt e.index = some e.term then log.attachIndex (e.index + 1) es else attachIdx

-- The loop that walks down to the first entry of the conflicting term `t`.
def RaftLog.firstOfTerm (log : RaftLog) (t : ℕ) : ℕ → ℕ
  | 0     => 0
  | i + 1 =>
    if i + 1 > log.firstIndex ∧ log.termAt i = some t then log.firstOfTerm t i else i + 1

-- The loop that looks for the leader's last entry of the conflicting term.
def RaftLog.lastIndexOfTerm (log : RaftLog) (t : ℕ) : Option ℕ :=
  (List.range' log.firstIndex (log.lastIndex + 1 - log.firstIndex)).reverse.find?
    (log.termAt · = some t)

namespace RaftNode

-- The merge of `handle_append_entries`. It panics on an underflow of `attach_idx - entries[0].index`
-- and on the assertion of `truncate_and_append`.
def mergeEntries (node : RaftNode) (entries : List LogEntry) : Option Outcome :=
  match entries with
  | [] => some (node, [])
  | first :: _ =>
    let attachIdx := node.log.attachIndex first.index entries
    if attachIdx < first.index then
      none
    else
      let startOffset := attachIdx - first.index
      if startOffset < entries.length then
        let suffix := entries.drop startOffset
        (node.log.truncateAndAppend attachIdx suffix).map fun log =>
          ({ node with log }, [.truncateAndAppend attachIdx suffix])
      else
        some (node, [])

-- The commit of `handle_append_entries`.
def followLeaderCommit (node : RaftNode) (leaderCommit : ℕ) : Outcome :=
  let newCommit := min leaderCommit node.log.lastIndex
  if leaderCommit > node.commitIndex ∧ newCommit > node.commitIndex then
    applyCommittedEntries { node with commitIndex := newCommit }
  else
    (node, [])

def handleAppendEntries (node : RaftNode) (sender : NodeId) (term : ℕ) (prevLogIndex : ℕ)
    (prevLogTerm : ℕ) (entries : List LogEntry) (leaderCommit : ℕ) : Option Outcome :=
  if term < node.currentTerm then
    some (node, [.send <| node.message sender <| .appendEntriesResponse false none none])
  else
    let (node, down) := node.becomeFollower term (some sender)
    match node.log.termAt prevLogIndex with
    | none =>
      some (node, down ++ [.send <| node.message sender <|
        .appendEntriesResponse false none (some (node.log.lastIndex + 1))])
    | some t =>
      if t ≠ prevLogTerm then
        some (node, down ++ [.send <| node.message sender <|
          .appendEntriesResponse false (some t) (some (node.log.firstOfTerm t prevLogIndex))])
      else do
        let (node, merge) ← node.mergeEntries entries
        let (node, commit) := node.followLeaderCommit leaderCommit
        some (node, down ++ merge ++ commit ++ [.send <| node.message sender <|
          .appendEntriesResponse true none none])

-- Where the leader probes next after a rejection.
def backtrack (node : RaftNode) (sender : NodeId) (conflictTerm : Option ℕ)
    (conflictIndex : Option ℕ) : ℕ :=
  match conflictTerm, conflictIndex with
  | some t, c =>
    match node.log.lastIndexOfTerm t with
    | some lastIdx => lastIdx + 1
    | none         => c.getD 1
  | none, some c => c
  | none, none   => (node.nextIndex sender).getD 1 - 1

def handleAppendEntriesResponse (node : RaftNode) (sender : NodeId) (term : ℕ) (success : Bool)
    (conflictTerm : Option ℕ) (conflictIndex : Option ℕ) : Outcome :=
  if node.role ≠ .leader ∨ term ≠ node.currentTerm then
    (node, [])
  else if success then
    maybeAdvanceCommitIndex { node with
      nextIndex  := Function.update node.nextIndex sender (some (node.log.lastIndex + 1))
      matchIndex := Function.update node.matchIndex sender (some node.log.lastIndex) }
  else
    let next := node.backtrack sender conflictTerm conflictIndex
    let next := if next = 0 then 1 else next
    let node := { node with nextIndex := Function.update node.nextIndex sender (some next) }
    (node, [node.replicateToPeer sender])

def handleInstallSnapshot (node : RaftNode) (sender : NodeId) (term : ℕ)
    (lastIncludedIndex : ℕ) (lastIncludedTerm : ℕ) (data : Command) (done : Bool) :
    Outcome :=
  if term < node.currentTerm then
    (node, [.send <| node.message sender .installSnapshotResponse])
  else
    let (node, down) := node.becomeFollower term (some sender)
    if lastIncludedIndex ≤ node.commitIndex then
      (node, down ++ [.send <| node.message sender .installSnapshotResponse])
    else if done then
      let node := { node with
        log         := node.log.installSnapshot { lastIncludedIndex, lastIncludedTerm }
        commitIndex := lastIncludedIndex
        lastApplied := lastIncludedIndex }
      (node, down ++ [.persistSnapshot lastIncludedIndex lastIncludedTerm data,
        .send <| node.message sender .installSnapshotResponse])
    else
      (node, down ++ [.send <| node.message sender .installSnapshotResponse])

def handleInstallSnapshotResponse (node : RaftNode) (sender : NodeId) (term : ℕ) : Outcome :=
  if node.role ≠ .leader ∨ term ≠ node.currentTerm then
    (node, [])
  else
    maybeAdvanceCommitIndex { node with
      matchIndex := Function.update node.matchIndex sender (some node.log.firstIndex)
      nextIndex  := Function.update node.nextIndex sender (some (node.log.firstIndex + 1)) }

/-! ### The entry points -/

def tick (node : RaftNode) : Outcome :=
  match node.role with
  | .leader =>
    let node := { node with heartbeatElapsed := node.heartbeatElapsed + 1 }
    if node.heartbeatElapsed ≥ node.heartbeatInterval then
      let node := { node with heartbeatElapsed := 0 }
      (node, node.broadcastHeartbeats)
    else
      (node, [])
  | .follower | .candidate | .preCandidate =>
    let node := { node with electionElapsed := node.electionElapsed + 1 }
    if node.electionElapsed ≥ node.electionTimeout then
      startPreVote { node with electionElapsed := 0 }
    else
      (node, [])

def propose (node : RaftNode) (command : Command) : Outcome :=
  if node.role ≠ .leader then
    (node, [])
  else
    let entry : LogEntry :=
      { index := node.log.lastIndex + 1, term := node.currentTerm, command := command }
    let node := { node with log := node.log.append [entry] }
    let sends := .appendEntries [entry] :: node.broadcastAppendEntries
    if node.peers.isEmpty then
      let (node, commit) := node.maybeAdvanceCommitIndex
      (node, sends ++ commit)
    else
      (node, sends)

def compactLogs (node : RaftNode) (lastIncludedIndex : ℕ) (lastIncludedTerm : ℕ)
    (data : Command) : Outcome :=
  if lastIncludedIndex > node.commitIndex then
    (node, [])
  else
    ({ node with log := node.log.compact lastIncludedIndex lastIncludedTerm },
      [.persistSnapshot lastIncludedIndex lastIncludedTerm data])

def handleClientRequest (node : RaftNode) (sender : NodeId) (command : Command) : Outcome :=
  if node.role = .leader then
    let (node, proposal) := node.propose command
    (node, proposal ++ [.send <| node.message sender <| .clientResponse true (some node.id)])
  else
    (node, [.send <| node.message sender <| .clientResponse false node.leaderId])

-- The `match msg.kind` of `step`.
def dispatch (node : RaftNode) (msg : Message) : Option Outcome :=
  match msg.kind with
  | .clientRequest command  => some <| node.handleClientRequest msg.sender command
  | .clientResponse ..      => some (node, [])
  | .preVote i t            => some <| node.handlePreVote msg.sender msg.term i t
  | .preVoteResponse g      => some <| node.handlePreVoteResponse msg.sender msg.term g
  | .requestVote i t        => some <| node.handleRequestVote msg.sender i t
  | .requestVoteResponse g  => some <| node.handleRequestVoteResponse msg.sender msg.term g
  | .appendEntries i t es c => node.handleAppendEntries msg.sender msg.term i t es c
  | .appendEntriesResponse s t i =>
    some <| node.handleAppendEntriesResponse msg.sender msg.term s t i
  | .installSnapshot i t _ data done =>
    some <| node.handleInstallSnapshot msg.sender msg.term i t data done
  | .installSnapshotResponse => some <| node.handleInstallSnapshotResponse msg.sender msg.term

-- `none` is a panic.
def step (node : RaftNode) (msg : Message) : Option Outcome :=
  let gated := !msg.kind.isPreVote && !msg.kind.isClient
  let (node, down) :=
    if msg.term > node.currentTerm && gated then node.becomeFollower msg.term none else (node, [])
  if msg.term < node.currentTerm && gated then
    some (node, down)
  else do
    let (node, actions) ← node.dispatch msg
    some (node, down ++ actions)

end RaftNode
end RaftRupee
