import RaftRupee.Core.Node

namespace RaftRupee

-- The timeouts that `Simulator::new` gives to a node.
def Config.simulated (id : NodeId) (peers : List NodeId) (rngSeed : SmallRng) : Config where
  id                     := id
  peers                  := peers
  electionTimeoutTicks   := 15
  heartbeatIntervalTicks := 4
  rngSeed                := rngSeed
  heartbeat_lt           := by decide

-- The disk of the simulator. `none` is a panic throughout: a failed assertion, a non-contiguous
-- write, or an index or slice into an empty `log_entries`.
structure StableDisk where
  nodeId      : NodeId
  currentTerm : ℕ
  votedFor    : Option NodeId
  logEntries  : List LogEntry
  snapshot    : Option (SnapshotMeta × Command)
  deriving DecidableEq, Repr

namespace StableDisk

def new (nodeId : NodeId) : StableDisk where
  nodeId      := nodeId
  currentTerm := 0
  votedFor    := none
  logEntries  := [{ index := 0, term := 0, command := [] }]
  snapshot    := none

def writeHardState (disk : StableDisk) (term : ℕ) (votedFor : Option NodeId) : StableDisk :=
  { disk with currentTerm := term, votedFor := votedFor }

-- One round of the loop of `append_entries`.
def appendEntry (log : List LogEntry) (entry : LogEntry) : Option (List LogEntry) :=
  match log with
  | [] => none
  | base :: _ =>
    if entry.index < base.index then
      some log
    else
      let offset := entry.index - base.index
      match log[offset]? with
      | some held => if held.term ≠ entry.term then some (log.take offset ++ [entry]) else some log
      | none      => if offset = log.length then some (log ++ [entry]) else none

def appendEntries (disk : StableDisk) (entries : List LogEntry) : Option StableDisk := do
  let log ← entries.foldlM appendEntry disk.logEntries
  some { disk with logEntries := log }

def truncateAndAppend (disk : StableDisk) (fromIndex : ℕ) (entries : List LogEntry) :
    Option StableDisk :=
  match disk.logEntries with
  | [] => none
  | base :: _ =>
    if fromIndex ≥ base.index then
      appendEntries { disk with logEntries := disk.logEntries.take (fromIndex - base.index) } entries
    else
      none

def writeSnapshot (disk : StableDisk) (snap : SnapshotMeta) (data : Command) : Option StableDisk :=
  match disk.logEntries with
  | [] => none
  | base :: _ =>
    let disk := { disk with snapshot := some (snap, data) }
    if snap.lastIncludedIndex > base.index then
      let offset := snap.lastIncludedIndex - base.index
      let sentinel : LogEntry :=
        { index := snap.lastIncludedIndex, term := snap.lastIncludedTerm, command := [] }
      if offset ≥ disk.logEntries.length then
        some { disk with logEntries := [sentinel] }
      else
        some { disk with logEntries := sentinel :: (disk.logEntries.drop offset).tail }
    else
      some disk

-- The log that `Simulator::spawn_node` puts together from the disk.
def reconstructedLog (disk : StableDisk) : Option RaftLog :=
  match disk.logEntries, disk.snapshot with
  | [], _                     => none
  | _ :: rest, some (snap, _) => some (.restore snap rest)
  | _ :: rest, none           => some (.restore { lastIncludedIndex := 0, lastIncludedTerm := 0 } rest)

def initialCommitApplied (disk : StableDisk) : ℕ :=
  match disk.snapshot with
  | some (snap, _) => snap.lastIncludedIndex
  | none           => 0

-- `Simulator::spawn_node`.
def spawnNode (disk : StableDisk) (config : Config) : Option RaftNode := do
  let log ← disk.reconstructedLog
  some <| .restore config disk.currentTerm disk.votedFor log disk.initialCommitApplied
    disk.initialCommitApplied

variable {disk disk' : StableDisk}

-- The log that a restart finds has the entries after the first one, and starts at the snapshot.
theorem reconstructedLog_spec {log : RaftLog} (h : disk.reconstructedLog = some log) :
    ∃ base, disk.logEntries = base :: log.rest ∧ log.firstIndex = disk.initialCommitApplied := by
  unfold reconstructedLog at h
  unfold initialCommitApplied
  split at h
  case h_1 => contradiction
  case h_2 base rest _ _ hL hs =>
    cases h
    exact ⟨base, hL, by rw [hs]; rfl⟩
  case h_3 base rest hL hs =>
    cases h
    exact ⟨base, hL, by rw [hs]; rfl⟩

/-! ### What a write leaves alone -/

theorem appendEntries_frame {entries : List LogEntry} (h : disk.appendEntries entries = some disk') :
    disk' = { disk with logEntries := disk'.logEntries } := by
  obtain ⟨_, _, h⟩ := Option.bind_eq_some_iff.mp h
  cases h
  rfl

theorem truncateAndAppend_frame {fromIndex : ℕ} {entries : List LogEntry}
    (h : disk.truncateAndAppend fromIndex entries = some disk') :
    disk' = { disk with logEntries := disk'.logEntries } := by
  unfold truncateAndAppend at h
  split at h
  case h_1 => contradiction
  case h_2 =>
    split at h
    case isFalse => contradiction
    case isTrue  =>
      have := appendEntries_frame h
      exact this

theorem writeSnapshot_frame {snap : SnapshotMeta} {data : Command}
    (h : disk.writeSnapshot snap data = some disk') :
    disk' = { disk with snapshot := some (snap, data), logEntries := disk'.logEntries } := by
  unfold writeSnapshot at h
  split at h
  case h_1 => contradiction
  case h_2 =>
    dsimp only at h
    split at h
    case isTrue  => split at h <;> cases h <;> rfl
    case isFalse =>
      cases h
      rfl

-- A node that is spawned knows of no leader.
theorem spawnNode_follower {config : Config} {node : RaftNode}
    (h : disk.spawnNode config = some node) : node.role = .follower ∧ node.leaderId = none := by
  obtain ⟨_, _, h⟩ := Option.bind_eq_some_iff.mp h
  cases h
  exact ⟨rfl, rfl⟩

end StableDisk
end RaftRupee
