import RaftRupee.Sim.Mirroring

namespace RaftRupee

variable {disk disk' : StableDisk} {log : RaftLog} {node : RaftNode} {i t : ℕ} {data : Command}

-- The disk holds the entries of the log, and a snapshot at its base unless that is 0.
structure StableDisk.Agrees (disk : StableDisk) (log : RaftLog) : Prop where
  contiguous : log.Contiguous
  command    : log.sentinel.command = []
  entries    : disk.logEntries = log.entries
  snapshot   : log.firstIndex ≠ 0 → ∃ data, disk.snapshot =
    some ({ lastIncludedIndex := log.firstIndex, lastIncludedTerm := log.sentinel.term }, data)

-- What a compaction up to index `i` has to leave behind.
structure Compacts (i : ℕ) (log log' : RaftLog) (disk disk' : StableDisk) : Prop where
  snapshot   : disk'.snapshot.map (·.1.lastIncludedIndex) = some log'.firstIndex
  contiguous : log'.Contiguous
  rebuilt    : ∀ config, (disk'.spawnNode config).map (·.log) = some log'
  suffix     : ∀ j, log'.firstIndex < j → log'.entryAt j = log.entryAt j
  below      : i < log.firstIndex → log' = log ∧ disk' = disk

namespace StableDisk.Agrees

theorem writeSnapshot_eq (h : disk.Agrees log) (i t : ℕ) (data : Command) :
    disk.writeSnapshot { lastIncludedIndex := i, lastIncludedTerm := t } data = some { disk with
      snapshot   := some ({ lastIncludedIndex := i, lastIncludedTerm := t }, data)
      logEntries := (log.compact i t).entries } := by
  rw [StableDisk.writeSnapshot_eq h.entries rfl t data, RaftLog.entries]
  split
  case isTrue     => rfl
  case isFalse hi => rw [RaftLog.compact_of_le (Nat.le_of_not_lt hi)]

theorem compacts (h : disk.Agrees log) (data : Command) (hi : log.firstIndex ≤ i)
    (ht : i = log.firstIndex → t = log.sentinel.term) : Compacts i log (log.compact i t) disk { disk with
      snapshot   := some ({ lastIncludedIndex := i, lastIncludedTerm := t }, data)
      logEntries := (log.compact i t).entries } where
  snapshot   := by
    rw [RaftLog.firstIndex_compact, Nat.max_eq_right hi]
    rfl
  contiguous := h.contiguous.compact
  rebuilt config := by
    have hsent : (log.compact i t).sentinel = { index := i, term := t, command := [] } := by
      rcases hi.eq_or_lt with heq | hlt
      case inl =>
        rw [RaftLog.compact_of_le heq.ge, ht heq.symm, ← heq, ← h.command]
        rfl
      case inr => exact RaftLog.sentinel_compact hlt
    have hlog : StableDisk.reconstructedLog { disk with
        snapshot   := some ({ lastIncludedIndex := i, lastIncludedTerm := t }, data)
        logEntries := (log.compact i t).entries } = some (log.compact i t) :=
      congrArg some (RaftLog.ext hsent.symm rfl)
    rw [StableDisk.spawnNode, hlog]
    rfl
  suffix j   := RaftLog.entryAt_compact
  below hlt  := absurd hlt (Nat.not_lt.mpr hi)

end StableDisk.Agrees

theorem compacts_iff (h : disk.Agrees node.log) (hi : i ≤ node.commitIndex)
    (ht : ∀ u, node.log.termAt i = some u → t = u) :
    (∃ disk', disk.performAll (node.compactLogs i t data).2 = some disk' ∧
      Compacts i node.log (node.compactLogs i t data).1.log disk disk') ↔ node.log.firstIndex ≤ i := by
  have hcompact : node.compactLogs i t data =
      ({ node with log := node.log.compact i t }, [.persistSnapshot i t data]) :=
    if_neg (Nat.not_lt.mpr hi)
  have hperform : disk.performAll [.persistSnapshot i t data] = some _ :=
    StableDisk.performAll_cons (a := .persistSnapshot ..) (h.writeSnapshot_eq i t data)
  rw [hcompact]
  constructor
  case mp =>
    rintro ⟨disk', hd, hc⟩
    cases hperform.symm.trans hd
    have hbase := (Option.some.inj hc.snapshot).trans (node.log.firstIndex_compact i t)
    exact Nat.le_of_not_lt fun hlt => absurd hbase (by simp only; omega)
  case mpr =>
    refine fun hb => ⟨_, hperform, h.compacts data hb fun he => ht _ ?_⟩
    rw [he, RaftLog.termAt_firstIndex]

/-! ### A snapshot that goes back -/

-- A node that has compacted its log up to index 2, and its disk.
def compactedNode : RaftNode :=
  { RaftNode.new (.simulated 1 [2, 3] ⟨fun _ => 0⟩) with
    log         := { sentinel := ⟨2, 1, []⟩, rest := [⟨3, 1, [7]⟩, ⟨4, 1, [8]⟩] }
    commitIndex := 3
    lastApplied := 3 }

def compactedDisk : StableDisk :=
  { StableDisk.new 1 with
    currentTerm := 1
    logEntries  := [⟨2, 1, []⟩, ⟨3, 1, [7]⟩, ⟨4, 1, [8]⟩]
    snapshot    := some ({ lastIncludedIndex := 2, lastIncludedTerm := 1 }, []) }

theorem compactedDisk_agrees : compactedDisk.Agrees compactedNode.log :=
  ⟨⟨rfl, rfl, trivial⟩, rfl, rfl, fun _ => ⟨[], rfl⟩⟩

-- It can compact one more entry, and keeps the last one.
theorem compacts_iff_more : (compactedNode.compactLogs 3 1 []).1.log.entryAt 4 = some ⟨4, 1, [8]⟩ ∧
    ∃ disk', compactedDisk.performAll (compactedNode.compactLogs 3 1 []).2 = some disk' ∧
      Compacts 3 compactedNode.log (compactedNode.compactLogs 3 1 []).1.log compactedDisk disk' :=
  have h := compacts_iff (i := 3) (t := 1) compactedDisk_agrees (by decide)
    fun _ hu => Option.some.inj hu
  ⟨by decide, h.mpr (by decide)⟩

-- The snapshot of an older index takes the place of the newer one, and a restart takes its index for the
-- base of the log.
theorem not_compacts : ¬∀ (disk : StableDisk) (node : RaftNode) (i t : ℕ) (data : Command),
    disk.Agrees node.log → i ≤ node.commitIndex → (∀ u, node.log.termAt i = some u → t = u) →
    ∃ disk', disk.performAll (node.compactLogs i t data).2 = some disk' ∧
      Compacts i node.log (node.compactLogs i t data).1.log disk disk' := by
  intro h
  obtain ⟨disk', hd, hc⟩ := h compactedDisk compactedNode 1 1 [] compactedDisk_agrees (by decide)
    fun u hu => by cases hu
  cases hd
  exact absurd hc.snapshot (by decide)

end RaftRupee
