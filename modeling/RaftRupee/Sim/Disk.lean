import RaftRupee.Core.Contiguous
import RaftRupee.Sim.Storage

namespace RaftRupee
namespace StableDisk

variable {disk disk' : StableDisk} {log : RaftLog} {base e : LogEntry} {rest es L : List LogEntry}
variable {i t : ℕ}

-- The disk holds a well-formed log, which a restart reconstructs.
structure Holds (disk : StableDisk) (log : RaftLog) : Prop where
  contiguous    : log.Contiguous
  command       : log.sentinel.command = []
  entries       : ∃ base, disk.logEntries = base :: log.rest ∧ base.index = log.firstIndex
  reconstructed : disk.reconstructedLog = some log

namespace Holds

theorem unique {log' : RaftLog} (h : disk.Holds log) (h' : disk.Holds log') : log = log' :=
  Option.some.inj <| h.reconstructed.symm.trans h'.reconstructed

theorem new (id : NodeId) : (StableDisk.new id).Holds .new :=
  ⟨trivial, rfl, ⟨_, rfl, rfl⟩, rfl⟩

theorem writeHardState (h : disk.Holds log) (term : ℕ) (votedFor : Option NodeId) :
    (disk.writeHardState term votedFor).Holds log :=
  ⟨h.contiguous, h.command, h.entries, h.reconstructed⟩

theorem initialCommitApplied_eq (h : disk.Holds log) : disk.initialCommitApplied = log.firstIndex :=
  have ⟨_, _, hfirst⟩ := reconstructedLog_spec h.reconstructed
  hfirst.symm

-- A node that is spawned starts at the base of the log that the disk holds.
theorem spawnNode (h : disk.Holds log) (config : Config) : disk.spawnNode config =
    some (.restore config disk.currentTerm disk.votedFor log log.firstIndex log.firstIndex) := by
  simp [StableDisk.spawnNode, h.reconstructed, h.initialCommitApplied_eq]

-- Writes that leave the base of the log alone.
theorem setRest (h : disk.Holds log) (hb : base.index = log.firstIndex)
    (hr : Consecutive (log.firstIndex + 1) rest) :
    { disk with logEntries := base :: rest }.Holds { log with rest } where
  contiguous    := hr
  command       := h.command
  entries       := ⟨base, rfl, hb⟩
  reconstructed := by
    obtain ⟨_, he, _⟩ := h.entries
    have hc := h.reconstructed
    unfold reconstructedLog at hc ⊢
    rw [he] at hc
    rcases hs : disk.snapshot with _ | snap
    all_goals
      rw [hs] at hc
      have hsent := congrArg RaftLog.sentinel <| Option.some.inj hc
      simp only [← hsent]
      rfl

end Holds

/-! ### Appending -/

-- Entries that continue the log on disk.
theorem appendEntry_fold (hb : L.head?.map (·.index) = some i) (he : Consecutive (i + L.length) es) :
    es.foldlM appendEntry L = some (L ++ es) := by
  induction es generalizing L
  case nil => simp
  case cons e es hi =>
    obtain ⟨b, L', rfl⟩ : ∃ b L', L = b :: L' := by
      cases L
      · contradiction
      · exact ⟨_, _, rfl⟩
    have hb' : b.index = i := by simpa using hb
    have happ : appendEntry (b :: L') e = some (b :: L' ++ [e]) := by
      have hlt : ¬e.index < b.index := by rw [he.left, hb']; omega
      have hoff : e.index - b.index = (b :: L').length := by rw [he.left, hb']; omega
      simp only [appendEntry, hlt, if_false, hoff, List.getElem?_eq_none le_rfl, if_true]
    rw [List.foldlM_cons, happ]
    have := @hi (b :: L' ++ [e]) (by simpa using hb) (by
      have := he.right
      simpa [Nat.add_assoc] using this)
    simpa using this

-- An entry that the log on disk may have already, in which case it takes the place of a conflicting one.
theorem appendEntry_spec (hr : Consecutive (base.index + 1) rest) (hl : base.index < e.index)
    (hu : e.index ≤ base.index + rest.length + 1) :
    ∃ rest', appendEntry (base :: rest) e = some (base :: rest') ∧
      Consecutive (base.index + 1) rest' ∧ e.index ≤ base.index + rest'.length := by
  obtain ⟨n, hn⟩ : ∃ n, e.index - base.index = n + 1 := ⟨e.index - base.index - 1, by omega⟩
  have hlt : ¬e.index < base.index := by omega
  simp only [appendEntry, hlt, if_false, hn, List.getElem?_cons_succ, List.take_succ_cons]
  have hnew : Consecutive (base.index + 1) (rest.take n ++ [e]) := by
    refine Consecutive.append.mpr ⟨hr.take n, ?_, trivial⟩
    rw [List.length_take_of_le (by omega)]
    omega
  split
  case h_1 held hheld =>
    have : n < rest.length := (List.getElem?_eq_some_iff.mp hheld).choose
    split
    case isTrue  => exact ⟨_, rfl, hnew, by simp; omega⟩
    case isFalse => exact ⟨_, rfl, hr, by omega⟩
  case h_2 hnone =>
    have : rest.length ≤ n := List.getElem?_eq_none_iff.mp hnone
    have hlen : n + 1 = (base :: rest).length := by simp; omega
    rw [if_pos hlen]
    rw [List.take_of_length_le this] at hnew
    exact ⟨_, rfl, hnew, by simp; omega⟩

-- The log on disk is compacted as the one in memory, while the snapshot is recorded at any index.
theorem writeSnapshot_eq (hb : disk.logEntries = base :: log.rest) (hbi : base.index = log.firstIndex)
    (t : ℕ) (data : Command) :
    disk.writeSnapshot { lastIncludedIndex := i, lastIncludedTerm := t } data = some { disk with
      snapshot   := some ({ lastIncludedIndex := i, lastIncludedTerm := t }, data)
      logEntries := (if log.firstIndex < i then (log.compact i t).sentinel else base) ::
        (log.compact i t).rest } := by
  simp only [StableDisk.writeSnapshot, hb, hbi, gt_iff_lt]
  split
  case isFalse hi => rw [RaftLog.compact_of_le (by omega)]
  case isTrue hi =>
    rw [RaftLog.compact_of_lt hi]
    split
    case isTrue hl =>
      have hl : log.rest.length + 1 ≤ i - log.firstIndex := by simpa using hl
      rw [List.drop_eq_nil_of_le (by omega)]
    case isFalse =>
      obtain ⟨n, hn⟩ : ∃ n, i - log.firstIndex = n + 1 := ⟨i - log.firstIndex - 1, by omega⟩
      simp [hn]

namespace Holds

theorem append (h : disk.Holds log) (he : Consecutive (log.lastIndex + 1) es) :
    ∃ disk', disk.appendEntries es = some disk' ∧ disk'.Holds (log.append es) := by
  obtain ⟨base, hb, hi⟩ := h.entries
  have he' : Consecutive (log.firstIndex + disk.logEntries.length) es := by
    rw [h.contiguous.lastIndex_eq] at he
    simpa [hb, Nat.add_assoc] using he
  have hf := appendEntry_fold (by simp [hb, hi]) he'
  rw [hb] at hf
  refine ⟨_, by rw [appendEntries, hb, hf]; rfl, ?_⟩
  exact h.setRest hi (h.contiguous.append he)

theorem appendOne (h : disk.Holds log) (hl : log.firstIndex < e.index)
    (hu : e.index ≤ log.lastIndex + 1) :
    ∃ disk' rest, disk.appendEntries [e] = some disk' ∧ disk'.Holds { log with rest } ∧
      e.index ≤ RaftLog.lastIndex { log with rest } := by
  obtain ⟨base, hb, hi⟩ := h.entries
  rw [h.contiguous.lastIndex_eq] at hu
  have hc := h.contiguous
  rw [RaftLog.Contiguous, ← hi] at hc
  obtain ⟨rest, ha, hc, hle⟩ := appendEntry_spec hc (hi ▸ hl) (by omega)
  rw [hi] at hc hle
  have hd := h.setRest hi hc
  refine ⟨_, rest, by rw [appendEntries, hb, List.foldlM_cons, ha]; rfl, hd, ?_⟩
  rw [hd.contiguous.lastIndex_eq]
  exact hle

theorem truncateAndAppend (h : disk.Holds log) (hi : log.firstIndex < i) (hl : i ≤ log.lastIndex + 1)
    (he : Consecutive i es) : ∃ disk' log', disk.truncateAndAppend i es = some disk' ∧
      log.truncateAndAppend i es = some log' ∧ disk'.Holds log' := by
  obtain ⟨base, hb, hbi⟩ := h.entries
  have hlen := h.contiguous.lastIndex_eq
  obtain ⟨n, hn⟩ : ∃ n, i = log.firstIndex + 1 + n := ⟨i - log.firstIndex - 1, by omega⟩
  -- What truncation alone leaves is a log that ends right before the new entries.
  have ht : { disk with logEntries := base :: log.rest.take n }.Holds
      { log with rest := log.rest.take n } :=
    h.setRest hbi <| h.contiguous.take n
  have hlast : RaftLog.lastIndex { log with rest := log.rest.take n } + 1 = i := by
    rw [ht.contiguous.lastIndex_eq]
    simp [RaftLog.firstIndex] at hn ⊢
    simp [RaftLog.firstIndex] at hlen
    omega
  obtain ⟨disk', ha, hd⟩ := ht.append (hlast.symm ▸ he)
  refine ⟨disk', _, ?_, RaftLog.truncateAndAppend_eq hi, ?_⟩
  · rw [StableDisk.truncateAndAppend, hb]
    simp only [ge_iff_le, show base.index ≤ i by omega, if_true]
    rw [show i - base.index = n + 1 by omega, List.take_succ_cons]
    exact ha
  · rwa [show i - log.firstIndex - 1 = n by omega]

-- A snapshot above the base of the log compacts it.
theorem writeSnapshot_above (h : disk.Holds log) (t : ℕ) (data : Command) (hi : log.firstIndex < i) :
    ∃ disk', disk.writeSnapshot { lastIncludedIndex := i, lastIncludedTerm := t } data = some disk' ∧
      disk'.Holds (log.compact i t) := by
  obtain ⟨base, hb, hbi⟩ := h.entries
  have hcompact := RaftLog.compact_of_lt (t := t) hi
  refine ⟨_, writeSnapshot_eq hb hbi t data, h.contiguous.compact, by rw [hcompact], ⟨_, rfl, ?_⟩, ?_⟩
  · rw [if_pos hi]
    rfl
  · simp [reconstructedLog, hcompact, RaftLog.restore]

-- A snapshot at the base of the log changes nothing.
theorem writeSnapshot_base (h : disk.Holds log) (data : Command) (ht : t = log.sentinel.term) :
    ∃ disk', disk.writeSnapshot { lastIncludedIndex := log.firstIndex, lastIncludedTerm := t } data =
      some disk' ∧ disk'.Holds log := by
  subst ht
  obtain ⟨base, hb, hbi⟩ := h.entries
  have hcompact := RaftLog.compact_of_le (t := log.sentinel.term) (Nat.le_refl log.firstIndex)
  refine ⟨_, writeSnapshot_eq hb hbi _ data, h.contiguous, h.command, ⟨base, ?_, hbi⟩, ?_⟩
  · rw [if_neg (lt_irrefl _), hcompact]
  · simp only [reconstructedLog, hcompact, RaftLog.restore, ← h.command]
    rfl

theorem writeSnapshot (h : disk.Holds log) (data : Command) (hi : log.firstIndex ≤ i)
    (ht : i = log.firstIndex → t = log.sentinel.term) :
    ∃ disk', disk.writeSnapshot { lastIncludedIndex := i, lastIncludedTerm := t } data = some disk' ∧
      disk'.Holds (log.compact i t) := by
  rcases hi.eq_or_lt with rfl | hlt
  case inr => exact h.writeSnapshot_above t data hlt
  case inl =>
    rw [RaftLog.compact_of_le le_rfl]
    exact h.writeSnapshot_base data (ht rfl)

end Holds
end StableDisk
end RaftRupee
