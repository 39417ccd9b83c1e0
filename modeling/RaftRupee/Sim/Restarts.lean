import RaftRupee.Sim.Disk
import RaftRupee.Sim.Layer

namespace RaftRupee

/-! ### What is written to a disk -/

-- A log on disk is never truncated without being continued.
def Action.Continues : Action → Prop
  | truncateAndAppend _ es => es ≠ []
  | _                      => True

section

variable {m : Cause} {k k' : Kernel} {as : List Action}

theorem Action.IsHint.continues {a : Action} {id : NodeId} (h : a.IsHint id) : a.Continues := by
  cases a
  case send => trivial
  all_goals exact h.elim

theorem Replicates.continues {a : Action} (h : Replicates k a) : a.Continues := by
  cases h <;> trivial

theorem Kernel.campaignActions_continue (k : Kernel) : ∀ a ∈ k.campaignActions, a.Continues := by
  simp [campaignActions, Action.Continues]

theorem Merges.continues {log log' : RaftLog} {es : List LogEntry} (h : Merges log es log' as) :
    ∀ a ∈ as, a.Continues := by
  cases h
  case splice hlt hs _ =>
    have hne := List.drop_eq_nil_iff.not.mpr hlt.not_ge
    exact List.forall_mem_singleton.mpr (hs ▸ hne)
  all_goals exact fun _ ha => absurd ha List.not_mem_nil

theorem Move.continues (h : Move m k k' as) : ∀ a ∈ as, a.Continues := by
  have apply_continues (es : List LogEntry) : (Action.apply es).Continues := trivial
  cases h
  case idle h                => exact fun a ha => (h a ha).continues
  case campaign              => exact Kernel.campaignActions_continue k
  case replicate h           => exact fun a ha => (h a ha).continues
  case confirm h             => exact h.forall_mem apply_continues
  case elect h               =>
    exact List.forall_mem_cons.mpr ⟨trivial, fun a ha => (h a ha).continues⟩
  case propose h             =>
    exact List.forall_mem_cons.mpr ⟨trivial, fun a ha => (h a ha).elim (·.continues) (·.continues)⟩
  case lone                  =>
    exact List.forall_mem_append.mpr ⟨Kernel.campaignActions_continue k, List.forall_mem_singleton.mpr trivial⟩
  case proposeAlone hh ha    =>
    simp only [List.forall_mem_append, List.forall_mem_cons]
    exact ⟨⟨trivial, ha.forall_mem apply_continues⟩, fun a ha => (hh a ha).continues⟩
  case accept hm hf          =>
    simp only [List.forall_mem_append, List.forall_mem_singleton]
    exact ⟨⟨hm.continues, hf.forall_mem apply_continues⟩, trivial⟩
  all_goals simp [Action.Continues]

theorem Call.continues (h : Call m k k' as) : ∀ a ∈ as, a.Continues := by
  cases h
  case same h  => exact h.continues
  case later h => exact List.forall_mem_cons.mpr ⟨trivial, h.continues⟩

end

/-! ### Disks in any run -/

namespace StableDisk

variable {disk disk' : StableDisk} {log : RaftLog} {L L' es : List LogEntry} {e : LogEntry} {b i t : ℕ}

-- The entries on disk are numbered from the base on, which is not below the snapshot.
structure Numbered (disk : StableDisk) (b : ℕ) : Prop where
  ne_nil      : disk.logEntries ≠ []
  consecutive : Consecutive b disk.logEntries
  snapshot_le : disk.initialCommitApplied ≤ b

theorem appendEntry_consecutive (h : Consecutive b L) (ha : appendEntry L e = some L') :
    L' ≠ [] ∧ Consecutive b L' := by
  cases L
  case nil => contradiction
  case cons base rest =>
    have hbase : base.index = b := h.left
    simp only [appendEntry] at ha
    split at ha
    case isTrue =>
      cases ha
      exact ⟨List.cons_ne_nil _ _, h⟩
    case isFalse hge =>
      have hnew (hle : e.index - base.index ≤ (base :: rest).length) :
          Consecutive b ((base :: rest).take (e.index - base.index) ++ [e]) := by
        refine Consecutive.append.mpr ⟨h.take _, ?_, trivial⟩
        rw [List.length_take_of_le hle]
        omega
      split at ha
      case h_1 held hheld =>
        split at ha <;> cases ha
        case isTrue => exact ⟨by simp, hnew (List.getElem?_eq_some_iff.mp hheld).choose.le⟩
        case isFalse => exact ⟨List.cons_ne_nil _ _, h⟩
      case h_2 =>
        split at ha
        case isTrue heq =>
          cases ha
          have := hnew heq.le
          rw [heq, List.take_length] at this
          exact ⟨by simp, this⟩
        case isFalse => contradiction

-- An entry is taken that leaves no gap.
theorem appendEntry_isSome (hne : L ≠ []) (h : Consecutive b L) (hi : e.index ≤ b + L.length) :
    (appendEntry L e).isSome := by
  cases L
  case nil => contradiction
  case cons base rest =>
    have hbase : base.index = b := h.left
    simp only [appendEntry]
    split
    case isTrue => rfl
    case isFalse =>
      split
      case h_1 => split <;> rfl
      case h_2 hnone =>
        have := List.getElem?_eq_none_iff.mp hnone
        rw [if_pos (by omega)]
        rfl

theorem appendEntries_consecutive (hne : L ≠ [] ∨ es ≠ []) (h : Consecutive b L)
    (ha : es.foldlM appendEntry L = some L') : L' ≠ [] ∧ Consecutive b L' := by
  induction es generalizing L
  case nil =>
    cases ha
    exact ⟨hne.resolve_right (· rfl), h⟩
  case cons e es hi =>
    rw [List.foldlM_cons] at ha
    obtain ⟨L₁, h₁, ha⟩ := Option.bind_eq_some_iff.mp ha
    obtain ⟨hne₁, hc₁⟩ := appendEntry_consecutive h h₁
    exact hi (.inl hne₁) hc₁ ha

-- The disk takes any entry with this index.
def Takes (disk : StableDisk) (i : ℕ) : Prop :=
  ∀ e : LogEntry, e.index = i → (appendEntry disk.logEntries e).isSome

theorem Takes.appendEntries (h : disk.Takes i) (he : e.index = i) :
    ∃ disk', disk.appendEntries [e] = some disk' := by
  obtain ⟨L, hL⟩ := Option.isSome_iff_exists.mp (h e he)
  exact ⟨_, by rw [StableDisk.appendEntries, List.foldlM_cons, hL]; rfl⟩

namespace Numbered

theorem new (id : NodeId) : (StableDisk.new id).Numbered 0 :=
  ⟨List.cons_ne_nil _ _, ⟨rfl, trivial⟩, le_rfl⟩

theorem writeHardState (h : disk.Numbered b) (term : ℕ) (votedFor : Option NodeId) :
    (disk.writeHardState term votedFor).Numbered b :=
  ⟨h.ne_nil, h.consecutive, h.snapshot_le⟩

theorem appendEntries (h : disk.Numbered b) (ha : disk.appendEntries es = some disk') : disk'.Numbered b := by
  obtain ⟨L, hL, ha⟩ := Option.bind_eq_some_iff.mp ha
  cases ha
  obtain ⟨hne, hc⟩ := appendEntries_consecutive (.inl h.ne_nil) h.consecutive hL
  exact ⟨hne, hc, h.snapshot_le⟩

theorem truncateAndAppend (h : disk.Numbered b) (hes : es ≠ [])
    (ha : disk.truncateAndAppend i es = some disk') : disk'.Numbered b := by
  unfold StableDisk.truncateAndAppend at ha
  split at ha
  case h_1 => contradiction
  case h_2 =>
    split at ha
    case isFalse => contradiction
    case isTrue =>
      obtain ⟨L, hL, ha⟩ := Option.bind_eq_some_iff.mp ha
      cases ha
      obtain ⟨hne, hc⟩ := appendEntries_consecutive (.inr hes) (h.consecutive.take _) hL
      exact ⟨hne, hc, h.snapshot_le⟩

theorem writeSnapshot {data : Command} (h : disk.Numbered b)
    (ha : disk.writeSnapshot { lastIncludedIndex := i, lastIncludedTerm := t } data = some disk') :
    ∃ b', disk'.Numbered b' := by
  unfold StableDisk.writeSnapshot at ha
  split at ha
  case h_1 => contradiction
  case h_2 base rest hL =>
    have hbase : base.index = b := (hL ▸ h.consecutive).left
    dsimp only at ha
    split at ha
    case isFalse hle =>
      cases ha
      exact ⟨b, h.ne_nil, h.consecutive, hbase ▸ not_lt.mp hle⟩
    case isTrue hlt =>
      refine ⟨i, ?_⟩
      have hdrop : Consecutive i (disk.logEntries.drop (i - base.index)) := by
        have := h.consecutive.drop (i - base.index)
        rwa [show b + (i - base.index) = i by omega] at this
      split at ha <;> cases ha
      case isTrue => exact ⟨List.cons_ne_nil _ _, ⟨rfl, trivial⟩, le_rfl⟩
      case isFalse =>
        refine ⟨List.cons_ne_nil _ _, ⟨rfl, ?_⟩, le_rfl⟩
        have := hdrop.drop 1
        rwa [List.drop_one] at this

-- A restart finds a log.
theorem exists_reconstructedLog (h : disk.Numbered b) : ∃ log, disk.reconstructedLog = some log := by
  unfold reconstructedLog
  split
  case h_1 hnil => exact absurd hnil h.ne_nil
  all_goals exact ⟨_, rfl⟩

-- The disk takes the entry that comes next in the log that a restart finds.
theorem takes (h : disk.Numbered b) (hl : disk.reconstructedLog = some log) :
    disk.Takes (log.lastIndex + 1) := by
  intro e he
  refine appendEntry_isSome h.ne_nil h.consecutive ?_
  obtain ⟨base, hL, hfirst⟩ := reconstructedLog_spec hl
  have hle := h.snapshot_le
  have hc := h.consecutive
  rw [hL] at hc ⊢
  rcases List.eq_nil_or_concat log.rest with hr | ⟨rest, last, hr⟩
  case inl =>
    have hlast : log.lastIndex = log.firstIndex := by
      simp [RaftLog.lastIndex, RaftLog.last, hr, RaftLog.firstIndex]
    rw [he, hlast, hr, List.length_singleton]
    omega
  case inr =>
    have hlast : log.lastIndex = last.index := by simp [RaftLog.lastIndex, RaftLog.last, hr]
    have hidx : (base :: log.rest)[rest.length + 1]? = some last := by simp [hr]
    rw [he, hlast, hc.index_eq hidx, hr, List.length_cons, List.length_concat]
    omega

end Numbered
end StableDisk

namespace Cluster

variable {C : Cluster} {guard : State → Event → Prop} {s : State} {id : NodeId}

-- No disk gets into a state from which its node cannot be restarted, whatever is compacted.
def diskLayer (C : Cluster) (guard : State → Event → Prop) : Layer C guard where
  world w      := ∀ id ∈ C.members, ∃ b, (w.disks id).Numbered b
  memory _ _ _ := True
  init id _    := ⟨0, .new id⟩
  spawn _ _ _  := trivial
  call {s id input cut node as} _ hw _ _ _ hcall := by
    have hcont := (State.call_kernel hcall).continues
    refine (Crash.Sound.all (J := fun w => ∀ id ∈ C.members, ∃ b, (w.disks id).Numbered b) (fun _ h => h)
      ?_ hw).mono (fun _ h => ⟨h, fun _ _ _ => trivial⟩) fun _ _ _ => trivial
    intro w w' a ha hw h id' hid'
    by_cases hne : id' = id
    case neg => exact (World.Grows.processAction h).disks id' hne ▸ hw id' hid'
    case pos =>
      subst hne
      obtain ⟨b, hb⟩ := hw id' hid'
      have hcont := hcont a ha
      cases a
      case send | apply =>
        cases h
        exact ⟨b, hb⟩
      case persistHardState term votedFor =>
        cases h
        exact ⟨b, by simpa [World.setDisk] using hb.writeHardState term votedFor⟩
      all_goals
        obtain ⟨disk, hd, h⟩ := Option.map_eq_some_iff.mp h
        cases h
        simp only [World.setDisk, Function.update_self]
      case appendEntries     => exact ⟨b, hb.appendEntries hd⟩
      case truncateAndAppend => exact ⟨b, hb.truncateAndAppend hcont hd⟩
      case persistSnapshot   => exact hb.writeSnapshot hd

theorem disk_numbered (r : C.system.Reachable guard s) (hid : id ∈ C.members) : ∃ b, (s.disks id).Numbered b :=
  ((diskLayer C guard).invariant r).world id hid

end Cluster
end RaftRupee
