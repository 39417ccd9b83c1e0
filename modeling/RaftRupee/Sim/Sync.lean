import RaftRupee.Sim.Disk
import RaftRupee.Sim.Votes

namespace RaftRupee

structure Kernel.WellFormed (k : Kernel) : Prop where
  contiguous : k.log.Contiguous
  command    : k.log.sentinel.command = []
  base_le    : k.log.firstIndex ≤ k.commitIndex

-- Actions that leave the log on disk alone, and send consecutive entries only.
def Action.Calm : Action → Prop
  | send msg            =>
    ∀ i t es c, msg.kind = .appendEntries i t es c → Consecutive (i + 1) es
  | persistHardState .. => True
  | apply _             => True
  | _                   => False

namespace Cluster

variable {C : Cluster} {K : Prop} {s : State} {w w' : World} {id : NodeId} {T : ℕ}
variable {m : Cause} {answers : Option Message} {k k' : Kernel} {as bs : List Action}
variable {log log' dlog : RaftLog}

-- The log on disk starts where the one in memory does and reaches at least as far. With `K` they are
-- the same.
structure Covers (K : Prop) (dlog log : RaftLog) : Prop where
  sentinel  : dlog.sentinel = log.sentinel
  lastIndex : log.lastIndex ≤ dlog.lastIndex
  eq        : K → dlog = log

namespace World

structure Stored (C : Cluster) (w : World) : Prop where
  disks   : ∀ id ∈ C.members, ∃ log, (w.disks id).Holds log
  entries : ∀ p ∈ w.network, ∀ i t es c, p.msg.kind = .appendEntries i t es c →
    Consecutive (i + 1) es

structure Synced (K : Prop) (w : World) (id : NodeId) (k : Kernel) : Prop
    extends k.WellFormed where
  disk : ∃ dlog, (w.disks id).Holds dlog ∧ Covers K dlog k.log

theorem Stored.setDisk {disk : StableDisk} (h : w.Stored C) (hd : disk.Holds log) :
    (w.setDisk id disk).Stored C where
  entries := h.entries
  disks id' hid := by
    by_cases hi : id' = id
    case pos => exact ⟨log, by simpa [World.setDisk, hi] using hd⟩
    case neg => simpa [World.setDisk, hi] using h.disks id' hid

theorem Stored.calm (h : w.Stored C) (hid : id ∈ C.members) (hc : ∀ a ∈ as, a.Calm) :
    Crash.Sound (processAction id T answers) (fun w' => w'.Stored C ∧ Grows id w w') w as
      fun w' => ∀ log, (w.disks id).Holds log → (w'.disks id).Holds log := by
  let J (w' : World) := (w'.Stored C ∧ Grows id w w') ∧
    ∀ log, (w.disks id).Holds log → (w'.disks id).Holds log
  refine (Crash.Sound.all (J := J) (fun _ => And.left) ?_ ⟨⟨h, .refl⟩, fun _ h => h⟩).mono
    (fun _ h => h) fun _ _ h => h.right
  rintro w₁ w₂ a ha ⟨⟨hs, hg⟩, hd⟩ h₂
  have hg := hg.trans <| .processAction h₂
  have hcalm := hc a ha
  cases a
  case send msg =>
    cases h₂
    refine ⟨⟨⟨hs.disks, fun p hp => ?_⟩, hg⟩, hd⟩
    rcases List.mem_append.mp hp with hp | hp
    · exact hs.entries p hp
    · cases List.mem_singleton.mp hp
      exact hcalm
  case apply =>
    cases h₂
    exact ⟨⟨⟨hs.disks, hs.entries⟩, hg⟩, hd⟩
  case persistHardState term votedFor =>
    cases h₂
    obtain ⟨log, hl⟩ := hs.disks id hid
    refine ⟨⟨hs.setDisk (hl.writeHardState term votedFor), hg⟩, fun log hl => ?_⟩
    simpa [World.setDisk] using (hd log hl).writeHardState term votedFor
  all_goals exact hcalm.elim

-- Calm actions, followed by others.
theorem Stored.calm_append {post : World → Prop} (h : w.Stored C) (hid : id ∈ C.members)
    (hc : ∀ a ∈ as, a.Calm)
    (hb : ∀ w₁, w₁.Stored C → (∀ log, (w.disks id).Holds log → (w₁.disks id).Holds log) →
      Crash.Sound (processAction id T answers) (fun w' => w'.Stored C ∧ Grows id w₁ w') w₁ bs post) :
    Crash.Sound (processAction id T answers) (fun w' => w'.Stored C ∧ Grows id w w') w (as ++ bs)
      post := by
  refine .append <| (h.calm hid hc).mono (fun _ h => h) fun w₁ ⟨hs, hg⟩ hd => ?_
  exact (hb w₁ hs hd).mono (fun _ h => ⟨h.left, hg.trans h.right⟩) fun _ _ h => h

-- An action that writes the log, followed by calm ones.
theorem Stored.write {a : Action} {disk : StableDisk} (h : w.Stored C) (hid : id ∈ C.members)
    (ha : w.processAction id T answers a = some (w.setDisk id disk)) (hd : disk.Holds log)
    (hc : ∀ b ∈ bs, b.Calm) :
    Crash.Sound (processAction id T answers) (fun w' => w'.Stored C ∧ Grows id w w') w (a :: bs)
      fun w' => (w'.disks id).Holds log := by
  refine .cons ⟨h, .refl⟩ fun w₁ h₁ => ?_
  rw [ha, Option.some.injEq] at h₁
  have hg : Grows id w w₁ := h₁ ▸ .setDisk disk
  have hd' : (w₁.disks id).Holds log := by rw [← h₁]; simpa [World.setDisk] using hd
  have hs : w₁.Stored C := h₁ ▸ h.setDisk hd
  exact (hs.calm hid hc).mono (fun _ h => ⟨h.left, hg.trans h.right⟩) fun _ _ h => h log hd'

end World

/-! ### Calm actions -/

theorem calm_of_isHint {a : Action} (h : a.IsHint id) : a.Calm := by
  cases a
  case send msg =>
    intro i t es c hk
    have := h.right
    simp [hk, MessageKind.isHint] at this
  all_goals exact h.elim

theorem calm_of_replicates (hc : k.log.Contiguous) {a : Action} (h : Replicates k a) : a.Calm := by
  cases h
  case snapshot =>
    intro _ _ _ _ hk
    simp [Kernel.message] at hk
  case entries next hn =>
    intro i t es c hk
    simp only [Kernel.message, MessageKind.appendEntries.injEq] at hk
    rw [← hk.left, ← hk.right.right.left, Nat.sub_add_cancel (by omega)]
    exact hc.entriesFrom hn

theorem calm_campaignActions (k : Kernel) : ∀ a ∈ k.campaignActions, a.Calm := by
  intro a ha
  rcases List.mem_cons.mp ha with rfl | ha
  · trivial
  · obtain ⟨_, _, ha⟩ := List.mem_map.mp ha
    simp [← ha, Action.Calm, Kernel.message]

namespace World

theorem Synced.of_eq (h : w.Synced K id k)
    (hd : ∀ log, (w.disks id).Holds log → (w'.disks id).Holds log) (hl : k'.log = k.log)
    (hc : k.commitIndex ≤ k'.commitIndex) : w'.Synced K id k' where
  contiguous := hl ▸ h.contiguous
  command    := hl ▸ h.command
  base_le    := hl ▸ h.base_le.trans hc
  disk       := by
    obtain ⟨dlog, hh, hcov⟩ := h.disk
    exact ⟨dlog, hd dlog hh, hl ▸ hcov⟩

-- A leader appends an entry of its own.
theorem Synced.append {e : LogEntry} (hk : w.Synced K id k) (hs : w.Stored C) (hid : id ∈ C.members)
    (he : e.index = k.log.lastIndex + 1) (hl : k'.log = k.log.append [e])
    (hc : k.commitIndex ≤ k'.commitIndex) (hb : k'.log.Contiguous → ∀ b ∈ bs, b.Calm) :
    Crash.Sound (processAction id T answers) (fun w' => w'.Stored C ∧ Grows id w w') w
      (.appendEntries [e] :: bs) fun w' => w'.Synced K id k' := by
  have he' : Consecutive (k.log.lastIndex + 1) [e] := ⟨he, trivial⟩
  have hlast := hk.contiguous.lastIndex_append he'
  have hw : k'.WellFormed :=
    ⟨hl ▸ hk.contiguous.append he', hl ▸ hk.command, hl ▸ hk.base_le.trans hc⟩
  suffices hd : ∃ disk dlog, (w.disks id).appendEntries [e] = some disk ∧ disk.Holds dlog ∧
      Covers K dlog k'.log by
    obtain ⟨disk, dlog, ha, hd, hcov⟩ := hd
    exact (hs.write hid (by simp [processAction, ha]) hd <| hb hw.contiguous).mono
      (fun _ h => h) fun _ _ h => ⟨hw, dlog, h, hcov⟩
  obtain ⟨dlog, hh, hcov⟩ := hk.disk
  by_cases hK : K
  case pos =>
    obtain rfl := hcov.eq hK
    obtain ⟨disk, ha, hd⟩ := hh.append he'
    exact ⟨disk, _, ha, hd, hl ▸ ⟨rfl, le_rfl, fun _ => rfl⟩⟩
  case neg =>
    have hfirst : dlog.firstIndex = k.log.firstIndex := congrArg LogEntry.index hcov.sentinel
    have hle := hcov.lastIndex
    have := hk.contiguous.lastIndex_eq
    obtain ⟨disk, rest, ha, hd, hr⟩ := hh.appendOne (e := e) (by omega) (by omega)
    refine ⟨disk, _, ha, hd, hcov.sentinel.trans (by rw [hl]; rfl), ?_, fun h => absurd h hK⟩
    rw [hl, hlast, List.length_singleton]
    omega

end World

-- What is needed of the message or the call that a node handles. With `K`, a snapshot that replaces the
-- log covers all of it.
structure Admissible (K : Prop) (m : Cause) (k : Kernel) : Prop where
  entries  : ∀ {msg i t es c}, m = .handle msg → msg.kind = .appendEntries i t es c →
    Consecutive (i + 1) es
  compact  : ∀ {i t}, m = .compactLogs i t → i ≤ k.commitIndex →
    k.log.firstIndex ≤ i ∧ t = (k.log.termAt i).getD 0
  snapshot : ∀ {msg i t o data}, K → m = .handle msg → msg.kind = .installSnapshot i t o data true →
    k.currentTerm ≤ msg.term → k.commitIndex < i → k.log.lastIndex ≤ i

namespace World

variable {msg : Message} {i t c o : ℕ} {es : List LogEntry} {data : Command}

-- Calm actions after which the log of the node is what it was.
theorem Synced.calm (hk : w.Synced K id k) (hs : w.Stored C) (hid : id ∈ C.members)
    (hl : k'.log = k.log) (hc : k.commitIndex ≤ k'.commitIndex) (ha : ∀ a ∈ as, a.Calm) :
    Crash.Sound (processAction id T answers) (fun w' => w'.Stored C ∧ Grows id w w') w as
      fun w' => w'.Synced K id k' :=
  (hs.calm hid ha).mono (fun _ h => h) fun _ _ hd => hk.of_eq hd hl hc

-- The disk takes in the entries at the index at which the node does.
theorem Synced.accept {merge commit : List Action} (hk : w.Synced K id k) (hs : w.Stored C)
    (hid : id ∈ C.members) (ha : Admissible K m k) (hm : m = .handle msg)
    (hkind : msg.kind = .appendEntries i t es c) (hti : k.log.termAt i = some t)
    (hmerge : Merges k.log es log merge) (hf : Follows { k with role := .follower, log } c k' commit) :
    Crash.Sound (processAction id T answers) (fun w' => w'.Stored C ∧ Grows id w w') w
      (merge ++ commit ++
        [.send <| k.message msg.sender <| .appendEntriesResponse true none none])
      fun w' => w'.Synced K id k' := by
  rw [List.append_assoc]
  have hl : k'.log = log := hf.log_eq
  have hc : k.commitIndex ≤ k'.commitIndex := hf.commitIndex_le
  have hes := ha.entries hm hkind
  have hrest : ∀ a ∈ commit ++
      [.send <| k.message msg.sender <| .appendEntriesResponse true none none], a.Calm := by
    simp only [List.forall_mem_append]
    exact ⟨hf.forall_mem fun _ => trivial, by simp [Action.Calm, Kernel.message]⟩
  have hbase := (hk.contiguous.bounds_of_termAt hti).left
  rcases hmerge.spec hes with ⟨rfl, rfl, _⟩ | ⟨n, hn, rfl, htrunc, hmatch, _⟩
  case inl => exact hk.calm hs hid hl hc hrest
  case inr =>
    have hle := hk.contiguous.attach_le hti hn.le hmatch
    have hsuffix := hes.drop n
    obtain ⟨hcont, hsent, hlast⟩ := hk.contiguous.truncateAndAppend (by omega) hsuffix htrunc
    obtain ⟨dlog, hh, hcov⟩ := hk.disk
    have hfirst : dlog.firstIndex = k.log.firstIndex := congrArg LogEntry.index hcov.sentinel
    have hcl := hcov.lastIndex
    obtain ⟨disk, dlog', hd, htd, hh'⟩ := hh.truncateAndAppend (by omega) (by omega) hsuffix
    obtain ⟨_, hsent', hlast'⟩ := hh.contiguous.truncateAndAppend (by omega) hsuffix htd
    refine (hs.write hid (by simp [processAction, hd]) hh' hrest).mono
      (fun _ h => h) fun w' _ h => ⟨⟨hl ▸ hcont, ?_, ?_⟩, dlog', h, ?_⟩
    · rw [hl, hsent]
      exact hk.command
    · rw [hl, RaftLog.firstIndex, hsent]
      exact hk.base_le.trans hc
    · rw [hl]
      refine ⟨?_, by omega, fun hK => ?_⟩
      · rw [hsent', hsent]
        exact hcov.sentinel
      · rw [hcov.eq hK, htrunc, Option.some.injEq] at htd
        exact htd.symm

-- A snapshot replaces the log of the node. The disk keeps the entries that follow it.
theorem Synced.install (hk : w.Synced K id k) (hs : w.Stored C) (hid : id ∈ C.members)
    (ha : Admissible K m k) (hm : m = .handle msg)
    (hkind : msg.kind = .installSnapshot i t o data true) (ht : msg.term = k.currentTerm)
    (hi : k.commitIndex < i) :
    Crash.Sound (processAction id T answers) (fun w' => w'.Stored C ∧ Grows id w w') w
      [.persistSnapshot i t data, .send <| k.message msg.sender .installSnapshotResponse]
      fun w' => w'.Synced K id { k with
        role        := .follower
        log         := k.log.installSnapshot { lastIncludedIndex := i, lastIncludedTerm := t }
        commitIndex := i
        lastApplied := i } := by
  obtain ⟨dlog, hh, hcov⟩ := hk.disk
  have hfirst : dlog.firstIndex = k.log.firstIndex := congrArg LogEntry.index hcov.sentinel
  have hbase := hk.base_le
  obtain ⟨disk, hd, hh'⟩ := hh.writeSnapshot_above (i := i) t data (by omega)
  refine (hs.write hid (by simp [processAction, hd]) hh' ?_).mono
    (fun _ h => h) fun w' _ h => ⟨⟨trivial, rfl, le_rfl⟩, _, h, ?_⟩
  · simp [Action.Calm, Kernel.message]
  · refine ⟨RaftLog.sentinel_compact (by omega), ?_, fun hK => ?_⟩
    · rw [hh.contiguous.lastIndex_compact]
      exact Nat.le_max_left ..
    · have hle := ha.snapshot hK hm hkind ht.ge hi
      rw [hcov.eq hK]
      exact hk.contiguous.compact_eq_installSnapshot (by omega) hle

theorem Synced.compact (hk : w.Synced K id k) (hs : w.Stored C) (hid : id ∈ C.members)
    (ha : Admissible K m k) (hm : m = .compactLogs i t) (hi : i ≤ k.commitIndex) :
    Crash.Sound (processAction id T answers) (fun w' => w'.Stored C ∧ Grows id w w') w
      [.persistSnapshot i t data] fun w' => w'.Synced K id { k with log := k.log.compact i t } := by
  obtain ⟨hbase, ht⟩ := ha.compact hm hi
  obtain ⟨dlog, hh, hcov⟩ := hk.disk
  have hterm : i = k.log.firstIndex → t = k.log.sentinel.term := RaftLog.sentinel_term_of_termAt ht
  have hfirst : dlog.firstIndex = k.log.firstIndex := congrArg LogEntry.index hcov.sentinel
  obtain ⟨disk, hd, hh'⟩ := hh.writeSnapshot (t := t) data (hfirst.trans_le hbase) <| by
    rwa [hfirst, hcov.sentinel]
  refine (hs.write hid (by simp [processAction, hd]) hh' (by simp)).mono
    (fun _ h => h) fun w' _ h => ⟨⟨hk.contiguous.compact, ?_, ?_⟩, _, h, ?_⟩
  · exact RaftLog.command_compact hk.command
  · rw [RaftLog.firstIndex_compact]
    exact max_le hk.base_le hi
  · refine ⟨RaftLog.sentinel_compact_congr hcov.sentinel, ?_, fun hK => by rw [hcov.eq hK]⟩
    rw [hk.contiguous.lastIndex_compact, hh.contiguous.lastIndex_compact]
    exact max_le_max le_rfl hcov.lastIndex

end World

theorem World.Synced.move (hk : w.Synced K id k) (h : Move m k k' as) (hs : w.Stored C)
    (hid : id ∈ C.members) (ha : Admissible K m k) :
    Crash.Sound (World.processAction id T answers) (fun w' => w'.Stored C ∧ World.Grows id w w') w as
      fun w' => w'.Synced K id k' := by
  -- Most moves do not touch the log.
  have calm : k'.log = k.log → k.commitIndex ≤ k'.commitIndex → (∀ a ∈ as, a.Calm) →
      Crash.Sound (World.processAction id T answers) (fun w' => w'.Stored C ∧ World.Grows id w w') w
        as fun w' => w'.Synced K id k' :=
    hk.calm hs hid
  cases h
  case idle h     => exact calm rfl le_rfl fun a ha => calm_of_isHint (h a ha)
  case campaign   => exact calm rfl le_rfl <| calm_campaignActions k
  case vote       => exact calm rfl le_rfl <| by simp [Action.Calm, Kernel.message]
  case collect    => exact calm rfl le_rfl <| by simp
  case skip       => exact calm rfl le_rfl <| by simp [Action.Calm, Kernel.message]
  case replicate h => exact calm rfl le_rfl fun a ha => calm_of_replicates hk.contiguous (h a ha)
  case confirm h  =>
    have hl := h.log_eq
    have hc := h.commitIndex_le
    exact calm hl hc <| h.forall_mem fun _ => trivial
  case elect he _ h =>
    subst he
    exact hk.append hs hid rfl rfl le_rfl fun hc a ha => calm_of_replicates hc (h a ha)
  case lone =>
    refine hs.calm_append hid (calm_campaignActions k) fun w₁ hs₁ hd₁ => ?_
    have hk₁ : w₁.Synced K id k.campaign := hk.of_eq hd₁ rfl le_rfl
    exact hk₁.append hs₁ hid rfl rfl le_rfl (by simp)
  case propose hi _ he h =>
    subst he
    refine hk.append hs hid hi rfl le_rfl fun hc a ha => ?_
    rcases h a ha with h | h
    · exact calm_of_replicates hc h
    · exact calm_of_isHint h
  case proposeAlone hi _ hh h =>
    have hl := h.log_eq
    have hc := h.commitIndex_le
    refine hk.append hs hid hi hl hc fun _ a ha => ?_
    rcases List.mem_append.mp ha with ha | ha
    · exact h.forall_mem (fun _ => trivial) a ha
    · exact calm_of_isHint <| hh a ha
  case accept hm hkind _ hti hmerge hf => exact hk.accept hs hid ha hm hkind hti hmerge hf
  case install hm hkind ht hi          => exact hk.install hs hid ha hm hkind ht hi
  case compact hm hi                   => exact hk.compact hs hid ha hm hi

theorem World.Synced.call (hk : w.Synced K id k) (h : Call m k k' as) (hs : w.Stored C)
    (hid : id ∈ C.members) (ha : Admissible K m k) :
    Crash.Sound (World.processAction id T answers) (fun w' => w'.Stored C ∧ World.Grows id w w') w as
      fun w' => w'.Synced K id k' := by
  cases h
  case same h => exact hk.move h hs hid ha
  case later msg _ hm _ hlt h =>
    rw [← List.singleton_append]
    refine hs.calm_append hid (by simp [Action.Calm]) fun w₁ hs₁ hd₁ => ?_
    have ha₁ : Admissible K m (k.bump msg.term) :=
      ⟨ha.entries, ha.compact, fun hK hm hk hle => ha.snapshot hK hm hk <| hlt.le.trans hle⟩
    have hk₁ : w₁.Synced K id (k.bump msg.term) := hk.of_eq hd₁ rfl le_rfl
    exact hk₁.move h hs₁ hid ha₁

namespace State

-- A call of `compact_logs` that the node does not refuse is made as the simulator makes it: at an index
-- that the log still has or has as its base, with the term of the log at that index.
def compactsWithin (s : State) : Event → Bool
  | .call id (.compactLogs i t _) _ =>
    (s.nodes id).commitIndex < i ||
      ((s.nodes id).log.firstIndex ≤ i && t = ((s.nodes id).log.termAt i).getD 0)
  | _ => true

-- And it is made at the commit index, as the simulator does.
def compactsCommitted (s : State) : Event → Bool
  | .call id (.compactLogs i _ _) _ => i = (s.nodes id).commitIndex
  | _ => true

-- A snapshot that a node installs reaches the end of the node's log.
def snapshotCovers (s : State) : Event → Bool
  | .call id (.deliver n) _ =>
    match s.network[n]? with
    | some { msg := { term, kind := .installSnapshot i _ _ _ true, .. }, .. } =>
      term < (s.nodes id).currentTerm || i ≤ (s.nodes id).commitIndex || (s.nodes id).log.lastIndex ≤ i
    | _ => true
  | _ => true

variable {guard : State → Event → Prop} {input : Input} {cut : Option ℕ} {node : RaftNode}

theorem admissible (h : s.Stored C) (hcall : s.call id input = some (node, as))
    (hc : s.compactsWithin (.call id input cut)) (hK : K → s.snapshotCovers (.call id input cut)) :
    Admissible K (s.cause input) (s.nodes id).kernel where
  entries hm hk := by
    obtain ⟨_, packet, _, hp, hpm, _⟩ := cause_handle hcall hm
    exact h.entries packet (List.mem_of_getElem? hp) _ _ _ _ (hpm ▸ hk)
  compact hm hi := by
    cases input
    case compactLogs =>
      cases hm
      simp only [compactsWithin, Bool.or_eq_true, Bool.and_eq_true, decide_eq_true_eq] at hc
      exact hc.resolve_left <| not_lt.mpr hi
    case deliver n =>
      simp only [cause] at hm
      split at hm <;> cases hm
    all_goals cases hm
  snapshot hk hm hkind ht hi := by
    obtain ⟨n, packet, hn, hp, hpm, _⟩ := cause_handle hcall hm
    have hcov := hK hk
    obtain ⟨⟨_, _, _, _⟩, _⟩ := packet
    subst hn hpm
    cases hkind
    simp only [snapshotCovers, hp, Bool.or_eq_true, decide_eq_true_eq] at hcov
    exact (hcov.resolve_left <| not_or.mpr ⟨not_lt.mpr ht, not_le.mpr hi⟩)

end State

/-! ### The layer -/

variable {guard : State → Event → Prop}

def syncLayer (C : Cluster) (K : Prop) (hc : ∀ s e, guard s e → s.compactsWithin e)
    (hK : ∀ s e, guard s e → K → s.snapshotCovers e) : Layer C guard where
  world  := World.Stored C
  memory := World.Synced K
  init   := ⟨fun id _ => ⟨_, .new id⟩, by simp [init]⟩
  spawn {w id node} hs hid hn := by
    obtain ⟨log, hl⟩ := hs.disks id hid
    cases (hl.spawnNode _).symm.trans hn
    exact ⟨⟨hl.contiguous, hl.command, le_rfl⟩, log, hl, rfl, le_rfl, fun _ => rfl⟩
  call {s id input cut node as} _ hs hm hid hg hcall := by
    have ha := State.admissible hs hcall (hc _ _ hg) (hK _ _ hg)
    have hs' : (s.record id (s.nodes id) node).Stored C := ⟨hs.disks, hs.entries⟩
    have hk : (s.record id (s.nodes id) node).Synced K id (s.nodes id).kernel :=
      ⟨(hm id hid).toWellFormed, (hm id hid).disk⟩
    refine (hk.call (State.call_kernel hcall) hs' hid ha).mono (fun w ⟨hw, hg⟩ => ⟨hw, ?_⟩) fun _ _ h => h
    intro id' hid' hne
    have hd := hg.disks id' hne
    exact ⟨(hm id' hid').toWellFormed, hd ▸ (hm id' hid').disk⟩

-- A restart from the disk of a node makes the node, as far as it is durable at all.
def State.Recovers (C : Cluster) (s : State) (id : NodeId) : Prop :=
  ((s.disks id).spawnNode (C.config id)).map (fun node => (node.currentTerm, node.votedFor, node.log)) =
    some ((s.nodes id).currentTerm, (s.nodes id).votedFor, (s.nodes id).log)

instance : Decidable (s.Recovers C id) :=
  inferInstanceAs (Decidable (_ = _))

-- That is so as long as each snapshot that a node installs reaches the end of its log.
theorem recovers
    (r : C.system.Reachable (fun s e => s.compactsWithin e ∧ s.snapshotCovers e) s)
    (hid : id ∈ C.members) : s.Recovers C id := by
  have hvotes := ((voteLayer C _).invariant r).memory id hid
  have hsync := ((syncLayer C True (fun _ _ h => h.left) fun _ _ h _ => h.right).invariant r).memory id hid
  obtain ⟨log, hl, hcov⟩ := hsync.disk
  have hlog : log = (s.nodes id).log := hcov.eq trivial
  have hhs := Prod.ext_iff.mp hvotes.hardState
  have ht : (s.disks id).currentTerm = (s.nodes id).currentTerm := hhs.left
  have hv : (s.disks id).votedFor = (s.nodes id).votedFor := hhs.right
  simp [State.Recovers, hl.spawnNode, RaftNode.restore, ht, hv, hlog]

-- Node 1 is deposed and catches up by a snapshot that covers its log.
theorem recovers_three : ∃ s, (ofSize 3 (by decide)).system.Reachable
      (fun s e => s.compactsWithin e ∧ s.snapshotCovers e) s ∧
    (s.nodes 1).log.entries = [{ index := 1, term := 2, command := [] }] ∧
    s.Recovers (ofSize 3 (by decide)) 1 :=
  have r := TransitionSystem.reachable_run (T := (ofSize 3 (by decide)).system)
    (fun s e => s.compactsWithin e ∧ s.snapshotCovers e)
    [.tick 1, .tick 1, .deliver 2 0, .deliver 1 2, .deliver 2 3, .deliver 3 4, .deliver 1 5, .tick 2,
      .tick 2, .deliver 3 10, .deliver 2 11, .deliver 3 13, .deliver 2 14, .deliver 3 16, .deliver 2 17,
      .compact 2 1 2, .tick 2, .deliver 1 18] (by decide +kernel)
  ⟨_, r, by decide +kernel, recovers r (by decide)⟩

-- Had it accepted a proposal before, the disk would keep the entry, which the node gives up.
theorem not_recovers : ∃ s, (ofSize 3 (by decide)).system.Reachable (fun _ _ => True) s ∧
    ¬s.Recovers (ofSize 3 (by decide)) 1 := by
  have r := TransitionSystem.reachable_run (T := (ofSize 3 (by decide)).system) (fun _ _ => True)
    [.tick 1, .tick 1, .deliver 2 0, .deliver 1 2, .deliver 2 3, .deliver 3 4, .deliver 1 5,
      .propose 1 [7], .tick 2, .tick 2, .deliver 3 12, .deliver 2 13, .deliver 3 15, .deliver 2 16,
      .deliver 3 18, .deliver 2 19, .compact 2 1 2, .tick 2, .deliver 1 20] (by decide +kernel)
  exact ⟨_, r, by decide +kernel⟩

end Cluster
end RaftRupee
