import RaftRupee.Core.Contacts
import RaftRupee.Core.Persistence
import RaftRupee.Sim.Layer
import RaftRupee.Sim.Simulator

namespace RaftRupee

/-! ### The snapshots on a disk -/

namespace StableDisk

-- The base of the log that a node starts with is the snapshot of its disk.
theorem spawnNode_base {disk : StableDisk} {config : Config} {node : RaftNode}
    (h : disk.spawnNode config = some node) (hi : node.log.firstIndex ≠ 0) : ∃ data, disk.snapshot = some
      ({ lastIncludedIndex := node.log.firstIndex, lastIncludedTerm := node.log.sentinel.term }, data) := by
  obtain ⟨log, hl, h⟩ := Option.bind_eq_some_iff.mp h
  cases h
  unfold reconstructedLog at hl
  split at hl
  case h_1 => cases hl
  case h_2 data _ hs =>
    cases hl
    exact ⟨data, hs⟩
  case h_3 =>
    cases hl
    exact absurd rfl hi

end StableDisk

namespace Cluster

variable {C : Cluster} {P : ℕ → ℕ → Prop} {guard : State → Event → Prop} {s : State} {w w' : World}
variable {es : List Event} {id : NodeId} {a : Action} {T : ℕ} {answers : Option Message}

theorem World.processAction_snapshot (h : w.processAction id T answers a = some w') :
    (w'.disks id).snapshot = (w.disks id).snapshot ∨ ∃ i t data, a = .persistSnapshot i t data ∧
      (w'.disks id).snapshot = some ({ lastIncludedIndex := i, lastIncludedTerm := t }, data) := by
  cases a
  case send | apply =>
    cases h
    exact .inl rfl
  case persistHardState =>
    cases h
    exact .inl (by simp [setDisk, StableDisk.writeHardState])
  all_goals
    obtain ⟨_, hd, hw⟩ := Option.map_eq_some_iff.mp h
    cases hw
    simp only [setDisk, Function.update_self]
  case appendEntries     => exact .inl (by rw [StableDisk.appendEntries_frame hd])
  case truncateAndAppend => exact .inl (by rw [StableDisk.truncateAndAppend_frame hd])
  case persistSnapshot   => exact .inr ⟨_, _, _, rfl, by rw [StableDisk.writeSnapshot_frame hd]⟩

/-! ### Where snapshots come from -/

-- Every base of a log, every snapshot on a disk and every snapshot on its way has property `P`.
structure World.Tracked (C : Cluster) (P : ℕ → ℕ → Prop) (w : World) : Prop where
  disks   : ∀ id ∈ C.members, ∀ i t data, (w.disks id).snapshot =
    some ({ lastIncludedIndex := i, lastIncludedTerm := t }, data) → i ≠ 0 → P i t
  network : ∀ p ∈ w.network, ∀ i t o data done, p.msg.kind = .installSnapshot i t o data done →
    data = RaftNode.simulatedSnapshot ∧ (i ≠ 0 → P i t)

-- Each call of `compact_logs` that is admitted has property `P`.
def State.CompactsOnly (P : ℕ → ℕ → Prop) (s : State) (e : Event) : Prop :=
  ∀ id i t data cut, e = .call id (.compactLogs i t data) cut → i ≤ (s.nodes id).commitIndex → P i t

theorem State.snapshots_tracked {input : Input} {r : Outcome} {i t : ℕ} {data : Command} {cut : Option ℕ}
    (h : s.toWorld.Tracked C P) (hg : s.CompactsOnly P (.call id input cut))
    (hcall : s.call id input = some r) (ha : .persistSnapshot i t data ∈ r.2) (hi : i ≠ 0) : P i t := by
  rcases (State.call_kernel hcall).snapshots ha with ⟨hm, hle⟩ | ⟨hm, hk, _⟩
  case compact =>
    obtain ⟨_, rfl⟩ := State.cause_compactLogs hm
    exact hg _ _ _ _ _ rfl hle
  case install =>
    obtain ⟨_, packet, _, hp, rfl, _⟩ := State.cause_handle hcall hm
    exact (h.network packet (List.mem_of_getElem? hp) _ _ _ _ _ hk).right hi

def snapshotLayer (C : Cluster) (P : ℕ → ℕ → Prop) (guard : State → Event → Prop)
    (hP : ∀ s e, guard s e → s.CompactsOnly P e) : Layer C guard where
  world        := World.Tracked C P
  memory _ _ k := k.log.firstIndex ≠ 0 → P k.log.firstIndex k.log.sentinel.term
  init         := ⟨fun _ _ _ _ _ h => by simp [init, StableDisk.new] at h, by simp [init]⟩
  spawn hw hid hn hi := by
    obtain ⟨data, hs⟩ := StableDisk.spawnNode_base hn hi
    exact hw.disks _ hid _ _ data hs hi
  call {s id input cut node as} _ hw hm hid hg hcall := by
    have hsnap {i t data} (ha : .persistSnapshot i t data ∈ as) (hi : i ≠ 0) : P i t :=
      State.snapshots_tracked hw (hP _ _ hg) hcall ha hi
    have hbase (hi : node.log.firstIndex ≠ 0) : P node.log.firstIndex node.log.sentinel.term := by
      rcases (State.call_kernel hcall).sentinel with hsent | ⟨data, ha⟩
      case inr => exact hsnap ha hi
      case inl =>
        have hsent : node.log.sentinel = (s.nodes id).log.sentinel := hsent
        rw [RaftLog.firstIndex, hsent] at hi ⊢
        exact hm id hid hi
    have hstart : (s.record id (s.nodes id) node).Tracked C P := ⟨hw.disks, hw.network⟩
    refine (Crash.Sound.all (D := World.Tracked C P) (fun _ h => h) ?_ hstart).mono
      (fun _ hw => ⟨hw, fun id' hid' _ => hm id' hid'⟩) fun _ _ _ => hbase
    intro w w' a ha hw hexec
    refine ⟨fun id' hid' i t data hs hi => ?_, fun p hp i t o data done hk => ?_⟩
    case refine_1 =>
      by_cases hne : id' = id
      case neg => exact hw.disks id' hid' i t data ((World.Grows.processAction hexec).disks id' hne ▸ hs) hi
      case pos =>
        subst hne
        rcases World.processAction_snapshot hexec with he | ⟨_, _, _, rfl, he⟩
        · exact hw.disks id' hid' i t data (he.symm.trans hs) hi
        · cases he.symm.trans hs
          exact hsnap ha hi
    case refine_2 =>
      rcases World.mem_network hexec hp with hp | ⟨rfl, _⟩
      case inl => exact hw.network p hp i t o data done hk
      case inr =>
        have hleader := ((State.call_kernel hcall).fromLeader _ ha p.msg rfl (by rw [hk]; rfl)).right
        obtain ⟨hdata, hbase'⟩ := hleader.snapshot_eq hk
        refine ⟨hdata, fun hi => ?_⟩
        obtain ⟨rfl, rfl⟩ := hbase' hi
        exact hbase hi

/-! ### Transfers -/

def State.Accepts (s : State) (id : NodeId) (n i t : ℕ) : Prop := ∃ packet o data,
  s.network[n]? = some packet ∧ packet.msg.receiver = id ∧
  packet.msg.kind = .installSnapshot i t o data true ∧
  (s.nodes id).currentTerm ≤ packet.msg.term ∧ (s.nodes id).commitIndex < i

-- These are the messages whose snapshot is persisted.
theorem State.accepts_iff {n i t : ℕ} : s.Accepts id n i t ↔
    ∃ r data, s.call id (.deliver n) = some r ∧ .persistSnapshot i t data ∈ r.2 := by
  constructor
  case mp =>
    rintro ⟨packet, o, data, hp, hrcv, hk, ht, hi⟩
    obtain ⟨r, hstep, ha⟩ := RaftNode.step_takes hk ht hi
    exact ⟨r, data, by simpa [call, hp, hrcv] using hstep, ha⟩
  case mpr =>
    rintro ⟨r, data, hcall, ha⟩
    rcases (State.call_kernel hcall).snapshots ha with ⟨hm, _⟩ | ⟨hm, hk, hi⟩
    case compact =>
      obtain ⟨_, hinput⟩ := State.cause_compactLogs hm
      cases hinput
    case install o =>
      obtain ⟨_, packet, heq, hp, rfl, hrcv⟩ := State.cause_handle hcall hm
      cases heq
      refine ⟨packet, o, data, hp, hrcv, hk, Nat.le_of_not_lt fun hlt => ?_, hi⟩
      have hstep : (s.nodes id).step packet.msg = some r := by simpa [call, hp, hrcv] using hcall
      have hstale := RaftNode.step_of_stale (by rw [hk]; rfl) (by rw [hk]; rfl) hlt
      cases hstale.symm.trans hstep
      contradiction

-- A call of `compact_logs` in the run that is admitted.
def Compacted (C : Cluster) (es : List Event) (i t : ℕ) (data : Command) : Prop :=
  ∃ before s id cut, before ++ [.call id (.compactLogs i t data) cut] <+: es ∧
    C.system.Trace (fun _ _ => True) before s ∧ i ≤ (s.nodes id).commitIndex

-- At the end of the run a node takes a snapshot from a message, and persists it.
def Transferred (C : Cluster) (es : List Event) (i t : ℕ) (data : Command) : Prop :=
  ∃ before s id n cut r, es = before ++ [.call id (.deliver n) cut] ∧
    C.system.Trace (fun _ _ => True) before s ∧ s.call id (.deliver n) = some r ∧
    .persistSnapshot i t data ∈ r.2

-- At the end of the run a node gets a message of its term or a later one, with a whole snapshot beyond its
-- commit index.
def Accepted (C : Cluster) (es : List Event) (i t : ℕ) : Prop :=
  ∃ before s id n cut, es = before ++ [.call id (.deliver n) cut] ∧
    C.system.Trace (fun _ _ => True) before s ∧ s.Accepts id n i t

-- All snapshots that are transferred in the run have the data of a compaction.
def TransfersFaithful (C : Cluster) (es : List Event) : Prop :=
  ∀ es', es' <+: es → ∀ i t data, Transferred C es' i t data → Compacted C es' i t data

theorem Transferred.source {i t : ℕ} {data : Command} (h : Transferred C es i t data) :
    data = RaftNode.simulatedSnapshot ∧ ∃ data', Compacted C es i t data' := by
  obtain ⟨before, s, id, n, cut, r, rfl, htrace, hcall, ha⟩ := h
  let P (i t : ℕ) := ∃ data', Compacted C (before ++ [.call id (.deliver n) cut]) i t data'
  have hcompacts : C.system.Trace (State.CompactsOnly P) before s := by
    refine htrace.strengthen ?_
    rintro es' s' _ hpre ht - id' i t data cut' rfl hle
    exact ⟨data, es', s', id', cut', hpre.trans (List.prefix_append ..), ht, hle⟩
  have hw := ((snapshotLayer C P _ fun _ _ h => h).invariant hcompacts.reachable).world
  rcases (State.call_kernel hcall).snapshots ha with ⟨hm, _⟩ | ⟨hm, hk, hlt⟩
  case compact =>
    obtain ⟨_, hinput⟩ := State.cause_compactLogs hm
    cases hinput
  case install =>
    obtain ⟨_, packet, _, hp, rfl, _⟩ := State.cause_handle hcall hm
    obtain ⟨hdata, hP⟩ := hw.network packet (List.mem_of_getElem? hp) _ _ _ _ _ hk
    exact ⟨hdata, hP (Nat.ne_zero_of_lt hlt)⟩

theorem accepted_iff {i t : ℕ} : Accepted C es i t ↔ ∃ data, Transferred C es i t data := by
  constructor
  case mp =>
    rintro ⟨before, s, id, n, cut, rfl, htrace, h⟩
    obtain ⟨r, data, hcall, ha⟩ := State.accepts_iff.mp h
    exact ⟨data, before, s, id, n, cut, r, rfl, htrace, hcall, ha⟩
  case mpr =>
    rintro ⟨data, before, s, id, n, cut, r, rfl, htrace, hcall, ha⟩
    exact ⟨before, s, id, n, cut, rfl, htrace, State.accepts_iff.mpr ⟨r, data, hcall, ha⟩⟩

theorem transfers_faithful_iff (C : Cluster) (es : List Event) :
    (∀ es', es' <+: es → ∀ i t data, Transferred C es' i t data → ∃ data', Compacted C es' i t data') ∧
    (TransfersFaithful C es ↔ ∀ es', es' <+: es → ∀ i t, Accepted C es' i t →
      Compacted C es' i t RaftNode.simulatedSnapshot) := by
  refine ⟨fun _ _ _ _ _ h => h.source.right, ?_⟩
  constructor
  case mp =>
    intro hf es' hpre i t haccepted
    obtain ⟨data, h⟩ := accepted_iff.mp haccepted
    exact h.source.left ▸ hf es' hpre i t data h
  case mpr =>
    intro hf es' hpre i t data h
    exact h.source.left ▸ hf es' hpre i t (accepted_iff.mpr ⟨data, h⟩)

-- Node 2 leads in term 2, compacts its log, and sends a snapshot to node 1.
def compactingRun (data : Command) : List Event :=
  [.tick 1, .tick 1, .deliver 2 0, .deliver 1 2, .deliver 2 3, .deliver 3 4, .deliver 1 5, .tick 2,
    .tick 2, .deliver 3 10, .deliver 2 11, .deliver 3 13, .deliver 2 14, .deliver 3 16, .deliver 2 17,
    .call 2 (.compactLogs 1 2 data) none, .tick 2]

-- With the data of the simulator or with the one that is sent.
theorem transferred_three : ∀ data ∈ [Simulator.compactionData, RaftNode.simulatedSnapshot],
    Transferred (ofSize 3 (by decide)) (compactingRun data ++ [.deliver 1 18]) 1 2
      RaftNode.simulatedSnapshot := by
  intro data hd
  let system := (ofSize 3 (by decide)).system
  have hlast : ∀ data ∈ [Simulator.compactionData, RaftNode.simulatedSnapshot],
      ((system.run (fun _ _ => True) system.init (compactingRun data)).bind fun s =>
        (s.call 1 (.deliver 18)).map (·.2)) = some [.persistHardState 2 none,
          .persistSnapshot 1 2 RaftNode.simulatedSnapshot, .send ⟨1, 2, 2, .installSnapshotResponse⟩] := by
    decide +kernel
  obtain ⟨s, hrun, hcall⟩ := Option.bind_eq_some_iff.mp (hlast data hd)
  obtain ⟨r, hr, hactions⟩ := Option.map_eq_some_iff.mp hcall
  refine ⟨compactingRun data, s, 1, 18, none, r, rfl, ?_, hr, by simp [hactions]⟩
  exact TransitionSystem.Trace.run .init hrun

-- With the latter the transfer is faithful.
theorem transfers_faithful_iff_three :
    (∃ data, Compacted (ofSize 3 (by decide))
      (compactingRun Simulator.compactionData ++ [.deliver 1 18]) 1 2 data) ∧
    Transferred (ofSize 3 (by decide)) (compactingRun RaftNode.simulatedSnapshot ++ [.deliver 1 18]) 1 2
      RaftNode.simulatedSnapshot ∧
    TransfersFaithful (ofSize 3 (by decide))
      (compactingRun RaftNode.simulatedSnapshot ++ [.deliver 1 18]) := by
  refine ⟨(transfers_faithful_iff _ _).left _ List.prefix_rfl 1 2 _ (transferred_three _ (by simp)),
    transferred_three _ (by simp), ?_⟩
  refine (transfers_faithful_iff _ _).right.mpr fun es' hpre i t haccepted => ?_
  obtain ⟨_, htransferred⟩ := accepted_iff.mp haccepted
  obtain ⟨data, before, s, id, cut, hcall, h⟩ := htransferred.source.right
  have hmem := hpre.subset <| hcall.subset <| List.mem_append_right before List.mem_cons_self
  have hdata : data = RaftNode.simulatedSnapshot := by
    simp [compactingRun, Event.tick, Event.deliver] at hmem
    exact hmem.right.left.right.right
  exact hdata ▸ ⟨before, s, id, cut, hcall, h⟩

theorem not_transfers_faithful : ¬∀ (C : Cluster) (es : List Event) (s : State),
    C.system.Trace (fun _ _ => True) es s → TransfersFaithful C es := by
  intro h
  have ht := TransitionSystem.trace_run (T := (ofSize 3 (by decide)).system) (fun _ _ => True)
    (compactingRun Simulator.compactionData ++ [.deliver 1 18]) (by decide +kernel)
  obtain ⟨before, _, id, cut, hpre, _⟩ := h _ _ _ ht _ List.prefix_rfl 1 2 _ (transferred_three _ (by simp))
  have hmem := hpre.subset (List.mem_append_right before List.mem_cons_self)
  have hne : RaftNode.simulatedSnapshot ≠ Simulator.compactionData := by decide +kernel
  simp [compactingRun, Event.tick, Event.deliver, hne] at hmem

end Cluster
end RaftRupee
