import RaftRupee.Core.Applying
import RaftRupee.Sim.Agreement

namespace RaftRupee.Cluster

open Replication

variable {C : Cluster} {guard : State → Event → Prop} {s s' : State} {w : World} {id : NodeId}
variable {e : Event} {full full' : List LogEntry} {node node' : RaftNode}

theorem World.Stored.gapless {input : Input} {o : Outcome} (h : s.Stored C)
    (hcall : s.call id input = some o) : (s.cause input).Gapless := by
  intro msg i t es c hm hk
  obtain ⟨_, packet, _, hp, hpm, _⟩ := State.cause_handle hcall hm
  exact h.entries packet (List.mem_of_getElem? hp) _ _ _ _ (hpm ▸ hk)

-- Each node has applied what it has committed.
def applyLayer (C : Cluster) (hc : ∀ s e, guard s e → s.compactsWithin e) : Layer C guard where
  world  := World.Stored C
  memory w id k := w.Synced False id k ∧ k.lastApplied = k.commitIndex
  init   := (syncLayer C False hc (by simp)).init
  spawn hs hid hn := by
    refine ⟨(syncLayer C False hc (by simp)).spawn hs hid hn, ?_⟩
    obtain ⟨_, _, hn⟩ := Option.bind_eq_some_iff.mp hn
    cases hn
    rfl
  call {s id input cut node as} hr hw hm hid hg hcall := by
    have hsync := (syncLayer C False hc (by simp)).call hr hw (fun id hid => (hm id hid).left)
      hid hg hcall
    have happly : (s.nodes id).kernel.Applying :=
      ⟨(hm id hid).left.contiguous, (hm id hid).left.base_le, (hm id hid).right⟩
    have hnode := ((State.call_kernel hcall).applying happly <| hw.gapless hcall).left
    exact hsync.mono (fun w h => ⟨h.left, fun n hn hne => ⟨h.right n hn hne, (hm n hn).right⟩⟩)
      fun w _ h => ⟨h, hnode.applied⟩

-- The order of a node's indices.
structure Ordered (node : RaftNode) : Prop where
  base_le : node.log.firstIndex ≤ node.lastApplied
  applied : node.lastApplied = node.commitIndex
  le_last : node.commitIndex ≤ node.log.lastIndex

-- What a node has committed stays in its log, until it is compacted.
def KeepsCommitted (node node' : RaftNode) : Prop :=
  ∀ i e, node.log.firstIndex < i → i ≤ node.commitIndex → node.log.entryAt i = some e →
    node'.log.entryAt i = some e ∨ i ≤ node'.log.firstIndex

theorem KeepsCommitted.of_views (hv : View node.log full) (hv' : View node'.log full')
    (hp : full.take node.commitIndex <+: full') : KeepsCommitted node node' := by
  intro i e hi hc he
  rw [hv.entryAt hi] at he
  rcases Nat.lt_or_ge node'.log.firstIndex i with hf | hf
  · rw [hv'.entryAt hf]
    exact .inl <| hp.getElem?_eq_some <| (List.getElem?_take_of_lt (by omega)).trans he
  · exact .inr hf

theorem view_of_holds (r : C.system.Reachable Careful s) (hid : id ∈ C.members)
    (h : ∀ log, (s.disks id).Holds log → View log full) : View (s.nodes id).log full := by
  have hsync := (syncLayer C True (fun _ _ (h : Careful _ _) => h.left)
    fun _ _ h _ => h.right.left).invariant r
  obtain ⟨log, hl, hcov⟩ := (hsync.memory id hid).disk
  have hlog : log = (s.nodes id).log := hcov.eq trivial
  exact hlog ▸ h log hl

theorem Shadow.Refines.full_view {g : Shadow} {F : NodeId → List LogEntry} (h : g.Refines C F s.toWorld)
    (r : C.system.Reachable Careful s) (hid : id ∈ C.members) : View (s.nodes id).log (g.log id) :=
  view_of_holds r hid fun _ hd => h.view hid hd

theorem Alone.full_view {F : List LogEntry} (h : Alone C F full s.toWorld)
    (r : C.system.Reachable Careful s) (hid : id ∈ C.members) : View (s.nodes id).log full :=
  view_of_holds r hid fun log hd => by
    obtain ⟨log', hd', hv⟩ := h.logs id hid
    exact hd'.unique hd ▸ hv

-- What is committed stays in the logs, as long as each snapshot that a node installs reaches the end of
-- its log and each success reply that a leader counts speaks for all of its log.
theorem committed_kept (r : C.system.Reachable Careful s) :
    (∀ id ∈ C.members, Ordered (s.nodes id)) ∧
      ∀ e s', Careful s e → C.step s e = some s' →
        ∀ id ∈ C.members, KeepsCommitted (s.nodes id) (s'.nodes id) := by
  have happly := (applyLayer C fun _ _ (h : Careful _ _) => h.left).invariant r
  have ordered : ∀ id ∈ C.members, (s.nodes id).commitIndex ≤ (s.nodes id).log.lastIndex →
      Ordered (s.nodes id) := by
    intro id hid hle
    have ha : (s.nodes id).lastApplied = (s.nodes id).commitIndex := (happly.memory id hid).right
    exact ⟨(happly.memory id hid).left.base_le.trans_eq ha.symm, ha, hle⟩
  by_cases hn : 1 < C.members.card
  case pos =>
    let L (F : NodeId → List LogEntry) : Preserved C Careful Shadow :=
      replicas C F hn (fun _ _ h => h.left) (fun _ _ h => h.right.left) fun _ _ h => h.right.right
    obtain ⟨g, h⟩ := (replicaLayer C hn (fun _ _ (h : Careful _ _) => h.left) (fun _ _ h => h.right.left)
      fun _ _ h => h.right.right).invariant r
    have hsettled : ∀ id ∈ C.members, g.Settled s.commits id (s.nodes id).commitIndex :=
      fun id hid => (h.memory id hid).settled
    have hv := fun id (hid : id ∈ C.members) => h.world.full_view r hid
    refine ⟨fun id hid => ordered id hid ?_, fun e s' hg hs id hid => ?_⟩
    · exact (hsettled id hid).le_length.trans_eq (hv id hid).lastIndex.symm
    · let F n := (g.log n).take (s.nodes n).commitIndex
      have hF : (L F).Holds g s := by
        refine ⟨h.world.setFloor fun n hn => ⟨List.take_prefix .., ?_⟩, h.memory⟩
        rw [List.length_take_of_le (hsettled n hn).le_length]
        exact hsettled n hn
      obtain ⟨g', h'⟩ := hF.step r hg hs
      exact .of_views (hv id hid) (h'.world.full_view (r.step hg hs) hid) (h'.world.floor id hid).left
  case neg =>
    let L (F : List LogEntry) : Preserved C Careful (List LogEntry) :=
      solo C F (not_lt.mp hn) (fun _ _ h => h.left) fun _ _ h => h.right.left
    obtain ⟨full, h⟩ := (soloLayer C (not_lt.mp hn) (fun _ _ (h : Careful _ _) => h.left)
      fun _ _ h => h.right.left).invariant r
    have hv := fun id (hid : id ∈ C.members) => h.world.full_view r hid
    refine ⟨fun id hid => ordered id hid ?_, fun e s' hg hs id hid => ?_⟩
    · exact (h.memory id hid).right.trans_eq (hv id hid).lastIndex.symm
    · have hF : (L (full.take (s.nodes id).commitIndex)).Holds full s :=
        ⟨{ h.world with floor := List.take_prefix .. }, h.memory⟩
      obtain ⟨full', h'⟩ := hF.step r hg hs
      exact .of_views (hv id hid) (h'.world.full_view (r.step hg hs) hid) h'.world.floor

-- A leader has committed its no-op when another node becomes the leader.
theorem committed_kept_three : ∃ s, (ofSize 3 (by decide)).system.Reachable Careful s ∧
    (s.nodes 1).commitIndex = 1 ∧ (s.nodes 2).role = .leader ∧
    (∀ id ∈ (ofSize 3 (by decide)).members, Ordered (s.nodes id)) ∧
      ∀ e s', Careful s e → (ofSize 3 (by decide)).step s e = some s' →
        ∀ id ∈ (ofSize 3 (by decide)).members, KeepsCommitted (s.nodes id) (s'.nodes id) :=
  have r := TransitionSystem.reachable_run (T := (ofSize 3 (by decide)).system) Careful
    [.tick 1, .tick 1, .deliver 2 0, .deliver 1 2, .deliver 2 3, .deliver 1 5, .deliver 2 6, .deliver 1 8,
      .deliver 3 4, .tick 2, .tick 2, .deliver 3 11, .deliver 2 12, .deliver 3 14, .deliver 2 15]
    (by decide +kernel)
  ⟨_, r, by decide +kernel, by decide +kernel, committed_kept r⟩

-- Node 1 has counted a late reply, and committed an entry which the next leader overwrites.
theorem not_committed_kept : ∃ s e s', (ofSize 3 (by decide)).system.Reachable (fun _ _ => True) s ∧
    (ofSize 3 (by decide)).step s e = some s' ∧ ¬KeepsCommitted (s.nodes 1) (s'.nodes 1) := by
  have r := TransitionSystem.reachable_run (T := (ofSize 3 (by decide)).system) (fun _ _ => True)
    [.tick 1, .tick 1, .deliver 2 0, .deliver 1 2, .deliver 2 3, .deliver 1 5, .deliver 2 6,
      .propose 1 [7], .deliver 1 8, .deliver 3 4, .tick 2, .tick 2, .deliver 3 13, .deliver 2 14,
      .deliver 3 16, .deliver 2 17] (by decide +kernel)
  refine ⟨_, .deliver 1 18, _, r, (Option.some_get (by decide +kernel)).symm, fun h => ?_⟩
  have hkept := h 2 ⟨2, 1, [7]⟩ (by decide +kernel) (by decide +kernel) (by decide +kernel)
  exact absurd hkept (by decide +kernel)

end RaftRupee.Cluster
