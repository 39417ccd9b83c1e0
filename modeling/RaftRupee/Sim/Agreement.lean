import RaftRupee.Sim.Replicas
import RaftRupee.Sim.Solo

namespace RaftRupee.Cluster

open Replication

variable {C : Cluster} {guard : State → Event → Prop} {s : State} {w : World} {id : NodeId}
variable {input : Input} {cut : Option ℕ} {node : RaftNode} {as : List Action} {g : Shadow}
variable {F : NodeId → List LogEntry}

-- The end of the entries that a success reply acknowledges.
def Packet.reach (p : Packet) : Option ℕ :=
  match p.msg.kind, p.answers with
  | .appendEntriesResponse true _ _, some { kind := .appendEntries i _ es _, .. } => some (i + es.length)
  | _, _ => none

-- When a leader counts a success reply, the peer has in that term acknowledged the whole log of the
-- leader, be it by this reply or by another one.
def State.answered (s : State) : Event → Bool
  | .call id (.deliver n) _ =>
    match s.network[n]? with
    | some { msg := { sender, term, kind := .appendEntriesResponse true _ _, .. }, .. } =>
      (s.nodes id).role ≠ .leader || term ≠ (s.nodes id).currentTerm ||
        s.network.any fun p => p.msg.sender = sender && p.msg.term = term &&
          p.reach.any ((s.nodes id).log.lastIndex ≤ ·)
    | _ => true
  | _ => true

namespace Shadow

theorem Vouches.acked {cs : List Commit} {p : Packet} {n : ℕ} (h : g.Vouches cs p)
    (hr : p.reach = some n) : n ≤ g.acked p.msg.sender p.msg.term := by
  unfold Packet.reach at hr
  split at hr
  case h_2 => contradiction
  case h_1 hk ha =>
    simp only [Vouches, hk] at h
    obtain ⟨_, _, _, _, _, ha', hk', hle⟩ := h
    rw [ha, Option.some.injEq] at ha'
    cases ha'
    cases hk'
    exact Option.some.inj hr ▸ hle

theorem Refines.acknowledged (h : g.Refines C F w) (hw : w.network = s.network)
    (hcall : s.call id input = some (node, as)) (ha : s.answered (.call id input cut)) :
    g.Acknowledged (s.cause input) (s.nodes id).kernel := by
  intro msg t i hm hk ht hr
  obtain ⟨n, ⟨⟨sender, receiver, term, kind⟩, answers⟩, rfl, hp, rfl, _⟩ := State.cause_handle hcall hm
  cases hk
  cases ht
  have hr : (s.nodes id).role = .leader := hr
  simp only [State.answered, hp, hr, ne_eq, not_true, decide_false, Bool.false_or, List.any_eq_true,
    Bool.and_eq_true, decide_eq_true_eq] at ha
  obtain ⟨p, hmem, ⟨hs, ht⟩, hreach⟩ := ha
  obtain ⟨n, hn, hle⟩ := (Option.any_eq_true ..).mp hreach
  have hacked := (h.sent p <| hw ▸ hmem).acked hn
  rw [hs, ht] at hacked
  exact (decide_eq_true_eq.mp hle).trans hacked

theorem init_refines (C : Cluster) :
    Shadow.Refines C (fun _ => []) { toState := Replication.init, requested := fun _ _ => [] }
      C.init.toWorld where
  matching  := .init
  safe      := .init
  term _ _  := rfl
  logs id _ := ⟨_, .new id, .new, .inl rfl⟩
  sent      := by simp [Cluster.init]
  elected   := by simp [Cluster.init]
  lined     := by simp [Replication.init]
  committed := by simp [Cluster.init]
  applied   := by simp [Cluster.init]
  floor     := fun _ _ => ⟨List.nil_prefix, .inl rfl⟩

theorem Refines.prepared (r : C.system.Reachable guard s) (h : g.Refines C F s.toWorld)
    (hm : ∀ n ∈ C.members, g.Replica s.commits n (s.nodes n).kernel) (hid : id ∈ C.members)
    (hp : (C.config id).peers ≠ []) (hcall : s.call id input = some (node, as))
    (hv : View (s.nodes id).log (g.log id)) (hb : (s.nodes id).log.firstIndex ≤ (s.nodes id).commitIndex)
    (ha : g.Acknowledged (s.cause input) (s.nodes id).kernel) :
    ∃ g' : Shadow, g'.Prepared C F s id node (s.record id (s.nodes id) node) := by
  by_cases hr : (s.nodes id).role ≠ .leader ∧ node.role = .leader
  case pos => exact Prepared.elect r h hm hid hp hcall hv hr.left hr.right
  case neg =>
    by_cases hc : node.role = .leader ∧ (s.nodes id).commitIndex < node.commitIndex
    case pos => exact ⟨g, .commit r h hm hid hp hcall hv hb ha hc.left hc.right⟩
    case neg => exact ⟨g, .same h hm hr hc⟩

end Shadow

-- The replication of the log in a cluster of several nodes.
def replicas (C : Cluster) (F : NodeId → List LogEntry) (hn : 1 < C.members.card)
    (hc : ∀ s e, guard s e → s.compactsWithin e) (hK : ∀ s e, guard s e → s.snapshotCovers e)
    (ha : ∀ s e, guard s e → s.answered e) : Preserved C guard Shadow where
  world  g w      := g.Refines C F w
  memory g w id k := g.Replica w.commits id k
  spawn {g w id node} hw hid hn := by
    obtain ⟨log, hd, hv, hs⟩ := hw.logs id hid
    cases (hd.spawnNode _).symm.trans hn
    exact .follower (hw.term id hid) hs rfl
  call {g s id input cut node as} r hw hm hid hg hcall := by
    have hvotes := (voteLayer C _).invariant r
    have hsync := (syncLayer C True hc fun s e h _ => hK s e h).invariant r
    have hkept := hvotes.memory id hid
    obtain ⟨log, hl, hcov⟩ := (hsync.memory id hid).disk
    have hl : (s.disks id).Holds (s.nodes id).kernel.log := hcov.eq trivial ▸ hl
    have hb := (hsync.memory id hid).base_le
    have hp : (C.config id).peers ≠ [] := by
      intro hc
      have := C.peers_length hid
      simp [hc] at this
      omega
    obtain ⟨g', hprep⟩ := hw.prepared r hm hid hp hcall (hw.view hid hl) hb <|
      hw.acknowledged rfl hcall (ha _ _ hg)
    have hacting : g'.Acting C F (fun id => (s.nodes id).kernel) id (s.cause input) (s.handled input)
        (s.record id (s.nodes id) node) (s.nodes id).kernel node.kernel := {
      kept         := ⟨hprep.refines, fun n hn _ => hprep.replicas n hn⟩
      replica      := hprep.replicas id hid
      member       := hid
      id_eq        := hkept.id_eq
      peers        := hkept.peers_eq ▸ hp
      holds        := hl
      base_le      := hb
      received     := fun msg hmsg => by
        obtain ⟨n, packet, rfl, hp, rfl, hrcv⟩ := State.cause_handle hcall hmsg
        exact ⟨by simp [State.handled, hp], hrcv, packet, List.mem_of_getElem? hp, rfl⟩
      admissible   := State.admissible hsync.world hcall (hc _ _ hg) fun _ => hK _ _ hg
      acknowledged := hprep.refines.acknowledged rfl hcall (ha _ _ hg)
      risen        := hprep.risen
      advanced     := hprep.advanced
      only         := fun hr n hn hne hr' ht => by
        obtain ⟨e, he, hen, het⟩ := (hvotes.memory n hn).elected hr'
        exact hne <| hen.symm.trans <| leader_unique r hid hcall hr e he <| het.trans ht }
    exact (hacting.call <| State.call_kernel hcall).mono (fun _ ⟨g, h⟩ => ⟨g, h.toRefines, h.others⟩)
      fun _ _ ⟨g, h, hr⟩ => ⟨g, ⟨h.toRefines, h.others⟩, hr⟩

def replicaLayer (C : Cluster) (hn : 1 < C.members.card) (hc : ∀ s e, guard s e → s.compactsWithin e)
    (hK : ∀ s e, guard s e → s.snapshotCovers e) (ha : ∀ s e, guard s e → s.answered e) :
    GhostLayer C guard Shadow where
  toPreserved := replicas C (fun _ => []) hn hc hK ha
  init        := ⟨_, Shadow.init_refines C⟩

/-! ### State machine safety -/

-- The entries that have been applied at an index are the same, and the logs of later leaders hold them.
structure StateMachineSafe (w : World) : Prop where
  unique    : ∀ a ∈ w.applied, ∀ b ∈ w.applied, a.entry.index = b.entry.index → a.entry = b.entry
  committed : ∀ a ∈ w.applied, ∃ cm ∈ w.commits,
    a.entry.term ≤ cm.term ∧ cm.term ≤ a.term ∧ a.entry.index ≤ cm.index
  complete  : ∀ a ∈ w.applied, ∀ cm ∈ w.commits, a.entry.term ≤ cm.term → a.entry.index ≤ cm.index →
    ∀ el ∈ w.elections, cm.term < el.term →
      el.log.entryAt a.entry.index = some a.entry ∨ a.entry.index ≤ el.log.firstIndex

theorem Alone.stateMachineSafe {F full : List LogEntry} (h : Alone C F full w) : StateMachineSafe w where
  unique a ha b hb hi := by
    obtain ⟨_, hea, _⟩ := h.applied a ha
    obtain ⟨_, heb, _⟩ := h.applied b hb
    rw [hi, heb] at hea
    exact (Option.some.inj hea).symm
  committed a ha := (h.applied a ha).right.right
  complete a ha cm hcm hle hi el hel hlt := by
    obtain ⟨h0, hea, _⟩ := h.applied a ha
    obtain ⟨log, e, hv, hp, hnew⟩ := h.elected el hel
    rcases Nat.lt_or_ge el.log.firstIndex a.entry.index with hf | hf
    case inr => exact .inr hf
    case inl =>
      -- What has been appended since the election is of its term or later.
      have hlen : a.entry.index - 1 < log.length := by
        by_contra hge
        have hmem : a.entry ∈ full.drop log.length := by
          refine List.mem_of_getElem? (i := a.entry.index - 1 - log.length) ?_
          rwa [List.getElem?_drop, Nat.add_sub_cancel' (not_lt.mp hge)]
        have := hnew _ hmem
        omega
      rw [hv.entryAt hf, List.getElem?_append_left hlen, ← hp.getElem?_eq_of_lt hlen]
      exact .inl hea

theorem Shadow.Refines.stateMachineSafe (h : g.Refines C F w) : StateMachineSafe w where
  unique a ha b hb hi := by
    obtain ⟨h0, ca, hca, _, hia, hea⟩ := h.applied a ha
    obtain ⟨_, cb, hcb, _, hib, heb⟩ := h.applied b hb
    rw [← hi] at hib heb
    exact h.safe.committed_unique (h.committed ca hca) (h.committed cb hcb) (by omega) (by omega) hea heb
  committed a ha := by
    obtain ⟨_, cm, hcm, ht, hi, he⟩ := h.applied a ha
    exact ⟨cm, hcm, h.matching.le _ _ <| List.mem_of_getElem? he, ht, hi⟩
  complete a ha cm hcm _ hi el hel hlt := by
    obtain ⟨h0, ca, hca, _, hia, hea⟩ := h.applied a ha
    have hc := h.committed cm hcm
    have hlen := hc.left.le_length
    have he : (g.line cm.term)[a.entry.index - 1]? = some a.entry := by
      have hj : (g.line cm.term)[a.entry.index - 1]? = some (g.line cm.term)[a.entry.index - 1] :=
        List.getElem?_eq_getElem _
      rw [hj, h.safe.committed_unique hc (h.committed ca hca) (by omega) (by omega) hj hea]
    obtain ⟨log, hv, hp, ht⟩ := h.elected el hel
    rcases Nat.lt_or_ge el.log.firstIndex a.entry.index with hf | hf
    case inr => exact .inr hf
    case inl =>
      have hpos : 0 < log.length := by
        rcases log with _ | _
        · simp at ht
          omega
        · simp
      have hne : g.line el.term ≠ [] := by
        intro hc
        simp [List.prefix_nil.mp (hc ▸ hp)] at hpos
      have hline : (g.line el.term)[a.entry.index - 1]? = some a.entry :=
        (h.safe.committed_prefix hc hlt.le hne).getElem?_eq_some <|
          (List.getElem?_take_of_lt (by omega)).trans he
      -- The entry is below those of the leader's own term.
      have hlog : a.entry.index - 1 < log.length := by
        by_contra hge
        obtain ⟨e, hl, hlt'⟩ := exists_last hpos
        have := h.matching.tail (by omega) (hp.getElem?_eq_some hl) hline (hlt'.symm.trans ht)
        have hle : a.entry.term ≤ cm.term := h.matching.le _ _ <| List.mem_of_getElem? he
        have : a.entry.term = el.term := this
        omega
      rw [hv.entryAt hf, ← hp.getElem?_eq_of_lt hlog]
      exact .inl hline

-- The condition under which a cluster replicates safely.
abbrev Careful (s : State) (e : Event) : Prop :=
  s.compactsWithin e ∧ s.snapshotCovers e ∧ s.answered e

-- State machine safety and leader completeness, as long as each snapshot that a node installs reaches
-- the end of its log and each success reply that a leader counts speaks for all of its log.
theorem state_machine_safety (r : C.system.Reachable Careful s) : StateMachineSafe s.toWorld := by
  by_cases hn : 1 < C.members.card
  case pos =>
    obtain ⟨g, h⟩ := (replicaLayer C hn (fun _ _ (h : Careful _ _) => h.left) (fun _ _ h => h.right.left)
      fun _ _ h => h.right.right).invariant r
    exact h.world.stateMachineSafe
  case neg =>
    obtain ⟨full, h⟩ := (soloLayer C (not_lt.mp hn) (fun _ _ (h : Careful _ _) => h.left)
      fun _ _ h => h.right.left).invariant r
    exact h.world.stateMachineSafe

-- The second leader has what the first one has applied.
theorem state_machine_safety_three : ∃ s, (ofSize 3 (by decide)).system.Reachable Careful s ∧
    s.applied = [{ node := 1, term := 1, entry := { index := 1, term := 1, command := [] } }] ∧
    s.elections.map (fun e => (e.node, e.term)) = [(1, 1), (2, 2)] ∧ StateMachineSafe s.toWorld :=
  have r := TransitionSystem.reachable_run (T := (ofSize 3 (by decide)).system) Careful
    [.tick 1, .tick 1, .deliver 2 0, .deliver 1 2, .deliver 2 3, .deliver 1 5, .deliver 2 6, .deliver 1 8,
      .deliver 3 4, .tick 2, .tick 2, .deliver 3 11, .deliver 2 12, .deliver 3 14, .deliver 2 15]
    (by decide +kernel)
  ⟨_, r, by decide +kernel, by decide +kernel, state_machine_safety r⟩

-- Node 1 proposes before the reply to its no-op arrives, and takes the reply for both entries.
theorem not_state_machine_safe : ∃ s, (ofSize 3 (by decide)).system.Reachable (fun _ _ => True) s ∧
    ¬StateMachineSafe s.toWorld := by
  have r := TransitionSystem.reachable_run (T := (ofSize 3 (by decide)).system) (fun _ _ => True)
    [.tick 1, .tick 1, .deliver 2 0, .deliver 1 2, .deliver 2 3, .deliver 1 5, .deliver 2 6,
      .propose 1 [7], .deliver 1 8, .deliver 3 4, .tick 2, .tick 2, .deliver 3 13, .deliver 2 14,
      .deliver 3 16, .deliver 2 17, .deliver 3 19, .deliver 2 20, .deliver 3 21, .deliver 2 22]
    (by decide +kernel)
  refine ⟨_, r, fun h => ?_⟩
  have he := h.unique ⟨1, 1, ⟨2, 1, [7]⟩⟩ (by decide +kernel) ⟨2, 2, ⟨2, 2, []⟩⟩ (by decide +kernel) rfl
  exact absurd he (by decide)

end RaftRupee.Cluster
