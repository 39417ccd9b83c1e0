import RaftRupee.Sim.Refinement

namespace RaftRupee.Cluster

open Replication

variable {C : Cluster} {guard : State → Event → Prop} {s : State} {w w' : World} {id : NodeId}
variable {T n c : ℕ} {cs : List Commit} {m : Cause} {answers : Option Message} {k k' : Kernel}
variable {as bs : List Action} {log log' : RaftLog} {g g' : Shadow} {e : LogEntry} {F : NodeId → List LogEntry}
variable {input : Input} {node : RaftNode}

namespace Shadow

/-! ### What history learns from a call -/

-- A leader commits what it has seen a majority acknowledge.
theorem Leads.committed (hl : g.Leads id k) (hid : id ∈ C.members)
    (hp : k.peers = (C.config id).peers) (hv : View k.log (g.log id))
    (hb : k.log.firstIndex < n) (ht : k.log.termAt n = some k.currentTerm)
    (hq : k.majority ≤ k.replicaCount n) : g.Committed C.quorums k.currentTerm n := by
  obtain ⟨_, hn, hterm⟩ := hv.of_termAt ht
  refine ⟨⟨by omega, ?_⟩, ?_⟩
  · have he : (g.log id)[n - 1]? = some (g.log id)[n - 1] := List.getElem?_eq_getElem (by omega)
    have hlast := lastTerm_take he
    rw [Nat.sub_add_cancel (by omega), ← hterm] at hlast
    exact ⟨_, hl.line.symm ▸ he, hlast.symm⟩
  · let replicas := k.peers.filter fun peer => (k.matchIndex peer).getD 0 ≥ n
    have hmem : ∀ {peer}, peer ∈ replicas → peer ∈ C.members ∧ peer ≠ id := fun h =>
      (C.mem_peers hid _).mp <| hp ▸ List.mem_of_mem_filter h
    have hcard : (insert id replicas.toFinset).card = k.replicaCount n := by
      have hnodup : replicas.Nodup := (hp ▸ C.peers_nodup id).filter _
      rw [Finset.card_insert_of_notMem, List.toFinset_card_of_nodup hnodup, Nat.add_comm,
        Kernel.replicaCount, List.countP_eq_length_filter]
      exact fun h => (hmem (List.mem_toFinset.mp h)).right rfl
    refine ⟨insert id replicas.toFinset, mem_majorities_of_card hid ?_ ?_, ?_⟩
    · intro v hv
      rcases Finset.mem_insert.mp hv with rfl | hv
      · exact hid
      · exact (hmem <| List.mem_toFinset.mp hv).left
    · rw [hcard, ← hp]
      exact hq
    · intro v hv
      rcases Finset.mem_insert.mp hv with rfl | hv
      · exact hn.trans hl.own
      · have hm := List.of_mem_filter <| List.mem_toFinset.mp hv
        rcases hi : k.matchIndex v with _ | i
        · simp [hi] at hm
          omega
        · simp only [hi, Option.getD_some, ge_iff_le, decide_eq_true_eq] at hm
          rcases hl.peers v i hi with h | h
          · omega
          · omega

-- A success reply speaks for the whole log of the leader that handles it.
def Acknowledged (g : Shadow) (m : Cause) (k : Kernel) : Prop :=
  ∀ {msg t i}, m = .handle msg → msg.kind = .appendEntriesResponse true t i →
    msg.term = k.currentTerm → k.role = .leader → k.log.lastIndex ≤ g.acked msg.sender k.currentTerm

theorem Leads.confirm {msg : Message} (hl : g.Leads id k) (ha : g.Acknowledged m k)
    (hm : m = .handle msg) (ht : msg.term = k.currentTerm) (hr : k.role = .leader)
    (hk : (∃ t i, msg.kind = .appendEntriesResponse true t i) ∧ n = k.log.lastIndex ∨
      msg.kind = .installSnapshotResponse ∧ n = k.log.firstIndex) :
    g.Leads id { k with matchIndex := Function.update k.matchIndex msg.sender (some n) } where
  line           := hl.line
  nonempty       := hl.nonempty
  own            := hl.own
  peers peer i h := by
    by_cases hp : peer = msg.sender
    case neg => exact hl.peers peer i <| by simpa [hp] using h
    case pos =>
      obtain rfl : n = i := by simpa [hp] using h
      rcases hk with ⟨⟨t, i, hk⟩, rfl⟩ | ⟨_, rfl⟩
      · exact .inr <| hp ▸ ha hm hk ht hr
      · exact .inl le_rfl

-- The shadow of a world whose history has learnt from a call.
structure Prepared (C : Cluster) (F : NodeId → List LogEntry) (s : State) (id : NodeId)
    (node : RaftNode) (g : Shadow)
    (w : World) : Prop where
  refines  : g.Refines C F w
  replicas : ∀ n ∈ C.members, g.Replica w.commits n (s.nodes n).kernel
  risen    : (s.nodes id).role ≠ .leader → node.role = .leader →
    g.line node.currentTerm = g.log id ++ [(s.nodes id).kernel.noop]
  advanced : node.role = .leader → (s.nodes id).commitIndex < node.commitIndex →
    ∃ cm ∈ w.commits, cm.term = node.currentTerm ∧ cm.index = node.commitIndex

theorem Refines.view (h : g.Refines C F w) (hid : id ∈ C.members) (hd : (w.disks id).Holds log) :
    View log (g.log id) := by
  obtain ⟨log', hd', hv, _⟩ := h.logs id hid
  exact hd.unique hd' ▸ hv

theorem Prepared.same (h : g.Refines C F s.toWorld)
    (hm : ∀ n ∈ C.members, g.Replica s.commits n (s.nodes n).kernel)
    (hr : ¬((s.nodes id).role ≠ .leader ∧ node.role = .leader))
    (hc : ¬(node.role = .leader ∧ (s.nodes id).commitIndex < node.commitIndex)) :
    g.Prepared C F s id node (s.record id (s.nodes id) node) := by
  have hw : s.record id (s.nodes id) node = s.toWorld := by
    simp only [World.record, if_neg hr, if_neg hc]
  rw [hw]
  exact ⟨h, hm, fun h h' => absurd ⟨h, h'⟩ hr, fun h h' => absurd ⟨h, h'⟩ hc⟩

-- The leader of a term has its log become the log of the term.
theorem Prepared.elect (r : C.system.Reachable guard s) (h : g.Refines C F s.toWorld)
    (hm : ∀ n ∈ C.members, g.Replica s.commits n (s.nodes n).kernel) (hid : id ∈ C.members)
    (hp : (C.config id).peers ≠ []) (hcall : s.call id input = some (node, as))
    (hv : View (s.nodes id).log (g.log id)) (hr : (s.nodes id).role ≠ .leader)
    (hr' : node.role = .leader) :
    ∃ g' : Shadow, g'.Prepared C F s id node (s.record id (s.nodes id) node) := by
  have hvotes := (voteLayer C _).invariant r
  have hkept := hvotes.memory id hid
  have hunique := leader_unique r hid hcall hr'
  obtain ⟨msg, hmsg, hkind, hterm, hc, hk, hq⟩ :=
    (State.call_kernel hcall).elect hr hr' (hkept.peers_eq ▸ hp)
  have hs := (hm id hid).stands hc
  let k := (s.nodes id).kernel
  have hterm' : node.currentTerm = k.currentTerm := congrArg Kernel.currentTerm hk
  have hline : g.line k.currentTerm = [] := by
    by_contra hne
    obtain ⟨e, he, ht⟩ := h.lined _ hne
    have := hkept.pending hc e he <| hunique e he <| ht.trans hterm'.symm
    exact absurd ht this.ne
  have hvoters : ∀ v ∈ insert msg.sender k.votesReceived,
      v ∈ C.members ∧ g.backs v k.currentTerm (g.log id) := by
    intro v hv
    rcases Finset.mem_insert.mp hv with rfl | hv
    case inr => exact ⟨(hkept.voters hc v hv).left, hs.votes v hv⟩
    case inl =>
      obtain ⟨_, packet, _, hp, hpm, hrcv⟩ := State.cause_handle hcall hmsg
      have hsent := h.sent packet <| List.mem_of_getElem? hp
      simp only [Vouches, hpm, hkind, hrcv, hterm] at hsent
      rw [hs.requested] at hsent
      exact ⟨(State.granted hvotes.world hcall ⟨msg, hmsg, hkind, hterm, rfl⟩).left, hsent.right⟩
  have hst : Step C.quorums g.toState (g.toState.extend k.currentTerm (g.log id ++ [k.noop])) := by
    refine .elect hline (h.matching.logs id) hs.lt rfl hs.positive
      (mem_majorities_of_card hid (fun v hv => (hvoters v hv).left) ?_) fun v hv => (hvoters v hv).right
    rw [← hkept.peers_eq]
    exact hq
  let g' : Shadow := { g with toState := g.toState.extend k.currentTerm (g.log id ++ [k.noop]) }
  have hev : g.Evolves C g' := ⟨hst, fun _ _ _ => rfl⟩
  have hnew : g'.line k.currentTerm = g.log id ++ [k.noop] := Function.update_self ..
  have hrecord : s.record id (s.nodes id) node = { s.toWorld with
      elections := s.elections ++ [{ node := id, term := node.currentTerm, log := node.log }] } := by
    have hci : node.commitIndex = (s.nodes id).commitIndex := congrArg Kernel.commitIndex hk
    simp only [World.record, hr, hr', hci, lt_irrefl, and_false, if_false, ne_eq, not_false_eq_true,
      and_self, if_true]
  have hold : ∀ T, T ≠ k.currentTerm → g'.line T = g.line T := fun T hT => Function.update_of_ne hT ..
  rw [hrecord]
  refine ⟨g', ?_, fun n hn => ?_, fun _ _ => hterm' ▸ hnew, fun _ hci => ?_⟩
  · refine h.elect hev rfl rfl (fun T hT => ?_) ⟨g.log id ++ [k.noop], ?_, ?_, ?_⟩
    · by_cases hT' : T = k.currentTerm
      case pos => exact .inr <| hT'.trans hterm'.symm
      case neg => exact .inl <| hold T hT' ▸ hT
    · have hlog : node.log = k.log.append [k.noop] := congrArg Kernel.log hk
      exact hlog ▸ hv.append ⟨rfl, trivial⟩
    · exact hterm' ▸ hnew ▸ List.prefix_rfl
    · rw [hterm']
      simp [lastTerm, Kernel.noop, Replication.Entry.term]
  · by_cases hi : n = id
    case pos =>
      subst hi
      exact (hm n hn).evolve h hev rfl rfl fun hl => absurd hl hr
    case neg =>
      refine (hm n hn).evolve h hev rfl rfl fun hl => hold _ fun hc => hi ?_
      obtain ⟨e, he, hen, ht⟩ := (hvotes.memory n hn).elected hl
      exact hen.symm.trans <| hunique e he <| ht.trans <| hc.trans hterm'.symm
  · have hci' : node.commitIndex = (s.nodes id).commitIndex := congrArg Kernel.commitIndex hk
    exact absurd hci (by omega)

-- A leader that moves its commit index has committed what lies below.
theorem Prepared.commit (r : C.system.Reachable guard s) (h : g.Refines C F s.toWorld)
    (hm : ∀ n ∈ C.members, g.Replica s.commits n (s.nodes n).kernel) (hid : id ∈ C.members)
    (hp : (C.config id).peers ≠ []) (hcall : s.call id input = some (node, as))
    (hv : View (s.nodes id).log (g.log id)) (hb : (s.nodes id).log.firstIndex ≤ (s.nodes id).commitIndex)
    (ha : g.Acknowledged (s.cause input) (s.nodes id).kernel)
    (hr : node.role = .leader) (hci : (s.nodes id).commitIndex < node.commitIndex) :
    g.Prepared C F s id node (s.record id (s.nodes id) node) := by
  have hkept := ((voteLayer C _).invariant r).memory id hid
  obtain ⟨msg, n, hmsg, hterm, hl, hk, hadv⟩ :=
    (State.call_kernel hcall).advance hr hci (hkept.peers_eq ▸ hp)
  obtain ⟨_, hta, hq⟩ := hadv.of_lt hci
  have hleads := ((hm id hid).leads hl).confirm ha hmsg hterm hl hk
  have hcommitted := hleads.committed hid hkept.peers_eq hv (hb.trans_lt hci) hta hq
  have hterm' : node.currentTerm = (s.nodes id).currentTerm := hadv.currentTerm_eq
  have hl' : (s.nodes id).role = .leader := hl
  have hrecord : s.record id (s.nodes id) node = { s.toWorld with
      commits := s.commits ++ [{ node := id, term := node.currentTerm, index := node.commitIndex }] } := by
    simp only [World.record, hr, hl', hci, ne_eq, not_true, false_and, if_false, and_self, if_true]
  rw [hrecord]
  refine ⟨h.commit (hterm' ▸ hcommitted), fun n hn => (hm n hn).subset <| List.subset_append_left ..,
    fun h _ => absurd hl h, fun _ _ => ⟨_, List.mem_append_right _ <| List.mem_singleton_self _, rfl, rfl⟩⟩

end Shadow
end RaftRupee.Cluster
