import RaftRupee.Core.Standoff
import RaftRupee.Sim.Steps

namespace RaftRupee.Cluster

variable {C : Cluster} {guard : State → Event → Prop} {s₀ s s' : State} {id : NodeId} {input : Input}
variable {cut : Option ℕ} {o : Outcome} {ev : Event} {call : Invocation}

-- No node leads, and no majority of the nodes is in one term. What pre-candidates count are nodes of
-- their own term.
structure State.Split (C : Cluster) (s : State) : Prop where
  leaderless : ∀ id ∈ C.members, (s.nodes id).role ≠ .leader
  scattered  : ∀ T, 2 * (C.members.filter fun id => (s.nodes id).currentTerm = T).card ≤ C.members.card
  counted    : ∀ id ∈ C.members, (s.nodes id).role = .preCandidate → ∀ v ∈ (s.nodes id).preVotesReceived,
    v ∈ C.members ∧ (s.nodes v).currentTerm = (s.nodes id).currentTerm

-- The messages that are in flight get lost.
def State.Loses (s₀ : State) : Event → Prop
  | .call _ (.deliver n) _ => s₀.network.length ≤ n
  | _                      => True

-- What has come of the split: the nodes are still in the same terms, and have only talked about pre-votes.
structure Standoff (C : Cluster) (s₀ s : State) : Prop extends s.Split C where
  terms   : ∀ id ∈ C.members, (s.nodes id).currentTerm = (s₀.nodes id).currentTerm
  network : s₀.network <+: s.network
  idle    : ∀ p ∈ s.network.drop s₀.network.length, p.msg.sender ∈ C.members ∧
    p.msg.Idle (s₀.nodes p.msg.sender).currentTerm

theorem State.Split.one_lt_card (h : s.Split C) : 1 < C.members.card := by
  obtain ⟨id, hid⟩ := C.nonempty
  have hle := h.scattered (s.nodes id).currentTerm
  have : 0 < (C.members.filter fun v => (s.nodes v).currentTerm = (s.nodes id).currentTerm).card :=
    Finset.card_pos.mpr ⟨id, by simp [hid]⟩
  omega

namespace Standoff

theorem delivers {n : ℕ} {p : Packet} (h : Standoff C s₀ s) (hn : s₀.network.length ≤ n)
    (hp : s.network[n]? = some p) :
    p.msg.sender ∈ C.members ∧ p.msg.Idle (s₀.nodes p.msg.sender).currentTerm := by
  refine h.idle p <| List.mem_iff_getElem?.mpr ⟨n - s₀.network.length, ?_⟩
  rwa [List.getElem?_drop, Nat.add_sub_cancel' hn]

theorem backs {v : NodeId} (h : Standoff C s₀ s) (hg : s₀.Loses (.call id input cut))
    (hi : s.invocation id input = some call) (hbacks : call.Backs v (s.nodes id).currentTerm) :
    v ∈ C.members ∧ (s.nodes v).currentTerm = (s.nodes id).currentTerm := by
  obtain ⟨receiver, rfl⟩ := hbacks
  cases input
  case deliver n =>
    obtain ⟨packet, hp, hi⟩ := Option.bind_eq_some_iff.mp hi
    split at hi
    case isFalse => contradiction
    case isTrue  =>
      have hmsg := Invocation.step.inj (Option.some.inj hi)
      obtain ⟨hsender, hidle⟩ := h.delivers hg hp
      rw [hmsg] at hsender hidle
      refine ⟨hsender, ?_⟩
      rcases hidle with ⟨_, _, hk⟩ | ⟨_, _, ht⟩ | ⟨_, _, hk⟩
      · cases hk
      · exact (h.terms v hsender).trans ht.symm
      · cases hk
  all_goals cases hi

-- All calls leave the node waiting.
theorem waits (h : Standoff C s₀ s) (r : C.system.Reachable guard s) (hid : id ∈ C.members)
    (hg : s₀.Loses (.call id input cut)) (hcall : s.call id input = some o) :
    ∃ call, s.invocation id input = some call ∧ Waits (s.nodes id) call o := by
  have hm := ((voteLayer C _).invariant r).memory id hid
  have hpeers := peers_length hid
  rw [← hm.peers_eq] at hpeers
  have hcard := h.one_lt_card
  rw [State.call_eq_invoke] at hcall
  obtain ⟨call, hi, hcall⟩ := Option.bind_eq_some_iff.mp hcall
  refine ⟨call, hi, RaftNode.invoke_waits (fun hp => ?_) (h.leaderless id hid) ?_ ?_ hcall⟩
  case refine_1 =>
    have : (s.nodes id).kernel.peers = [] := hp
    simp [this] at hpeers
    omega
  case refine_2 =>
    cases input
    case deliver n =>
      obtain ⟨packet, hp, hi⟩ := Option.bind_eq_some_iff.mp hi
      split at hi
      case isFalse => contradiction
      case isTrue  =>
        cases hi
        exact .inr ⟨_, (h.delivers hg hp).right⟩
    case request =>
      cases hi
      exact .inl ⟨_, rfl⟩
    all_goals
      cases hi
      trivial
  case refine_3 =>
    -- Those who have backed the node are in its term, and so they are no majority.
    intro p hrole hbacks
    have hsubset : insert p (s.nodes id).preVotesReceived ⊆
        C.members.filter fun v => (s.nodes v).currentTerm = (s.nodes id).currentTerm := by
      intro v hv
      rw [Finset.mem_filter]
      rcases Finset.mem_insert.mp hv with rfl | hv
      · exact h.backs hg hi hbacks
      · exact h.counted id hid hrole v hv
    have hle := Finset.card_le_card hsubset
    have hhalf := h.scattered (s.nodes id).currentTerm
    have hmaj : (s.nodes id).majority = C.members.card / 2 + 1 := by
      rw [RaftNode.majority, ← hpeers]
      rfl
    omega

theorem step (h : Standoff C s₀ s) (r : C.system.Reachable guard s) (hg : s₀.Loses ev)
    (hs : C.step s ev = some s') : Standoff C s₀ s' := by
  have hterms : ∀ id ∈ C.members, (s'.nodes id).currentTerm = (s.nodes id).currentTerm := by
    intro id hid
    rcases step_currentTerm r hid hs with ht | ⟨input, cut, o, rfl, hcall, hle, hle'⟩
    · exact ht
    · obtain ⟨_, _, hw⟩ := h.waits r hid hg hcall
      exact (hle'.trans hw.term.le).antisymm hle
  have hterms₀ (id) (hid : id ∈ C.members) := (hterms id hid).trans (h.terms id hid)
  refine ⟨⟨fun id hid => ?_, fun T => ?_, fun id hid hrole v hv => ?_⟩, hterms₀, ?_, ?_⟩
  case refine_1 =>
    rcases step_node hs id with ⟨_, hn⟩ | ⟨input, actions, rfl, hcall⟩ | ⟨disk, hspawn⟩
    · exact hn ▸ h.leaderless id hid
    · obtain ⟨_, _, hw⟩ := h.waits r hid hg hcall
      exact hw.role
    · simp [(StableDisk.spawnNode_follower hspawn).left]
  case refine_2 =>
    have : (C.members.filter fun id => (s'.nodes id).currentTerm = T) =
        C.members.filter fun id => (s.nodes id).currentTerm = T :=
      Finset.filter_congr fun id hid => by rw [hterms id hid]
    exact this ▸ h.scattered T
  case refine_3 =>
    suffices hv : v ∈ C.members ∧ (s.nodes v).currentTerm = (s.nodes id).currentTerm by
      exact ⟨hv.left, (hterms v hv.left).trans (hv.right.trans (hterms id hid).symm)⟩
    rcases step_node hs id with ⟨_, hn⟩ | ⟨input, actions, rfl, hcall⟩ | ⟨disk, hspawn⟩
    · rw [hn] at hrole hv
      exact h.counted id hid hrole v hv
    · obtain ⟨call, hi, hw⟩ := h.waits r hid hg hcall
      rcases hw.preVotes hrole v hv with rfl | hbacks | ⟨hr, hv⟩
      · have hm := ((voteLayer C _).invariant r).memory id hid
        have hid' : (s.nodes id).id = id := hm.id_eq
        rw [hid']
        exact ⟨hid, rfl⟩
      · exact h.backs hg hi hbacks
      · exact h.counted id hid hr v hv
    · simp [(StableDisk.spawnNode_follower hspawn).left] at hrole
  case refine_4 => exact h.network.trans (step_network hs)
  case refine_5 =>
    obtain ⟨new, hnew, hsends⟩ := step_sends hs
    intro p hp
    rw [hnew, List.drop_append_of_le_length h.network.length_le] at hp
    rcases List.mem_append.mp hp with hp | hp
    · exact h.idle p hp
    · obtain ⟨id, input, cut, o, rfl, hcall, hsend⟩ := hsends p hp
      have hid : id ∈ C.members := mem_of_step hs
      obtain ⟨_, _, hw⟩ := h.waits r hid hg hcall
      obtain ⟨hsender, hidle⟩ := hw.sends _ <| (executed_isPrefix cut o.2).subset hsend
      have hm := ((voteLayer C _).invariant r).memory id hid
      have hsender : p.msg.sender = id := hsender.trans hm.id_eq
      rw [hsender]
      exact ⟨hid, h.terms id hid ▸ hidle⟩

end Standoff

theorem State.Split.standoff (h : s₀.Split C) (r : C.system.Reachable (fun _ _ => True) s₀)
    (r' : (C.system.goingOn s₀).Reachable (fun _ ev => s₀.Loses ev) s) : Standoff C s₀ s := by
  have hinit : Standoff C s₀ s₀ := ⟨h, fun _ _ => rfl, List.prefix_rfl, by simp⟩
  refine r'.invariant hinit ?_
  intro s s' ev r' h hg hs
  exact h.step (r.goOn r' fun _ _ _ => trivial) hg hs

-- A split cluster stays without a leader for good, once the messages of its last elections are lost.
theorem split_for_good (r : C.system.Reachable (fun _ _ => True) s₀) (h : s₀.Split C)
    (r' : (C.system.goingOn s₀).Reachable (fun _ ev => s₀.Loses ev) s) :
    ∀ id ∈ C.members, (s.nodes id).role ≠ .leader ∧ (s.nodes id).currentTerm = (s₀.nodes id).currentTerm := by
  have hs := h.standoff r r'
  exact fun id hid => ⟨hs.leaderless id hid, hs.terms id hid⟩

instance : Decidable (s₀.Split C) :=
  decidable_of_iff
    ((∀ id ∈ C.members, (s₀.nodes id).role ≠ .leader) ∧
      (∀ id₁ ∈ C.members, 2 * (C.members.filter fun id => (s₀.nodes id).currentTerm =
        (s₀.nodes id₁).currentTerm).card ≤ C.members.card) ∧
      ∀ id ∈ C.members, (s₀.nodes id).role = .preCandidate → ∀ v ∈ (s₀.nodes id).preVotesReceived,
        v ∈ C.members ∧ (s₀.nodes v).currentTerm = (s₀.nodes id).currentTerm) <| by
    constructor
    case mp =>
      rintro ⟨hl, hs, hc⟩
      refine ⟨hl, fun T => ?_, hc⟩
      rcases Finset.eq_empty_or_nonempty (C.members.filter fun id =>
        (s₀.nodes id).currentTerm = T) with he | hne
      · simp [he]
      · obtain ⟨id, hm⟩ := hne
        obtain ⟨hid, ht⟩ := Finset.mem_filter.mp hm
        exact ht ▸ hs id hid
    case mpr => exact fun h => ⟨h.leaderless, fun id _ => h.scattered _, h.counted⟩

-- One of two nodes has become a candidate, and its vote request is lost. The other node is still in term 0.
theorem split_for_good_two : ∃ s₀, (ofSize 2 (by decide)).system.Reachable (fun _ _ => True) s₀ ∧
    (s₀.nodes 1).role = .candidate ∧ ∀ s,
      ((ofSize 2 (by decide)).system.goingOn s₀).Reachable (fun _ ev => s₀.Loses ev) s →
      ∀ id ∈ (ofSize 2 (by decide)).members, (s.nodes id).role ≠ .leader ∧
        (s.nodes id).currentTerm = (s₀.nodes id).currentTerm := by
  have r := TransitionSystem.reachable_run (T := (ofSize 2 (by decide)).system) (fun _ _ => True)
    [.tick 1, .tick 1, .deliver 2 0, .deliver 1 1] (by decide +kernel)
  refine ⟨_, r, ?_, fun s r' => split_for_good r ?_ r'⟩ <;> decide +kernel

end RaftRupee.Cluster
