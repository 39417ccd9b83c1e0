import RaftRupee.Core.Terms
import RaftRupee.Sim.Contacts
import RaftRupee.Sim.PreVoting
import RaftRupee.Sim.Steps

namespace RaftRupee

def Message.CrossesInto (side : Finset NodeId) (msg : Message) : Prop :=
  msg.receiver ∈ side ∧ msg.sender ∉ side

instance (side : Finset NodeId) : DecidablePred (Message.CrossesInto side) :=
  fun msg => inferInstanceAs (Decidable (msg.receiver ∈ side ∧ msg.sender ∉ side))

namespace Cluster

variable {C : Cluster} {guard : State → Event → Prop} {s₀ s s' : State} {id : NodeId} {input : Input}
variable {cut : Option ℕ} {o : Outcome} {ev : Event} {side : Finset NodeId} {T : ℕ} {p : Packet} {msg : Message}

-- The nodes of the side only get the messages of each other.
abbrev State.Isolates (side : Finset NodeId) (s : State) (ev : Event) : Prop :=
  s.Delivers (fun msg => ¬msg.CrossesInto side) ev

-- No node of the side is in a later term than `T`, and none can get there with what it has been granted
-- by others.
structure State.Confined (s : State) (side : Finset NodeId) (T : ℕ) : Prop where
  terms   : ∀ id ∈ side, (s.nodes id).currentTerm ≤ T
  counted : ∀ id ∈ side, (s.nodes id).role = .preCandidate →
    (s.nodes id).preVotesReceived ⊆ side ∨ (s.nodes id).currentTerm < T

-- A part of the members that is no majority of them.
structure Minority (C : Cluster) (side : Finset NodeId) : Prop where
  subset : side ⊆ C.members
  half   : 2 * side.card ≤ C.members.card

-- A call of a node of the side, which has peers.
theorem Minority.invoke (hm : Minority C side) (r : C.system.Reachable guard s) (hid : id ∈ side)
    (hcall : s.call id input = some o) : ∃ call, s.invocation id input = some call ∧
      (s.nodes id).invoke call = some o ∧ (s.nodes id).peers ≠ [] ∧
      (s.nodes id).majority = C.members.card / 2 + 1 := by
  have hkept := ((voteLayer C _).invariant r).memory id (hm.subset hid)
  have hpeers := peers_length (hm.subset hid)
  rw [← hkept.peers_eq] at hpeers
  have hcard : 0 < side.card := Finset.card_pos.mpr ⟨id, hid⟩
  have hhalf := hm.half
  rw [State.call_eq_invoke] at hcall
  obtain ⟨call, hi, hcall⟩ := Option.bind_eq_some_iff.mp hcall
  refine ⟨call, hi, hcall, fun hp => ?_, ?_⟩
  · have : (s.nodes id).kernel.peers = [] := hp
    simp [this] at hpeers
    omega
  · rw [RaftNode.majority, ← hpeers]
    rfl

/-! ### What the side cannot do -/

namespace State.Confined

-- What a node of the side handles comes from the side, and so is not of a later term.
theorem handled (h : s.Confined side T) (r : C.system.Reachable guard s) (hid : id ∈ side)
    (hg : s.Isolates side (.call id input cut)) (hi : s.invocation id input = some (.step msg))
    (hk : ¬msg.kind.isClient) : msg.sender ∈ side ∧ (msg.term ≤ T ∨ msg.kind.isPreVote) := by
  obtain ⟨n, p, rfl, hp, rfl, hrcv⟩ := invocation_step hi hk
  have hsender : p.msg.sender ∈ side := not_and_not_right.mp (hg p hp) (hrcv.symm ▸ hid)
  obtain ⟨_, hterm⟩ := sent_in_term r (List.mem_of_getElem? hp)
  exact ⟨hsender, hterm.imp_left (·.trans <| h.terms _ hsender)⟩

theorem backs {call : Invocation} {v : NodeId} {t : ℕ} (h : s.Confined side T) (r : C.system.Reachable guard s)
    (hid : id ∈ side) (hg : s.Isolates side (.call id input cut)) (hi : s.invocation id input = some call)
    (hb : call.Backs v t) : v ∈ side := by
  obtain ⟨receiver, rfl⟩ := hb
  exact (h.handled r hid hg hi (by simp [MessageKind.isClient])).left

theorem call_term (h : s.Confined side T) (hm : Minority C side) (r : C.system.Reachable guard s)
    (hid : id ∈ side) (hg : s.Isolates side (.call id input cut)) (hcall : s.call id input = some o) :
    o.1.currentTerm ≤ T := by
  obtain ⟨call, hi, hinvoke, hpeers, hmaj⟩ := hm.invoke r hid hcall
  have hterm := h.terms id hid
  rcases RaftNode.invoke_termStep hpeers hinvoke with ht | ⟨rfl, hk, ht⟩ | ⟨hr, hb, hq, ht⟩
  case stay => exact ht ▸ hterm
  case follow msg =>
    have hk := Bool.and_eq_true_iff.mp hk
    obtain ⟨_, hle⟩ := h.handled r hid hg hi (by simpa using hk.right)
    exact ht ▸ hle.resolve_right (by simpa using hk.left)
  case elect v =>
    rcases h.counted id hid hr with hsub | hlt
    case inr => exact ht ▸ hlt
    case inl =>
      -- The side is no majority.
      have hv := h.backs r hid hg hi hb
      have hle := Finset.card_le_card (Finset.insert_subset hv hsub)
      have hhalf := hm.half
      omega

theorem call_counted (h : s.Confined side T) (hm : Minority C side) (r : C.system.Reachable guard s)
    (hid : id ∈ side) (hg : s.Isolates side (.call id input cut)) (hcall : s.call id input = some o)
    (hr : o.1.role = .preCandidate) : o.1.preVotesReceived ⊆ side ∨ o.1.currentTerm < T := by
  obtain ⟨call, hi, hinvoke, hpeers, _⟩ := hm.invoke r hid hcall
  have hkept := ((voteLayer C _).invariant r).memory id (hm.subset hid)
  have hname : (s.nodes id).id = id := hkept.id_eq
  obtain ⟨hterm, hcounts⟩ := (RaftNode.invoke_preVoteStep hpeers hinvoke).counts hr
  rw [hterm]
  by_cases hlt : (s.nodes id).currentTerm < T
  case pos => exact .inr hlt
  case neg =>
    refine .inl fun v hv => ?_
    rcases hcounts v hv with rfl | hb | ⟨hr, hv⟩
    · rwa [hname]
    · exact h.backs r hid hg hi hb
    · exact (h.counted id hid hr).resolve_right hlt hv

/-! ### Runs -/

theorem step (h : s.Confined side T) (hm : Minority C side) (r : C.system.Reachable guard s)
    (hg : s.Isolates side ev) (hs : C.step s ev = some s') : s'.Confined side T where
  terms id hid := by
    rcases step_currentTerm r (hm.subset hid) hs with ht | ⟨_, _, _, rfl, hcall, _, hle⟩
    · exact ht ▸ h.terms id hid
    · exact hle.trans <| h.call_term hm r hid hg hcall
  counted id hid hr := by
    rcases step_node hs id with ⟨_, hn⟩ | ⟨_, _, rfl, hcall⟩ | ⟨_, hspawn⟩
    · rw [hn] at hr ⊢
      exact h.counted id hid hr
    · exact h.call_counted hm r hid hg hcall hr
    · simp [(StableDisk.spawnNode_follower hspawn).left] at hr

theorem run (h : s₀.Confined side T) (hm : Minority C side) (r : C.system.Reachable (fun _ _ => True) s₀)
    (r' : (C.system.goingOn s₀).Reachable (fun s ev => s.Isolates side ev) s) : s.Confined side T := by
  induction r'
  case init             => exact h
  case step r' hg hs hi => exact hi.step hm (r.goOn r' fun _ _ _ => trivial) hg hs

end State.Confined

theorem Minority.terms_le (hm : Minority C side) (r : C.system.Reachable (fun _ _ => True) s₀)
    (r' : (C.system.goingOn s₀).Reachable (fun s ev => s.Isolates side ev) s)
    (hT : ∀ id ∈ side, (s₀.nodes id).currentTerm ≤ T) :
    (∀ id ∈ side, (s.nodes id).currentTerm ≤ T + 1) ∧
      ((∀ id ∈ side, (s₀.nodes id).role = .preCandidate → (s₀.nodes id).preVotesReceived ⊆ side) →
        ∀ id ∈ side, (s.nodes id).currentTerm ≤ T) := by
  constructor
  case left =>
    have h : s₀.Confined side (T + 1) :=
      ⟨fun id hid => (hT id hid).trans (Nat.le_succ T), fun id hid _ => .inr <| Nat.lt_succ_of_le (hT id hid)⟩
    exact (h.run hm r r').terms
  case right =>
    intro hc
    have h : s₀.Confined side T := ⟨hT, fun id hid hr => .inl <| hc id hid hr⟩
    exact (h.run hm r r').terms

-- A minority that is cut off stays in its terms, however often its timers expire: at most it goes on by
-- one, with pre-votes that others have granted before.
theorem minority_keeps_term (hm : Minority C side) (r : C.system.Reachable (fun _ _ => True) s₀)
    (r' : (C.system.goingOn s₀).Reachable (fun s ev => s.Isolates side ev) s)
    (hT : ∀ id ∈ side, (s₀.nodes id).currentTerm ≤ T) :
    (∀ id ∈ side, (s.nodes id).currentTerm ≤ T + 1) ∧
      ((∀ id ∈ side, (s₀.nodes id).role = .preCandidate → (s₀.nodes id).preVotesReceived ⊆ side) →
        ∀ id ∈ side, (s.nodes id).currentTerm ≤ T) :=
  hm.terms_le r r' hT

-- Node 1 has the pre-vote of node 3. It gets the one of node 2 when the two of them are already cut off.
theorem minority_keeps_term_five : ∃ s₀ s, (ofSize 5 (by decide)).system.Reachable (fun _ _ => True) s₀ ∧
    ((ofSize 5 (by decide)).system.goingOn s₀).Reachable (fun s ev => s.Isolates {1, 2} ev) s ∧
    (s₀.nodes 1).currentTerm = 0 ∧ (s.nodes 1).currentTerm = 1 ∧
    ∀ id ∈ ({1, 2} : Finset ℕ), (s.nodes id).currentTerm ≤ 1 := by
  let C := ofSize 5 (by decide)
  let s₀ := (C.system.run (fun _ _ => True) C.init
    [.tick 1, .tick 1, .deliver 3 1, .deliver 1 4]).get (by decide +kernel)
  let T := C.system.goingOn s₀
  let s := (T.run (fun s ev => s.Isolates {1, 2} ev) T.init
    [.deliver 2 0, .deliver 1 5]).get (by decide +kernel)
  have r : C.system.Reachable (fun _ _ => True) s₀ := TransitionSystem.reachable_run ..
  have r' : T.Reachable (fun s ev => s.Isolates {1, 2} ev) s := TransitionSystem.reachable_run ..
  have hm : Minority C {1, 2} := ⟨by decide +kernel, by decide +kernel⟩
  refine ⟨s₀, s, r, r', by decide +kernel, by decide +kernel, ?_⟩
  exact (minority_keeps_term (T := 0) hm r r' (by decide +kernel)).left

-- What a minority has sent by the time it is no longer cut off does not depose a leader on the other side,
-- whenever it arrives.
theorem minority_deposes_nobody {s₁ s₂ : State} {l n : ℕ} (hm : Minority C side)
    (r : C.system.Reachable (fun _ _ => True) s₀) (h : s₀.Confined side (s₁.nodes l).currentTerm)
    (r' : (C.system.goingOn s₀).Reachable (fun s ev => s.Isolates side ev) s)
    (r₁ : (C.system.goingOn s).Reachable (fun _ _ => True) s₁) (hl : l ∈ C.members) (hls : l ∉ side)
    (hr : (s₁.nodes l).role = .leader) (hp : p ∈ s.network) (hsender : p.msg.sender ∈ side)
    (hn : s₁.network[n]? = some p) (hs : C.step s₁ (.deliver l n) = some s₂) :
    (s₂.nodes l).role = .leader ∧ (s₂.nodes l).currentTerm = (s₁.nodes l).currentTerm := by
  have hreach : C.system.Reachable (fun _ _ => True) s := r.goOn r' fun _ _ _ => trivial
  have hreach₁ : C.system.Reachable (fun _ _ => True) s₁ := hreach.goOn r₁ fun _ _ _ => trivial
  have hterm : p.msg.term ≤ (s₁.nodes l).currentTerm ∨ p.msg.kind.isPreVote :=
    (sent_in_term hreach hp).right.imp_left (·.trans <| (h.run hm r r').terms _ hsender)
  -- In its term the leader is the only one.
  have hother : p.msg.kind.fromLeader → p.msg.term ≠ (s₁.nodes l).currentTerm := by
    intro hk ht
    have hvotes := (voteLayer C _).invariant hreach₁
    have hannounced : s₁.Announced := ((announceLayer C _).invariant hreach₁).world
    obtain ⟨e, he, hnode, heterm⟩ := hannounced p (List.mem_of_getElem? hn) hk
    obtain ⟨e', he', hnode', heterm'⟩ := (hvotes.memory l hl).elected hr
    have heq := hvotes.world.election_unique he he' (heterm.trans <| ht.trans heterm'.symm)
    have hname : p.msg.sender = l := hnode.symm.trans <| heq.trans hnode'
    exact hls (hname ▸ hsender)
  obtain ⟨p', o, hp', _, hstep, w, _, rfl⟩ := step_deliver hs
  cases hn.symm.trans hp'
  have hreigns := RaftNode.step_reigns hr hterm hother hstep
  dsimp only
  rw [Function.update_self]
  exact ⟨hreigns.role, hreigns.term⟩

-- Node 1 leads in term 1. Node 3 has been cut off for so long that it asks for pre-votes.
theorem minority_deposes_nobody_three : ∃ s s₁ s₂, (s.nodes 3).role = .preCandidate ∧
    ((ofSize 3 (by decide)).system.goingOn s).Reachable (fun _ _ => True) s₁ ∧
    (s₁.nodes 1).role = .leader ∧ (ofSize 3 (by decide)).step s₁ (.deliver 1 9) = some s₂ ∧
    (s₂.nodes 1).role = .leader ∧ (s₂.nodes 1).currentTerm = (s₁.nodes 1).currentTerm := by
  let C := ofSize 3 (by decide)
  let s₀ := (C.system.run (fun _ _ => True) C.init [.tick 1, .tick 1, .deliver 2 0, .deliver 1 2, .deliver 2 3,
    .deliver 1 5, .deliver 3 7]).get (by decide +kernel)
  let T := C.system.goingOn s₀
  let s := (T.run (fun s ev => s.Isolates {3} ev) T.init [.tick 3, .tick 3]).get (by decide +kernel)
  let T₁ := C.system.goingOn s
  let s₁ := (T₁.run (fun _ _ => True) T₁.init [.tick 1, .deliver 2 10]).get (by decide +kernel)
  let s₂ := (C.step s₁ (.deliver 1 9)).get (by decide +kernel)
  have r : C.system.Reachable (fun _ _ => True) s₀ := TransitionSystem.reachable_run ..
  have r' : T.Reachable (fun s ev => s.Isolates {3} ev) s := TransitionSystem.reachable_run ..
  have r₁ : T₁.Reachable (fun _ _ => True) s₁ := TransitionSystem.reachable_run ..
  have hm : Minority C {3} := ⟨by decide +kernel, by decide +kernel⟩
  have h : s₀.Confined {3} (s₁.nodes 1).currentTerm := ⟨by decide +kernel, by decide +kernel⟩
  have hp : s₁.network[9]? = some ⟨⟨3, 1, 2, .preVote 1 1⟩, none⟩ := by decide +kernel
  have hs : C.step s₁ (.deliver 1 9) = some s₂ := (Option.some_get (by decide +kernel)).symm
  refine ⟨s, s₁, s₂, by decide +kernel, r₁, by decide +kernel, hs, ?_⟩
  exact minority_deposes_nobody hm r h r' r₁ (by decide +kernel) (by decide +kernel) (by decide +kernel)
    (by decide +kernel) (by decide +kernel) hp hs

end Cluster
end RaftRupee
