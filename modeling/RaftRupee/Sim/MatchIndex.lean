import RaftRupee.Core.Contacts
import RaftRupee.Core.Persistence
import RaftRupee.Sim.Committed

namespace RaftRupee

-- Snapshots of an empty log only.
def Action.Empty : Action → Prop
  | send msg             => ∀ i t o data done, msg.kind = .installSnapshot i t o data done → i = 0
  | persistSnapshot i .. => i = 0
  | _                    => True

section

variable {m : Cause} {k k' : Kernel} {as : List Action}

-- As long as nothing is compacted, logs start at index zero.
theorem Call.empty (h : Call m k k' as) (hf : k.log.firstIndex = 0) (hc : ∀ i t, m ≠ .compactLogs i t)
    (hs : ∀ msg i t o data done, m = .handle msg → msg.kind = .installSnapshot i t o data done → i = 0) :
    k'.log.firstIndex = 0 ∧ ∀ a ∈ as, a.Empty := by
  have hsnap {i t data} (ha : .persistSnapshot i t data ∈ as) : i = 0 := by
    rcases h.snapshots ha with ⟨hm, _⟩ | ⟨hm, hk, _⟩
    · exact absurd hm (hc _ _)
    · exact hs _ _ _ _ _ _ hm hk
  have hf' : k'.log.firstIndex = 0 := by
    rcases h.sentinel with hsent | ⟨_, ha⟩
    · exact (congrArg LogEntry.index hsent).trans hf
    · exact hsnap ha
  refine ⟨hf', fun a ha => ?_⟩
  cases a
  case persistSnapshot => exact hsnap ha
  case send msg        =>
    intro i t o data done hk
    by_contra hi
    have hleader := (h.fromLeader _ ha msg rfl (by rw [hk]; rfl)).right
    exact hi <| ((hleader.snapshot_eq hk).right hi).left.trans hf'
  all_goals trivial

end

namespace Cluster

open Replication

variable {C : Cluster} {guard : State → Event → Prop} {s s' : State} {w : World} {id : NodeId}

-- Ticks, proposals and deliveries, without crashes and compaction.
def Event.plain : Event → Bool
  | .call _ (.compactLogs ..) _ => false
  | .call _ _ none              => true
  | _                           => false

-- What holds of a cluster that has never compacted a log.
structure Uncompacted (C : Cluster) (s : State) : Prop where
  logs : ∀ id ∈ C.members, (s.nodes id).log.firstIndex = 0
  sent : ∀ p ∈ s.network, ∀ i t o data done, p.msg.kind = .installSnapshot i t o data done → i = 0

theorem uncompacted (r : C.system.Reachable (fun s e => e.plain ∧ s.answered e) s) : Uncompacted C s := by
  refine r.invariant ⟨fun _ _ => rfl, by simp [system, init]⟩ ?_
  rintro s s' e _ h ⟨hp, _⟩ hs
  rcases e with ⟨id, input, cut⟩ | id
  case restart => simp [Event.plain] at hp
  case call =>
    simp only [system, step] at hs
    split at hs
    case isFalse => contradiction
    case isTrue hid =>
      obtain ⟨⟨node, actions⟩, hcall, hs⟩ := Option.bind_eq_some_iff.mp hs
      rcases cut with _ | k
      case some => cases input <;> simp [Event.plain] at hp
      case none =>
        obtain ⟨w, hrun, hs⟩ := Option.bind_eq_some_iff.mp hs
        cases hs
        have hc : ∀ i t, s.cause input ≠ .compactLogs i t := by
          intro i t hc
          obtain ⟨_, rfl⟩ := State.cause_compactLogs hc
          simp [Event.plain] at hp
        obtain ⟨hf, he⟩ := (State.call_kernel hcall).empty (h.logs id hid) hc
            fun msg i t o data done hm hk => by
          obtain ⟨_, packet, _, hp, hpm, _⟩ := State.cause_handle hcall hm
          exact h.sent packet (List.mem_of_getElem? hp) i t o data done (hpm ▸ hk)
        let J (w : World) := ∀ p ∈ w.network, ∀ i t o data done,
          p.msg.kind = .installSnapshot i t o data done → i = 0
        have hsound : Crash.Sound (World.processAction id node.currentTerm (s.handled input)) J
            (s.record id (s.nodes id) node) actions J := by
          refine .all (fun _ h => h) (fun w w' a ha hj hw p hp => ?_) h.sent
          rcases World.mem_network hw hp with hp | ⟨rfl, _⟩
          case inl => exact hj p hp
          case inr => exact he _ ha
        refine ⟨fun n hn => ?_, (hsound.run hrun).right⟩
        by_cases hi : n = id
        case pos =>
          subst hi
          have hf : node.log.firstIndex = 0 := hf
          simpa using hf
        case neg => simpa [hi] using h.logs n hn

-- What a leader believes about the log of a peer, as long as the peer is not in a later term.
def MatchSound (leader peer : RaftNode) : Prop :=
  ∀ m, leader.matchIndex peer.id = some m → peer.currentTerm ≤ leader.currentTerm → ∀ i, 0 < i → i ≤ m →
    (∃ e, leader.log.entryAt i = some e ∧ peer.log.entryAt i = some e) ∨ i ≤ peer.log.firstIndex

theorem Uncompacted.careful {e : Event} (h : Uncompacted C s) (he : e.plain) (ha : s.answered e) :
    Careful s e := by
  refine ⟨?_, ?_, ha⟩
  · unfold State.compactsWithin
    split
    case h_1 => simp [Event.plain] at he
    case h_2 => rfl
  · unfold State.snapshotCovers
    split
    case h_2 => rfl
    case h_1 =>
      split
      case h_2 => rfl
      case h_1 hp =>
        have := h.sent _ (List.mem_of_getElem? hp) _ _ _ _ _ rfl
        simp [this]

theorem one_lt_card_of_ne {l p : NodeId} (hl : l ∈ C.members) (hp : p ∈ C.members) (hne : l ≠ p) :
    1 < C.members.card :=
  Finset.one_lt_card.mpr ⟨l, hl, p, hp, hne⟩

theorem match_sound_of_careful (r : C.system.Reachable Careful s) {l p : NodeId} (hl : l ∈ C.members)
    (hp : p ∈ C.members) (hne : l ≠ p) (hr : (s.nodes l).role = .leader)
    (hf : (s.nodes l).log.firstIndex = 0) : MatchSound (s.nodes l) (s.nodes p) := by
  intro m hm ht i h0 hi
  obtain ⟨g, h⟩ := (replicaLayer C (one_lt_card_of_ne hl hp hne) (fun _ _ (h : Careful _ _) => h.left)
    (fun _ _ h => h.right.left) fun _ _ h => h.right.right).invariant r
  have hvl := h.world.full_view r hl
  have hvp := h.world.full_view r hp
  have hleads := (h.memory l hl).leads hr
  have hid : (s.nodes p).id = p := (((voteLayer C _).invariant r).memory p hp).id_eq
  let T := (s.nodes l).currentTerm
  have hline : g.line T = g.log l := hleads.line
  have hacked : m ≤ g.acked p T := by
    rcases hleads.peers p m (hid ▸ hm) with h | h
    · have : (s.nodes l).kernel.log.firstIndex = 0 := hf
      omega
    · exact h
  -- A peer that has acknowledged entries in the term of the leader, and has not left the term, holds them.
  have hterm : g.term p = T :=
    le_antisymm ((h.memory p hp).term.trans_le ht) <| h.world.safe.acked_term (by omega)
  have hlog : (g.log l).take m <+: g.log p := by
    have := h.world.safe.acked_log p
    rw [hterm, hline] at this
    exact (List.take_prefix_take_left hacked).trans this
  have hlen : m ≤ (g.log l).length := hacked.trans <| hline ▸ h.world.safe.acked_le p T
  have he : (g.log l)[i - 1]? = some (g.log l)[i - 1] := List.getElem?_eq_getElem (by omega)
  rcases Nat.lt_or_ge (s.nodes p).log.firstIndex i with hfp | hfp
  · refine .inl ⟨_, (hvl.entryAt (hf ▸ h0)).trans he, (hvp.entryAt hfp).trans ?_⟩
    exact hlog.getElem?_eq_some <| (List.getElem?_take_of_lt (by omega)).trans he
  · exact .inr hfp

-- It is true as long as each success reply that a leader counts speaks for all of its log.
theorem match_index_sound (r : C.system.Reachable (fun s e => e.plain ∧ s.answered e) s) :
    ∀ l ∈ C.members, ∀ p ∈ C.members, l ≠ p → (s.nodes l).role = .leader →
      MatchSound (s.nodes l) (s.nodes p) := by
  intro l hl p hp hne hr
  have hcareful : C.system.Reachable Careful s :=
    r.strengthen fun _ _ r h => (uncompacted r).careful h.left h.right
  exact match_sound_of_careful hcareful hl hp hne hr <| (uncompacted r).logs l hl

-- The leader of three nodes knows that node 2 has its no-op.
theorem match_index_sound_three : ∃ s, (ofSize 3 (by decide)).system.Reachable
      (fun s e => e.plain ∧ s.answered e) s ∧
    (s.nodes 1).matchIndex 2 = some 1 ∧
    ∀ l ∈ (ofSize 3 (by decide)).members, ∀ p ∈ (ofSize 3 (by decide)).members, l ≠ p →
      (s.nodes l).role = .leader → MatchSound (s.nodes l) (s.nodes p) :=
  have r := TransitionSystem.reachable_run (T := (ofSize 3 (by decide)).system)
    (fun s e => e.plain ∧ s.answered e)
    [.tick 1, .tick 1, .deliver 2 0, .deliver 1 2, .deliver 2 3, .deliver 1 5, .deliver 2 6, .deliver 1 8]
    (by decide +kernel)
  ⟨_, r, by decide +kernel, match_index_sound r⟩

-- The leader of two nodes takes the reply to its no-op for an entry that it has appended since.
theorem not_match_index_sound : ∃ s, (ofSize 2 (by decide)).system.Reachable (fun _ e => e.plain) s ∧
    (s.nodes 1).role = .leader ∧ ¬MatchSound (s.nodes 1) (s.nodes 2) := by
  have r := TransitionSystem.reachable_run (T := (ofSize 2 (by decide)).system) (fun _ e => e.plain)
    [.tick 1, .tick 1, .deliver 2 0, .deliver 1 1, .deliver 2 2, .deliver 1 3, .deliver 2 4,
      .propose 1 [42], .deliver 1 5] (by decide +kernel)
  refine ⟨_, r, by decide +kernel, fun h => ?_⟩
  have hsound := h 2 (by decide +kernel) (by decide +kernel) 2 (by decide) le_rfl
  rcases hsound with ⟨e, _, he⟩ | hle
  · exact absurd (Option.isSome_iff_exists.mpr ⟨e, he⟩) (by decide +kernel)
  · exact absurd hle (by decide +kernel)

end Cluster
end RaftRupee
