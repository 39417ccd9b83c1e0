import RaftRupee.Sim.Delays
import RaftRupee.Sim.Embedding
import RaftRupee.Sim.Isolation

namespace RaftRupee.Simulator

open TransitionSystem

variable {H : BinaryHeap} {sim sim₀ sim₁ sim₂ : Simulator H} {seedFromU64 : ℕ → SmallRng}
variable {seed numNodes M T : ℕ} {side : Finset NodeId}

-- The ways from the other nodes into the side.
def crossings (numNodes : ℕ) (side : Finset NodeId) : Finset (NodeId × NodeId) :=
  ((List.range' 1 numNodes).toFinset \ side) ×ˢ side

theorem screens_of_crossings (hn : 0 < numNodes) (hc : crossings numNodes side ⊆ sim.network.partitions)
    (hd : ∀ msg ∈ sim.network.messages, (msg.sender, msg.receiver) ∉ crossings numNodes side) :
    Screens (cluster seedFromU64 seed hn) (fun msg => ¬msg.CrossesInto side) sim := by
  have hcrosses : ∀ msg : Message, msg.sender ∈ (cluster seedFromU64 seed hn).members →
      msg.CrossesInto side → (msg.sender, msg.receiver) ∈ crossings numNodes side := by
    rintro msg hs ⟨hrcv, hsender⟩
    exact Finset.mk_mem_product (Finset.mem_sdiff.mpr ⟨hs, hsender⟩) hrcv
  refine ⟨fun msg hs hm => hc <| hcrosses msg hs (not_not.mp hm), fun msg hm hs hm' => ?_⟩
  exact hd msg hm <| hcrosses msg hs hm'

theorem card_cluster (hn : 0 < numNodes) : (cluster seedFromU64 seed hn).members.card = numNodes := by
  rw [show (cluster seedFromU64 seed hn).members = (List.range' 1 numNodes).toFinset from rfl,
    List.toFinset_card_of_nodup List.nodup_range', List.length_range']

-- The nodes of the side are up, in terms up to `T`.
def UpWithin (T : ℕ) (side : Finset NodeId) (sim : Simulator H) : Prop :=
  ∀ id ∈ side, ∃ node, sim.nodes.lookup id = some node ∧ node.currentTerm ≤ T

-- The partitions keep the others from a minority. Once they have taken effect, the nodes of the minority that
-- are up stay in their terms, whatever the harness does short of healing the partitions.
theorem partitioned_keeps_term (hn : 0 < numNodes) (hM : 3 ≤ M)
    (hs : new seedFromU64 H seed numNodes = some sim₀)
    (r : sim₀.system.Reachable (fun _ e => e.2.delayWithin M) sim₁)
    (hside : side ⊆ (List.range' 1 numNodes).toFinset) (hhalf : 2 * side.card ≤ numNodes)
    (hc : crossings numNodes side ⊆ sim₁.network.partitions)
    (r₁ : sim₁.system.Reachable (fun _ e => e.2 ≠ .healAll) sim₂)
    (ht : sim₁.tickCount + M + 3 ≤ sim₂.tickCount) (hT : sim₂.UpWithin T side)
    (r₂ : sim₂.system.Reachable (fun _ e => e.2 ≠ .healAll) sim) :
    ∀ id ∈ side, ∀ node, sim.nodes.lookup id = some node → node.currentTerm ≤ T + 1 ∧
      ((∀ id ∈ side, ∀ node, sim₂.nodes.lookup id = some node → node.role = .preCandidate →
        node.preVotesReceived ⊆ side) → node.currentTerm ≤ T) := by
  let C := cluster seedFromU64 seed hn
  obtain ⟨hc', hd⟩ := partition_takes_effect hM hs r hc r₁ ht
  have hreach : sim₀.system.Reachable (fun _ _ => True) sim₂ :=
    (r.mono fun _ _ _ => trivial).goOn r₁ fun _ _ _ => trivial
  obtain ⟨s₂, r₂', he₂⟩ := embeds_run H hn hs hreach
  have htracks : Tracks C (fun msg => ¬msg.CrossesInto side) sim₂ s₂ := ⟨he₂, screens_of_crossings hn hc' hd⟩
  obtain ⟨s, hleads, he⟩ := Follows.reachable (fun _ _ => And.left)
    (fun _ e hne => followed_exec e.1 e.2 (absurd · hne)) r₂' htracks r₂
  have hnodes : ∀ id ∈ side, sim₂.nodes.lookup id = some (s₂.nodes id) ∧ (s₂.nodes id).currentTerm ≤ T := by
    intro id hid
    obtain ⟨node, hlookup, hterm⟩ := hT id hid
    obtain ⟨_, rfl⟩ := he₂.nodes id node hlookup
    exact ⟨hlookup, hterm⟩
  have hm : Cluster.Minority C side := ⟨hside, (card_cluster hn).symm ▸ hhalf⟩
  obtain ⟨hsucc, hclean⟩ := hm.terms_le (r₂'.mono fun _ _ _ => trivial)
    (hleads.mono fun _ _ => And.right) fun id hid => (hnodes id hid).right
  intro id hid node hlookup
  obtain ⟨_, rfl⟩ := he.nodes id node hlookup
  exact ⟨hsucc id hid, fun hc => hclean (fun id hid => hc id hid _ (hnodes id hid).left) id hid⟩

-- Node 3 is cut off as a follower of node 1, and asks for pre-votes in vain.
theorem partitioned_keeps_term_three : ∃ (sim₁ sim₂ sim : Simulator .sorted) (node : RaftNode),
    sim₁.tickCount + 6 ≤ sim₂.tickCount ∧ crossings 3 {3} ⊆ sim₁.network.partitions ∧
    sim₂.system.Reachable (fun _ e => e.2 ≠ .healAll) sim ∧ sim.nodes.lookup 3 = some node ∧
    node.role = .preCandidate ∧ node.currentTerm ≤ 1 := by
  let steps (n : ℕ) : List (Orders × Call) := .replicate n (leadersFirst, .step)
  let partitions : List (Orders × Call) := [(leadersFirst, .partition 1 3), (leadersFirst, .partition 2 3)]
  have hrun : ((new countFrom .sorted 0 3).bind fun sim₀ =>
      (sim₀.system.run (fun _ e => e.2.delayWithin 3) sim₀
        ((leadersFirst, .setMaxDelayTicks 0) :: steps 25 ++ partitions)).bind fun sim₁ =>
      (sim₁.system.run (fun _ e => e.2 ≠ .healAll) sim₁ (steps 6)).bind fun sim₂ =>
      (sim₂.system.run (fun _ e => e.2 ≠ .healAll) sim₂ (steps 24)).map fun sim =>
        (decide (sim₁.tickCount + 6 ≤ sim₂.tickCount ∧ crossings 3 {3} ⊆ sim₁.network.partitions),
          (sim₂.nodes.lookup 3).map fun node => (node.role, node.currentTerm),
          (sim.nodes.lookup 3).map (·.role))) = some (true, some (.follower, 1), some .preCandidate) := by
    decide +kernel
  obtain ⟨sim₀, h₀, hrun⟩ := Option.bind_eq_some_iff.mp hrun
  obtain ⟨sim₁, hrun₁, hrun⟩ := Option.bind_eq_some_iff.mp hrun
  obtain ⟨sim₂, hrun₂, hrun⟩ := Option.bind_eq_some_iff.mp hrun
  obtain ⟨sim, hrun, hfacts⟩ := Option.map_eq_some_iff.mp hrun
  simp only [Prod.mk.injEq, decide_eq_true_iff, Option.map_eq_some_iff] at hfacts
  obtain ⟨⟨ht, hc⟩, ⟨node₂, hlookup₂, hrole₂, hterm₂⟩, node, hlookup, hrole⟩ := hfacts
  have r : sim₀.system.Reachable (fun _ e => e.2.delayWithin 3) sim₁ := .run .init hrun₁
  have r₁ : sim₁.system.Reachable (fun _ e => e.2 ≠ .healAll) sim₂ := .run .init hrun₂
  have r₂ : sim₂.system.Reachable (fun _ e => e.2 ≠ .healAll) sim := .run .init hrun
  have hT : sim₂.UpWithin 1 {3} := by
    rintro id hid
    cases Finset.mem_singleton.mp hid
    exact ⟨node₂, hlookup₂, hterm₂.le⟩
  refine ⟨sim₁, sim₂, sim, node, ht, hc, r₂, hlookup, hrole, ?_⟩
  have hkeeps := partitioned_keeps_term (by decide) le_rfl h₀ r (by decide) (by decide) hc r₁ ht hT r₂ 3
  refine (hkeeps (Finset.mem_singleton_self 3) node hlookup).right fun id hid node hn hr => ?_
  cases Finset.mem_singleton.mp hid
  cases hlookup₂.symm.trans hn
  simp [hrole₂] at hr

end RaftRupee.Simulator
