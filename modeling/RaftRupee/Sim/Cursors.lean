import RaftRupee.Core.Cursors
import RaftRupee.Sim.Sync

namespace RaftRupee.Cluster

variable {C : Cluster} {guard : State → Event → Prop} {s s' : State} {id : NodeId} {input : Input}
variable {cut : Option ℕ} {o : Outcome}

-- A reply that a leader counts leaves its cursors in order.
def State.repliesOrdered (s : State) : Event → Bool
  | .call id (.deliver n) _ =>
    match s.network[n]? with
    | some { msg, .. } =>
      (s.nodes id).role ≠ .leader || msg.term ≠ (s.nodes id).currentTerm || (s.nodes id).OrderedReply msg
    | none => true
  | _ => true

-- Each leader knows where each of its peers is, and probes it beyond.
def CursorsOrdered (C : Cluster) (s : State) : Prop :=
  ∀ l ∈ C.members, (s.nodes l).role = .leader → ∀ p ∈ C.members, p ≠ l → ∃ m n,
    (s.nodes l).matchIndex p = some m ∧ (s.nodes l).nextIndex p = some n ∧
      m < n ∧ n ≤ (s.nodes l).log.lastIndex + 1

-- A node that stays leader of its term does not take back what it knows.
def MatchMonotone (C : Cluster) (s s' : State) : Prop :=
  ∀ l ∈ C.members, (s.nodes l).role = .leader → (s'.nodes l).role = .leader →
    (s'.nodes l).currentTerm = (s.nodes l).currentTerm → ∀ p ∈ C.members, p ≠ l →
      ∀ m, (s.nodes l).matchIndex p = some m → ∃ m', (s'.nodes l).matchIndex p = some m' ∧ m ≤ m'

theorem State.call_keepsCursors (hc : (s.nodes id).log.Contiguous)
    (h : (s.nodes id).role = .leader → (s.nodes id).Cursors)
    (ho : s.repliesOrdered (.call id input cut)) (hcall : s.call id input = some o) :
    (s.nodes id).KeepsCursors o := by
  cases input
  case tick =>
    cases hcall
    exact RaftNode.tick_keepsCursors hc h
  case propose command =>
    cases hcall
    exact RaftNode.propose_keepsCursors hc h command
  case compactLogs i t data =>
    cases hcall
    exact RaftNode.compactLogs_keepsCursors hc h i t data
  case request =>
    exact RaftNode.step_keepsCursors hc h (fun _ _ => by simp [RaftNode.OrderedReply]) hcall
  case deliver n =>
    obtain ⟨packet, hp, hcall⟩ := Option.bind_eq_some_iff.mp hcall
    split at hcall
    case isFalse => contradiction
    case isTrue  =>
      refine RaftNode.step_keepsCursors hc h (fun hr ht => ?_) hcall
      simpa [repliesOrdered, hp, hr, ht] using ho

theorem mem_node_peers {l p : NodeId} (r : C.system.Reachable guard s) (hl : l ∈ C.members)
    (hp : p ∈ C.members) (hne : p ≠ l) : p ∈ (s.nodes l).peers := by
  have hpeers : (s.nodes l).peers = _ := (((voteLayer C _).invariant r).memory l hl).peers_eq
  exact hpeers ▸ (C.mem_peers hl p).mpr ⟨hp, hne⟩

section

variable (hc : ∀ s e, guard s e → s.compactsWithin e) (hg : ∀ s e, guard s e → s.repliesOrdered e)
include hc

theorem log_contiguous (r : C.system.Reachable guard s) (hid : id ∈ C.members) :
    (s.nodes id).log.Contiguous :=
  (((syncLayer C False hc (by simp)).invariant r).memory id hid).contiguous

include hg

theorem leader_cursors (r : C.system.Reachable guard s) (hid : id ∈ C.members) :
    (s.nodes id).role = .leader → (s.nodes id).Cursors := by
  let Inv (s : State) := ∀ id ∈ C.members, (s.nodes id).role = .leader → (s.nodes id).Cursors
  suffices h : Inv s from h id hid
  refine r.invariant (fun _ _ => nofun) ?_
  intro s s' e r h hgu hs id hid
  rcases step_node hs id with ⟨_, hn⟩ | ⟨input, actions, rfl, hcall⟩ | ⟨disk, hspawn⟩
  · rw [hn]
    exact h id hid
  · exact (State.call_keepsCursors (log_contiguous hc r hid) (h id hid) (hg _ _ hgu) hcall).cursors
  · simp [(StableDisk.spawnNode_follower hspawn).left]

theorem cursorsOrdered (r : C.system.Reachable guard s) : CursorsOrdered C s := by
  intro l hl hr p hp hne
  obtain ⟨m, n, hm, hn, hlt⟩ := (leader_cursors hc hg r hl hr).lt p (mem_node_peers r hl hp hne)
  exact ⟨m, n, hm, hn, hlt, (leader_cursors hc hg r hl hr).le p n hn⟩

theorem matchMonotone {e : Event} (r : C.system.Reachable guard s) (hgu : guard s e)
    (hs : C.step s e = some s') : MatchMonotone C s s' := by
  intro l hl hr hr' ht p hp hne
  rcases step_node hs l with ⟨_, hn⟩ | ⟨input, actions, rfl, hcall⟩ | ⟨disk, hspawn⟩
  case inl     => exact fun m hm => ⟨m, hn ▸ hm, le_rfl⟩
  case inr.inr =>
    have hrole := (StableDisk.spawnNode_follower hspawn).left
    exact absurd (hr'.symm.trans hrole) (by simp)
  case inr.inl =>
    exact (State.call_keepsCursors (log_contiguous hc r hl) (leader_cursors hc hg r hl) (hg _ _ hgu)
      hcall).mono hr hr' ht p (mem_node_peers r hl hp hne)

theorem call_probesLog (r : C.system.Reachable guard s) (hid : id ∈ C.members)
    (hgu : guard s (.call id input cut)) (hcall : s.call id input = some o) :
    ∀ a ∈ o.2, a.ProbesLog o.1.log :=
  (State.call_keepsCursors (log_contiguous hc r hid) (leader_cursors hc hg r hid) (hg _ _ hgu) hcall).probes

end

-- The cursors of leaders are in order in runs in which no reply puts them out of order, and then what
-- leaders send refers to their logs.
theorem cursors_ordered (r : C.system.Reachable (fun s e => s.compactsWithin e ∧ s.repliesOrdered e) s) :
    CursorsOrdered C s ∧
      (∀ e s', s.compactsWithin e ∧ s.repliesOrdered e → C.step s e = some s' → MatchMonotone C s s') ∧
      ∀ id ∈ C.members, ∀ input cut node actions,
        s.compactsWithin (.call id input cut) ∧ s.repliesOrdered (.call id input cut) →
          s.call id input = some (node, actions) → ∀ a ∈ actions, a.ProbesLog node.log :=
  ⟨cursorsOrdered (fun _ _ => And.left) (fun _ _ => And.right) r,
    fun _ _ hg hs => matchMonotone (fun _ _ => And.left) (fun _ _ => And.right) r hg hs,
    fun _ hid _ _ _ _ hg hcall =>
      call_probesLog (fun _ _ => And.left) (fun _ _ => And.right) r hid hg hcall⟩

-- A leader of two nodes whose first probe the other one has rejected.
theorem cursors_ordered_two : ∃ s, (ofSize 2 (by decide)).system.Reachable
      (fun s e => s.compactsWithin e ∧ s.repliesOrdered e) s ∧
    (s.nodes 1).matchIndex 2 = some 2 ∧ (s.nodes 1).nextIndex 2 = some 3 ∧
    CursorsOrdered (ofSize 2 (by decide)) s :=
  have r := TransitionSystem.reachable_run (T := (ofSize 2 (by decide)).system)
    (fun s e => s.compactsWithin e ∧ s.repliesOrdered e)
    [.tick 1, .tick 1, .deliver 2 0, .deliver 1 1, .deliver 2 2, .deliver 1 3, .restart 1, .tick 1, .tick 1,
      .deliver 2 5, .deliver 1 6, .deliver 2 7, .deliver 1 8, .deliver 2 9, .deliver 1 10, .deliver 2 11,
      .deliver 1 12] (by decide +kernel)
  ⟨_, r, by decide +kernel, by decide +kernel, (cursors_ordered r).left⟩

-- The rejection arrives once more.
theorem not_cursors_ordered : ∃ s, (ofSize 2 (by decide)).system.Reachable (fun _ _ => True) s ∧
    (s.nodes 1).role = .leader ∧ (s.nodes 1).matchIndex 2 = some 2 ∧ (s.nodes 1).nextIndex 2 = some 1 ∧
    ¬CursorsOrdered (ofSize 2 (by decide)) s := by
  have r := TransitionSystem.reachable_run (T := (ofSize 2 (by decide)).system) (fun _ _ => True)
    [.tick 1, .tick 1, .deliver 2 0, .deliver 1 1, .deliver 2 2, .deliver 1 3, .restart 1, .tick 1, .tick 1,
      .deliver 2 5, .deliver 1 6, .deliver 2 7, .deliver 1 8, .deliver 2 9, .deliver 1 10, .deliver 2 11,
      .deliver 1 12, .deliver 1 10] (by decide +kernel)
  refine ⟨_, r, by decide +kernel, by decide +kernel, by decide +kernel, fun h => ?_⟩
  obtain ⟨m, n, hm, hn, hlt, _⟩ := h 1 (by decide) (by decide +kernel) 2 (by decide) (by decide)
  have hm' : some 2 = some m := .trans (by decide +kernel) hm
  have hn' : some 1 = some n := .trans (by decide +kernel) hn
  cases hm'
  cases hn'
  exact absurd hlt (by decide)

end RaftRupee.Cluster
