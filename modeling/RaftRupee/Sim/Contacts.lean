import RaftRupee.Core.Contacts
import RaftRupee.Sim.Votes

namespace RaftRupee.Cluster

variable {C : Cluster} {guard : State → Event → Prop} {s s' : State} {w : World} {id l T n : ℕ}
variable {es : List Event} {e : Event} {input : Input}

/-! ### What leaders send -/

-- Entries and snapshots come from nodes that have been elected in the term of the message.
def World.Announced (w : World) : Prop :=
  ∀ p ∈ w.network, p.msg.kind.fromLeader → ∃ e ∈ w.elections, e.node = p.msg.sender ∧ e.term = p.msg.term

def announceLayer (C : Cluster) (guard : State → Event → Prop) : Layer C guard where
  world        := World.Announced
  memory _ _ _ := True
  init         := by simp [World.Announced, init]
  spawn _ _ _  := trivial
  call {s id input cut node as} r h _ hid _ hcall := by
    have hkept := ((voteLayer C _).invariant r).memory id hid
    have hleader := (State.call_kernel hcall).fromLeader
    have hname : node.id = id := (State.call_kernel hcall).id_eq.left.trans hkept.id_eq
    let J (w : World) := w.Announced ∧ w.elections = (s.record id (s.nodes id) node).elections
    have hj : J (s.record id (s.nodes id) node) := by
      refine ⟨fun p hp hk => ?_, rfl⟩
      obtain ⟨e, he, hn, ht⟩ := h p hp hk
      exact ⟨e, World.elections_record _ _ _ _ he, hn, ht⟩
    refine (Crash.Sound.all (J := J) (fun _ h => ⟨h.left, by simp⟩) ?_ hj).mono (fun _ h => h)
      fun _ _ _ => trivial
    rintro w w' a ha ⟨hw, he⟩ hexec
    have hgrows := World.Grows.processAction hexec
    refine ⟨fun p hp hk => ?_, hgrows.elections.trans he⟩
    rw [hgrows.elections]
    rcases World.mem_network hexec hp with hp | ⟨rfl, _⟩
    case inl => exact hw p hp hk
    case inr =>
      obtain ⟨hr, hreplicates⟩ := hleader _ ha p.msg rfl hk
      obtain ⟨hs, ht⟩ := hreplicates.sender_eq
      obtain ⟨e, hm, hn, het⟩ := hkept.elected_record hcall hr
      exact ⟨e, he ▸ hm, hn.trans (hname.symm.trans hs.symm), het.trans ht.symm⟩

/-! ### Contact with leaders -/

-- The call does not make a node that knows a leader look for another one.
def State.patient (s : State) : Event → Bool
  | .call id input none =>
    match s.invocation id input with
    | some call => (s.nodes id).Patient call
    | none      => true
  | _ => true

-- Packet `k` comes from `l`, and node `id` takes it for a message of the leader of term `T`.
def State.Takes (s : State) (id k l T : ℕ) : Prop :=
  ∃ p, s.network[k]? = some p ∧ p.msg.receiver = id ∧ p.msg.sender = l ∧ p.msg.term = T ∧
    p.msg.kind.fromLeader ∧ (s.nodes id).currentTerm ≤ T

-- How often the timer of a node has ticked.
def ticks (id : ℕ) (es : List Event) : ℕ :=
  es.countP fun
    | .call id' .tick _ => id' = id
    | _                 => false

-- The node has accepted entries or a snapshot of `l` in term `T` less than `n` ticks ago.
def HeardWithin (C : Cluster) (es : List Event) (id l T n : ℕ) : Prop :=
  ∃ before k after s, es = before ++ .deliver id k :: after ∧
    C.system.Trace (fun _ _ => True) before s ∧ s.Takes id k l T ∧ ticks id after < n

-- The leader that a node knows is one of its term, and within a lease it has heard from it.
def LeaseReflectsContact (C : Cluster) (es : List Event) (s : State) : Prop :=
  ∀ id ∈ C.members, (s.nodes id).role ≠ .leader → ∀ l, (s.nodes id).leaderId = some l →
    (∃ e ∈ s.elections, e.node = l ∧ e.term = (s.nodes id).currentTerm) ∧
      ((s.nodes id).electionElapsed < (s.nodes id).electionTimeoutBase →
        HeardWithin C es id l (s.nodes id).currentTerm (s.nodes id).electionTimeoutBase)

theorem HeardWithin.mono (h : HeardWithin C es id l T n) {n' : ℕ} (hn : n ≤ n') :
    HeardWithin C es id l T n' :=
  have ⟨before, k, after, s, hes, t, ht, hlt⟩ := h
  ⟨before, k, after, s, hes, t, ht, hlt.trans_le hn⟩

theorem HeardWithin.append (h : HeardWithin C es id l T n) (e : Event) :
    HeardWithin C (es ++ [e]) id l T (n + ticks id [e]) := by
  obtain ⟨before, k, after, s, rfl, t, ht, hlt⟩ := h
  refine ⟨before, k, after ++ [e], s, by simp, t, ht, ?_⟩
  rw [ticks, List.countP_append]
  exact Nat.add_lt_add_right hlt _

theorem ticks_of_invocation {call : Invocation} (cut : Option ℕ) (h : s.invocation id input = some call) :
    ticks id [.call id input cut] = if call = .tick then 1 else 0 := by
  cases input
  case deliver k =>
    obtain ⟨p, _, h⟩ := Option.bind_eq_some_iff.mp h
    split at h
    case isFalse => contradiction
    case isTrue  =>
      cases h
      simp [ticks]
  all_goals
    cases h
    simp [ticks]

theorem ticks_of_ne (h : id ≠ e.node) : ticks id [e] = 0 := by
  rcases e with ⟨id', input, cut⟩ | id'
  case restart => rfl
  case call    =>
    have hne : ¬id' = id := Ne.symm h
    cases input <;> simp [ticks, hne]

-- What a node remembers of the leader, and for how long.
structure Remembers (C : Cluster) (es : List Event) (network : List Packet) (id : NodeId) (node : RaftNode) :
    Prop where
  leaderless : node.Leaderless
  heard      : node.role ≠ .leader → ∀ l, node.leaderId = some l →
    HeardWithin C es id l node.currentTerm (node.electionElapsed + 1)
  packet     : node.role ≠ .leader → ∀ l, node.leaderId = some l →
    ∃ p ∈ network, p.msg.kind.fromLeader ∧ p.msg.sender = l ∧ p.msg.term = node.currentTerm

namespace Remembers

variable {network network' : List Packet} {node : RaftNode}

theorem of_leaderId (h : node.leaderId = none) : Remembers C es network id node where
  leaderless _    := h
  heard _ _ hl    := absurd (h.symm.trans hl) (by simp)
  packet _ _ hl   := absurd (h.symm.trans hl) (by simp)

theorem mono (h : Remembers C es network id node) (hn : network <+: network') :
    Remembers C es network' id node where
  leaderless       := h.leaderless
  heard            := h.heard
  packet hr l hl   := (h.packet hr l hl).imp fun _ => .imp_left (hn.subset ·)

theorem call {actions : List Action} (t : C.system.Trace (fun s e => s.patient e) es s)
    (h : Remembers C es s.network id (s.nodes id)) (hg : s.patient (.call id input none))
    (hcall : s.call id input = some (node, actions)) :
    Remembers C (es ++ [.call id input none]) s.network id node := by
  rw [State.call_eq_invoke] at hcall
  obtain ⟨call, hi, hcall⟩ := Option.bind_eq_some_iff.mp hcall
  have hpatient : (s.nodes id).Patient call := by simpa [State.patient, hi] using hg
  have hhears := RaftNode.invoke_hears h.leaderless hpatient hcall
  have hleaderless := hhears.leaderless h.leaderless
  cases hhears
  case lead hr => exact ⟨hleaderless, fun hne => absurd hr hne, fun hne => absurd hr hne⟩
  case free hn => exact .of_leaderId hn
  case keep hr ht hid he =>
    refine ⟨hleaderless, fun hne l hl => ?_, fun hne l hl => ?_⟩
    · have hlast := (h.heard (hr ▸ hne) l (hid ▸ hl)).append (.call id input none)
      rw [ticks_of_invocation none hi] at hlast
      rw [ht, he]
      exact hlast.mono (by omega)
    · rw [ht]
      exact h.packet (hr ▸ hne) l (hid ▸ hl)
  case contact msg hc hk hle _ ht hid he =>
    subst hc
    -- Only a delivery brings the message of a leader.
    obtain ⟨k, p, rfl, hp, hrcv, rfl⟩ : ∃ k p, input = .deliver k ∧ s.network[k]? = some p ∧
        p.msg.receiver = id ∧ p.msg = msg := by
      cases input
      case deliver k =>
        obtain ⟨p, hp, hi⟩ := Option.bind_eq_some_iff.mp hi
        split at hi
        case isFalse     => contradiction
        case isTrue hrcv =>
          cases hi
          exact ⟨k, p, rfl, hp, hrcv, rfl⟩
      case request =>
        cases hi
        simp [MessageKind.fromLeader] at hk
      all_goals cases hi
    have hsender : ∀ l, node.leaderId = some l → p.msg.sender = l := fun l hl =>
      Option.some.inj (hid.symm.trans hl)
    refine ⟨hleaderless, fun _ l hl => ?_, fun _ l hl => ?_⟩
    · rw [ht, he]
      exact ⟨es, k, [], s, rfl, t.mono fun _ _ _ => trivial, ⟨p, hp, hrcv, hsender l hl, rfl, hk, hle⟩,
        Nat.zero_lt_one⟩
    · exact ⟨p, List.mem_of_getElem? hp, hk, hsender l hl, ht.symm⟩

end Remembers

theorem remembers (t : C.system.Trace (fun s e => s.patient e) es s) :
    ∀ id, Remembers C es s.network id (s.nodes id) := by
  induction t
  case init => exact fun id => .of_leaderId rfl
  case step es s s' e t hg hs h =>
    intro id
    refine Remembers.mono ?_ (step_network hs)
    rcases step_node hs id with ⟨hi, hn⟩ | ⟨input, actions, rfl, hcall⟩ | ⟨disk, hspawn⟩
    case inl =>
      rw [hn]
      refine ⟨(h id).leaderless, fun hr l hl => ?_, (h id).packet⟩
      have hlast := ((h id).heard hr l hl).append e
      rwa [ticks_of_ne hi] at hlast
    case inr.inl => exact (h id).call t hg hcall
    case inr.inr => exact .of_leaderId (StableDisk.spawnNode_follower hspawn).right

-- That is so in runs in which no node that knows a leader starts an election or votes for another node.
theorem lease_reflects_contact (t : C.system.Trace (fun s e => s.patient e) es s) :
    LeaseReflectsContact C es s := by
  intro id _ hr l hl
  obtain ⟨p, hp, hk, hs, ht⟩ := (remembers t id).packet hr l hl
  obtain ⟨e, he, hn, het⟩ := ((announceLayer C _).invariant t.reachable).world p hp hk
  exact ⟨⟨e, he, hn.trans hs, het.trans ht⟩, fun hlt => ((remembers t id).heard hr l hl).mono hlt⟩

-- Nodes 2 and 3 have heard from the leader of term 1.
theorem lease_reflects_contact_three : ∃ es s,
    (ofSize 3 (by decide)).system.Trace (fun s e => s.patient e) es s ∧
      (s.nodes 2).leaderId = some 1 ∧ (s.nodes 2).leaderLeaseActive ∧
      LeaseReflectsContact (ofSize 3 (by decide)) es s :=
  have t := TransitionSystem.trace_run (T := (ofSize 3 (by decide)).system) (fun s e => s.patient e)
    [.tick 1, .tick 1, .deliver 2 0, .deliver 1 2, .deliver 2 3, .deliver 1 5, .deliver 2 6, .deliver 3 7,
      .tick 2] (by decide +kernel)
  ⟨_, _, t, by decide +kernel, by decide +kernel, lease_reflects_contact t⟩

-- Then node 2 loses patience. Node 1 has not been elected in the term in which it asks for votes.
theorem not_lease_reflects_contact : ∃ es s,
    (ofSize 3 (by decide)).system.Trace (fun _ _ => True) es s ∧
      (s.nodes 2).role = .candidate ∧ (s.nodes 2).currentTerm = 2 ∧ (s.nodes 2).leaderId = some 1 ∧
      (s.nodes 2).leaderLeaseActive ∧ ¬LeaseReflectsContact (ofSize 3 (by decide)) es s := by
  have t := TransitionSystem.trace_run (T := (ofSize 3 (by decide)).system) (fun _ _ => True)
    [.tick 1, .tick 1, .deliver 2 0, .deliver 1 2, .deliver 2 3, .deliver 3 4, .deliver 1 5, .deliver 2 7,
      .tick 2, .tick 2, .deliver 3 11, .deliver 2 12] (by decide +kernel)
  refine ⟨_, _, t, by decide +kernel, by decide +kernel, by decide +kernel, by decide +kernel, fun h => ?_⟩
  obtain ⟨e, he, hn, ht⟩ := (h 2 (by decide) (by decide +kernel) 1 (by decide +kernel)).left
  revert e
  decide +kernel

end RaftRupee.Cluster
