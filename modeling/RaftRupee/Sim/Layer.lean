import RaftRupee.Core.HardState
import RaftRupee.Core.Invocations
import RaftRupee.Lib.Crash
import RaftRupee.Sim.Cluster

namespace RaftRupee.Cluster

variable {C : Cluster} {s s' : State} {id : NodeId} {input : Input} {r : Outcome}

def State.cause (s : State) : Input → Cause
  | .tick                => .tick
  | .propose _           => .propose
  | .compactLogs i t _   => .compactLogs i t
  | .request ..          => .propose
  | .deliver n           =>
    match s.network[n]? with
    | some packet => .handle packet.msg
    | none        => .tick

theorem State.call_kernel (h : s.call id input = some r) :
    Call (s.cause input) (s.nodes id).kernel r.1.kernel r.2 := by
  cases input
  case tick                 => exact RaftNode.invoke_call (c := .tick) h
  case propose command      => exact RaftNode.invoke_call (c := .propose command) h
  case compactLogs i t data => exact RaftNode.invoke_call (c := .compactLogs i t data) h
  case request client term command =>
    simp only [call, RaftNode.step, MessageKind.isPreVote, MessageKind.isClient, Bool.not_true,
      Bool.and_false, Bool.false_eq_true, if_false, RaftNode.dispatch] at h
    cases h
    exact .same <| RaftNode.handleClientRequest_move ..
  case deliver n =>
    obtain ⟨packet, hp, h⟩ := Option.bind_eq_some_iff.mp h
    split at h
    case isFalse => contradiction
    case isTrue =>
      simp only [cause, hp]
      exact RaftNode.step_call h

-- The entry point that a call goes through.
def State.invocation (s : State) (id : NodeId) : Input → Option Invocation
  | .tick                         => some .tick
  | .propose command              => some (.propose command)
  | .compactLogs i t data         => some (.compactLogs i t data)
  | .request client term command  =>
    some (.step { sender := client, receiver := id, term, kind := .clientRequest command })
  | .deliver n                    =>
    (s.network[n]?).bind fun packet => if packet.msg.receiver = id then some (.step packet.msg) else none

theorem State.call_eq_invoke (s : State) (id : NodeId) (input : Input) :
    s.call id input = (s.invocation id input).bind (s.nodes id).invoke := by
  cases input
  case deliver n =>
    simp only [call, invocation]
    cases hp : s.network[n]?
    case none => simp
    case some packet =>
      by_cases h : packet.msg.receiver = id <;> simp [h, RaftNode.invoke]
  all_goals rfl

-- The message that a call handles has been sent to the node.
theorem State.cause_handle {msg : Message} (h : s.call id input = some r)
    (hm : s.cause input = .handle msg) : ∃ n packet, input = .deliver n ∧
      s.network[n]? = some packet ∧ packet.msg = msg ∧ msg.receiver = id := by
  cases input
  case deliver n =>
    obtain ⟨packet, hp, h⟩ := Option.bind_eq_some_iff.mp h
    split at h
    case isFalse => contradiction
    case isTrue hrcv =>
      simp only [cause, hp, Cause.handle.injEq] at hm
      exact ⟨n, packet, rfl, hp, hm, hm ▸ hrcv⟩
  all_goals contradiction

theorem State.cause_compactLogs {i t : ℕ} (h : s.cause input = .compactLogs i t) :
    ∃ data, input = .compactLogs i t data := by
  cases input
  case compactLogs data =>
    cases h
    exact ⟨data, rfl⟩
  case deliver =>
    simp only [cause] at h
    split at h <;> cases h
  all_goals cases h

def Event.node : Event → NodeId
  | call id _ _ => id
  | restart id  => id

-- A step changes one node, by a call or by a restart from some disk.
theorem step_node {e : Event} (h : C.step s e = some s') (id : NodeId) :
    id ≠ e.node ∧ s'.nodes id = s.nodes id ∨
      (∃ input actions, e = .call id input none ∧ s.call id input = some (s'.nodes id, actions)) ∨
        ∃ disk : StableDisk, disk.spawnNode (C.config id) = some (s'.nodes id) := by
  have hrestart {s : State} (h : C.restart s e.node = some s') :
      id ≠ e.node ∧ s'.nodes id = s.nodes id ∨
        ∃ disk : StableDisk, disk.spawnNode (C.config id) = some (s'.nodes id) := by
    obtain ⟨node, hn, h⟩ := Option.bind_eq_some_iff.mp h
    cases h
    by_cases hid : id = e.node
    case neg => exact .inl ⟨hid, Function.update_of_ne hid ..⟩
    case pos => exact .inr ⟨s.disks e.node, by simpa [hid] using hn⟩
  rcases e with ⟨id', input, cut⟩ | id'
  all_goals
    simp only [step] at h
    split at h
    case isFalse => contradiction
  case restart.isTrue => exact (hrestart h).imp_right .inr
  case call.isTrue =>
    obtain ⟨⟨node, actions⟩, hcall, h⟩ := Option.bind_eq_some_iff.mp h
    cases cut
    all_goals obtain ⟨w, _, h⟩ := Option.bind_eq_some_iff.mp h
    case some => exact (hrestart h).imp_right .inr
    case none =>
      cases h
      by_cases hid : id = id'
      case neg => exact .inl ⟨hid, Function.update_of_ne hid ..⟩
      case pos =>
        subst hid
        exact .inr <| .inl ⟨input, actions, rfl, by simpa using hcall⟩

/-! ### What executing actions can do to the world -/

namespace World

variable {w w' w'' : World} {T : ℕ} {answers : Option Message} {a : Action} {as : List Action}

-- Node `id` only appends to the network and to the history, and only writes to its own disk.
structure Grows (id : NodeId) (w w' : World) : Prop where
  network   : w.network <+: w'.network
  applied   : w.applied <+: w'.applied
  elections : w'.elections = w.elections
  commits   : w'.commits = w.commits
  disks     : ∀ id', id' ≠ id → w'.disks id' = w.disks id'

namespace Grows

theorem refl : Grows id w w :=
  ⟨List.prefix_rfl, List.prefix_rfl, rfl, rfl, fun _ _ => rfl⟩

theorem trans (h : Grows id w w') (h' : Grows id w' w'') : Grows id w w'' where
  network         := h.network.trans h'.network
  applied         := h.applied.trans h'.applied
  elections       := h'.elections.trans h.elections
  commits         := h'.commits.trans h.commits
  disks id' hid   := (h'.disks id' hid).trans (h.disks id' hid)

theorem setDisk (disk : StableDisk) : Grows id w (w.setDisk id disk) :=
  ⟨List.prefix_rfl, List.prefix_rfl, rfl, rfl, fun _ hid => by simp [World.setDisk, hid]⟩

theorem processAction (h : w.processAction id T answers a = some w') : Grows id w w' := by
  cases a
  case send =>
    cases h
    exact ⟨List.prefix_append .., List.prefix_rfl, rfl, rfl, fun _ _ => rfl⟩
  case apply =>
    cases h
    exact ⟨List.prefix_rfl, List.prefix_append .., rfl, rfl, fun _ _ => rfl⟩
  case persistHardState =>
    cases h
    exact setDisk _
  all_goals
    obtain ⟨_, _, h⟩ := Option.map_eq_some_iff.mp h
    cases h
    exact setDisk _

end Grows

-- A message in the network was there before, or has just been sent.
theorem mem_network {p : Packet} (h : w.processAction id T answers a = some w') (hp : p ∈ w'.network) :
    p ∈ w.network ∨ a = .send p.msg ∧ p.answers = answers := by
  cases a
  case send =>
    cases h
    rcases List.mem_append.mp hp with hp | hp
    · exact .inl hp
    · cases List.mem_singleton.mp hp
      exact .inr ⟨rfl, rfl⟩
  case apply | persistHardState =>
    cases h
    exact .inl hp
  all_goals
    obtain ⟨_, _, h⟩ := Option.map_eq_some_iff.mp h
    cases h
    exact .inl hp

theorem grows (w : World) : Crash.Sound (processAction id T answers) (Grows id w) w as (Grows id w) :=
  .all (fun _ h => h) (fun _ _ _ _ hg h => hg.trans <| .processAction h) .refl

-- Everything that a node sends ends up in the network.
theorem sent (w : World) : Crash.Sound (processAction id T answers) (fun _ => True) w as
    fun w' => ∀ msg, .send msg ∈ as → { msg, answers } ∈ w'.network := by
  induction as generalizing w
  case nil => exact .nil trivial <| by simp
  case cons a as hi =>
    refine .cons trivial fun w₁ h₁ => ?_
    refine ((hi w₁).and (grows w₁)).mono (fun _ _ => trivial) fun w₂ _ ⟨hs, hg⟩ msg hm => ?_
    rcases List.mem_cons.mp hm with rfl | hm
    case inr => exact hs msg hm
    case inl =>
      cases h₁
      exact hg.network.subset <| by simp

end World

-- Messages stay in the network.
theorem step_network {e : Event} (h : C.step s e = some s') : s.network <+: s'.network := by
  have hrestart {s : State} {id : NodeId} (h : C.restart s id = some s') : s'.network = s.network := by
    obtain ⟨node, _, h⟩ := Option.bind_eq_some_iff.mp h
    cases h
    rfl
  rcases e with ⟨id, input, cut⟩ | id
  all_goals
    simp only [step] at h
    split at h
    case isFalse => contradiction
  case restart.isTrue => rw [hrestart h]
  case call.isTrue =>
    obtain ⟨⟨node, actions⟩, _, h⟩ := Option.bind_eq_some_iff.mp h
    cases cut
    all_goals obtain ⟨w, hw, h⟩ := Option.bind_eq_some_iff.mp h
    case none =>
      cases h
      exact ((World.grows _).run hw).right.network
    case some =>
      rw [hrestart h]
      exact ((World.grows _).run hw).right.network

/-! ### Invariants -/

-- A property of a cluster consists of a part about the world, which holds at any point where a call can
-- be cut by a crash, and of a part about the memory of each node between its calls. Both can refer to a
-- ghost state, which takes no part in the execution.
structure Preserved (C : Cluster) (guard : State → Event → Prop) (G : Type*) where
  world  : G → World → Prop
  memory : G → World → NodeId → Kernel → Prop
  spawn  : ∀ {g} {w : World} {id node}, world g w → id ∈ C.members →
    (w.disks id).spawnNode (C.config id) = some node → memory g w id node.kernel
  call   : ∀ {g} {s : State} {id input cut} {node : RaftNode} {actions},
    C.system.Reachable guard s → world g s.toWorld →
    (∀ id ∈ C.members, memory g s.toWorld id (s.nodes id).kernel) →
    id ∈ C.members → guard s (.call id input cut) → s.call id input = some (node, actions) →
    let Kept g w := world g w ∧ ∀ id' ∈ C.members, id' ≠ id → memory g w id' (s.nodes id').kernel
    Crash.Sound (World.processAction id node.currentTerm (s.handled input)) (fun w => ∃ g, Kept g w)
      (s.record id (s.nodes id) node) actions fun w => ∃ g, Kept g w ∧ memory g w id node.kernel

namespace Preserved

variable {guard : State → Event → Prop} {G : Type*} {L : Preserved C guard G} {g : G} {e : Event}

structure Holds (L : Preserved C guard G) (g : G) (s : State) : Prop where
  world  : L.world g s.toWorld
  memory : ∀ id ∈ C.members, L.memory g s.toWorld id (s.nodes id).kernel

theorem Holds.update {w : World} {node : RaftNode} (hw : L.world g w)
    (hm : ∀ id' ∈ C.members, id' ≠ id → L.memory g w id' (s.nodes id').kernel)
    (hn : id ∈ C.members → L.memory g w id node.kernel) :
    L.Holds g { w with nodes := Function.update s.nodes id node } := by
  refine ⟨hw, fun id' hid => ?_⟩
  by_cases h : id' = id
  case pos =>
    subst h
    simpa using hn hid
  case neg => simpa [h] using hm id' hid h

theorem Holds.restart (hw : L.world g s.toWorld)
    (hm : ∀ id' ∈ C.members, id' ≠ id → L.memory g s.toWorld id' (s.nodes id').kernel)
    (hs : C.restart s id = some s') : L.Holds g s' := by
  obtain ⟨node, hn, hs⟩ := Option.bind_eq_some_iff.mp hs
  cases hs
  exact .update hw hm fun hid => L.spawn hw hid hn

theorem Holds.step (h : L.Holds g s) (hr : C.system.Reachable guard s) (hg : guard s e)
    (hs : C.step s e = some s') : ∃ g, L.Holds g s' := by
  obtain ⟨hw, hm⟩ := h
  cases e
  case restart id =>
    simp only [Cluster.step] at hs
    split at hs
    case isFalse => contradiction
    case isTrue  => exact ⟨g, .restart hw (fun id' hid _ => hm id' hid) hs⟩
  case call id input cut =>
    simp only [Cluster.step] at hs
    split at hs
    case isFalse => contradiction
    case isTrue hid =>
      obtain ⟨⟨node, actions⟩, hcall, hs⟩ := Option.bind_eq_some_iff.mp hs
      have hsound := L.call hr hw hm hid hg hcall
      rcases cut with _ | k
      case none =>
        obtain ⟨w, hrun, hs⟩ := Option.bind_eq_some_iff.mp hs
        cases hs
        obtain ⟨g, ⟨hw, ho⟩, hn⟩ := (hsound.run hrun).right
        exact ⟨g, .update hw ho fun _ => hn⟩
      case some =>
        obtain ⟨w, hrun, hs⟩ := Option.bind_eq_some_iff.mp hs
        obtain ⟨g, hw, ho⟩ := ((hsound.take k).run hrun).left
        exact ⟨g, Holds.restart (s := { w with nodes := s.nodes }) hw ho hs⟩

end Preserved

-- An invariant is a property that is preserved and that holds initially.
structure GhostLayer (C : Cluster) (guard : State → Event → Prop) (G : Type*) extends
    Preserved C guard G where
  init : ∃ g, world g C.init.toWorld

namespace GhostLayer

variable {guard : State → Event → Prop} {G : Type*}

def Invariant (L : GhostLayer C guard G) (s : State) : Prop :=
  ∃ g, L.Holds g s

theorem invariant (L : GhostLayer C guard G) (r : C.system.Reachable guard s) : L.Invariant s := by
  obtain ⟨g, hg⟩ := L.init
  refine r.invariant ⟨g, hg, fun id hid => L.spawn hg hid (spawnNode_new ..)⟩ ?_
  rintro s s' e hr ⟨g, h⟩ hg hs
  exact h.step hr hg hs

end GhostLayer

-- An invariant that needs no ghost state.
structure Layer (C : Cluster) (guard : State → Event → Prop) where
  world  : World → Prop
  memory : World → NodeId → Kernel → Prop
  init   : world C.init.toWorld
  spawn  : ∀ {w : World} {id node}, world w → id ∈ C.members →
    (w.disks id).spawnNode (C.config id) = some node → memory w id node.kernel
  call   : ∀ {s : State} {id input cut} {node : RaftNode} {actions}, C.system.Reachable guard s →
    world s.toWorld → (∀ id ∈ C.members, memory s.toWorld id (s.nodes id).kernel) →
    id ∈ C.members → guard s (.call id input cut) → s.call id input = some (node, actions) →
    Crash.Sound (World.processAction id node.currentTerm (s.handled input))
      (fun w => world w ∧ ∀ id' ∈ C.members, id' ≠ id → memory w id' (s.nodes id').kernel)
      (s.record id (s.nodes id) node) actions fun w => memory w id node.kernel

namespace Layer

variable {guard : State → Event → Prop}

def toGhost (L : Layer C guard) : GhostLayer C guard Unit where
  world _                  := L.world
  memory _                 := L.memory
  init                     := ⟨(), L.init⟩
  spawn                    := L.spawn
  call hr hw hm hid hg hcall :=
    (L.call hr hw hm hid hg hcall).mono (fun _ h => ⟨(), h⟩) fun _ h h' => ⟨(), h, h'⟩

structure Holds (L : Layer C guard) (s : State) : Prop where
  world  : L.world s.toWorld
  memory : ∀ id ∈ C.members, L.memory s.toWorld id (s.nodes id).kernel

theorem invariant (L : Layer C guard) (r : C.system.Reachable guard s) : L.Holds s :=
  have ⟨_, hw, hm⟩ := L.toGhost.invariant r
  ⟨hw, hm⟩

end Layer
end RaftRupee.Cluster
