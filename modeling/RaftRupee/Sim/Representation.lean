import RaftRupee.Core.Applying
import RaftRupee.Lib.Transition
import RaftRupee.Sim.Mirroring
import RaftRupee.Sim.Reproducible

namespace RaftRupee

-- The entries of the log are numbered, and the last one is not of a later term than the node.
structure RaftNode.Represents (node : RaftNode) : Prop where
  index    : ∀ i e, node.log.entries[i]? = some e → e.index = node.log.firstIndex + i
  lastTerm : node.log.lastTerm ≤ node.currentTerm

namespace Simulator

open Reorder

variable {H : BinaryHeap} {sim sim' sim₁ : Simulator H} {id : NodeId} {node : RaftNode} {o : Outcome}
variable {disk disk' disk₁ : StableDisk} {log : RaftLog} {msg : Message} {a : Action} {as bs : List Action}
variable {S : Prop}

/-! ### Actions -/

-- The node has written its disk, and sent messages.
structure Performs (id : NodeId) (disk' : StableDisk) (as : List Action) (sim sim' : Simulator H) :
    Prop where
  nodes       : sim'.nodes = sim.nodes
  nodeConfigs : sim'.nodeConfigs = sim.nodeConfigs
  disk        : sim'.disks.lookup id = some disk'
  disks       : ∀ id' ≠ id, sim'.disks.lookup id' = sim.disks.lookup id'
  sent        : ∀ msg ∈ sim'.network.messages, msg ∈ sim.network.messages ∨ .send msg ∈ as

theorem Performs.refl (h : sim.disks.lookup id = some disk) : Performs id disk [] sim sim :=
  ⟨rfl, rfl, h, fun _ _ => rfl, fun _ h => .inl h⟩

theorem Performs.trans (h : Performs id disk₁ as sim sim₁) (h' : Performs id disk' bs sim₁ sim') :
    Performs id disk' (as ++ bs) sim sim' where
  nodes            := h'.nodes.trans h.nodes
  nodeConfigs      := h'.nodeConfigs.trans h.nodeConfigs
  disk             := h'.disk
  disks id' hid    := (h'.disks id' hid).trans (h.disks id' hid)
  sent msg hm      := by
    rcases h'.sent msg hm with hm | hm
    case inr => exact .inr <| List.mem_append_right _ hm
    case inl => exact (h.sent msg hm).imp_right <| List.mem_append_left _

theorem withDisk_performs {write : StableDisk → Option StableDisk} (hd : sim.disks.lookup id = some disk)
    (hw : write disk = some disk') :
    ∃ sim', sim.withDisk id write = some sim' ∧ Performs id disk' as sim sim' := by
  refine ⟨{ sim with disks := sim.disks.insert id disk' }, by simp [withDisk, hd, hw], rfl, rfl, ?_, ?_, ?_⟩
  · exact Finmap.lookup_insert _
  · exact fun id' hid => Finmap.lookup_insert_of_ne _ hid
  · exact fun _ h => .inl h

theorem processAction_performs (hd : sim.disks.lookup id = some disk) (hp : disk.perform a = some disk') :
    ∃ sim', sim.processAction id a = some sim' ∧ Performs id disk' [a] sim sim' := by
  cases a
  case send msg =>
    cases hp
    refine ⟨_, rfl, rfl, rfl, hd, fun _ _ => rfl, fun msg' hm => ?_⟩
    rcases SimNetwork.mem_messages_send hm with hm | rfl
    case inl => exact .inl hm
    case inr => exact .inr List.mem_cons_self
  case apply =>
    cases hp
    exact ⟨sim, rfl, rfl, rfl, hd, fun _ _ => rfl, fun _ h => .inl h⟩
  all_goals exact withDisk_performs hd hp

theorem processActions_performs (hd : sim.disks.lookup id = some disk)
    (hp : disk.performAll as = some disk') :
    ∃ sim', sim.processActions id as = some sim' ∧ Performs id disk' as sim sim' := by
  induction as generalizing sim disk
  case nil =>
    cases hp
    exact ⟨sim, rfl, .refl hd⟩
  case cons a as hi =>
    obtain ⟨disk₁, h₁, hp⟩ := Option.bind_eq_some_iff.mp hp
    obtain ⟨sim₁, hs₁, hsim₁⟩ := processAction_performs hd h₁
    obtain ⟨sim', hs, hsim⟩ := hi hsim₁.disk hp
    refine ⟨sim', ?_, hsim₁.trans hsim⟩
    rw [processActions, List.foldlM_cons, hs₁]
    exact hs

/-! ### Runs -/

-- The messages that the next call of `step` delivers, and the simulator without them.
def due (sim : Simulator H) : List Message :=
  (sim.network.drainDue (sim.tickCount + 1)).1

def drained (sim : Simulator H) : Simulator H :=
  { sim with tickCount := sim.tickCount + 1, network := (sim.network.drainDue (sim.tickCount + 1)).2 }

-- If the receiver installs the snapshot of the message, what follows the snapshot on its disk is not of
-- an earlier term.
def InstallsCleanly (sim : Simulator H) (msg : Message) : Prop :=
  match msg.kind with
  | .installSnapshot i t _ _ true =>
    ∀ node ∈ sim.nodes.lookup msg.receiver, ∀ disk ∈ sim.disks.lookup msg.receiver,
      node.currentTerm ≤ msg.term → node.commitIndex < i →
        ∀ e ∈ disk.logEntries, e.index = i + 1 → t ≤ e.term
  | _ => True

def DeliversCleanly : Simulator H → List Message → Prop
  | _, []            => True
  | sim, msg :: msgs => sim.InstallsCleanly msg ∧ ∀ sim' ∈ sim.deliver msg, DeliversCleanly sim' msgs

-- The harness makes its calls in any order, and its iterators yield the keys in any order.
def system (sim : Simulator H) : TransitionSystem (Simulator H) (Orders × Call) where
  init       := sim
  step sim e := sim.exec e.1 e.2

def Clean (sim : Simulator H) : Orders × Call → Prop
  | (_, .step) => sim.drained.DeliversCleanly sim.due
  | _          => True

instance (sim : Simulator H) (msg : Message) : Decidable (sim.InstallsCleanly msg) :=
  match h : msg.kind with
  | .installSnapshot i t _ _ true =>
    decidable_of_iff (∀ node ∈ sim.nodes.lookup msg.receiver, ∀ disk ∈ sim.disks.lookup msg.receiver,
      node.currentTerm ≤ msg.term → node.commitIndex < i →
        ∀ e ∈ disk.logEntries, e.index = i + 1 → t ≤ e.term) (by rw [InstallsCleanly, h])
  | .installSnapshot _ _ _ _ false | .installSnapshotResponse | .requestVote .. |
    .requestVoteResponse .. | .preVote .. | .preVoteResponse .. | .appendEntries .. |
    .appendEntriesResponse .. | .clientRequest .. | .clientResponse .. =>
    .isTrue (by rw [InstallsCleanly, h]; trivial)

instance decidableDeliversCleanly (sim : Simulator H) :
    (msgs : List Message) → Decidable (sim.DeliversCleanly msgs)
  | []          => .isTrue trivial
  | msg :: msgs =>
    have (sim' : Simulator H) : Decidable (sim'.DeliversCleanly msgs) := decidableDeliversCleanly sim' msgs
    inferInstanceAs <|
      Decidable (sim.InstallsCleanly msg ∧ ∀ sim' ∈ sim.deliver msg, sim'.DeliversCleanly msgs)

instance (sim : Simulator H) : (e : Orders × Call) → Decidable (sim.Clean e)
  | (_, .step) => inferInstanceAs <| Decidable (sim.drained.DeliversCleanly sim.due)
  | (_, .setDropRate _) | (_, .setDuplicateRate _) | (_, .setMaxDelayTicks _) | (_, .partition ..) |
    (_, .healAll) | (_, .crashNode _) | (_, .spawnNode _) | (_, .proposeCommand _) => .isTrue trivial

-- Only a node with a configuration can be spawned.
def Knows (sim : Simulator H) : Call → Prop
  | .spawnNode id => ∃ config ∈ sim.nodeConfigs, config.id = id
  | _             => True

def Every (P : RaftNode → Prop) (sim : Simulator H) : Prop :=
  ∀ id node, sim.nodes.lookup id = some node → P node

-- No call panics.
def Runs (sim : Simulator H) : Prop :=
  ∀ orders call, sim.Knows call → (sim.exec orders call).isSome

/-! ### The invariant -/

-- Every node that is alive mirrors its disk.
structure Orderly (S : Prop) (sim : Simulator H) : Prop where
  configs : ∀ config ∈ sim.nodeConfigs, ∃ disk, sim.disks.lookup config.id = some disk
  disks   : ∀ id disk, sim.disks.lookup id = some disk → ∃ log, disk.Stores S log
  nodes   : ∀ id node, sim.nodes.lookup id = some node →
    ∃ disk, sim.disks.lookup id = some disk ∧ Mirrors S disk node.kernel
  sent    : ∀ msg ∈ sim.network.messages, msg.Orderly S

namespace Orderly

theorem react {call : Invocation} (h : sim.Orderly S) (hn : sim.nodes.lookup id = some node)
    (ho : node.invoke call = some o)
    (hp : ∀ disk, sim.disks.lookup id = some disk → Mirrors S disk node.kernel →
      Permits S call.cause disk node.kernel) :
    ∃ sim', sim.react id o = some sim' ∧ sim'.Orderly S := by
  obtain ⟨disk, hd, hm⟩ := h.nodes id node hn
  have hcall := RaftNode.invoke_call ho
  obtain ⟨disk', hperform, hm'⟩ := hm.call hcall (hp disk hd hm)
  let sim₁ : Simulator H := { sim with nodes := sim.nodes.insert id o.1 }
  have hd₁ : sim₁.disks.lookup id = some disk := hd
  obtain ⟨sim', hs, hsim⟩ := processActions_performs hd₁ hperform
  refine ⟨sim', hs, fun config hc => ?_, fun id' disk₁ hd₁ => ?_, fun id' node' hn' => ?_,
    fun msg hmsg => ?_⟩
  · by_cases hid : config.id = id
    case pos => exact ⟨disk', hid ▸ hsim.disk⟩
    case neg => exact hsim.disks _ hid ▸ h.configs config (hsim.nodeConfigs ▸ hc)
  · by_cases hid : id' = id
    case neg => exact h.disks id' disk₁ <| hsim.disks id' hid ▸ hd₁
    case pos =>
      rw [hid, hsim.disk] at hd₁
      cases hd₁
      exact hm'.log.imp fun _ => And.left
  · rw [hsim.nodes] at hn'
    by_cases hid : id' = id
    case neg =>
      rw [Finmap.lookup_insert_of_ne _ hid] at hn'
      exact hsim.disks id' hid ▸ h.nodes id' node' hn'
    case pos =>
      rw [hid, Finmap.lookup_insert] at hn'
      cases hn'
      exact ⟨disk', hid ▸ hsim.disk, hm'⟩
  · rcases hsim.sent msg hmsg with hmsg | hmsg
    case inl => exact h.sent msg hmsg
    case inr =>
      by_cases hk : msg.kind.fromLeader
      case neg => exact Message.orderly_of_not_fromLeader hk
      case pos =>
        have hr := (hcall.fromLeader _ hmsg msg rfl hk).right
        exact hr.orderly hm'.contiguous hm'.bounded hm'.sorted

theorem visit {call : RaftNode → Option Outcome} (h : sim.Orderly S)
    (hcall : ∀ node o, call node = some o → ∃ c : Invocation, node.invoke c = some o ∧
      ∀ disk, Mirrors S disk node.kernel → Permits S c.cause disk node.kernel) (id : NodeId) :
    ∃ sim', sim.visit call id = some sim' ∧ sim'.Orderly S := by
  rw [Simulator.visit]
  split
  case h_1      => exact ⟨sim, rfl, h⟩
  case h_2 o ho =>
    obtain ⟨node, hn, ho⟩ := Option.bind_eq_some_iff.mp ho
    obtain ⟨c, hc, hp⟩ := hcall node o ho
    exact h.react hn hc fun disk _ => hp disk

theorem deliver (h : sim.Orderly S) (hm : msg.Orderly S) (hc : S → sim.InstallsCleanly msg) :
    ∃ sim', sim.deliver msg = some sim' ∧ sim'.Orderly S := by
  rw [Simulator.deliver]
  split
  case h_1         => exact ⟨sim, rfl, h⟩
  case h_2 node hn =>
    have hgapless : (Cause.handle msg).Gapless := fun _ _ _ _ _ he hk => by
      cases he
      exact hm.consecutive _ _ _ _ hk
    obtain ⟨disk, hd, hmirror⟩ := h.nodes _ node hn
    obtain ⟨o, ho⟩ := Option.isSome_iff_exists.mp <| RaftNode.step_isSome hmirror.contiguous hgapless
    have hinvoke : node.invoke (.step msg) = some o := ho
    have hpermits : ∀ disk, sim.disks.lookup msg.receiver = some disk → Mirrors S disk node.kernel →
        Permits S (.handle msg) disk node.kernel := by
      refine fun disk hd _ => ⟨fun msg' he => ?_, fun i t he => ?_, fun hS msg' i t o data he hk => ?_⟩
      all_goals cases he
      case refine_1 => exact hm
      case refine_3 =>
        have hclean := hc hS
        simp only [InstallsCleanly, hk] at hclean
        exact hclean node hn disk hd
    obtain ⟨sim', hs, h'⟩ := h.react hn hinvoke hpermits
    exact ⟨sim', by simp [ho, hs], h'⟩

theorem deliverAll {msgs : List Message} (h : sim.Orderly S) (hm : ∀ msg ∈ msgs, msg.Orderly S)
    (hc : S → sim.DeliversCleanly msgs) :
    ∃ sim', msgs.foldlM Simulator.deliver sim = some sim' ∧ sim'.Orderly S := by
  induction msgs generalizing sim
  case nil => exact ⟨sim, rfl, h⟩
  case cons msg msgs hi =>
    obtain ⟨hmsg, hmsgs⟩ := List.forall_mem_cons.mp hm
    obtain ⟨sim₁, hs₁, h₁⟩ := h.deliver hmsg fun hS => (hc hS).left
    obtain ⟨sim', hs, h'⟩ := hi h₁ hmsgs fun hS => (hc hS).right sim₁ hs₁
    exact ⟨sim', by rwa [List.foldlM_cons, hs₁, Option.bind_eq_bind, Option.bind_some], h'⟩

theorem deliverDue (h : sim.Orderly S) (hc : S → sim.drained.DeliversCleanly sim.due) :
    ∃ sim', sim.deliverDue = some sim' ∧ sim'.Orderly S := by
  have hsent := sim.network.drainDue_messages (sim.tickCount + 1)
  have hin : sim.drained.Orderly S := by
    refine ⟨h.configs, h.disks, h.nodes, fun msg hm => h.sent msg ?_⟩
    rw [hsent]
    exact Multiset.mem_add.mpr <| .inr hm
  refine hin.deliverAll (fun msg hm => h.sent msg ?_) hc
  rw [hsent]
  exact Multiset.mem_add.mpr <| .inl <| Multiset.mem_coe.mpr hm

theorem tick (h : sim.Orderly S) (id : NodeId) :
    ∃ sim', sim.visit tickCall id = some sim' ∧ sim'.Orderly S :=
  h.visit (fun _ _ ho => ⟨.tick, ho, fun _ _ => .of_not_handle (by simp [Invocation.cause])
    (by simp [Invocation.cause])⟩) id

theorem propose (h : sim.Orderly S) (command : Command) (id : NodeId) :
    ∃ sim', sim.visit (some <| ·.propose command) id = some sim' ∧ sim'.Orderly S :=
  h.visit (fun _ _ ho => ⟨.propose command, ho, fun _ _ => .of_not_handle (by simp [Invocation.cause])
    (by simp [Invocation.cause])⟩) id

theorem compact (h : sim.Orderly S) (id : NodeId) :
    ∃ sim', sim.visit compactCall id = some sim' ∧ sim'.Orderly S := by
  refine h.visit (fun node o ho => ?_) id
  rw [compactCall, Option.ite_none_right_eq_some] at ho
  let call : Invocation :=
    .compactLogs node.commitIndex ((node.log.termAt node.commitIndex).getD 0) compactionData
  refine ⟨call, ho.right, fun disk hm => .of_not_handle (by simp [call, Invocation.cause]) fun i t he => ?_⟩
  cases he
  exact ⟨hm.base_le, rfl⟩

theorem spawnNode (h : sim.Orderly S) (hk : sim.Knows (.spawnNode id)) :
    ∃ sim', sim.spawnNode id = some sim' ∧ sim'.Orderly S ∧ sim'.nodeConfigs = sim.nodeConfigs := by
  obtain ⟨config, hc⟩ : ∃ config, sim.nodeConfigs.find? (·.id = id) = some config :=
    Option.isSome_iff_exists.mp <| List.find?_isSome.mpr <| by simpa [Knows] using hk
  have hid : config.id = id := by simpa using List.find?_some hc
  obtain ⟨disk, hd⟩ := h.configs config <| List.mem_of_find?_eq_some hc
  rw [hid] at hd
  obtain ⟨log, hs⟩ := h.disks id disk hd
  have hspawn : sim.spawnNode id = some { sim with
      nodes := sim.nodes.insert id <| .restore config disk.currentTerm disk.votedFor log
        log.firstIndex log.firstIndex } := by
    simp [Simulator.spawnNode, hc, hd, hs.holds.spawnNode]
  refine ⟨_, hspawn, ⟨h.configs, h.disks, fun id' node hn => ?_, h.sent⟩, rfl⟩
  by_cases hid' : id' = id
  case neg =>
    rw [Finmap.lookup_insert_of_ne _ hid'] at hn
    exact h.nodes id' node hn
  case pos =>
    rw [hid', Finmap.lookup_insert] at hn
    cases hn
    exact ⟨disk, hid' ▸ hd, ⟨hs.holds.contiguous, hs.holds.command, le_rfl⟩, rfl, log, hs, .refl log⟩

-- A step of the system.
theorem exec {orders : Orders} {call : Call} (h : sim.Orderly S) (hk : sim.Knows call)
    (hc : S → sim.Clean (orders, call)) : ∃ sim', sim.exec orders call = some sim' ∧ sim'.Orderly S := by
  cases call
  case crashNode id =>
    refine ⟨_, rfl, h.configs, h.disks, fun id' node hn => h.nodes id' node ?_, h.sent⟩
    have hid : id' ≠ id := by
      rintro rfl
      rw [Simulator.crashNode, Finmap.lookup_erase] at hn
      contradiction
    rwa [Simulator.crashNode, Finmap.lookup_erase_ne hid] at hn
  case spawnNode id => exact (h.spawnNode hk).imp fun _ h' => h'.imp_right And.left
  case proposeCommand command =>
    rw [Simulator.exec, Simulator.proposeCommand]
    split
    case h_1    => exact ⟨sim, rfl, h⟩
    case h_2 id _ =>
      obtain ⟨sim', hs, h'⟩ := h.propose command id
      exact ⟨sim', by rw [hs]; rfl, h'⟩
  case step =>
    obtain ⟨sim₁, hs₁, h₁⟩ := h.deliverDue hc
    obtain ⟨sim₂, hs₂, h₂⟩ : ∃ sim₂, sim₁.visitAll orders.ticks tickCall = some sim₂ ∧ sim₂.Orderly S :=
      foldlM_total (fun id _ _ h => h.tick id) h₁
    obtain ⟨sim₃, hs₃, h₃⟩ : ∃ sim₃, sim₂.visitAll orders.compactions compactCall = some sim₃ ∧
        sim₃.Orderly S := foldlM_total (fun id _ _ h => h.compact id) h₂
    exact ⟨sim₃, by simp [Simulator.exec, Simulator.step, hs₁, hs₂, hs₃], h₃⟩
  all_goals exact ⟨_, rfl, h.configs, h.disks, h.nodes, h.sent⟩

end Orderly

section New

variable {seedFromU64 : ℕ → SmallRng}

theorem newConfig_ids (ids ids' : List NodeId) (configs : List Config × SmallRng) :
    (ids'.foldl (newConfig seedFromU64 ids) configs).1.map (·.id) = configs.1.map (·.id) ++ ids' := by
  induction ids' generalizing configs
  case nil         => exact (List.append_nil _).symm
  case cons _ _ hi =>
    rw [List.foldl_cons, hi]
    simp [newConfig, Config.simulated]

theorem lookup_new {disks : Finmap fun _ : NodeId => StableDisk} (ids : List NodeId) (id : NodeId) :
    (ids.foldl (fun disks id => disks.insert id (.new id)) disks).lookup id =
      if id ∈ ids then some (.new id) else disks.lookup id := by
  induction ids generalizing disks
  case nil             => rfl
  case cons id' ids hi =>
    rw [List.foldl_cons, hi]
    by_cases hid : id = id'
    case neg => simp [hid, Finmap.lookup_insert_of_ne]
    case pos =>
      subst hid
      simp [Finmap.lookup_insert]

theorem Orderly.new (H : BinaryHeap) (seedFromU64 : ℕ → SmallRng) (seed numNodes : ℕ) (S : Prop) :
    ∃ sim, Simulator.new seedFromU64 H seed numNodes = some sim ∧ sim.Orderly S := by
  let ids := List.range' 1 numNodes
  let configs := (ids.foldl (newConfig seedFromU64 ids) ([], seedFromU64 seed)).1
  have hids : configs.map (·.id) = ids := newConfig_ids ids ids ([], seedFromU64 seed)
  let P (sim : Simulator H) := sim.Orderly S ∧ sim.nodeConfigs = configs
  have hspawn : ∀ id ∈ ids, ∀ sim, P sim → ∃ sim', sim.spawnNode id = some sim' ∧ P sim' := by
    rintro id hid sim ⟨h, hc⟩
    have hk : sim.Knows (.spawnNode id) := by
      rw [← hids] at hid
      obtain ⟨config, hm, he⟩ := List.mem_map.mp hid
      exact ⟨config, hc ▸ hm, he⟩
    obtain ⟨sim', hs, h', hc'⟩ := h.spawnNode hk
    exact ⟨sim', hs, h', hc'.trans hc⟩
  refine (foldlM_total hspawn ⟨⟨fun config hc => ?_, fun id disk hd => ?_, ?_, ?_⟩, rfl⟩).imp
    fun _ h => h.imp_right And.left
  · have hid : config.id ∈ ids := hids ▸ List.mem_map_of_mem hc
    exact ⟨_, (lookup_new ids config.id).trans <| if_pos hid⟩
  · rw [lookup_new] at hd
    split at hd
    case isFalse => contradiction
    case isTrue  =>
      cases hd
      exact ⟨_, .new id⟩
  · exact fun id node hn => absurd hn (by simp)
  · simp [SimNetwork.messages, SimNetwork.new, H.toMultiset_new]

end New

/-! ### The logs of a simulator -/

variable {guard : Simulator H → Orders × Call → Prop} {sim₀ : Simulator H}

theorem knows_of_exec {orders : Orders} {call : Call} (h : sim.exec orders call = some sim') :
    sim.Knows call := by
  cases call
  case spawnNode id =>
    obtain ⟨config, hc, _⟩ := Option.bind_eq_some_iff.mp h
    exact ⟨config, List.mem_of_find?_eq_some hc, by simpa using List.find?_some hc⟩
  all_goals trivial

theorem Orderly.reachable (h : sim₀.Orderly S) (hg : ∀ sim e, guard sim e → S → sim.Clean e)
    (r : sim₀.system.Reachable guard sim) : sim.Orderly S := by
  refine r.invariant h fun {sim sim' e} _ h hge hs => ?_
  obtain ⟨sim₁, hs₁, h'⟩ := h.exec (knows_of_exec hs) (hg sim e hge)
  cases hs₁.symm.trans hs
  exact h'

theorem Orderly.represents (h : sim.Orderly S) : sim.Every RaftNode.Represents := by
  intro id node hn
  obtain ⟨disk, _, hm⟩ := h.nodes id node hn
  refine ⟨fun i e he => ?_, hm.bounded _ node.log.last_mem⟩
  cases i
  case zero   => exact (congrArg LogEntry.index <| Option.some.inj he).symm
  case succ i => exact (hm.contiguous.index_eq he).trans (Nat.succ_add_eq_add_succ ..)

theorem Orderly.runs (h : sim.Orderly False) : sim.Runs := by
  intro orders call hk
  obtain ⟨sim', hs, _⟩ : ∃ sim', sim.exec orders call = some sim' ∧ sim'.Orderly False :=
    h.exec hk False.elim
  exact Option.isSome_iff_exists.mpr ⟨sim', hs⟩

theorem Orderly.sorted (h : sim.Orderly True) : sim.Every (·.log.Sorted) := by
  intro id node hn
  obtain ⟨disk, _, hm⟩ := h.nodes id node hn
  exact hm.sorted trivial

-- The terms of a log do not decrease, unless a snapshot was installed that the disk goes on from with an
-- entry of an earlier term. The log in memory is cleared, but a restart brings the entry back.
theorem log_represented (H : BinaryHeap) (seedFromU64 : ℕ → SmallRng) (seed numNodes : ℕ) :
    ∃ sim₀, new seedFromU64 H seed numNodes = some sim₀ ∧
      (∀ sim, sim₀.system.Reachable (fun _ _ => True) sim → sim.Every RaftNode.Represents ∧ sim.Runs) ∧
      ∀ sim, sim₀.system.Reachable Clean sim → sim.Every (·.log.Sorted) := by
  obtain ⟨sim₀, hn, h₀⟩ := Orderly.new H seedFromU64 seed numNodes False
  obtain ⟨sim₁, hn', h₁⟩ := Orderly.new H seedFromU64 seed numNodes True
  cases hn.symm.trans hn'
  refine ⟨sim₀, hn, fun sim r => ?_, fun sim r => ?_⟩
  · have h := h₀.reachable (fun _ _ _ => False.elim) r
    exact ⟨h.represents, h.runs⟩
  · exact (h₁.reachable (fun _ _ hg _ => hg) r).sorted

theorem execAll_reachable {orders : ℕ → Orders} {calls : List Call} {k : ℕ}
    (r : sim₀.system.Reachable (fun _ _ => True) sim) (h : execAll orders k sim calls = some sim') :
    sim₀.system.Reachable (fun _ _ => True) sim' := by
  induction calls generalizing k sim
  case nil =>
    cases h
    exact r
  case cons call calls hi =>
    obtain ⟨sim₁, hs, h⟩ := Option.bind_eq_some_iff.mp h
    exact hi (r.step (e := (orders k, call)) trivial hs) h

-- Node 1 is elected, and appends two entries that no other node gets. Node 3 is elected after it, and sends
-- it a snapshot of the first index.
def superseded : List Call :=
  .setMaxDelayTicks 0 :: .replicate 18 .step ++
    [.partition 1 2, .partition 1 3, .partition 2 1, .partition 3 1, .step, .proposeCommand [7]] ++
    .replicate 20 .step ++ .partition 3 2 :: .replicate 15 (.proposeCommand [7]) ++
    .step :: .healAll :: .replicate 5 .step ++ [.crashNode 1, .spawnNode 1]

def leadersFirst : Orders where
  ticks       := .like [1, 2, 3] (by decide)
  compactions := .like [1, 2, 3] (by decide)
  leaders     := .like [3, 2, 1] (by decide)

-- Node 3 is cut off, until the others have compacted what it has missed.
def catchingUp : List Call :=
  .setMaxDelayTicks 0 :: .replicate 18 .step ++ .partition 1 3 :: .partition 2 3 :: .replicate 2 .step ++
    .replicate 16 (.proposeCommand [7]) ++ .replicate 5 .step ++ [.healAll, .step]

theorem log_represented_three : ∃ sim₀, new countFrom .sorted 0 3 = some sim₀ ∧
    ∃ sim sim', sim₀.system.Reachable Clean sim ∧ (sim.nodes.lookup 3).map (·.log.lastIndex) = some 0 ∧
      sim.exec leadersFirst .step = some sim' ∧ (sim'.nodes.lookup 3).map (·.log.firstIndex) = some 17 ∧
      sim'.Every (·.log.Sorted) := by
  have hrun : ((new countFrom .sorted 0 3).bind fun sim₀ =>
      (sim₀.system.run Clean sim₀ (catchingUp.map (leadersFirst, ·))).bind fun sim =>
      if sim.Clean (leadersFirst, .step) then (sim.exec leadersFirst .step).map fun sim' =>
        ((sim.nodes.lookup 3).map (·.log.lastIndex), (sim'.nodes.lookup 3).map (·.log.firstIndex))
      else none) = some (some 0, some 17) := by decide +kernel
  obtain ⟨sim₀, hnew, hrun⟩ := Option.bind_eq_some_iff.mp hrun
  obtain ⟨sim, hrun, h⟩ := Option.bind_eq_some_iff.mp hrun
  obtain ⟨hclean, h⟩ := Option.ite_none_right_eq_some.mp h
  obtain ⟨sim', hstep, h⟩ := Option.map_eq_some_iff.mp h
  obtain ⟨hlast, hfirst⟩ := Prod.mk.inj h
  have r : sim₀.system.Reachable Clean sim := .run .init hrun
  obtain ⟨_, hnew', _, hsorted⟩ := log_represented .sorted countFrom 0 3
  cases hnew.symm.trans hnew'
  exact ⟨sim₀, hnew, sim, sim', r, hlast, hstep, hfirst, hsorted sim' (r.step hclean hstep)⟩

theorem not_log_represented : ¬∀ (H : BinaryHeap) (seedFromU64 : ℕ → SmallRng) (seed numNodes : ℕ)
    (sim₀ sim : Simulator H), new seedFromU64 H seed numNodes = some sim₀ →
    sim₀.system.Reachable (fun _ _ => True) sim →
      sim.Every RaftNode.Represents ∧ sim.Runs ∧ sim.Every (·.log.Sorted) := by
  intro h
  have hterms : (run .sorted countFrom (fun _ => leadersFirst) 0 3 superseded).bind
      (fun sim => (sim.nodes.lookup 1).map (·.log.terms)) = some [2, 1] := by decide +kernel
  obtain ⟨sim, hrun, hn⟩ := Option.bind_eq_some_iff.mp hterms
  obtain ⟨node, hn, ht⟩ := Option.map_eq_some_iff.mp hn
  obtain ⟨sim₀, h₀, hrun⟩ := Option.bind_eq_some_iff.mp hrun
  have hsorted := (h _ _ _ _ sim₀ sim h₀ <| execAll_reachable .init hrun).right.right 1 node hn
  have hpairwise : node.log.terms.Pairwise (· ≤ ·) := List.pairwise_map.mpr hsorted
  rw [ht] at hpairwise
  exact absurd hpairwise (by decide)

end Simulator
end RaftRupee
