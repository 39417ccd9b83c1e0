import RaftRupee.Lib.Simulation
import RaftRupee.Sim.Proposals
import RaftRupee.Sim.Representation

namespace RaftRupee.Simulator

open TransitionSystem

variable {H : BinaryHeap} {sim sim' : Simulator H} {C : Cluster} {s s' : Cluster.State} {w : Cluster.World}
variable {id : NodeId} {node : RaftNode} {o : Outcome} {a : Action} {as : List Action} {msg : Message}
variable {msgs : List Message} {T : ℕ} {answers : Option Message} {input : Cluster.Input} {D : Message → Prop}

-- The disks are those of the cluster, and what is in flight has been sent in the cluster.
structure Carries (C : Cluster) (sim : Simulator H) (w : Cluster.World) : Prop where
  disks : ∀ id disk, sim.disks.lookup id = some disk → w.disks id = disk
  sent  : ∀ msg ∈ sim.network.messages, ∃ p ∈ w.network, p.msg = msg

-- And the nodes that are up are those of the cluster.
structure Embeds (C : Cluster) (sim : Simulator H) (s : Cluster.State) : Prop extends
    Carries C sim s.toWorld where
  nodes   : ∀ id node, sim.nodes.lookup id = some node → id ∈ C.members ∧ s.nodes id = node
  configs : ∀ id config, sim.nodeConfigs.find? (·.id = id) = some config →
    id ∈ C.members ∧ C.config id = config

-- A message that does not satisfy `D` is stopped by a partition, and none is in flight.
structure Screens (C : Cluster) (D : Message → Prop) (sim : Simulator H) : Prop where
  stopped : ∀ msg : Message, msg.sender ∈ C.members → ¬D msg →
    (msg.sender, msg.receiver) ∈ sim.network.partitions
  flight  : ∀ msg ∈ sim.network.messages, msg.sender ∈ C.members → D msg

structure Tracks (C : Cluster) (D : Message → Prop) (sim : Simulator H) (s : Cluster.State) : Prop extends
    Embeds C sim s, Screens C D sim

theorem Embeds.tracks (h : Embeds C sim s) : Tracks C (fun _ => True) sim s where
  toEmbeds      := h
  stopped _ _ h := absurd trivial h
  flight _ _ _  := trivial

/-! ### Actions -/

-- The nodes and their configurations are as before, and the messages have passed the partitions.
structure Frames (sim sim' : Simulator H) : Prop where
  nodes       : sim'.nodes = sim.nodes
  nodeConfigs : sim'.nodeConfigs = sim.nodeConfigs
  partitions  : sim'.network.partitions = sim.network.partitions
  sent        : ∀ msg ∈ sim'.network.messages, msg ∈ sim.network.messages ∨
    (msg.sender, msg.receiver) ∉ sim.network.partitions

theorem Frames.refl (sim : Simulator H) : Frames sim sim :=
  ⟨rfl, rfl, rfl, fun _ h => .inl h⟩

theorem Frames.trans {sim₁ : Simulator H} (h : Frames sim sim₁) (h' : Frames sim₁ sim') : Frames sim sim' where
  nodes       := h'.nodes.trans h.nodes
  nodeConfigs := h'.nodeConfigs.trans h.nodeConfigs
  partitions  := h'.partitions.trans h.partitions
  sent msg hm := by
    rcases h'.sent msg hm with hm | hm
    case inl => exact h.sent msg hm
    case inr => exact .inr (h.partitions ▸ hm)

theorem Screens.frames (h : Screens C D sim) (hf : Frames sim sim') : Screens C D sim' where
  stopped msg hs hd := hf.partitions ▸ h.stopped msg hs hd
  flight msg hm hs  := by
    rcases hf.sent msg hm with hm | hm
    case inl => exact h.flight msg hm hs
    case inr => exact not_imp_comm.mp (h.stopped msg hs) hm

theorem Carries.withDisk {write : StableDisk → Option StableDisk} (h : Carries C sim w)
    (hs : sim.withDisk id write = some sim') :
    ∃ w', (write (w.disks id)).map (w.setDisk id) = some w' ∧ Carries C sim' w' ∧ Frames sim sim' := by
  obtain ⟨disk, hd, hs⟩ := Option.bind_eq_some_iff.mp hs
  obtain ⟨disk', hw, hs⟩ := Option.bind_eq_some_iff.mp hs
  cases hs
  refine ⟨w.setDisk id disk', by simp [h.disks id disk hd, hw], ⟨fun id' disk₁ hd₁ => ?_, h.sent⟩,
    rfl, rfl, rfl, fun _ h => .inl h⟩
  by_cases hid : id' = id
  case pos =>
    subst hid
    rw [Finmap.lookup_insert] at hd₁
    cases hd₁
    simp [Cluster.World.setDisk]
  case neg =>
    rw [Finmap.lookup_insert_of_ne _ hid] at hd₁
    simpa [Cluster.World.setDisk, hid] using h.disks id' disk₁ hd₁

theorem Carries.processAction (T : ℕ) (answers : Option Message) (h : Carries C sim w)
    (hs : sim.processAction id a = some sim') :
    ∃ w', w.processAction id T answers a = some w' ∧ Carries C sim' w' ∧ Frames sim sim' := by
  cases a
  case send msg =>
    cases hs
    refine ⟨_, rfl, ⟨h.disks, fun msg' hm => ?_⟩, rfl, rfl, SimNetwork.send_partitions ..,
      fun _ => SimNetwork.not_blocked_of_mem_send⟩
    rcases SimNetwork.mem_messages_send hm with hm | rfl
    case inl =>
      obtain ⟨p, hp, hpm⟩ := h.sent msg' hm
      exact ⟨p, List.mem_append_left _ hp, hpm⟩
    case inr => exact ⟨_, List.mem_append_right _ <| List.mem_singleton_self _, rfl⟩
  case apply =>
    cases hs
    exact ⟨_, rfl, ⟨h.disks, h.sent⟩, .refl _⟩
  all_goals exact h.withDisk hs

theorem Carries.processActions (T : ℕ) (answers : Option Message) (h : Carries C sim w)
    (hs : sim.processActions id as = some sim') :
    ∃ w', w.processActions id T answers as = some w' ∧ Carries C sim' w' ∧ Frames sim sim' := by
  induction as generalizing sim w
  case nil =>
    cases hs
    exact ⟨w, rfl, h, .refl _⟩
  case cons a as hi =>
    rw [Simulator.processActions, List.foldlM_cons] at hs
    obtain ⟨sim₁, hs₁, hs⟩ := Option.bind_eq_some_iff.mp hs
    obtain ⟨w₁, hw₁, h₁, hf₁⟩ := h.processAction T answers hs₁
    obtain ⟨w', hw, h', hf⟩ := hi h₁ hs
    refine ⟨w', ?_, h', hf₁.trans hf⟩
    rw [Cluster.World.processActions_cons, hw₁]
    exact hw

/-! ### The harness and the cluster -/

-- A call of a node is the same call in the cluster.
theorem Tracks.react (h : Tracks C D sim s) (hid : id ∈ C.members) (hcall : s.call id input = some o)
    (hs : sim.react id o = some sim') :
    ∃ s', C.step s (.call id input none) = some s' ∧ Tracks C D sim' s' := by
  have hrecord : Carries C { sim with nodes := sim.nodes.insert id o.1 } (s.record id (s.nodes id) o.1) :=
    ⟨h.disks, h.sent⟩
  obtain ⟨w, hw, hc, hf⟩ := hrecord.processActions o.1.currentTerm (s.handled input) hs
  have hscreens : Screens C D { sim with nodes := sim.nodes.insert id o.1 } := ⟨h.stopped, h.flight⟩
  refine ⟨_, Cluster.step_call hid hcall hw, ⟨hc, fun id' node hn => ?_, fun id' config hcfg => ?_⟩,
    hscreens.frames hf⟩
  · rw [hf.nodes] at hn
    by_cases hne : id' = id
    case pos =>
      subst hne
      rw [Finmap.lookup_insert] at hn
      cases hn
      exact ⟨hid, Function.update_self ..⟩
    case neg =>
      rw [Finmap.lookup_insert_of_ne _ hne] at hn
      exact (h.nodes id' node hn).imp_right fun he => (Function.update_of_ne hne ..).trans he
  · exact h.configs id' config <| hf.nodeConfigs ▸ hcfg

-- The cluster only compacts as the simulator does.
abbrev compacts (s : Cluster.State) (e : Cluster.Event) : Prop :=
  s.compactsWithin e ∧ s.compactsCommitted e

abbrev delivers (D : Message → Prop) (s : Cluster.State) (e : Cluster.Event) : Prop :=
  compacts s e ∧ s.Delivers D e

-- The cluster follows, and delivers nothing that is stopped.
abbrev Followed (C : Cluster) (D : Message → Prop) (f : Simulator H → Option (Simulator H)) : Prop :=
  C.system.Follows compacts (delivers D) (Tracks C D) f

theorem followed_visit {call : RaftNode → Option Outcome}
    (h : ∀ s id o, C.system.Reachable compacts s → id ∈ C.members → call (s.nodes id) = some o →
      ∃ input, s.call id input = some o ∧ delivers D s (.call id input none)) (id : NodeId) :
    Followed C D (H := H) (visit call · id) where
  run {sim sim' s} r he hs := by
    rw [visit] at hs
    split at hs
    case h_1 =>
      cases hs
      exact ⟨s, .init, he⟩
    case h_2 o ho =>
      obtain ⟨node, hn, ho⟩ := Option.bind_eq_some_iff.mp ho
      obtain ⟨hid, rfl⟩ := he.nodes id node hn
      obtain ⟨input, hcall, hg⟩ := h s id o r hid ho
      obtain ⟨s', hstep, he'⟩ := he.react hid hcall hs
      exact ⟨s', Reachable.next (T := C.system) hg hstep, he'⟩

theorem followed_tick (id : NodeId) : Followed C D (H := H) (visit tickCall · id) :=
  followed_visit (fun _ _ _ _ _ ho => ⟨.tick, ho, ⟨rfl, rfl⟩, trivial⟩) id

theorem followed_propose (command : Command) (id : NodeId) :
    Followed C D (H := H) (visit (some <| ·.propose command) · id) :=
  followed_visit (fun _ _ _ _ _ ho => ⟨.propose command, ho, ⟨rfl, rfl⟩, trivial⟩) id

theorem followed_compact (id : NodeId) : Followed C D (H := H) (visit compactCall · id) := by
  refine followed_visit (fun s id o r hid ho => ?_) id
  rw [compactCall, Option.ite_none_right_eq_some] at ho
  have hsync :=
    ((Cluster.syncLayer C False (fun _ _ h => h.left) fun _ _ _ h => h.elim).invariant r).memory id hid
  refine ⟨.compactLogs _ _ _, ho.right, ?_, trivial⟩
  have hle : (s.nodes id).log.firstIndex ≤ (s.nodes id).commitIndex := hsync.base_le
  simp [compacts, Cluster.State.compactsWithin, Cluster.State.compactsCommitted, hle]

-- Messages that have been sent stay in the network of the cluster.
theorem followed_deliver (hd : ∀ msg ∈ msgs, msg.sender ∈ C.members → D msg) (hm : msg ∈ msgs) :
    C.system.Follows compacts (delivers D)
      (fun (sim : Simulator H) s => Tracks C D sim s ∧ ∀ msg ∈ msgs, ∃ p ∈ s.network, p.msg = msg)
      (deliver · msg) where
  run {sim sim' s} r he hs := by
    obtain ⟨he, hsent⟩ := he
    rw [deliver] at hs
    split at hs
    case h_1 =>
      cases hs
      exact ⟨s, .init, he, hsent⟩
    case h_2 node hn =>
      obtain ⟨o, ho, hreact⟩ := Option.bind_eq_some_iff.mp hs
      obtain ⟨hid, rfl⟩ := he.nodes _ node hn
      obtain ⟨p, hp, hpm⟩ := hsent msg hm
      obtain ⟨n, hn⟩ := List.mem_iff_getElem?.mp hp
      have hcall : s.call msg.receiver (.deliver n) = some o := by
        simp [Cluster.State.call, hn, hpm, ho]
      have hdelivers : s.Delivers D (.call msg.receiver (.deliver n) none) := by
        intro p' hp'
        cases hn.symm.trans hp'
        rw [hpm]
        exact hd msg hm <| hpm ▸ (Cluster.sent_in_term r hp).left
      obtain ⟨s', hstep, he'⟩ := he.react hid hcall hreact
      refine ⟨s', Reachable.next (T := C.system) (e := .call msg.receiver (.deliver n) none)
        ⟨⟨rfl, rfl⟩, hdelivers⟩ hstep, he', fun msg' hm' => ?_⟩
      obtain ⟨p, hp, hpm⟩ := hsent msg' hm'
      exact ⟨p, (Cluster.step_network hstep).subset hp, hpm⟩

theorem followed_deliverDue : Followed C D (deliverDue (H := H)) where
  run {sim sim' s} r he hs := by
    have hmsgs := sim.network.drainDue_messages (sim.tickCount + 1)
    have hmem {msg} (hm : msg ∈ (sim.network.drainDue (sim.tickCount + 1)).1 ∨
        msg ∈ (sim.network.drainDue (sim.tickCount + 1)).2.messages) : msg ∈ sim.network.messages := by
      rw [hmsgs]
      exact Multiset.mem_add.mpr <| hm.imp_left Multiset.mem_coe.mpr
    have hdrained : Tracks C D sim.drained s :=
      ⟨⟨⟨he.disks, fun _ hm => he.sent _ (hmem (.inr hm))⟩, he.nodes, he.configs⟩,
        ⟨he.stopped, fun _ hm => he.flight _ (hmem (.inr hm))⟩⟩
    obtain ⟨s', hleads, he', _⟩ := (Follows.foldlM (fun _ _ => And.left) fun _ hm =>
      followed_deliver (fun _ hm => he.flight _ (hmem (.inl hm))) hm).run r
      ⟨hdrained, fun _ hm => he.sent _ (hmem (.inl hm))⟩ hs
    exact ⟨s', hleads, he'⟩

theorem followed_visitAll {order : KeyOrder} {call : RaftNode → Option Outcome}
    (h : ∀ id, Followed C D (H := H) (visit call · id)) : Followed C D (H := H) (visitAll order call) where
  run r he hs := (Follows.foldlM (fun _ _ => And.left) fun id _ => h id).run r he hs

theorem followed_step (ticks compactions : KeyOrder) : Followed C D (H := H) (step · ticks compactions) :=
  .bind (fun _ _ => And.left) followed_deliverDue <|
    .bind (fun _ _ => And.left) (followed_visitAll followed_tick) <| followed_visitAll followed_compact

-- To spawn a node is to restart it, whether it is down or not.
theorem followed_spawnNode (id : NodeId) : Followed C D (H := H) (spawnNode · id) where
  run {sim sim' s} r he hs := by
    obtain ⟨config, hc, hs⟩ := Option.bind_eq_some_iff.mp hs
    obtain ⟨disk, hd, hs⟩ := Option.bind_eq_some_iff.mp hs
    obtain ⟨node, hn, hs⟩ := Option.bind_eq_some_iff.mp hs
    cases hs
    obtain ⟨hid, rfl⟩ := he.configs id config hc
    obtain rfl := he.disks id disk hd
    have hstep : C.step s (.restart id) = some { s with nodes := Function.update s.nodes id node } := by
      simp [Cluster.step, Cluster.restart, hid, hn]
    refine ⟨_, Reachable.next (T := C.system) (e := .restart id) ⟨⟨rfl, rfl⟩, trivial⟩ hstep,
      ⟨⟨he.disks, he.sent⟩, fun id' node' hn' => ?_, he.configs⟩, ⟨he.stopped, he.flight⟩⟩
    by_cases hne : id' = id
    case pos =>
      subst hne
      rw [Finmap.lookup_insert] at hn'
      cases hn'
      exact ⟨hid, Function.update_self ..⟩
    case neg =>
      rw [Finmap.lookup_insert_of_ne _ hne] at hn'
      exact (he.nodes id' node' hn').imp_right fun he => (Function.update_of_ne hne ..).trans he

-- A partition stays until it is healed.
theorem followed_exec (orders : Orders) (call : Call) (hh : call = .healAll → ∀ msg, D msg) :
    Followed C D (H := H) (exec orders · call) := by
  cases call
  case spawnNode id => exact followed_spawnNode id
  case step         => exact followed_step ..
  case crashNode id =>
    refine .of_eq fun sim s he => ⟨⟨⟨he.disks, he.sent⟩, fun id' node hn => he.nodes id' node ?_, he.configs⟩,
      ⟨he.stopped, he.flight⟩⟩
    have hne : id' ≠ id := by
      rintro rfl
      simp [crashNode, Finmap.lookup_erase] at hn
    rwa [crashNode, Finmap.lookup_erase_ne hne] at hn
  case proposeCommand command =>
    refine ⟨fun {sim sim' s} r he hs => ?_⟩
    rw [exec, proposeCommand] at hs
    split at hs
    case h_1 =>
      cases hs
      exact ⟨s, .init, he⟩
    case h_2 id _ =>
      obtain ⟨_, hproposed, hs⟩ := Option.map_eq_some_iff.mp hs
      obtain ⟨_, hvisit, hproposed⟩ := Option.map_eq_some_iff.mp hproposed
      cases hproposed
      cases hs
      exact (followed_propose command id).run r he hvisit
  case healAll =>
    exact .of_eq fun _ _ he => ⟨⟨⟨he.disks, he.sent⟩, he.nodes, he.configs⟩,
      ⟨fun msg _ hd => absurd (hh rfl msg) hd, fun msg _ _ => hh rfl msg⟩⟩
  case partition =>
    exact .of_eq fun _ _ he => ⟨⟨⟨he.disks, he.sent⟩, he.nodes, he.configs⟩,
      ⟨fun msg hs hd => Finset.mem_insert_of_mem (he.stopped msg hs hd), he.flight⟩⟩
  all_goals exact .of_eq fun _ _ he => ⟨⟨⟨he.disks, he.sent⟩, he.nodes, he.configs⟩, ⟨he.stopped, he.flight⟩⟩

theorem embeds_exec (orders : Orders) (call : Call) :
    C.system.Follows compacts compacts (Embeds C (H := H)) (exec orders · call) where
  run r he hs := by
    obtain ⟨s, hleads, he⟩ := (followed_exec orders call fun _ _ => trivial).run r he.tracks hs
    exact ⟨s, hleads.mono fun _ _ => And.left, he.toEmbeds⟩

/-! ### Runs -/

section New

variable {seedFromU64 : ℕ → SmallRng} {seed numNodes : ℕ}

theorem newConfig_peers {ids ids' : List NodeId} {configs : List Config × SmallRng}
    (h : ∀ config ∈ configs.1, config.peers = ids.filter (· ≠ config.id)) :
    ∀ config ∈ (ids'.foldl (newConfig seedFromU64 ids) configs).1,
      config.peers = ids.filter (· ≠ config.id) := by
  induction ids' generalizing configs
  case nil => exact h
  case cons id ids' hi =>
    refine hi fun config hc => ?_
    rcases List.mem_append.mp hc with hc | hc
    · exact h config hc
    · cases List.mem_singleton.mp hc
      rfl

variable (seedFromU64 seed numNodes)

-- The configurations that `Simulator::new` makes.
def newConfigs : List Config :=
  ((List.range' 1 numNodes).foldl (newConfig seedFromU64 (List.range' 1 numNodes)) ([], seedFromU64 seed)).1

def newConfigFor (id : NodeId) : Config :=
  ((newConfigs seedFromU64 seed numNodes).find? (·.id = id)).getD <|
    .simulated id ((List.range' 1 numNodes).filter (· ≠ id)) (seedFromU64 seed)

variable {seedFromU64 seed numNodes}

theorem newConfigFor_spec (id : NodeId) : (newConfigFor seedFromU64 seed numNodes id).id = id ∧
    (newConfigFor seedFromU64 seed numNodes id).peers = (List.range' 1 numNodes).filter (· ≠ id) := by
  cases hc : (newConfigs seedFromU64 seed numNodes).find? (·.id = id)
  case none => simp [newConfigFor, hc, Config.simulated]
  case some config =>
    have hid : config.id = id := by simpa using List.find?_some hc
    have hpeers := newConfig_peers (by simp) config (List.mem_of_find?_eq_some hc)
    simp [newConfigFor, hc, hid, hpeers]

theorem nodup_newConfigFor_peers (id : NodeId) : (newConfigFor seedFromU64 seed numNodes id).peers.Nodup := by
  rw [(newConfigFor_spec id).right]
  exact (List.nodup_range').filter _

theorem mem_newConfigFor_peers (id peer : NodeId) : peer ∈ (newConfigFor seedFromU64 seed numNodes id).peers ↔
    peer ∈ (List.range' 1 numNodes).toFinset ∧ peer ≠ id := by
  rw [(newConfigFor_spec id).right, List.mem_filter, List.mem_toFinset, decide_eq_true_iff]

theorem ids_nonempty (h : 0 < numNodes) : (List.range' 1 numNodes).toFinset.Nonempty := by
  refine ⟨1, ?_⟩
  rw [List.mem_toFinset, List.mem_range'_1]
  omega

variable (seedFromU64 seed)

-- The cluster that the simulator runs.
def cluster (h : 0 < numNodes) : Cluster where
  members      := (List.range' 1 numNodes).toFinset
  nonempty     := ids_nonempty h
  config       := newConfigFor seedFromU64 seed numNodes
  config_id id := (newConfigFor_spec id).left
  peers_nodup  := nodup_newConfigFor_peers
  mem_peers {id} _ := mem_newConfigFor_peers id

variable {seedFromU64 seed}

theorem find?_newConfigs {config : Config} (h : 0 < numNodes)
    (hc : (newConfigs seedFromU64 seed numNodes).find? (·.id = id) = some config) :
    id ∈ (cluster seedFromU64 seed h).members ∧ (cluster seedFromU64 seed h).config id = config := by
  constructor
  case left =>
    have hid : config.id = id := by simpa using List.find?_some hc
    have hmem := List.mem_map_of_mem (f := (·.id)) (List.mem_of_find?_eq_some hc)
    rw [newConfigs, newConfig_ids, hid] at hmem
    exact List.mem_toFinset.mpr hmem
  case right => simp [cluster, newConfigFor, hc]

theorem embeds_new (H : BinaryHeap) (h : 0 < numNodes) {sim₀ : Simulator H}
    (hs : new seedFromU64 H seed numNodes = some sim₀) :
    ∃ s, (cluster seedFromU64 seed h).system.Reachable compacts s ∧
      Embeds (cluster seedFromU64 seed h) sim₀ s := by
  let C := cluster seedFromU64 seed h
  have hfollows : Followed C (fun _ => True) ((List.range' 1 numNodes).foldlM (spawnNode (H := H))) :=
    .foldlM (fun _ _ => And.left) fun id _ => followed_spawnNode id
  suffices he : ∃ s, (C.system.goingOn C.init).Reachable (delivers fun _ => True) s ∧
      Tracks C (fun _ => True) sim₀ s by
    obtain ⟨s, hleads, he⟩ := he
    exact ⟨s, hleads.mono fun _ _ => And.left, he.toEmbeds⟩
  refine hfollows.run .init (Embeds.tracks ⟨⟨fun id disk hd => ?disks, fun msg hm => ?sent⟩,
    fun id node hn => ?nodes, fun id config hc => ?configs⟩) hs
  case disks =>
    rw [lookup_new] at hd
    split at hd
    · exact Option.some.inj hd
    · simp at hd
  case sent    => simp [SimNetwork.messages, SimNetwork.new, H.toMultiset_new] at hm
  case nodes   => simp at hn
  case configs => exact find?_newConfigs h hc

-- The simulator refines the cluster: whatever the harness does, the nodes that are up, the disks and the
-- messages in flight are those of a run of the cluster.
theorem embeds_run (H : BinaryHeap) (h : 0 < numNodes) {sim₀ sim : Simulator H}
    (hs : new seedFromU64 H seed numNodes = some sim₀)
    (r : sim₀.system.Reachable (fun _ _ => True) sim) :
    ∃ s, (cluster seedFromU64 seed h).system.Reachable compacts s ∧
      Embeds (cluster seedFromU64 seed h) sim s := by
  obtain ⟨s₀, r₀, he₀⟩ := embeds_new H h hs
  obtain ⟨s, hleads, he⟩ := Follows.reachable (fun _ _ h => h) (fun _ e _ => embeds_exec e.1 e.2) r₀ he₀ r
  exact ⟨s, r₀.goOn hleads fun _ _ h => h, he⟩

-- Node 1 has been elected, and is down.
theorem embeds_run_three : ∃ (sim : Simulator .sorted) (s : Cluster.State), sim.nodes.lookup 1 = none ∧
    (sim.nodes.lookup 2).map (·.leaderId) = some (some 1) ∧
    (cluster countFrom 0 (show 0 < 3 by decide)).system.Reachable compacts s ∧
    Embeds (cluster countFrom 0 (show 0 < 3 by decide)) sim s := by
  have hlookups : (run .sorted countFrom (fun _ => leadersFirst) 0 3
      (.setMaxDelayTicks 0 :: .replicate 25 .step ++ [.crashNode 1])).map (fun sim =>
        ((sim.nodes.lookup 1).map (·.role), (sim.nodes.lookup 2).map (·.leaderId))) =
      some (none, some (some 1)) := by
    decide +kernel
  obtain ⟨sim, hrun, hlookups⟩ := Option.map_eq_some_iff.mp hlookups
  obtain ⟨sim₀, h₀, hrun⟩ := Option.bind_eq_some_iff.mp hrun
  obtain ⟨hdown, hleader⟩ := Prod.ext_iff.mp hlookups
  obtain ⟨s, hs, he⟩ := embeds_run .sorted (by decide) h₀ (execAll_reachable .init hrun)
  exact ⟨sim, s, Option.map_eq_none_iff.mp hdown, hleader, hs, he⟩

end New

end RaftRupee.Simulator
