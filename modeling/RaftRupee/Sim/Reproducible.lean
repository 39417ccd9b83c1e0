import RaftRupee.Lib.Reorder
import RaftRupee.Sim.Simulator

namespace RaftRupee.Simulator

open Reorder

variable {H : BinaryHeap} {sim sim' : Simulator H} {id id' : NodeId} {a a' : Action}
variable {as as' : List Action} {o o' : Outcome} {call : RaftNode → Option Outcome}
variable {Ps : Finset (NodeId × NodeId)}

/-! ### Actions of different nodes -/

-- The partitions block the message, so that sending it takes no draw.
def Blocked (Ps : Finset (NodeId × NodeId)) : Action → Prop
  | .send msg => (msg.sender, msg.receiver) ∈ Ps
  | _         => True

instance (Ps : Finset (NodeId × NodeId)) : DecidablePred (Blocked Ps) := by
  intro a
  cases a <;> unfold Blocked <;> infer_instance

def Partitioned (Ps : Finset (NodeId × NodeId)) (sim : Simulator H) : Prop :=
  sim.network.partitions = Ps

theorem send_eq_self {msg : Message} (h : (msg.sender, msg.receiver) ∈ sim.network.partitions) :
    sim.send msg = sim := by
  ext1 <;> simp [send, SimNetwork.send_blocked h]

-- An action sends, writes to the disk of its node, or does nothing.
theorem processAction_cases (a : Action) :
    (∃ msg, a = .send msg) ∨
    (∃ write, ∀ {H : BinaryHeap} id (sim : Simulator H), sim.processAction id a = sim.withDisk id write) ∨
    (∀ {H : BinaryHeap} id (sim : Simulator H), sim.processAction id a = some sim) := by
  cases a
  case send msg               => exact .inl ⟨msg, rfl⟩
  case appendEntries es       => exact .inr <| .inl ⟨_, fun _ _ => rfl⟩
  case truncateAndAppend i es => exact .inr <| .inl ⟨_, fun _ _ => rfl⟩
  case persistHardState t v   => exact .inr <| .inl ⟨_, fun _ _ => rfl⟩
  case apply es               => exact .inr <| .inr fun _ _ => rfl
  case persistSnapshot i t d  => exact .inr <| .inl ⟨_, fun _ _ => rfl⟩

theorem withDisk_eq_some {write : StableDisk → Option StableDisk}
    (h : sim.withDisk id write = some sim') :
    ∃ disk, sim' = { sim with disks := sim.disks.insert id disk } := by
  obtain ⟨_, _, h⟩ := Option.bind_eq_some_iff.mp h
  obtain ⟨disk, _, h⟩ := Option.bind_eq_some_iff.mp h
  exact ⟨disk, (Option.some.inj h).symm⟩

theorem processAction_preserves (id : NodeId) (a : Action) :
    Preserves (Partitioned (H := H) Ps) (processAction id · a) := by
  intro sim sim' hp h
  rcases processAction_cases a with ⟨msg, rfl⟩ | ⟨write, hw⟩ | hn
  case inl =>
    cases h
    exact (SimNetwork.send_partitions ..).trans hp
  case inr.inl =>
    obtain ⟨disk, rfl⟩ := withDisk_eq_some <| (hw id sim).symm.trans h
    exact hp
  case inr.inr =>
    cases (hn id sim).symm.trans h
    exact hp

theorem withDisk_send (write : StableDisk → Option StableDisk) (msg : Message) (sim : Simulator H) :
    (sim.withDisk id write).bind (some <| ·.send msg) = (sim.send msg).withDisk id write := by
  simp only [withDisk, send]
  cases sim.disks.lookup id
  case none => rfl
  case some disk =>
    cases h : write disk <;> simp [h]

theorem withDisk_comm (h : id ≠ id') (write write' : StableDisk → Option StableDisk)
    (sim : Simulator H) :
    (sim.withDisk id write).bind (withDisk id' write') =
      (sim.withDisk id' write').bind (withDisk id write) := by
  cases hd : sim.disks.lookup id
  case none =>
    cases hd' : sim.disks.lookup id'
    case none => simp [withDisk, hd, hd']
    case some disk' =>
      cases hw' : write' disk' <;> simp [withDisk, hd, hd', hw', Finmap.lookup_insert_of_ne _ h]
  case some disk =>
    cases hd' : sim.disks.lookup id'
    case none =>
      cases hw : write disk <;> simp [withDisk, hd, hd', hw, Finmap.lookup_insert_of_ne _ h.symm]
    case some disk' =>
      cases hw : write disk <;> cases hw' : write' disk' <;>
        simp [withDisk, hd, hd', hw, hw', Finmap.lookup_insert_of_ne _ h,
          Finmap.lookup_insert_of_ne _ h.symm, Finmap.insert_insert_of_ne _ h]

theorem processAction_independent (hne : id ≠ id') (hb : Blocked Ps a') :
    Independent (Partitioned (H := H) Ps) (processAction id · a) (processAction id' · a') := by
  rcases processAction_cases a' with ⟨msg, rfl⟩ | ⟨write', hw'⟩ | hn'
  case inl =>
    refine (independent_some _ (fun sim hp => ?_) (processAction_preserves id a)).symm
    exact congrArg some <| send_eq_self <| hp ▸ hb
  case inr.inr =>
    exact (independent_some _ (fun sim _ => hn' id' sim) (processAction_preserves id a)).symm
  case inr.inl =>
    rcases processAction_cases a with ⟨msg, rfl⟩ | ⟨write, hw⟩ | hn
    case inl =>
      intro sim _
      simp only [hw']
      exact (withDisk_send write' msg sim).symm
    case inr.inl =>
      intro sim _
      simp only [hw, hw']
      exact withDisk_comm hne write write' sim
    case inr.inr =>
      exact independent_some _ (fun sim _ => hn id sim) (processAction_preserves id' a')

theorem processActions_preserves (id : NodeId) (as : List Action) :
    Preserves (Partitioned (H := H) Ps) (processActions id · as) :=
  .foldlM fun a _ => processAction_preserves id a

theorem processActions_independent (hne : id ≠ id') (hb : ∀ a ∈ as', Blocked Ps a) :
    Independent (Partitioned (H := H) Ps) (processActions id · as) (processActions id' · as') :=
  .foldlM (fun a _ => processAction_preserves id a) fun _ _ => .symm <|
    .foldlM (fun a _ => processAction_preserves id' a) fun a' ha' =>
      .symm <| processAction_independent hne (hb a' ha')

/-! ### Calls of different nodes -/

def setNodes (nodes : Finmap fun _ : NodeId => RaftNode) (sim : Simulator H) : Simulator H :=
  { sim with nodes }

-- The actions of a call do not concern the nodes.
theorem processAction_setNodes (nodes : Finmap fun _ : NodeId => RaftNode) (id : NodeId) (a : Action)
    (sim : Simulator H) :
    processAction id (sim.setNodes nodes) a = (processAction id sim a).map (setNodes nodes) := by
  rcases processAction_cases a with ⟨msg, rfl⟩ | ⟨write, hw⟩ | hn
  case inl => rfl
  case inr.inl =>
    simp only [hw, withDisk, setNodes]
    cases sim.disks.lookup id
    case none => rfl
    case some disk => cases h : write disk <;> simp [h, setNodes]
  case inr.inr => simp [hn]

theorem processActions_setNodes (nodes : Finmap fun _ : NodeId => RaftNode) (id : NodeId)
    (as : List Action) (sim : Simulator H) :
    processActions id (sim.setNodes nodes) as = (processActions id sim as).map (setNodes nodes) := by
  induction as generalizing sim
  case nil => rfl
  case cons a as hi =>
    simp only [processActions, List.foldlM_cons] at hi ⊢
    rw [processAction_setNodes]
    cases processAction id sim a
    case none      => rfl
    case some sim' => exact hi sim'

theorem processActions_nodes (h : processActions id sim as = some sim') : sim'.nodes = sim.nodes := by
  have hs := processActions_setNodes sim.nodes id as sim
  have hself : sim.setNodes sim.nodes = sim := rfl
  rw [hself, h, Option.map_some, Option.some.injEq] at hs
  exact (congrArg Simulator.nodes hs).trans rfl

theorem react_eq (id : NodeId) (o : Outcome) (sim : Simulator H) :
    sim.react id o = (processActions id sim o.2).map (setNodes <| sim.nodes.insert id o.1) :=
  processActions_setNodes ..

theorem react_nodes (h : sim.react id o = some sim') : sim'.nodes = sim.nodes.insert id o.1 :=
  processActions_nodes h

theorem react_preserves (id : NodeId) (o : Outcome) :
    Preserves (Partitioned (H := H) Ps) (react id o) := by
  intro sim sim' hp h
  refine processActions_preserves id o.2 { sim with nodes := sim.nodes.insert id o.1 } sim' hp h

theorem react_bind (id id' : NodeId) (o o' : Outcome) (sim : Simulator H) :
    (sim.react id o).bind (react id' o') =
      ((processActions id sim o.2).bind (processActions id' · o'.2)).map
        (setNodes <| (sim.nodes.insert id o.1).insert id' o'.1) := by
  rw [react_eq]
  cases h : processActions id sim o.2
  case none => rfl
  case some sim₁ =>
    simp only [Option.map_some, Option.bind_some]
    rw [react_eq, processActions_setNodes, Option.map_map]
    rfl

theorem react_comm (hne : id ≠ id') (hp : Partitioned Ps sim)
    (hb : (∀ a ∈ o.2, Blocked Ps a) ∨ ∀ a ∈ o'.2, Blocked Ps a) :
    (sim.react id o).bind (react id' o') = (sim.react id' o').bind (react id o) := by
  have hi : (processActions id sim o.2).bind (processActions id' · o'.2) =
      (processActions id' sim o'.2).bind (processActions id · o.2) := by
    rcases hb with hb | hb
    case inl => exact (processActions_independent hne.symm hb sim hp).symm
    case inr => exact processActions_independent hne hb sim hp
  rw [react_bind, react_bind, hi, Finmap.insert_insert_of_ne _ hne]

-- The node, if it is alive and makes the call, sends nothing that is not blocked.
def Quiet (call : RaftNode → Option Outcome) (sim : Simulator H) (id : NodeId) : Prop :=
  ∀ outcome ∈ (sim.nodes.lookup id).bind call, ∀ a ∈ outcome.2, Blocked sim.network.partitions a

instance (call : RaftNode → Option Outcome) (sim : Simulator H) (id : NodeId) :
    Decidable (Quiet call sim id) :=
  inferInstanceAs (Decidable (∀ outcome ∈ (sim.nodes.lookup id).bind call, ∀ a ∈ outcome.2, _))

def OneSends (call : RaftNode → Option Outcome) (sim : Simulator H) (ids : List NodeId) : Prop :=
  ∀ id ∈ ids, ∀ id' ∈ ids, id ≠ id' → Quiet call sim id ∨ Quiet call sim id'

theorem visit_frame (h : sim.visit call id = some sim') (hne : id' ≠ id) :
    sim'.nodes.lookup id' = sim.nodes.lookup id' ∧ sim'.network.partitions = sim.network.partitions := by
  rw [visit] at h
  split at h
  case h_1 =>
    cases h
    exact ⟨rfl, rfl⟩
  case h_2 outcome _ =>
    refine ⟨?_, react_preserves id outcome sim sim' rfl h⟩
    rw [react_nodes h, Finmap.lookup_insert_of_ne _ hne]

theorem Quiet.visit (hq : Quiet call sim id') (h : sim.visit call id = some sim') (hne : id' ≠ id) :
    Quiet call sim' id' := by
  obtain ⟨hl, hp⟩ := visit_frame h hne
  rwa [Quiet, hl, hp]

def visitWith (id : NodeId) : Option Outcome → Simulator H → Option (Simulator H)
  | none, sim         => some sim
  | some outcome, sim => sim.react id outcome

theorem visit_eq (call : RaftNode → Option Outcome) (sim : Simulator H) (id : NodeId) :
    sim.visit call id = visitWith id ((sim.nodes.lookup id).bind call) sim := by
  rw [visit]
  split
  case h_1 ho => rw [ho, visitWith]
  case h_2 ho => rw [ho, visitWith]

-- The first visit leaves the second node alone.
theorem visit_bind (sim : Simulator H) (hne : id' ≠ id) :
    (sim.visit call id).bind (visit call · id') =
      (sim.visit call id).bind (visitWith id' <| (sim.nodes.lookup id').bind call) := by
  cases h : sim.visit call id
  case none      => rfl
  case some sim' =>
    rw [Option.bind_some, Option.bind_some, visit_eq, (visit_frame h hne).left]

theorem visit_comm (hne : id ≠ id') (hq : Quiet call sim id ∨ Quiet call sim id') :
    (sim.visit call id).bind (visit call · id') = (sim.visit call id').bind (visit call · id) := by
  rw [visit_bind sim hne.symm, visit_bind sim hne, visit_eq, visit_eq]
  cases ho : (sim.nodes.lookup id).bind call
  case none => exact (Option.bind_fun_some _).symm
  case some o =>
    cases ho' : (sim.nodes.lookup id').bind call
    case none    => exact Option.bind_fun_some _
    case some o' => exact react_comm hne rfl <| hq.imp (· o ho) (· o' ho')

theorem visit_swappable (call : RaftNode → Option Outcome) :
    Swappable (visit (H := H) call) fun sim ids => ids.Nodup ∧ OneSends call sim ids where
  perm hp h := by
    refine ⟨hp.nodup h.left, fun id hid id' hid' => ?_⟩
    exact h.right id (hp.mem_iff.mpr hid) id' (hp.mem_iff.mpr hid')
  tail {sim sim' id ids} h hv := by
    obtain ⟨hn, hs⟩ := h
    rw [List.nodup_cons] at hn
    have hne : ∀ {id'}, id' ∈ ids → id' ≠ id := fun hm he => hn.left (he ▸ hm)
    refine ⟨hn.right, fun id₁ h₁ id₂ h₂ h₁₂ => ?_⟩
    have hq := hs id₁ (List.mem_cons_of_mem _ h₁) id₂ (List.mem_cons_of_mem _ h₂) h₁₂
    exact hq.imp (·.visit hv (hne h₁)) (·.visit hv (hne h₂))
  swap {sim id id' ids} h := by
    have hne : id ≠ id' := fun he => (List.nodup_cons.mp h.left).left (he ▸ List.mem_cons_self)
    exact visit_comm hne <| h.right id (by simp) id' (by simp) hne

-- The order of the keys does not matter when at most one node sends.
theorem visitAll_eq (order order' : KeyOrder) (h : OneSends call sim (order.keys sim.nodes.keys)) :
    sim.visitAll order call = sim.visitAll order' call := by
  refine (visit_swappable call).foldlM_eq ?_ ⟨order.nodup_keys _, h⟩
  refine (List.perm_ext_iff_of_nodup (order.nodup_keys _) (order'.nodup_keys _)).mpr fun id => ?_
  rw [order.mem_keys, order'.mem_keys]

theorem quiet_compactCall (sim : Simulator H) (id : NodeId) : Quiet compactCall sim id := by
  intro outcome ho a ha
  obtain ⟨node, _, hc⟩ := Option.bind_eq_some_iff.mp ho
  rw [compactCall, Option.ite_none_right_eq_some, Option.some.injEq] at hc
  rw [← hc.right, RaftNode.compactLogs] at ha
  split at ha
  case isTrue  => simp at ha
  case isFalse =>
    rw [List.mem_singleton.mp ha]
    trivial

theorem step_eq {ticks ticks' compactions compactions' : KeyOrder}
    (h : ∀ sim' ∈ sim.deliverDue, OneSends tickCall sim' (ticks.keys sim'.nodes.keys)) :
    sim.step ticks compactions = sim.step ticks' compactions' := by
  rw [step, step]
  cases hd : sim.deliverDue
  case none => rfl
  case some sim₁ =>
    simp only [Option.bind_eq_bind, Option.bind_some]
    rw [visitAll_eq ticks ticks' (h sim₁ hd)]
    refine Option.bind_congr fun sim₂ _ => visitAll_eq _ _ fun id _ _ _ _ => ?_
    exact .inl <| quiet_compactCall sim₂ id

-- Nothing depends on the order of the keys: at most one node sends when the nodes are ticked, and at
-- most one is a leader when a command is proposed.
def Calm (sim : Simulator H) : Call → Prop
  | .step => ∀ sim' ∈ sim.deliverDue, ∀ id ∈ sim'.nodes.keys, ∀ id' ∈ sim'.nodes.keys, id ≠ id' →
    Quiet tickCall sim' id ∨ Quiet tickCall sim' id'
  | .proposeCommand _ =>
    ∀ id ∈ sim.nodes.keys, ∀ id' ∈ sim.nodes.keys, sim.isLeader id → sim.isLeader id' → id = id'
  | _ => True

instance (sim : Simulator H) : DecidablePred sim.Calm := by
  intro call
  cases call <;> unfold Calm <;> infer_instance

theorem exec_eq {c : Call} (orders orders' : Orders) (h : sim.Calm c) :
    sim.exec orders c = sim.exec orders' c := by
  cases c
  case step =>
    refine step_eq fun sim' hd id hid id' hid' => h sim' hd id ?_ id' ?_
    · exact (orders.ticks.mem_keys ..).mp hid
    · exact (orders.ticks.mem_keys ..).mp hid'
  case proposeCommand command =>
    rw [exec, exec, proposeCommand, proposeCommand]
    have hk : ∀ id, id ∈ orders.leaders.keys sim.nodes.keys ↔ id ∈ orders'.leaders.keys sim.nodes.keys :=
      fun id => (orders.leaders.mem_keys ..).trans (orders'.leaders.mem_keys ..).symm
    rw [find?_eq hk fun id hid id' hid' => h id ?_ id' ?_]
    · exact (orders.leaders.mem_keys ..).mp hid
    · exact (orders.leaders.mem_keys ..).mp hid'
  all_goals rfl

-- Every call of the run is calm.
def CalmFrom (orders : ℕ → Orders) : ℕ → Simulator H → List Call → Prop
  | _, _, []              => True
  | k, sim, call :: calls => sim.Calm call ∧
    ∀ sim' ∈ sim.exec (orders k) call, CalmFrom orders (k + 1) sim' calls

def decideCalmFrom (orders : ℕ → Orders) :
    ∀ k (sim : Simulator H) calls, Decidable (CalmFrom orders k sim calls)
  | _, _, []              => isTrue trivial
  | k, sim, call :: calls =>
    have (sim' : Simulator H) := decideCalmFrom orders (k + 1) sim' calls
    inferInstanceAs (Decidable (_ ∧ ∀ sim' ∈ sim.exec (orders k) call, _))

instance (orders : ℕ → Orders) (k : ℕ) (sim : Simulator H) (calls : List Call) :
    Decidable (CalmFrom orders k sim calls) :=
  decideCalmFrom orders k sim calls

theorem execAll_eq {orders : ℕ → Orders} {calls : List Call} {k : ℕ} (orders' : ℕ → Orders)
    (h : CalmFrom orders k sim calls) : execAll orders k sim calls = execAll orders' k sim calls := by
  induction calls generalizing k sim
  case nil => rfl
  case cons call calls hi =>
    rw [execAll, execAll, exec_eq (orders k) (orders' k) h.left]
    refine Option.bind_congr fun sim' hs => hi <| h.right sim' ?_
    exact (exec_eq (orders k) (orders' k) h.left).trans hs

theorem CalmFrom.take {orders : ℕ → Orders} {calls : List Call} {k : ℕ}
    (h : CalmFrom orders k sim calls) (m : ℕ) : CalmFrom orders k sim (calls.take m) := by
  induction calls generalizing k sim m
  case nil => rwa [List.take_nil]
  case cons call calls hi =>
    cases m
    case zero   => trivial
    case succ m => exact ⟨h.left, fun sim' hs => hi (h.right sim' hs) m⟩

theorem reproducible (H : BinaryHeap) (seedFromU64 : ℕ → SmallRng) (seed numNodes : ℕ)
    (calls : List Call) (orders orders' : ℕ → Orders)
    (h : ∀ sim ∈ new seedFromU64 H seed numNodes, CalmFrom orders 0 sim calls) (k : ℕ) :
    run H seedFromU64 orders seed numNodes (calls.take k) =
      run H seedFromU64 orders' seed numNodes (calls.take k) :=
  Option.bind_congr fun sim hs => execAll_eq orders' <| (h sim hs).take k

-- Streams of consecutive numbers, which set out seven apart.
def countFrom (seed : ℕ) : SmallRng where
  draws k := 7 * seed + k

def ascending : KeyOrder :=
  .like [1, 2] (by decide)

def descending : KeyOrder :=
  .like [2, 1] (by decide)

def ordersOf (order : KeyOrder) : ℕ → Orders :=
  fun _ => { ticks := order, compactions := order, leaders := order }

-- Both nodes time out in the same tick, and the one that is ticked first gets the first draw of a delay.
theorem not_reproducible : ¬∀ (H : BinaryHeap) (seedFromU64 : ℕ → SmallRng) (seed numNodes : ℕ)
    (calls : List Call) (orders orders' : ℕ → Orders) (k : ℕ),
    run H seedFromU64 orders seed numNodes (calls.take k) =
      run H seedFromU64 orders' seed numNodes (calls.take k) := by
  intro h
  have := h .sorted (fun _ => countFrom 0) 0 2 (.replicate 15 .step) (ordersOf ascending)
    (ordersOf descending) 15
  have hs := congrArg (·.map fun sim => sim.network.inFlight.val.map fun m =>
    (m.deliveryTick, m.msg.sender)) this
  exact absurd hs (by decide +kernel)

-- The nodes time out in different ticks, one of them is elected, and a command is proposed to it.
theorem reproducible_two :
    let calls : List Call := .replicate 25 .step ++ .proposeCommand [7] :: .replicate 20 .step
    run .sorted countFrom (ordersOf ascending) 0 2 (calls.take 40) =
      run .sorted countFrom (ordersOf descending) 0 2 (calls.take 40) :=
  reproducible .sorted countFrom 0 2 (.replicate 25 .step ++ .proposeCommand [7] :: .replicate 20 .step)
    (ordersOf ascending) (ordersOf descending) (by decide +kernel) 40

end RaftRupee.Simulator
