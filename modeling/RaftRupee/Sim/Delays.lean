import RaftRupee.Sim.Representation

namespace RaftRupee

variable {H : BinaryHeap}

namespace SimNetwork

variable {net : SimNetwork H} {msg : Message} {m : ScheduledMessage} {t : ℕ} {rng : SmallRng}

theorem genDelay_le (net : SimNetwork H) (rng : SmallRng) : (net.genDelay rng).1 ≤ net.maxDelayTicks := by
  unfold genDelay
  split
  case isTrue  => exact Nat.zero_le _
  case isFalse => exact Nat.le_of_lt_succ <| Nat.mod_lt _ (Nat.succ_pos _)

theorem send_maxDelayTicks (net : SimNetwork H) (msg : Message) (t : ℕ) (rng : SmallRng) :
    (net.send msg t rng).1.maxDelayTicks = net.maxDelayTicks := by
  unfold send
  split
  case isTrue  => rfl
  case isFalse =>
    dsimp only
    split
    case isTrue  => rfl
    case isFalse => split <;> rfl

-- A duplicate comes up to three ticks after what it duplicates.
theorem mem_send (h : m ∈ H.toMultiset (net.send msg t rng).1.inFlight) :
    m ∈ H.toMultiset net.inFlight ∨ (m.msg.sender, m.msg.receiver) ∉ net.partitions ∧
      t ≤ m.deliveryTick ∧ m.deliveryTick ≤ t + net.maxDelayTicks + 3 := by
  unfold send at h
  split at h
  case isTrue => exact .inl h
  case isFalse hb =>
    dsimp only at h
    split at h
    case isTrue => exact .inl h
    case isFalse =>
      have hdelay := net.genDelay_le (rng.genBool net.dropRate).2
      split at h
      case isFalse =>
        simp only [H.toMultiset_push, Multiset.mem_cons] at h
        rcases h with rfl | h
        · exact .inr ⟨hb, by dsimp only; omega, by dsimp only; omega⟩
        · exact .inl h
      case isTrue =>
        have hextra := Nat.mod_lt ((((net.genDelay (rng.genBool net.dropRate).2).2.genBool
          net.duplicateRate).2).draws 0) (show 0 < 3 by decide)
        simp only [H.toMultiset_push, Multiset.mem_cons] at h
        rcases h with rfl | rfl | h
        · refine .inr ⟨hb, by dsimp only; omega, ?_⟩
          dsimp only [SmallRng.genRange]
          omega
        · exact .inr ⟨hb, by dsimp only; omega, by dsimp only; omega⟩
        · exact .inl h

theorem drain_le (t fuel : ℕ) (heap : H.Heap) : H.toMultiset (drain t fuel heap).2 ≤ H.toMultiset heap := by
  induction fuel generalizing heap
  case zero => exact le_rfl
  case succ fuel hi =>
    rw [drain]
    cases hp : H.pop heap
    case none => exact le_rfl
    case some r =>
      dsimp only
      split
      case isFalse => exact le_rfl
      case isTrue  =>
        rw [(H.pop_some hp).left]
        exact (hi r.2).trans <| Multiset.le_cons_self ..

theorem mem_drainDue (h : m ∈ H.toMultiset (net.drainDue t).2.inFlight) :
    m ∈ H.toMultiset net.inFlight ∧ t < m.deliveryTick :=
  ⟨Multiset.mem_of_le (drain_le ..) h, drain_complete le_rfl m h⟩

end SimNetwork

namespace Simulator

open Reorder

variable {sim sim' sim₀ sim₁ : Simulator H} {seedFromU64 : ℕ → SmallRng} {seed numNodes M t : ℕ}
variable {I : SimNetwork H → ℕ → Prop} {id : NodeId}

/-! ### What the network keeps -/

-- A property of the network and the clock that sending and draining keep.
structure Kept (I : SimNetwork H → ℕ → Prop) : Prop where
  send  : ∀ {net t}, I net t → ∀ msg rng, I (net.send msg t rng).1 t
  drain : ∀ {net t}, I net t → I (net.drainDue (t + 1)).2 (t + 1)

-- The property, as one of the simulator.
abbrev Here (I : SimNetwork H → ℕ → Prop) (sim : Simulator H) : Prop :=
  I sim.network sim.tickCount

namespace Kept

theorem withDisk (write : StableDisk → Option StableDisk) :
    Preserves (Here I) (Simulator.withDisk id write) := by
  intro sim sim' hi hs
  obtain ⟨_, _, hs⟩ := Option.bind_eq_some_iff.mp hs
  obtain ⟨_, _, hs⟩ := Option.bind_eq_some_iff.mp hs
  cases hs
  exact hi

theorem processAction (h : Kept I) (a : Action) : Preserves (Here I) (Simulator.processAction id · a) := by
  intro sim sim' hi hs
  cases a
  case send msg =>
    cases hs
    exact h.send hi ..
  case apply =>
    cases hs
    exact hi
  all_goals exact withDisk _ sim sim' hi hs

theorem react (h : Kept I) (o : Outcome) : Preserves (Here I) (Simulator.react id o) := by
  intro sim sim' hi hs
  let sim₁ : Simulator H := { sim with nodes := sim.nodes.insert id o.1 }
  have hi₁ : Here I sim₁ := hi
  exact Preserves.foldlM (fun a _ => h.processAction a) sim₁ sim' hi₁ hs

theorem visit (h : Kept I) (call : RaftNode → Option Outcome) :
    Preserves (Here I) (Simulator.visit call · id) := by
  intro sim sim' hi hs
  dsimp only [Simulator.visit] at hs
  split at hs
  case h_1 =>
    cases hs
    exact hi
  case h_2 o _ => exact h.react o sim sim' hi hs

theorem deliver (h : Kept I) (msg : Message) : Preserves (Here I) (Simulator.deliver · msg) := by
  intro sim sim' hi hs
  dsimp only [Simulator.deliver] at hs
  split at hs
  case h_1 =>
    cases hs
    exact hi
  case h_2 =>
    obtain ⟨o, _, hs⟩ := Option.bind_eq_some_iff.mp hs
    exact h.react o sim sim' hi hs

theorem step (h : Kept I) (ticks compactions : KeyOrder) :
    Preserves (Here I) (Simulator.step · ticks compactions) := by
  intro sim sim' hi hs
  obtain ⟨sim₁, h₁, hs⟩ := Option.bind_eq_some_iff.mp hs
  obtain ⟨sim₂, h₂, hs⟩ := Option.bind_eq_some_iff.mp hs
  have hdrained : Here I sim.drained := h.drain hi
  have hi₁ : Here I sim₁ := Preserves.foldlM (fun msg _ => h.deliver msg) sim.drained sim₁ hdrained h₁
  have hi₂ : Here I sim₂ := Preserves.foldlM (fun _ _ => h.visit tickCall) sim₁ sim₂ hi₁ h₂
  exact Preserves.foldlM (fun _ _ => h.visit compactCall) sim₂ sim' hi₂ hs

theorem proposeCommand (h : Kept I) (order : KeyOrder) (command : Command) :
    Preserves (Here I) fun sim => (sim.proposeCommand order command).map (·.1) := by
  intro sim sim' hi hs
  dsimp only [Simulator.proposeCommand] at hs
  split at hs
  case h_1 =>
    cases hs
    exact hi
  case h_2 id _ =>
    obtain ⟨_, hproposed, hs⟩ := Option.map_eq_some_iff.mp hs
    obtain ⟨_, hvisit, hproposed⟩ := Option.map_eq_some_iff.mp hproposed
    cases hproposed
    cases hs
    exact h.visit _ sim _ hi hvisit

theorem spawnNode : Preserves (Here I) (Simulator.spawnNode · id) := by
  intro sim sim' hi hs
  obtain ⟨_, _, hs⟩ := Option.bind_eq_some_iff.mp hs
  obtain ⟨_, _, hs⟩ := Option.bind_eq_some_iff.mp hs
  obtain ⟨_, _, hs⟩ := Option.bind_eq_some_iff.mp hs
  cases hs
  exact hi

end Kept

-- What a call of the harness sets.
def Call.configure (net : SimNetwork H) : Call → SimNetwork H
  | .setDropRate rate          => { net with dropRate := rate }
  | .setDuplicateRate rate     => { net with duplicateRate := rate }
  | .setMaxDelayTicks ticks    => { net with maxDelayTicks := ticks }
  | .partition sender receiver => net.partition sender receiver
  | .healAll                   => net.healAll
  | _                          => net

theorem Kept.exec (h : Kept I) (orders : Orders) (call : Call)
    (hc : ∀ {net t}, I net t → I (call.configure net) t) :
    Preserves (Here I) (Simulator.exec orders · call) := by
  intro sim sim' hi hs
  cases call
  case step           => exact h.step _ _ sim sim' hi hs
  case spawnNode      => exact Kept.spawnNode sim sim' hi hs
  case proposeCommand => exact h.proposeCommand _ _ sim sim' hi hs
  all_goals
    cases hs
    exact hc hi

/-! ### How long messages are in flight -/

-- Nothing is in flight for longer than the maximal delay, and three ticks if it is a duplicate.
structure Paced (M : ℕ) (net : SimNetwork H) (t : ℕ) : Prop where
  delay : net.maxDelayTicks ≤ M
  due   : ∀ m ∈ H.toMultiset net.inFlight, m.deliveryTick ≤ t + M + 3

theorem kept_paced (M : ℕ) : Kept (Paced M (H := H)) where
  send {net t} h msg rng := by
    refine ⟨(net.send_maxDelayTicks msg t rng).trans_le h.delay, fun m hm => ?_⟩
    rcases SimNetwork.mem_send hm with hm | ⟨_, _, hle⟩
    · exact h.due m hm
    · exact hle.trans <| Nat.add_le_add_right (Nat.add_le_add_left h.delay t) 3
  drain {net t} h := by
    refine ⟨h.delay, fun m hm => ?_⟩
    have := h.due m (SimNetwork.mem_drainDue hm).left
    omega

def Call.delayWithin (M : ℕ) : Call → Bool
  | .setMaxDelayTicks ticks => ticks ≤ M
  | _                       => true

theorem paced_of_reachable (hM : 3 ≤ M) (hs : new seedFromU64 H seed numNodes = some sim₀)
    (r : sim₀.system.Reachable (fun _ e => e.2.delayWithin M) sim) : Here (Paced M) sim := by
  refine r.invariant ?_ ?_
  case refine_1 =>
    refine Preserves.foldlM (fun _ _ => Kept.spawnNode) _ _ ?_ hs
    exact ⟨hM, by simp [SimNetwork.new, H.toMultiset_new]⟩
  case refine_2 =>
    intro s s' e _ hi hg hs
    refine (kept_paced M).exec e.1 e.2 (fun {net t} h => ?_) s s' hi hs
    rcases e with ⟨_, call⟩
    cases call
    case setMaxDelayTicks => exact ⟨of_decide_eq_true hg, h.due⟩
    all_goals exact ⟨h.delay, h.due⟩

-- Messages that a partition stops are still in flight from the time before `t₀`.
structure Ages (cut : Finset (NodeId × NodeId)) (T t₀ : ℕ) (net : SimNetwork H) (t : ℕ) : Prop where
  stopped : cut ⊆ net.partitions
  started : t₀ ≤ t
  flight  : ∀ m ∈ H.toMultiset net.inFlight, (m.msg.sender, m.msg.receiver) ∈ cut →
    m.deliveryTick ≤ T ∧ (t = t₀ ∨ t < m.deliveryTick)

theorem kept_ages (cut : Finset (NodeId × NodeId)) (T t₀ : ℕ) : Kept (Ages cut T t₀ (H := H)) where
  send {net t} h msg rng := by
    refine ⟨?_, h.started, fun m hm hc => ?_⟩
    · rw [SimNetwork.send_partitions]
      exact h.stopped
    · rcases SimNetwork.mem_send hm with hm | ⟨hb, _⟩
      · exact h.flight m hm hc
      · exact absurd (h.stopped hc) hb
  drain {net t} h := by
    refine ⟨h.stopped, h.started.trans (Nat.le_succ t), fun m hm hc => ?_⟩
    obtain ⟨hm, hlt⟩ := SimNetwork.mem_drainDue hm
    exact ⟨(h.flight m hm hc).left, .inr hlt⟩

-- A partition is effective after the maximal delay and three ticks: then nothing is in flight any more
-- that it would stop.
theorem partition_takes_effect {cut : Finset (NodeId × NodeId)} (hM : 3 ≤ M)
    (hs : new seedFromU64 H seed numNodes = some sim₀)
    (r : sim₀.system.Reachable (fun _ e => e.2.delayWithin M) sim₁) (hc : cut ⊆ sim₁.network.partitions)
    (r' : sim₁.system.Reachable (fun _ e => e.2 ≠ .healAll) sim)
    (ht : sim₁.tickCount + M + 3 ≤ sim.tickCount) : cut ⊆ sim.network.partitions ∧
      ∀ msg ∈ sim.network.messages, (msg.sender, msg.receiver) ∉ cut := by
  have hpaced := paced_of_reachable hM hs r
  have hages : Here (Ages cut (sim₁.tickCount + M + 3) sim₁.tickCount) sim := by
    refine r'.invariant ⟨hc, le_rfl, fun m hm _ => ⟨hpaced.due m hm, .inl rfl⟩⟩ ?_
    intro s s' e _ hi hne hs
    refine (kept_ages ..).exec e.1 e.2 (fun {net t} h => ?_) s s' hi hs
    rcases e with ⟨_, call⟩
    cases call
    case healAll   => exact absurd rfl hne
    case partition => exact ⟨h.stopped.trans (Finset.subset_insert ..), h.started, h.flight⟩
    all_goals exact ⟨h.stopped, h.started, h.flight⟩
  refine ⟨hages.stopped, fun msg hmsg hcut => ?_⟩
  obtain ⟨m, hm, rfl⟩ := Multiset.mem_map.mp hmsg
  obtain ⟨hle, heq | hlt⟩ := hages.flight m hm hcut
  · omega
  · omega

end Simulator
end RaftRupee
