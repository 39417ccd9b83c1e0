import RaftRupee.Sim.Embedding
import RaftRupee.Sim.Invariants

namespace RaftRupee

theorem RaftLog.Contiguous.mem_of_entryAt {log : RaftLog} {i : ℕ} {e : LogEntry} (h : log.Contiguous)
    (hi : log.firstIndex < i) (he : log.entryAt i = some e) : e ∈ log.rest ∧ e.index = i := by
  rw [entryAt_of_lt hi] at he
  refine ⟨List.mem_of_getElem? he, ?_⟩
  rw [h.index_eq he]
  omega

/-! ### The checks of one state -/

namespace SafetyInvariants

variable {inv inv' : SafetyInvariants} {node n₁ n₂ : RaftNode} {nodes : Nodes}
variable {elections : List Cluster.Election}

-- All leaders on record have been elected.
def Recalls (inv : SafetyInvariants) (elections : List Cluster.Election) : Prop :=
  ∀ T leader, inv.termLeaders T = some leader → ∃ e ∈ elections, e.node = leader ∧ e.term = T

theorem checkLeader_accepts (h : inv.Recalls elections)
    (hu : ∀ e ∈ elections, ∀ e' ∈ elections, e.term = e'.term → e.node = e'.node)
    (hn : node.role = .leader → ∃ e ∈ elections, e.node = node.id ∧ e.term = node.currentTerm) :
    ∃ inv', inv.checkLeader node = .ok inv' ∧ inv'.Recalls elections := by
  unfold checkLeader
  split
  case isFalse => exact ⟨inv, rfl, h⟩
  case isTrue hr =>
    obtain ⟨e, he, hid, ht⟩ := hn hr
    split
    case h_1 leader hl =>
      obtain ⟨e', he', hid', ht'⟩ := h _ _ hl
      have hsame : leader = node.id := hid' ▸ hid ▸ hu e' he' e he (ht'.trans ht.symm)
      exact ⟨inv, by simp [hsame], h⟩
    case h_2 =>
      refine ⟨_, rfl, fun T leader hl => ?_⟩
      by_cases hT : T = node.currentTerm
      case neg => exact h T leader (by simpa [hT] using hl)
      case pos =>
        simp only [hT, Function.update_self] at hl
        cases hl
        exact ⟨e, he, hid, hT ▸ ht⟩

theorem checkAppliedAt_termLeaders {index : ℕ} (h : inv.checkAppliedAt node index = .ok inv') :
    inv'.termLeaders = inv.termLeaders := by
  unfold checkAppliedAt at h
  split at h
  case h_1 => cases h; rfl
  case h_2 =>
    split at h
    case isTrue  => cases h; rfl
    case isFalse =>
      split at h
      case h_2 => cases h; rfl
      case h_1 =>
        split at h
        case isTrue  => contradiction
        case isFalse => cases h; rfl

-- The other checks do not touch the leaders on record.
theorem checkStateMachineSafety_termLeaders (h : inv.checkStateMachineSafety nodes = .ok inv') :
    inv'.termLeaders = inv.termLeaders := by
  have keeps {α : Type} {check : SafetyInvariants → α → Check} {as : List α} {inv inv' : SafetyInvariants}
      (hk : ∀ {inv a inv'}, check inv a = .ok inv' → inv'.termLeaders = inv.termLeaders)
      (h : as.foldlM check inv = .ok inv') : inv'.termLeaders = inv.termLeaders := by
    induction as generalizing inv
    case nil =>
      cases h
      rfl
    case cons a as hi =>
      rw [List.foldlM_cons] at h
      obtain ⟨_, hc, h⟩ := Checker.bind_ok.mp h
      exact (hi h).trans (hk hc)
  exact keeps (fun h => keeps checkAppliedAt_termLeaders h) h

-- Logs of entries that are the same if their index and term are.
theorem compareLogs_accepts (hc₁ : n₁.log.Contiguous) (hc₂ : n₂.log.Contiguous)
    (h : ∀ e₁ ∈ n₁.log.rest, ∀ e₂ ∈ n₂.log.rest, e₁.index = e₂.index → e₁.term = e₂.term → e₁ = e₂) :
    compareLogs n₁ n₂ = .ok ⟨⟩ := by
  refine Checker.forM_ok.mpr fun index _ => ?_
  unfold compareAt
  split
  case h_2 => rfl
  case h_1 e₁ e₂ he₁ he₂ =>
    split
    case isFalse => rfl
    case isTrue ht =>
      refine if_neg fun hcmp => hcmp.right.right ?_
      obtain ⟨hm₁, hi₁⟩ := hc₁.mem_of_entryAt hcmp.left he₁
      obtain ⟨hm₂, hi₂⟩ := hc₂.mem_of_entryAt hcmp.right.left he₂
      exact congrArg LogEntry.command <| h e₁ hm₁ e₂ hm₂ (hi₁.trans hi₂.symm) ht

theorem comparePairs_accepts {ns : List RaftNode}
    (h : ns.Pairwise fun n₁ n₂ => compareLogs n₁ n₂ = (.ok ⟨⟩ : Except String PUnit.{1})) :
    comparePairs ns = (.ok ⟨⟩ : Except String PUnit.{1}) := by
  induction ns
  case nil => rfl
  case cons n ns hi =>
    rw [List.pairwise_cons] at h
    rw [comparePairs, Checker.bind_ok]
    exact ⟨⟨⟩, Checker.forM_ok.mpr h.left, hi h.right⟩

end SafetyInvariants

/-! ### The checks of a run -/

-- The nodes that are up, in the order in which an iterator yields them.
def Simulator.listed {H : BinaryHeap} (sim : Simulator H) (order : KeyOrder) : Nodes where
  list  := (order.keys sim.nodes.keys).filterMap fun id => (sim.nodes.lookup id).map (id, ·)
  nodup := by
    rw [List.map_filterMap]
    refine (order.nodup_keys _).filterMap fun id id' key hk hk' => ?_
    simp only [Option.map_map, Option.mem_def, Option.map_eq_some_iff, Function.comp_apply] at hk hk'
    obtain ⟨⟨_, _, rfl⟩, ⟨_, _, h⟩⟩ := hk, hk'
    exact h.symm

theorem Simulator.mem_listed {H : BinaryHeap} {sim : Simulator H} {order : KeyOrder} {p : NodeId × RaftNode}
    (h : p ∈ (sim.listed order).list) : sim.nodes.lookup p.1 = some p.2 := by
  obtain ⟨id, _, h⟩ := List.mem_filterMap.mp h
  obtain ⟨node, hn, rfl⟩ := Option.map_eq_some_iff.mp h
  exact hn

-- The simulator with its checker.
structure Harness (H : BinaryHeap) where
  sim        : Simulator H
  invariants : SafetyInvariants

namespace Harness

variable {H : BinaryHeap}

-- `step` verifies the nodes in the end. Nobody goes on after an `Err`.
def exec (orders : Simulator.Orders) (checks : KeyOrder) (h : Harness H) (call : Simulator.Call) :
    Option (Except String (Harness H)) := do
  let sim ← h.sim.exec orders call
  match call with
  | .step => some <| (h.invariants.verifySafety (sim.listed checks)).map ({ sim, invariants := · })
  | _     => some <| .ok { h with sim }

def system (sim : Simulator H) :
    TransitionSystem (Harness H) (Simulator.Orders × KeyOrder × Simulator.Call) where
  init     := { sim, invariants := .new }
  step h e := (h.exec e.1 e.2.1 e.2.2).bind Except.toOption

variable {C : Cluster} {h h' : Harness H} {s : Cluster.State} {sim : Simulator H}

open SafetyInvariants

-- The simulator runs the cluster, and the checker has only seen leaders that have been elected there.
structure Watches (C : Cluster) (h : Harness H) (s : Cluster.State) : Prop where
  embeds  : h.sim.Embeds C s
  recalls : h.invariants.Recalls s.elections

theorem checkElectionSafety_accepts {inv : SafetyInvariants} (order : KeyOrder) (hr : inv.Recalls s.elections)
    (r : C.system.Reachable (fun s e => s.compactsWithin e) s) (he : sim.Embeds C s) :
    ∃ inv', inv.checkElectionSafety (sim.listed order) = .ok inv' ∧ inv'.Recalls s.elections := by
  have hvotes := (Cluster.voteLayer C _).invariant r
  refine Checker.foldlM_accepts (fun node hn inv hr => ?_) hr
  obtain ⟨p, hp, rfl⟩ := List.mem_map.mp hn
  obtain ⟨hid, hnode⟩ := he.nodes p.1 p.2 (Simulator.mem_listed hp)
  refine checkLeader_accepts hr (fun e he e' he' => hvotes.world.election_unique he he') fun hrole => ?_
  have hkept := hvotes.memory p.1 hid
  have hnid : p.2.id = p.1 := hnode ▸ hkept.id_eq
  rw [hnid, ← hnode]
  exact hkept.elected (hnode ▸ hrole)

theorem checkLogMatching_accepts (inv : SafetyInvariants) (order : KeyOrder)
    (r : C.system.Reachable (fun s e => s.compactsWithin e) s) (he : sim.Embeds C s) :
    inv.checkLogMatching (sim.listed order) = (.ok ⟨⟩ : Except String PUnit.{1}) := by
  refine comparePairs_accepts ?_
  have hnodup := (sim.listed order).nodup
  rw [List.Nodup, List.pairwise_map] at hnodup
  rw [Nodes.values, List.pairwise_map]
  refine hnodup.imp_of_mem fun {p₁ p₂} hp₁ hp₂ hne => ?_
  obtain ⟨hid₁, hn₁⟩ := he.nodes p₁.1 p₁.2 (Simulator.mem_listed hp₁)
  obtain ⟨hid₂, hn₂⟩ := he.nodes p₂.1 p₂.2 (Simulator.mem_listed hp₂)
  have hcard : 1 < C.members.card := Finset.one_lt_card.mpr ⟨p₁.1, hid₁, p₂.1, hid₂, hne⟩
  rw [← hn₁, ← hn₂]
  refine compareLogs_accepts (Cluster.contiguous_log r hid₁) (Cluster.contiguous_log r hid₂)
    fun e₁ he₁ e₂ he₂ hi ht => ?_
  have hhas₁ : s.Has C e₁ := .inl ⟨p₁.1, hid₁, .inl he₁⟩
  have hhas₂ : s.Has C e₂ := .inl ⟨p₂.1, hid₂, .inl he₂⟩
  exact hhas₁.unique hhas₂ hcard r hi ht

-- Two of the checks pass, and so the third one decides.
theorem verifySafety_eq {inv : SafetyInvariants} (order : KeyOrder) (hr : inv.Recalls s.elections)
    (r : C.system.Reachable (fun s e => s.compactsWithin e) s) (he : sim.Embeds C s) :
    ∃ inv', inv.checkElectionSafety (sim.listed order) = .ok inv' ∧ inv'.Recalls s.elections ∧
      inv.verifySafety (sim.listed order) = inv'.checkStateMachineSafety (sim.listed order) := by
  obtain ⟨inv', hel, hr'⟩ := checkElectionSafety_accepts order hr r he
  refine ⟨inv', hel, hr', ?_⟩
  have hmatch := checkLogMatching_accepts inv' order r he
  simp [verifySafety, hel, hmatch, checkLeaderAppendOnly, bind, Except.bind]

theorem followed_exec (e : Simulator.Orders × KeyOrder × Simulator.Call) :
    C.system.Follows Simulator.compacts Simulator.compacts (Watches C (H := H))
      fun h => (h.exec e.1 e.2.1 e.2.2).bind Except.toOption where
  run {h h' s} r hw hs := by
    obtain ⟨res, hexec, hres⟩ := Option.bind_eq_some_iff.mp hs
    obtain ⟨sim, hsim, hexec⟩ := Option.bind_eq_some_iff.mp hexec
    obtain ⟨s', hleads, he⟩ := (Simulator.embeds_exec e.1 e.2.2).run r hw.embeds hsim
    have hrecalls : h.invariants.Recalls s'.elections := fun T l hl =>
      (hw.recalls T l hl).imp fun _ => .imp_left (Cluster.goingOn_elections hleads ·)
    refine ⟨s', hleads, ?_⟩
    split at hexec
    case h_2 =>
      cases hexec
      cases hres
      exact ⟨he, hrecalls⟩
    case h_1 =>
      cases hexec
      have r' := (r.goOn hleads fun _ _ hg => hg).mono fun _ _ => And.left
      obtain ⟨inv, _, hrecalls', heq⟩ := verifySafety_eq e.2.1 hrecalls r' he
      rw [heq] at hres
      cases hcheck : inv.checkStateMachineSafety (sim.listed e.2.1)
      case error =>
        simp [hcheck, Except.map, Except.toOption] at hres
      case ok inv' =>
        simp only [hcheck, Except.map, Except.toOption, Option.some.injEq] at hres
        subst hres
        refine ⟨he, fun T l hl => hrecalls' T l ?_⟩
        rwa [← checkStateMachineSafety_termLeaders hcheck]

-- The checks of election safety and log matching pass in every run of the harness: an error of `step` is
-- always one of the check of state machine safety.
theorem error_of_stateMachines {seedFromU64 : ℕ → SmallRng} {seed numNodes : ℕ}
    {sim₀ : Simulator H} (hn : 0 < numNodes) (hs : Simulator.new seedFromU64 H seed numNodes = some sim₀)
    (r : (system sim₀).Reachable (fun _ _ => True) h) {orders : Simulator.Orders}
    (hstep : h.sim.exec orders .step = some sim) (order : KeyOrder) :
    ∃ inv, h.invariants.checkElectionSafety (sim.listed order) = .ok inv ∧
      inv.checkLogMatching (sim.listed order) = (.ok ⟨⟩ : Except String PUnit.{1}) ∧
      h.invariants.verifySafety (sim.listed order) = inv.checkStateMachineSafety (sim.listed order) := by
  let C := Simulator.cluster seedFromU64 seed hn
  obtain ⟨s₀, r₀, he₀⟩ := Simulator.embeds_new H hn hs
  have hinit : Watches C (system sim₀).init s₀ :=
    ⟨he₀, fun T l hl => by simp [system, SafetyInvariants.new] at hl⟩
  obtain ⟨s, hleads, hw⟩ := TransitionSystem.Follows.reachable (fun _ _ h => h)
    (fun _ e _ => followed_exec e) r₀ hinit r
  have rs := r₀.goOn hleads fun _ _ h => h
  obtain ⟨s', hleads, he⟩ := (Simulator.embeds_exec orders .step).run rs hw.embeds hstep
  have hrecalls : h.invariants.Recalls s'.elections := fun T l hl =>
    (hw.recalls T l hl).imp fun _ => .imp_left (Cluster.goingOn_elections hleads ·)
  have r' := (rs.goOn hleads fun _ _ hg => hg).mono fun _ _ => And.left
  obtain ⟨inv, hel, _, heq⟩ := verifySafety_eq order hrecalls r' he
  exact ⟨inv, hel, checkLogMatching_accepts inv order r' he, heq⟩

-- Node 1 has been elected and is on record.
theorem error_of_stateMachines_three :
    ∃ (h : Harness .sorted) (sim : Simulator .sorted) (inv : SafetyInvariants),
    h.invariants.termLeaders 1 = some 1 ∧ h.sim.exec Simulator.leadersFirst .step = some sim ∧
    h.invariants.verifySafety (sim.listed Simulator.leadersFirst.ticks) =
      inv.checkStateMachineSafety (sim.listed Simulator.leadersFirst.ticks) := by
  have hrun : ((Simulator.new Simulator.countFrom .sorted 0 3).bind fun sim₀ =>
      ((system sim₀).run (fun _ _ => True) (system sim₀).init <|
        (Simulator.leadersFirst, Simulator.leadersFirst.ticks, .setMaxDelayTicks 0) ::
          .replicate 25 (Simulator.leadersFirst, Simulator.leadersFirst.ticks, .step)).bind fun h =>
      (h.sim.exec Simulator.leadersFirst .step).map fun _ => h.invariants.termLeaders 1) = some (some 1) := by
    decide +kernel
  obtain ⟨sim₀, hnew, hrun⟩ := Option.bind_eq_some_iff.mp hrun
  obtain ⟨h, hrun, hstep⟩ := Option.bind_eq_some_iff.mp hrun
  obtain ⟨sim, hstep, hleader⟩ := Option.map_eq_some_iff.mp hstep
  obtain ⟨inv, _, _, heq⟩ :=
    error_of_stateMachines (by decide) hnew (.run .init hrun) hstep Simulator.leadersFirst.ticks
  exact ⟨h, sim, inv, hleader, hstep, heq⟩

end Harness
end RaftRupee
