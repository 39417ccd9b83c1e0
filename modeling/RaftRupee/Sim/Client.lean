import RaftRupee.Sim.Sync

namespace RaftRupee

-- A log finds an entry that is appended to it at the position after its last one.
theorem RaftLog.termAt_append_one {log : RaftLog} {e : LogEntry} {i t : ℕ} :
    (log.append [e]).termAt i = some t ↔
      log.termAt i = some t ∨ i = log.firstIndex + log.entries.length ∧ e.term = t := by
  have hfirst : (log.append [e]).firstIndex = log.firstIndex := rfl
  have hentries : (log.append [e]).entries = log.entries ++ [e] := rfl
  have hpos : 0 < log.entries.length := Nat.succ_pos _
  simp only [termAt, entryAt, hfirst, hentries]
  rcases Nat.lt_or_ge i log.firstIndex with hlt | hge
  case inl =>
    have hne : i ≠ log.firstIndex + log.entries.length := by omega
    simp [hlt, hne]
  case inr =>
    rw [if_neg (by omega), if_neg (by omega)]
    rcases Nat.lt_trichotomy (i - log.firstIndex) log.entries.length with h | h | h
    · have hne : i ≠ log.firstIndex + log.entries.length := by omega
      simp [List.getElem?_append_left h, hne]
    · have heq : i = log.firstIndex + log.entries.length := by omega
      simp [heq]
    · have hne : i ≠ log.firstIndex + log.entries.length := by omega
      rw [List.getElem?_eq_none (by simp; omega), List.getElem?_eq_none h.le]
      simp [hne]

namespace RaftNode

variable {node : RaftNode} {sender : NodeId} {command : Command}

-- A leader without peers commits up to the end of its log if the log finds an entry of its term there.
theorem lastIndex_le_newCommit_iff (h : node.peers = []) (hl : node.commitIndex < node.log.lastIndex) :
    node.log.lastIndex ≤ node.newCommit ↔
      node.log.termAt node.log.lastIndex = some node.currentTerm := by
  constructor
  case mp =>
    intro hle
    obtain ⟨hge, hterm, _⟩ := newCommit_spec (hl.trans_le hle)
    rwa [hge.antisymm hle] at hterm
  case mpr =>
    intro hterm
    obtain ⟨n, hn⟩ : ∃ n, node.log.lastIndex = node.commitIndex + n + 1 :=
      ⟨node.log.lastIndex - node.commitIndex - 1, by omega⟩
    rw [newCommit, show node.log.lastIndex - node.commitIndex = n + 1 by omega, List.range'_concat,
      List.foldl_append]
    simp only [List.foldl_cons, List.foldl_nil]
    rw [show node.commitIndex + 1 + 1 * n = node.log.lastIndex by omega]
    simp [hterm, replicaCount, majority, h]

-- The log has an entry of the node's term where it looks for the one that comes next, or will have it
-- there when it is appended. A log without gaps will.
def FindsNext (node : RaftNode) : Prop :=
  node.log.firstIndex + node.log.entries.length = node.log.lastIndex + 1 ∨
    node.log.termAt (node.log.lastIndex + 1) = some node.currentTerm

instance (node : RaftNode) : Decidable node.FindsNext :=
  inferInstanceAs (Decidable (_ ∨ _))

-- When a proposal is committed at once.
theorem propose_commits_iff (command : Command) (hr : node.role = .leader) :
    node.log.lastIndex + 1 ≤ (node.propose command).1.commitIndex ↔
      node.log.lastIndex < node.commitIndex ∨ node.peers = [] ∧ node.FindsNext := by
  let entry : LogEntry := ⟨node.log.lastIndex + 1, node.currentTerm, command⟩
  let node' : RaftNode := { node with log := node.log.append [entry] }
  have hlast : node'.log.lastIndex = node.log.lastIndex + 1 := by
    simp [node', RaftLog.lastIndex, RaftLog.last, RaftLog.append, entry]
  have hfinds : node'.log.termAt node'.log.lastIndex = some node'.currentTerm ↔ node.FindsNext := by
    rw [hlast]
    refine RaftLog.termAt_append_one.trans ?_
    simp only [entry, node', FindsNext, and_true]
    rw [or_comm, eq_comm]
  unfold propose
  rw [if_neg (not_not.mpr hr)]
  by_cases hp : node.peers = []
  case neg =>
    simp only [hp, List.isEmpty_iff, if_false, false_and, or_false]
    exact Nat.succ_le_iff
  case pos =>
    have hpe : node.peers.isEmpty = true := List.isEmpty_iff.mpr hp
    rw [and_iff_right hp]
    simp only [hpe, if_true]
    change _ ≤ node'.maybeAdvanceCommitIndex.1.commitIndex ↔ _
    rw [maybeAdvanceCommitIndex_commitIndex, ← hlast, le_max_iff]
    change node'.log.lastIndex ≤ node.commitIndex ∨ _ ↔ _
    rcases Nat.lt_or_ge node.log.lastIndex node.commitIndex with h | h
    case inl => simp [h, hlast, Nat.succ_le_of_lt h]
    case inr =>
      have hl : node'.commitIndex < node'.log.lastIndex := hlast.symm ▸ Nat.lt_succ_of_le h
      have hp' : node'.peers = [] := hp
      rw [lastIndex_le_newCommit_iff hp' hl, hfinds]
      simp [hlast, h.not_gt, show ¬node.log.lastIndex + 1 ≤ node.commitIndex by omega]

-- A proposal appends one entry, and does not write the log otherwise.
theorem propose_entry (command : Command) (hr : node.role = .leader) (es : List LogEntry) :
    .appendEntries es ∈ (node.propose command).2 ↔
      es = [⟨node.log.lastIndex + 1, node.currentTerm, command⟩] := by
  have hsends : ∀ node : RaftNode, .appendEntries es ∉ node.broadcastAppendEntries := by
    intro node h
    cases broadcast_replicates node _ h
  have hcommit : ∀ node : RaftNode, .appendEntries es ∉ node.maybeAdvanceCommitIndex.2 := by
    intro node h
    exact (maybeAdvanceCommitIndex_advances node).forall_mem (P := (· ≠ .appendEntries es))
      (by simp) _ h rfl
  unfold propose
  rw [if_neg (not_not.mpr hr)]
  dsimp only
  split <;> simp [hsends, hcommit]

end RaftNode

namespace Cluster

variable {C : Cluster} {s : State} {id client : NodeId} {term : ℕ} {command : Command}
variable {o : Outcome}

-- When the actions of a call reply success to a client, the entry that they append is committed.
def AcksCommitted (node : RaftNode) (actions : List Action) : Prop :=
  ∀ msg hint entry, .send msg ∈ actions → msg.kind = .clientResponse true hint →
    .appendEntries [entry] ∈ actions → entry.index ≤ node.commitIndex

-- This is so exactly if the leader is alone, with a log without gaps, or has a commit index beyond its log.
theorem acksCommitted_iff (h : s.call id (.request client term command) = some o) :
    AcksCommitted o.1 o.2 ↔ (s.nodes id).role ≠ .leader ∨
      (s.nodes id).log.lastIndex < (s.nodes id).commitIndex ∨
      (s.nodes id).peers = [] ∧ (s.nodes id).FindsNext := by
  obtain ⟨node, actions⟩ := o
  have hreq : (s.nodes id).handleClientRequest client command = (node, actions) := by
    simpa [State.call, RaftNode.step, MessageKind.isPreVote, MessageKind.isClient,
      RaftNode.dispatch] using h
  by_cases hr : (s.nodes id).role = .leader
  case neg =>
    rw [RaftNode.handleClientRequest, if_neg hr, Prod.mk.injEq] at hreq
    simp [AcksCommitted, hr, ← hreq.right, RaftNode.message]
  case pos =>
    rw [RaftNode.handleClientRequest, if_pos hr, Prod.mk.injEq] at hreq
    obtain ⟨rfl, rfl⟩ := hreq
    rw [← RaftNode.propose_commits_iff command hr]
    simp only [hr, ne_eq, not_true, false_or]
    constructor
    case mp =>
      intro h
      have hnew := (RaftNode.propose_entry command hr _).mpr rfl
      exact h _ _ _ (List.mem_append_right _ <| List.mem_singleton_self _) rfl
        (List.mem_append_left _ hnew)
    case mpr =>
      intro hle _ _ e _ _ he
      -- The entry of the command is the only one that is appended.
      rcases List.mem_append.mp he with he | he
      · cases (RaftNode.propose_entry command hr [e]).mp he
        exact hle
      · simp at he

-- A node that is alone acknowledges what it has committed. When a compaction that goes back has left it
-- with a gap in its log, it does not commit the entry.
theorem acksCommitted_one : ∃ s, ∃ r : Outcome, ∃ s', ∃ r' : Outcome,
    (ofSize 1 (by decide)).system.Reachable (fun s e => s.compactsWithin e) s ∧
      s.call 1 (.request 999 0 [7]) = some r ∧ AcksCommitted r.1 r.2 ∧
    (ofSize 1 (by decide)).system.Reachable (fun _ _ => True) s' ∧
      s'.call 1 (.request 999 0 [9]) = some r' ∧ ¬AcksCommitted r'.1 r'.2 := by
  have r := TransitionSystem.reachable_run (T := (ofSize 1 (by decide)).system)
    (fun s e => s.compactsWithin e) [.tick 1, .tick 1] (by decide +kernel)
  have r' := TransitionSystem.reachable_run (T := (ofSize 1 (by decide)).system) (fun _ _ => True)
    [.tick 1, .tick 1, .propose 1 [7], .propose 1 [8], .compact 1 2 1, .compact 1 1 1, .restart 1, .tick 1,
      .tick 1] (by decide +kernel)
  exact ⟨_, _, _, _, r, (Option.some_get (by decide +kernel)).symm,
    (acksCommitted_iff (Option.some_get (by decide +kernel)).symm).mpr (by decide +kernel), r',
    (Option.some_get (by decide +kernel)).symm,
    mt (acksCommitted_iff (Option.some_get (by decide +kernel)).symm).mp (by decide +kernel)⟩

-- The leader of two nodes replies before it has replicated the entry.
theorem not_acksCommitted : ∃ s, ∃ r : Outcome,
    (ofSize 2 (by decide)).system.Reachable (fun _ _ => True) s ∧
      s.call 1 (.request 999 0 [7]) = some r ∧ ¬AcksCommitted r.1 r.2 := by
  have r := TransitionSystem.reachable_run (T := (ofSize 2 (by decide)).system) (fun _ _ => True)
    [.tick 1, .tick 1, .deliver 2 0, .deliver 1 1, .deliver 2 2, .deliver 1 3] (by decide +kernel)
  refine ⟨_, _, r, (Option.some_get (by decide +kernel)).symm, fun h => ?_⟩
  have hle := h ⟨1, 999, 1, .clientResponse true (some 1)⟩ (some 1) ⟨2, 1, [7]⟩ (by decide +kernel) rfl
    (by decide +kernel)
  exact absurd hle (by decide +kernel)

end Cluster
end RaftRupee
