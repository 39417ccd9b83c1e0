import Mathlib.Data.List.TakeWhile
import RaftRupee.Core.Applying

namespace RaftRupee

variable {node : RaftNode} {msg : Message} {o : Outcome} {i t c term : ℕ} {es : List LogEntry}
variable {data : Command} {done : Bool}

-- What a log has to say about a probe that fails the consistency check: a conflicting term and an index.
def RaftLog.conflict (log : RaftLog) (prevLogIndex : ℕ) : Option ℕ × Option ℕ :=
  match log.termAt prevLogIndex with
  | none   => (none, some (log.lastIndex + 1))
  | some t => (some t, some (log.firstOfTerm t prevLogIndex))

-- Nothing beyond the commit index is applied.
theorem Applies.index_le {k k' : Kernel} {as : List Action} (h : Applies k k' as) :
    ∀ applied, .apply applied ∈ as → ∀ e ∈ applied, e.index ≤ k.commitIndex := by
  intro applied hm e he
  cases h
  case none => simp at hm
  case some hes _ =>
    rw [List.mem_singleton, Action.apply.injEq] at hm
    rw [hm, ← hes] at he
    simpa using List.mem_takeWhile_imp he

theorem Follows.index_le {k k' : Kernel} {as : List Action} (h : Follows k c k' as) :
    ∀ applied, .apply applied ∈ as → ∀ e ∈ applied, e.index ≤ k'.commitIndex := by
  cases h
  case none => simp
  case some ha =>
    rw [ha.eq]
    exact ha.index_le

namespace RaftNode

-- The node follows the sender of the message, in the term of the message.
structure Joins (node : RaftNode) (msg : Message) (follower : Outcome) : Prop where
  kernel_eq          : follower.1.kernel = { node.kernel with
    currentTerm := msg.term, role := .follower, votedFor := follower.1.votedFor }
  leaderId_eq        : follower.1.leaderId = some msg.sender
  electionElapsed_eq : follower.1.electionElapsed = 0
  actions_eq         : follower.2 =
    if node.currentTerm < msg.term then [.persistHardState msg.term none] else []

namespace Joins

variable {follower : Outcome} (h : Joins node msg follower)
include h

theorem currentTerm_eq : follower.1.currentTerm = msg.term :=
  congrArg Kernel.currentTerm h.kernel_eq

theorem log_eq : follower.1.log = node.log :=
  congrArg Kernel.log h.kernel_eq

theorem commitIndex_eq : follower.1.commitIndex = node.commitIndex :=
  congrArg Kernel.commitIndex h.kernel_eq

theorem no_send : ∀ a ∈ follower.2, ¬a.isSend := by
  rw [h.actions_eq]
  split <;> simp [Action.isSend]

end Joins

/-! ### Past the term -/

-- What `handle_append_entries` does once the node is a follower.
def receiveEntries (node : RaftNode) (sender : NodeId) (prevLogIndex : ℕ) (prevLogTerm : ℕ)
    (entries : List LogEntry) (leaderCommit : ℕ) : Option Outcome :=
  if node.log.termAt prevLogIndex = some prevLogTerm then do
    let (node, merge) ← node.mergeEntries entries
    let (node, commit) := node.followLeaderCommit leaderCommit
    some (node, merge ++ commit ++ [.send <| node.message sender <| .appendEntriesResponse true none none])
  else
    let conflict := node.log.conflict prevLogIndex
    some (node, [.send <| node.message sender <| .appendEntriesResponse false conflict.1 conflict.2])

-- And `handle_install_snapshot`.
def receiveSnapshot (node : RaftNode) (sender : NodeId) (lastIncludedIndex : ℕ) (lastIncludedTerm : ℕ)
    (data : Command) (done : Bool) : Outcome :=
  if node.commitIndex < lastIncludedIndex ∧ done then
    let node := { node with
      log         := node.log.installSnapshot { lastIncludedIndex, lastIncludedTerm }
      commitIndex := lastIncludedIndex
      lastApplied := lastIncludedIndex }
    (node, [.persistSnapshot lastIncludedIndex lastIncludedTerm data,
      .send <| node.message sender .installSnapshotResponse])
  else
    (node, [.send <| node.message sender .installSnapshotResponse])

theorem handleAppendEntries_of_le (sender : NodeId) (h : node.currentTerm ≤ term) :
    node.handleAppendEntries sender term i t es c =
      let follower := node.becomeFollower term (some sender)
      (follower.1.receiveEntries sender i t es c).map fun o => (o.1, follower.2 ++ o.2) := by
  unfold handleAppendEntries receiveEntries RaftLog.conflict
  rw [if_neg h.not_gt]
  generalize node.becomeFollower term (some sender) = follower
  obtain ⟨follower, down⟩ := follower
  dsimp only
  cases ht : follower.log.termAt i
  case none => simp
  case some t' =>
    by_cases htt : t' = t
    case neg => simp [htt]
    case pos =>
      simp only [htt, ne_eq, not_true, if_false, if_true]
      cases follower.mergeEntries es
      case none => rfl
      case some => simp [List.append_assoc]

theorem handleInstallSnapshot_of_le (sender : NodeId) (h : node.currentTerm ≤ term) :
    node.handleInstallSnapshot sender term i t data done =
      let follower := node.becomeFollower term (some sender)
      let o := follower.1.receiveSnapshot sender i t data done
      (o.1, follower.2 ++ o.2) := by
  unfold handleInstallSnapshot receiveSnapshot
  rw [if_neg h.not_gt]
  generalize node.becomeFollower term (some sender) = follower
  obtain ⟨follower, down⟩ := follower
  dsimp only
  rcases Nat.lt_or_ge follower.commitIndex i with hi | hi
  · rw [if_neg hi.not_ge]
    cases done <;> simp [hi]
  · simp [hi, hi.not_gt]

-- Within a term, and after the term gate has raised it.
theorem becomeFollower_joins (h : msg.term = node.currentTerm) :
    Joins node msg (node.becomeFollower msg.term (some msg.sender)) := by
  constructor <;> simp [becomeFollower, resetElectionTimer, kernel, h]

theorem becomeFollower_joins_later (h : node.currentTerm < msg.term) :
    let later := node.becomeFollower msg.term none
    let follower := later.1.becomeFollower msg.term (some msg.sender)
    Joins node msg (follower.1, .persistHardState msg.term none :: follower.2) := by
  rw [becomeFollower_of_lt none h]
  constructor <;> simp [becomeFollower, resetElectionTimer, kernel, h]

-- A message of a leader that is not of an earlier term reaches a follower of its sender.
theorem step_joins (hp : msg.kind.isPreVote = false) (hq : msg.kind.isClient = false)
    (ht : node.currentTerm ≤ msg.term) : ∃ (later : RaftNode) (down : List Action),
      later.currentTerm ≤ msg.term ∧
      Joins node msg ((later.becomeFollower msg.term (some msg.sender)).1,
        down ++ (later.becomeFollower msg.term (some msg.sender)).2) ∧
      node.step msg = (later.dispatch msg).map fun o => (o.1, down ++ o.2) := by
  rcases ht.eq_or_lt with he | hlt
  case inl =>
    refine ⟨node, [], ht, becomeFollower_joins he.symm, ?_⟩
    simp [step_of_term he.symm]
  case inr =>
    have hle := (node.becomeFollower_currentTerm msg.term none).le
    exact ⟨_, [.persistHardState msg.term none], hle, becomeFollower_joins_later hlt,
      step_of_later hp hq hlt⟩

theorem step_appendEntries (hk : msg.kind = .appendEntries i t es c) (ht : node.currentTerm ≤ msg.term) :
    ∃ follower, Joins node msg follower ∧ node.step msg =
      (follower.1.receiveEntries msg.sender i t es c).map fun o => (o.1, follower.2 ++ o.2) := by
  obtain ⟨later, down, hle, hj, hstep⟩ := step_joins (by rw [hk]; rfl) (by rw [hk]; rfl) ht
  refine ⟨_, hj, ?_⟩
  rw [hstep, dispatch, hk]
  dsimp only
  rw [handleAppendEntries_of_le msg.sender hle, Option.map_map]
  simp [Function.comp_def]

theorem step_installSnapshot {offset : ℕ} (hk : msg.kind = .installSnapshot i t offset data done)
    (ht : node.currentTerm ≤ msg.term) : ∃ follower, Joins node msg follower ∧ node.step msg =
      let o := follower.1.receiveSnapshot msg.sender i t data done
      some (o.1, follower.2 ++ o.2) := by
  obtain ⟨later, down, hle, hj, hstep⟩ := step_joins (by rw [hk]; rfl) (by rw [hk]; rfl) ht
  refine ⟨_, hj, ?_⟩
  rw [hstep, dispatch, hk]
  dsimp only
  rw [handleInstallSnapshot_of_le msg.sender hle]
  simp

theorem step_takes {offset : ℕ} (hk : msg.kind = .installSnapshot i t offset data true)
    (ht : node.currentTerm ≤ msg.term) (hi : node.commitIndex < i) :
    ∃ o, node.step msg = some o ∧ .persistSnapshot i t data ∈ o.2 := by
  obtain ⟨follower, hj, hstep⟩ := step_installSnapshot hk ht
  have hcommit : follower.1.commitIndex = node.commitIndex := congrArg Kernel.commitIndex hj.kernel_eq
  refine ⟨_, hstep, List.mem_append_right _ ?_⟩
  simp [receiveSnapshot, hcommit, hi]

/-! ### Nothing but the log -/

-- The node has changed its log, and the indices into it, at most.
structure LogOnly (node node' : RaftNode) : Prop where
  eq : node' =
    { node with log := node'.log, commitIndex := node'.commitIndex, lastApplied := node'.lastApplied }

namespace LogOnly

variable {node' node'' : RaftNode}

theorem trans (h : LogOnly node node') (h' : LogOnly node' node'') : LogOnly node node'' := by
  constructor
  rw [h'.eq, h.eq]

theorem peers_eq (h : LogOnly node node') : node'.peers = node.peers := by
  rw [h.eq]

theorem currentTerm_eq (h : LogOnly node node') : node'.currentTerm = node.currentTerm := by
  rw [h.eq]

theorem role_eq (h : LogOnly node node') : node'.role = node.role := by
  rw [h.eq]

theorem nextIndex_eq (h : LogOnly node node') : node'.nextIndex = node.nextIndex := by
  rw [h.eq]

theorem matchIndex_eq (h : LogOnly node node') : node'.matchIndex = node.matchIndex := by
  rw [h.eq]

theorem leaderId_eq (h : LogOnly node node') : node'.leaderId = node.leaderId := by
  rw [h.eq]

theorem electionElapsed_eq (h : LogOnly node node') : node'.electionElapsed = node.electionElapsed := by
  rw [h.eq]

end LogOnly

theorem applyCommittedEntries_logOnly (node : RaftNode) : LogOnly node node.applyCommittedEntries.1 := by
  unfold applyCommittedEntries
  split
  case isFalse => exact ⟨rfl⟩
  case isTrue  =>
    dsimp only
    split <;> exact ⟨rfl⟩

theorem maybeAdvanceCommitIndex_logOnly (node : RaftNode) :
    LogOnly node node.maybeAdvanceCommitIndex.1 := by
  unfold maybeAdvanceCommitIndex
  split
  case isFalse => exact ⟨rfl⟩
  case isTrue  =>
    have h := applyCommittedEntries_logOnly { node with commitIndex := node.newCommit }
    exact LogOnly.trans ⟨rfl⟩ h

theorem followLeaderCommit_logOnly (node : RaftNode) (leaderCommit : ℕ) :
    LogOnly node (node.followLeaderCommit leaderCommit).1 := by
  unfold followLeaderCommit
  dsimp only
  split
  case isFalse => exact ⟨rfl⟩
  case isTrue  =>
    have h := applyCommittedEntries_logOnly
      { node with commitIndex := min leaderCommit node.log.lastIndex }
    exact LogOnly.trans ⟨rfl⟩ h

theorem receiveEntries_logOnly {sender : NodeId} (h : node.receiveEntries sender i t es c = some o) :
    LogOnly node o.1 := by
  unfold receiveEntries at h
  split at h
  case isFalse =>
    cases h
    exact ⟨rfl⟩
  case isTrue  =>
    obtain ⟨merged, hm, h⟩ := Option.bind_eq_some_iff.mp h
    obtain ⟨log, hlog, _⟩ := mergeEntries_merges hm
    cases h
    exact LogOnly.trans ⟨by rw [hlog]⟩ <| followLeaderCommit_logOnly merged.1 c

theorem receiveSnapshot_logOnly (node : RaftNode) (sender : NodeId) (i t : ℕ) (data : Command)
    (done : Bool) :
    LogOnly node (node.receiveSnapshot sender i t data done).1 := by
  unfold receiveSnapshot
  split <;> exact ⟨rfl⟩

/-! ### What a follower accepts -/

theorem followLeaderCommit_commitIndex (node : RaftNode) (leaderCommit : ℕ) :
    (node.followLeaderCommit leaderCommit).1.commitIndex =
      max node.commitIndex (min leaderCommit node.log.lastIndex) := by
  unfold followLeaderCommit
  dsimp only
  split
  · rw [applyCommittedEntries_commitIndex]
    simp only
    omega
  · simp only
    omega

-- The entries of a message that has passed the consistency check are merged, and the commit index
-- follows the leader's as far as the log reaches.
structure Accepts (node : RaftNode) (sender : NodeId) (es : List LogEntry) (c : ℕ) (o : Outcome) :
    Prop where
  merges         : ∃ merge, Merges node.log es o.1.log merge
  commitIndex_eq : o.1.commitIndex = max node.commitIndex (min c o.1.log.lastIndex)
  currentTerm_eq : o.1.currentTerm = node.currentTerm
  applies        : ∀ applied, .apply applied ∈ o.2 → ∀ e ∈ applied, e.index ≤ o.1.commitIndex
  sends          : o.2.filter (·.isSend) =
    [.send <| o.1.message sender <| .appendEntriesResponse true none none]

-- In terms of the node before it became a follower.
theorem Accepts.joined {sender : NodeId} {follower accepted : Outcome}
    (h : Accepts follower.1 sender es c accepted) (hj : Joins node msg follower) :
    (∃ merge, Merges node.log es accepted.1.log merge) ∧
      accepted.1.commitIndex = max node.commitIndex (min c accepted.1.log.lastIndex) :=
  ⟨hj.log_eq ▸ h.merges, hj.commitIndex_eq ▸ h.commitIndex_eq⟩

theorem receiveEntries_of_merge {merged : Outcome} (sender : NodeId) (c : ℕ)
    (ht : node.log.termAt i = some t) (hm : node.mergeEntries es = some merged) :
    node.receiveEntries sender i t es c =
      let commit := merged.1.followLeaderCommit c
      some (commit.1, merged.2 ++ commit.2 ++
        [.send <| commit.1.message sender <| .appendEntriesResponse true none none]) := by
  simp [receiveEntries, ht, hm]

theorem receiveEntries_accepts (sender : NodeId) (c : ℕ) (hc : node.log.Contiguous)
    (ht : node.log.termAt i = some t) (he : Consecutive (i + 1) es) :
    ∃ o, node.receiveEntries sender i t es c = some o ∧ Accepts node sender es c o := by
  obtain ⟨⟨merged, merge⟩, hm⟩ := Option.isSome_iff_exists.mp <| mergeEntries_isSome hc ht he
  obtain ⟨log, hmerged, hmerges⟩ := mergeEntries_merges hm
  have hmerged : merged = { node with log } := hmerged
  have hfollows := followLeaderCommit_follows merged c
  have hlog : (merged.followLeaderCommit c).1.log = log :=
    hfollows.log_eq.trans <| congrArg RaftNode.log hmerged
  have hterm : merged.currentTerm = node.currentTerm := by rw [hmerged]
  have hterm : (merged.followLeaderCommit c).1.currentTerm = node.currentTerm :=
    (congrArg Kernel.currentTerm hfollows.eq).trans hterm
  have hquiet : ∀ a ∈ merge, ¬a.isSend ∧ ∀ applied, a ≠ .apply applied := by
    cases hmerges <;> simp [Action.isSend]
  refine ⟨_, receiveEntries_of_merge sender c ht hm, ⟨merge, hlog ▸ hmerges⟩, ?_, hterm, ?_, ?_⟩
  case refine_1 =>
    rw [followLeaderCommit_commitIndex, hlog, hmerged]
  case refine_2 =>
    intro applied hm e he
    simp only [List.mem_append, List.mem_singleton, reduceCtorEq, or_false] at hm
    rcases hm with hm | hm
    · exact absurd rfl <| (hquiet _ hm).right applied
    · exact hfollows.index_le applied hm e he
  case refine_3 =>
    have hsilent : ∀ a ∈ (merged.followLeaderCommit c).2, ¬a.isSend :=
      hfollows.forall_mem <| by simp [Action.isSend]
    rw [List.filter_append, List.filter_append, List.filter_eq_nil_iff.mpr fun a ha => (hquiet a ha).left,
      List.filter_eq_nil_iff.mpr hsilent]
    rfl

theorem receiveEntries_rejects (sender : NodeId) (es : List LogEntry) (c : ℕ)
    (ht : node.log.termAt i ≠ some t) :
    node.receiveEntries sender i t es c = some (node, [.send <| node.message sender <|
      .appendEntriesResponse false (node.log.conflict i).1 (node.log.conflict i).2]) :=
  if_neg ht

-- What becomes of the entries of a leader, for a log and entries without gaps.
inductive Receives (node : RaftNode) (msg : Message) (i t : ℕ) (es : List LogEntry) (c : ℕ) (o : Outcome) :
    Prop
  | accept {follower accepted : Outcome} :
    node.log.termAt i = some t → Joins node msg follower →
    Accepts follower.1 msg.sender es c accepted → o = (accepted.1, follower.2 ++ accepted.2) →
    Receives node msg i t es c o
  | reject {follower : Outcome} :
    node.log.termAt i ≠ some t → Joins node msg follower →
    o = (follower.1, follower.2 ++ [.send <| follower.1.message msg.sender <|
      .appendEntriesResponse false (node.log.conflict i).1 (node.log.conflict i).2]) →
    Receives node msg i t es c o

theorem step_receives (hk : msg.kind = .appendEntries i t es c) (ht : node.currentTerm ≤ msg.term)
    (hc : node.log.Contiguous) (he : Consecutive (i + 1) es) :
    ∃ o, node.step msg = some o ∧ Receives node msg i t es c o := by
  obtain ⟨follower, hj, hstep⟩ := step_appendEntries hk ht
  by_cases hterm : node.log.termAt i = some t
  case pos =>
    have hlog := hj.log_eq
    obtain ⟨accepted, ha, haccepts⟩ :=
      receiveEntries_accepts msg.sender c (hlog ▸ hc) (hlog ▸ hterm) he
    exact ⟨_, by rw [hstep, ha]; rfl, .accept hterm hj haccepts rfl⟩
  case neg =>
    have hlog := hj.log_eq
    have hr := receiveEntries_rejects msg.sender es c (hlog ▸ hterm)
    exact ⟨_, by rw [hstep, hr, hlog]; rfl, .reject hterm hj rfl⟩

end RaftNode

/-! ### Committing what is verified -/

-- The log holds all the entries of a message.
def RaftLog.HoldsAll (log : RaftLog) (es : List LogEntry) : Prop :=
  ∀ e ∈ es, log.termAt e.index = some e.term

-- A merge leaves such a log alone, and otherwise makes it end with the message.
theorem Merges.ends {log log' : RaftLog} {merge : List Action} (h : Merges log es log' merge)
    (hc : log.Contiguous) (ht : log.termAt i = some t) (he : Consecutive (i + 1) es) :
    log.HoldsAll es ∧ log' = log ∨ ¬log.HoldsAll es ∧ log'.lastIndex = i + es.length := by
  rcases h.spec he with ⟨hlog, _, hheld⟩ | ⟨n, hn, _, htrunc, hheld, hne⟩
  case inl =>
    refine .inl ⟨fun e hm => ?_, hlog⟩
    obtain ⟨j, hj⟩ := List.mem_iff_getElem?.mp hm
    have hlt := (List.getElem?_eq_some_iff.mp hj).choose
    simpa [hj, he.index_eq hj] using hheld j hlt
  case inr =>
    refine .inr ⟨fun hholds => hne ?_, ?_⟩
    · have hj := List.getElem?_eq_getElem hn
      simpa [hj, he.index_eq hj] using hholds _ (List.getElem_mem hn)
    · have hle := hc.attach_le ht hn.le hheld
      have hlast := (hc.truncateAndAppend (by omega) (he.drop n) htrunc).right.right
      rw [List.length_drop] at hlast
      omega

namespace RaftNode

-- A call commits and applies nothing beyond index `n` that was not committed before.
structure CommitsUpTo (node : RaftNode) (n : ℕ) (o : Outcome) : Prop where
  commitIndex_le : o.1.commitIndex ≤ max node.commitIndex n
  index_le       : ∀ applied, .apply applied ∈ o.2 → ∀ e ∈ applied, e.index ≤ max node.commitIndex n

-- The commit index follows the leader's up to the end of the log, which is past the end of the message
-- when the log holds all of its entries and more.
theorem commits_verified_iff (hk : msg.kind = .appendEntries i t es c) (ht : node.currentTerm ≤ msg.term)
    (hc : node.log.Contiguous) (he : Consecutive (i + 1) es) :
    (∃ o, node.step msg = some o ∧ CommitsUpTo node (i + es.length) o) ↔
      ¬(node.log.termAt i = some t ∧ node.log.HoldsAll es ∧
        max node.commitIndex (i + es.length) < min c node.log.lastIndex) := by
  obtain ⟨o, hstep, hr⟩ := step_receives hk ht hc he
  have hiff : (∃ o, node.step msg = some o ∧ CommitsUpTo node (i + es.length) o) ↔
      CommitsUpTo node (i + es.length) o := by
    rw [hstep]
    simp
  rw [hiff]
  cases hr
  case reject follower hterm hj ho =>
    refine iff_of_true ⟨?_, ?_⟩ fun h => hterm h.left
    · rw [ho]
      exact hj.commitIndex_eq.trans_le <| le_max_left ..
    · rw [ho, hj.actions_eq]
      split <;> simp
  case accept follower accepted hterm hj ha ho =>
    obtain ⟨⟨merge, hm⟩, hcommit⟩ := ha.joined hj
    have hle : CommitsUpTo node (i + es.length) o ↔
        accepted.1.commitIndex ≤ max node.commitIndex (i + es.length) := by
      subst ho
      refine ⟨fun h => h.commitIndex_le, fun h => ⟨h, fun applied hmem e hin => ?_⟩⟩
      rw [List.mem_append, hj.actions_eq] at hmem
      refine (ha.applies applied (hmem.resolve_left ?_) e hin).trans h
      split <;> simp
    rw [hle]
    rcases hm.ends hc hterm he with ⟨hholds, hlog⟩ | ⟨hholds, hlast⟩
    · rw [hlog] at hcommit
      simp only [hterm, hholds, true_and]
      omega
    · refine iff_of_true (by omega) fun h => hholds h.right.left

-- A first entry is committed as soon as it has arrived.
theorem commits_verified_iff_first : ∃ o,
    fresh.step ⟨2, 1, 1, .appendEntries 0 0 [⟨1, 1, []⟩] 1⟩ = some o ∧ CommitsUpTo fresh 1 o := by
  refine (@commits_verified_iff fresh ⟨2, 1, 1, .appendEntries 0 0 [⟨1, 1, []⟩] 1⟩ 0 0 1 [⟨1, 1, []⟩]
    rfl (by decide) trivial ⟨rfl, trivial⟩).mpr ?_
  rintro ⟨_, _, h⟩
  exact absurd h (by decide)

-- A follower that has two entries of the leader of term 1, none of them known to be committed.
def extended : RaftNode :=
  { (fresh.becomeFollower 1 (some 2)).1 with log := fresh.log.append [⟨1, 1, []⟩, ⟨2, 1, []⟩] }

-- An empty heartbeat of a later leader commits both, although it has verified nothing but the base.
theorem not_commits_verified : (fresh.step ⟨2, 1, 1, .appendEntries 0 0 [⟨1, 1, []⟩, ⟨2, 1, []⟩] 0⟩).map
      (·.1) = some extended ∧
    ∃ o, extended.step ⟨3, 1, 2, .appendEntries 0 0 [] 2⟩ = some o ∧ o.1.commitIndex = 2 ∧
      ¬CommitsUpTo extended 0 o := by
  refine ⟨rfl, _, rfl, rfl, fun h => ?_⟩
  exact absurd h.commitIndex_le (by decide)

/-! ### Installing a snapshot -/

-- A snapshot up to index `i` in term `t` keeps the entries that follow it, if the log holds an entry of
-- term `t` at index `i`, and replaces the log otherwise.
structure Installs (node : RaftNode) (i t : ℕ) (o : Outcome) : Prop where
  suffix         : node.log.termAt i = some t → ∀ j e, i < j → node.log.entryAt j = some e →
    o.1.log.entryAt j = some e
  replaced       : node.log.termAt i ≠ some t →
    o.1.log = { sentinel := { index := i, term := t, command := [] }, rest := [] }
  commitIndex_eq : o.1.commitIndex = i
  lastApplied_eq : o.1.lastApplied = i

-- The log is cleared in any case.
theorem step_installs {offset : ℕ} (hk : msg.kind = .installSnapshot i t offset data true)
    (ht : node.currentTerm ≤ msg.term) (hi : node.commitIndex < i) : ∃ o, node.step msg = some o ∧
      o.1.log = { sentinel := { index := i, term := t, command := [] }, rest := [] } ∧
      o.1.commitIndex = i ∧ o.1.lastApplied = i := by
  obtain ⟨follower, hj, hstep⟩ := step_installSnapshot hk ht
  rw [← hj.commitIndex_eq] at hi
  refine ⟨_, hstep, ?_⟩
  simp [receiveSnapshot, hi, RaftLog.installSnapshot]

theorem installs_iff {offset : ℕ} (hk : msg.kind = .installSnapshot i t offset data true)
    (ht : node.currentTerm ≤ msg.term) (hi : node.commitIndex < i) (hc : node.log.Contiguous) :
    (∃ o, node.step msg = some o ∧ Installs node i t o) ↔
      (node.log.termAt i = some t → node.log.lastIndex ≤ i) := by
  obtain ⟨o, hstep, hlog, hcommit, happlied⟩ := step_installs hk ht hi
  rw [hstep]
  constructor
  case mp =>
    rintro ⟨_, ho, hs⟩ hterm
    cases ho
    by_contra hlast
    have hb := (hc.bounds_of_termAt hterm).left
    obtain ⟨e, he⟩ := Option.isSome_iff_exists.mp <|
      hc.isSome_entryAt.mpr (show node.log.firstIndex ≤ i + 1 ∧ i + 1 ≤ node.log.lastIndex by omega)
    have hkept := hs.suffix hterm (i + 1) e (Nat.lt_succ_self i) he
    rw [hlog] at hkept
    simp [RaftLog.entryAt, RaftLog.firstIndex, RaftLog.entries] at hkept
  case mpr =>
    refine fun h => ⟨o, rfl, fun hterm j e hj he => ?_, fun _ => hlog, hcommit, happlied⟩
    have := (hc.isSome_entryAt.mp <| Option.isSome_iff_exists.mpr ⟨e, he⟩).right
    exact absurd (h hterm) (by omega)

-- A snapshot of all entries of a follower installs, and so does one that its log does not reach.
theorem installs_iff_extended :
    (∃ o, extended.step ⟨2, 1, 1, .installSnapshot 2 1 0 [] true⟩ = some o ∧ Installs extended 2 1 o) ∧
      ∃ o, extended.step ⟨2, 1, 1, .installSnapshot 3 1 0 [] true⟩ = some o ∧ Installs extended 3 1 o :=
  ⟨(@installs_iff extended ⟨2, 1, 1, .installSnapshot 2 1 0 [] true⟩ 2 1 [] 0 rfl (by decide) (by decide)
      ⟨rfl, rfl, trivial⟩).mpr (by decide),
    (@installs_iff extended ⟨2, 1, 1, .installSnapshot 3 1 0 [] true⟩ 3 1 [] 0 rfl (by decide) (by decide)
      ⟨rfl, rfl, trivial⟩).mpr (by decide)⟩

-- A snapshot of the first entry makes a follower forget the second one.
theorem not_installs : (fresh.step ⟨2, 1, 1, .appendEntries 0 0 [⟨1, 1, []⟩, ⟨2, 1, []⟩] 0⟩).map
      (·.1) = some extended ∧
    ∃ o, extended.step ⟨2, 1, 1, .installSnapshot 1 1 0 [] true⟩ = some o ∧
      extended.log.termAt 1 = some 1 ∧ extended.log.entryAt 2 = some ⟨2, 1, []⟩ ∧
      o.1.log.entryAt 2 = none ∧ ¬Installs extended 1 1 o := by
  refine ⟨rfl, _, rfl, rfl, rfl, rfl, fun h => ?_⟩
  exact absurd (h.suffix rfl 2 _ (by decide) rfl) (by decide)

end RaftNode
end RaftRupee
