import RaftRupee.Core.Agreeing
import RaftRupee.Core.Following
import RaftRupee.Core.PreVotes

namespace RaftRupee

variable {node : RaftNode} {full : RaftLog} {o : Outcome} {T : ℕ}

-- An AppendEntries of a leader of term `T` that only appends, until its log is `full`. The log was
-- `sent` when the message was sent.
structure Transmission (full : RaftLog) (T : ℕ) where
  msg          : Message
  sent         : RaftLog
  prevLogIndex : ℕ
  prevLogTerm  : ℕ
  leaderCommit : ℕ
  grows        : sent.GrowsTo full
  term_eq      : msg.term = T
  kind_eq      : msg.kind = .appendEntries prevLogIndex prevLogTerm
    (sent.entriesFrom (prevLogIndex + 1)) leaderCommit
  termAt_prev  : sent.termAt prevLogIndex = some prevLogTerm
  commit_le    : leaderCommit ≤ sent.lastIndex

-- The call answers with a success.
def Acknowledges (as : List Action) : Prop :=
  ∃ reply t i, .send reply ∈ as ∧ reply.kind = .appendEntriesResponse true t i

namespace RaftNode

-- A node whose log matches the leader's and agrees with it as far as it is committed.
structure Tracks (node : RaftNode) (full : RaftLog) (T : ℕ) : Prop where
  contiguous : node.log.Contiguous
  term_le    : node.currentTerm ≤ T
  log_match  : node.log.Matches full
  committed  : node.log.AgreesUpTo full node.commitIndex

-- What a call makes of such a node that handles one of the leader's messages, or several in a row:
-- `acknowledged` are the ends of those that are acknowledged.
structure Tracking (node : RaftNode) (full : RaftLog) (T : ℕ) (acknowledged : ℕ → Prop) (node' : RaftNode) :
    Prop extends node'.Tracks full T where
  firstIndex_eq : node'.log.firstIndex = node.log.firstIndex
  keeps         : ∀ n, node.log.AgreesUpTo full n → node'.log.AgreesUpTo full n
  upTo          : ∀ n, acknowledged n → node'.log.AgreesUpTo full n
  commit_le     : node'.commitIndex ≤ node.commitIndex ∨ ∃ n, acknowledged n ∧ node'.commitIndex ≤ n

theorem Tracks.step (h : node.Tracks full T) (hf : full.Contiguous) (m : Transmission full T) :
    ∃ o, node.step m.msg = some o ∧
      Tracking node full T (fun n => Acknowledges o.2 ∧ m.sent.lastIndex = n) o.1 := by
  have hsent := m.grows.contiguous hf
  have hp := (hsent.bounds_of_termAt m.termAt_prev).left
  have hcons := hsent.entriesFrom (Nat.lt_succ_of_le hp)
  obtain ⟨o, hstep, hr⟩ := step_receives m.kind_eq (h.term_le.trans_eq m.term_eq.symm) h.contiguous hcons
  refine ⟨o, hstep, ?_⟩
  cases hr
  case reject follower hterm hj ho =>
    have hlog : o.1.log = node.log := ho ▸ hj.log_eq
    have hcommit : o.1.commitIndex = node.commitIndex := ho ▸ hj.commitIndex_eq
    have hterm : o.1.currentTerm = T := ho ▸ hj.currentTerm_eq.trans m.term_eq
    have hno : ¬Acknowledges o.2 := by
      rintro ⟨reply, t, i, hm, hk⟩
      rw [ho] at hm
      rcases List.mem_append.mp hm with hm | hm
      · exact hj.no_send _ hm rfl
      · cases List.mem_singleton.mp hm
        cases hk
    have htracks : o.1.Tracks full T := by
      refine ⟨hlog ▸ h.contiguous, hterm.le, hlog ▸ h.log_match, ?_⟩
      rw [hlog, hcommit]
      exact h.committed
    exact ⟨htracks, by rw [hlog], fun n hn => hlog ▸ hn, fun n hn => absurd hn.left hno, .inl hcommit.le⟩
  case accept follower accepted hterm hj ha ho =>
    obtain ⟨⟨merge, hm⟩, hcommit⟩ := ha.joined hj
    have hal := hm.aligns h.contiguous hf m.grows h.log_match hterm m.termAt_prev
    have hreply := List.mem_of_mem_filter (ha.sends ▸ List.mem_singleton_self _)
    have hack : Acknowledges o.2 := by
      rw [ho]
      exact ⟨_, none, none, List.mem_append_right _ hreply, rfl⟩
    have hle := m.commit_le
    have ho : o.1 = accepted.1 := ho ▸ rfl
    rw [← ho] at hal hcommit
    have htracks : o.1.Tracks full T := by
      refine ⟨hal.contiguous, ?_, hal.matches_full, ?_⟩
      · exact (ho ▸ ha.currentTerm_eq.trans <| hj.currentTerm_eq.trans m.term_eq : o.1.currentTerm = T).le
      · rcases Nat.lt_or_ge node.commitIndex o.1.commitIndex with hc | hc
        · exact hal.upTo.mono (by omega)
        · exact (hal.keeps _ h.committed).mono hc
    refine ⟨htracks, hal.firstIndex_eq, hal.keeps, fun n hn => hn.right ▸ hal.upTo, ?_⟩
    rcases Nat.lt_or_ge node.commitIndex o.1.commitIndex with hc | hc
    · exact .inr ⟨_, ⟨hack, rfl⟩, by omega⟩
    · exact .inl hc

-- The ends of the messages of a run that are acknowledged.
def Acknowledged (answered : List (Transmission full T × Returned)) (n : ℕ) : Prop :=
  ∃ p ∈ answered, Acknowledges p.2.actions ∧ p.1.sent.lastIndex = n

theorem Tracks.invokeAll (h : node.Tracks full T) (hf : full.Contiguous) (ms : List (Transmission full T)) :
    ∃ rs, node.invokeAll (ms.map (.step ·.msg)) = some rs ∧
      Tracking node full T (Acknowledged (ms.zip rs)) (latest node rs) := by
  induction ms generalizing node
  case nil => exact ⟨[], rfl, h, rfl, fun _ h => h, by simp [Acknowledged], .inl le_rfl⟩
  case cons m ms hi =>
    obtain ⟨o, hstep, ho⟩ := h.step hf m
    obtain ⟨rs, hrs, hlast⟩ := hi ho.toTracks
    refine ⟨_, invokeAll_of_invoke hstep hrs, hlast.toTracks, ?_, ?_, ?_, ?_⟩
    case refine_1 => exact hlast.firstIndex_eq.trans ho.firstIndex_eq
    case refine_2 => exact fun n hn => hlast.keeps n <| ho.keeps n hn
    case refine_3 =>
      rintro n ⟨p, hp, hack, hn⟩
      rcases List.mem_cons.mp hp with rfl | hp
      · exact hlast.keeps n <| ho.upTo n ⟨hack, hn⟩
      · exact hlast.upTo n ⟨p, hp, hack, hn⟩
    case refine_4 =>
      rcases hlast.commit_le with hle | ⟨n, ⟨p, hp, hack⟩, hn⟩
      case inr => exact .inr ⟨n, ⟨p, List.mem_cons_of_mem _ hp, hack⟩, hn⟩
      case inl =>
        refine ho.commit_le.imp hle.trans ?_
        rintro ⟨n, ⟨hack, hm⟩, hn⟩
        exact ⟨n, ⟨(m, _), List.mem_cons_self, hack, hm⟩, hle.trans hn⟩

theorem invokeAll_take {cs : List Invocation} {rs : List Returned} (h : node.invokeAll cs = some rs)
    (k : ℕ) : node.invokeAll (cs.take k) = some (rs.take k) := by
  induction cs generalizing node rs k
  case nil =>
    cases h
    simp [RaftNode.invokeAll]
  case cons c cs hi =>
    obtain ⟨o, rest, ho, hrest, rfl⟩ := invokeAll_cons h
    cases k
    case zero   => rfl
    case succ k => exact invokeAll_of_invoke ho (hi hrest k)

-- The messages of one leader, in any order and any number of times. After each of them, the log agrees
-- with the leader's up to the ends of all that have been acknowledged, and up to the commit index.
theorem replay_agrees (hf : full.Contiguous) (hc : node.log.Contiguous) (ht : node.currentTerm ≤ T)
    (hm : node.log.Matches full) (hup : node.log.AgreesUpTo full node.commitIndex)
    (ms : List (Transmission full T)) : ∃ rs, node.invokeAll (ms.map (.step ·.msg)) = some rs ∧
      ∀ k, let follower := latest node (rs.take k)
        follower.log.firstIndex = node.log.firstIndex ∧
        (∀ n, Acknowledged ((ms.zip rs).take k) n → follower.log.AgreesUpTo full n) ∧
        (follower.commitIndex ≤ node.commitIndex ∨
          ∃ n, Acknowledged ((ms.zip rs).take k) n ∧ follower.commitIndex ≤ n) ∧
        follower.log.AgreesUpTo full follower.commitIndex := by
  have htracks : node.Tracks full T := ⟨hc, ht, hm, hup⟩
  obtain ⟨rs, hrs, _⟩ := htracks.invokeAll hf ms
  refine ⟨rs, hrs, fun k => ?_⟩
  obtain ⟨rs', hrs', h⟩ := htracks.invokeAll hf (ms.take k)
  have htake := invokeAll_take hrs k
  rw [← List.map_take, hrs', Option.some.injEq] at htake
  have hzip : (ms.take k).zip (rs.take k) = (ms.zip rs).take k := List.take_zipWith.symm
  rw [htake, hzip] at h
  exact ⟨h.firstIndex_eq, h.upTo, h.commit_le, h.committed⟩

-- The log of a leader of term 1 with two entries.
def twoEntries : RaftLog :=
  RaftLog.new.append [⟨1, 1, []⟩, ⟨2, 1, [7]⟩]

-- Its messages, before and after it had the second one.
def transmission (sent : RaftLog) (leaderCommit : ℕ) (h : sent.GrowsTo twoEntries)
    (ht : sent.termAt 0 = some 0) (hc : leaderCommit ≤ sent.lastIndex) : Transmission twoEntries 1 where
  msg          := ⟨2, 1, 1, .appendEntries 0 0 (sent.entriesFrom 1) leaderCommit⟩
  sent         := sent
  prevLogIndex := 0
  prevLogTerm  := 0
  leaderCommit := leaderCommit
  grows        := h
  term_eq      := rfl
  kind_eq      := rfl
  termAt_prev  := ht
  commit_le    := hc

-- The shorter message comes late, and the follower keeps both entries.
theorem replay_agrees_two : ∃ rs, fresh.invokeAll [
      .step ⟨2, 1, 1, .appendEntries 0 0 [⟨1, 1, []⟩, ⟨2, 1, [7]⟩] 1⟩,
      .step ⟨2, 1, 1, .appendEntries 0 0 [⟨1, 1, []⟩] 0⟩] = some rs ∧
    (latest fresh rs).log.AgreesUpTo twoEntries (latest fresh rs).commitIndex := by
  let late := transmission twoEntries 1 ⟨rfl, List.prefix_rfl⟩ rfl (by decide)
  let early := transmission (RaftLog.new.append [⟨1, 1, []⟩]) 0 ⟨rfl, by decide⟩ rfl (by decide)
  have hempty : fresh.log.Contiguous := trivial
  have hbase : fresh.log.AgreesUpTo twoEntries 0 := by
    intro i _ _ hi
    cases Nat.le_zero.mp hi
    exact .of_entryAt rfl
  have hmatch : fresh.log.Matches twoEntries := by
    intro i t ht _
    exact hbase.mono (hempty.bounds_of_termAt ht).right
  obtain ⟨rs, hrs, h⟩ := @replay_agrees fresh twoEntries 1 ⟨rfl, rfl, trivial⟩ hempty (by decide) hmatch
    hbase [late, early]
  have hall := h rs.length
  rw [List.take_length] at hall
  exact ⟨rs, hrs, hall.right.right.right⟩

end RaftNode
end RaftRupee
