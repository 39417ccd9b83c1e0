import RaftRupee.Core.Calls

namespace RaftRupee

-- The candidate to whom the sender of a message has given its vote in the message's term.
def Message.vote (msg : Message) : Option NodeId :=
  match msg.kind with
  | .requestVote ..            => some msg.sender
  | .requestVoteResponse true  => some msg.receiver
  | _                          => none

abbrev HardState := ℕ × Option NodeId

def Kernel.hardState (k : Kernel) : HardState :=
  (k.currentTerm, k.votedFor)

-- Executing the actions of node `id` in order, starting from the hard state on its disk, never takes
-- back a vote and never sends a message whose vote is not on disk yet.
def VoteSafe (id : NodeId) : HardState → List Action → Prop
  | _, [] => True
  | hs, .persistHardState term votedFor :: actions =>
    (hs.1 < term ∨ hs.1 = term ∧ (hs.2 = none ∨ hs.2 = votedFor)) ∧
      VoteSafe id (term, votedFor) actions
  | hs, .send msg :: actions =>
    (msg.sender = id ∧ ∀ candidate, msg.vote = some candidate → hs = (msg.term, some candidate)) ∧
      VoteSafe id hs actions
  | hs, _ :: actions => VoteSafe id hs actions

-- The hard state that the actions leave on disk.
def lastHardState : HardState → List Action → HardState
  | hs, [] => hs
  | _, .persistHardState term votedFor :: actions => lastHardState (term, votedFor) actions
  | hs, _ :: actions => lastHardState hs actions

theorem lastHardState_append (hs : HardState) (as bs : List Action) :
    lastHardState hs (as ++ bs) = lastHardState (lastHardState hs as) bs := by
  fun_induction lastHardState hs as <;> simp_all [lastHardState]

namespace VoteSafe

variable {id : NodeId} {hs : HardState} {as bs : List Action}

theorem append : VoteSafe id hs (as ++ bs) ↔
    VoteSafe id hs as ∧ VoteSafe id (lastHardState hs as) bs := by
  fun_induction VoteSafe id hs as <;> simp_all [VoteSafe, lastHardState, and_assoc]

theorem take (h : VoteSafe id hs as) (k : ℕ) : VoteSafe id hs (as.take k) := by
  rw [← List.take_append_drop k as] at h
  exact (append.mp h).left

-- A node that has voted sticks to its vote for the rest of the term.
theorem last_le (h : VoteSafe id hs as) :
    hs.1 < (lastHardState hs as).1 ∨
      hs.1 = (lastHardState hs as).1 ∧ (hs.2 = none ∨ hs.2 = (lastHardState hs as).2) := by
  fun_induction VoteSafe id hs as
  case case1 => simp [lastHardState]
  case case2 hi =>
    simp only [lastHardState]
    have := hi h.right
    grind
  all_goals
    simp only [lastHardState]
    grind [VoteSafe]

end VoteSafe

-- Actions of node `id` that neither give a vote nor change the hard state.
def Quiet (id : NodeId) : Action → Prop
  | .send msg            => msg.sender = id ∧ msg.vote = none
  | .persistHardState .. => False
  | _                    => True

theorem VoteSafe.of_quiet {id : NodeId} {hs : HardState} {actions : List Action}
    (h : ∀ a ∈ actions, Quiet id a) :
    VoteSafe id hs actions ∧ lastHardState hs actions = hs := by
  induction actions
  case nil => simp [VoteSafe, lastHardState]
  case cons a as hi =>
    simp only [List.mem_cons, forall_eq_or_imp] at h
    obtain ⟨h₁, h₂⟩ := hi h.right
    cases a <;> simp_all [Quiet, VoteSafe, lastHardState]


/-! ### Every call is safe -/

variable {m : Cause} {k k' : Kernel} {as : List Action} {T : ℕ}

theorem Action.IsHint.quiet {id : NodeId} {a : Action} (h : a.IsHint id) : Quiet id a := by
  cases a
  case send msg =>
    refine ⟨h.left, ?_⟩
    have hk := h.right
    unfold MessageKind.isHint at hk
    unfold Message.vote
    split at hk <;> simp_all
  all_goals exact h.elim

theorem Replicates.quiet {a : Action} (h : Replicates k a) : Quiet k.id a := by
  cases h <;> exact ⟨rfl, rfl⟩

theorem Merges.quiet {log log' : RaftLog} {es : List LogEntry} (h : Merges log es log' as)
    (id : NodeId) : ∀ a ∈ as, Quiet id a := by
  cases h <;> simp [Quiet]

theorem Kernel.campaignActions_safe (k : Kernel) :
    VoteSafe k.id k.hardState k.campaignActions ∧
      lastHardState k.hardState k.campaignActions = k.campaign.hardState := by
  have requests : ∀ peers : List NodeId,
      let requests := peers.map fun peer => Action.send <|
        k.campaign.message peer <| .requestVote k.log.lastIndex k.log.lastTerm
      VoteSafe k.id k.campaign.hardState requests ∧
        lastHardState k.campaign.hardState requests = k.campaign.hardState := by
    intro peers
    induction peers
    case nil            => simp [VoteSafe, lastHardState]
    case cons peer _ hi =>
      refine ⟨⟨⟨rfl, ?_⟩, hi.left⟩, hi.right⟩
      simp [message, Message.vote, campaign, hardState]
  exact ⟨⟨.inl <| Nat.lt_succ_self _, (requests k.peers).left⟩, (requests k.peers).right⟩

theorem Move.safe (h : Move m k k' as) :
    VoteSafe k.id k.hardState as ∧ lastHardState k.hardState as = k'.hardState := by
  have quiet : k'.hardState = k.hardState → (∀ a ∈ as, Quiet k.id a) →
      VoteSafe k.id k.hardState as ∧ lastHardState k.hardState as = k'.hardState := by
    intro hs hq
    exact hs ▸ VoteSafe.of_quiet hq
  cases h
  case idle h       => exact quiet rfl fun a ha => (h a ha).quiet
  case campaign     => exact k.campaignActions_safe
  case lone         =>
    obtain ⟨hs, hl⟩ := k.campaignActions_safe
    rw [VoteSafe.append, lastHardState_append, hl]
    exact ⟨⟨hs, trivial⟩, rfl⟩
  case vote ht hv _ =>
    refine ⟨⟨.inr ⟨rfl, hv⟩, ⟨rfl, ?_⟩, trivial⟩, rfl⟩
    simp [Kernel.message, Message.vote]
  case collect      => exact quiet rfl (by simp)
  case elect he _ hs =>
    refine quiet ?_ ?_
    · simp [← he, Kernel.hardState, Kernel.lead]
    · rw [List.forall_mem_cons]
      subst he
      exact ⟨trivial, fun a ha => (hs a ha).quiet⟩
  case replicate h  => exact quiet rfl fun a ha => (h a ha).quiet
  case propose he hs =>
    refine quiet (he ▸ rfl) ?_
    rw [List.forall_mem_cons]
    refine ⟨trivial, fun a ha => ?_⟩
    rcases hs a ha with h | h
    · simpa [← he] using h.quiet
    · exact h.quiet
  case proposeAlone hh ha =>
    refine quiet (by rw [ha.eq]; rfl) ?_
    simp only [List.forall_mem_cons, List.forall_mem_append]
    exact ⟨⟨trivial, ha.forall_mem fun _ => trivial⟩, fun a ha => (hh a ha).quiet⟩
  case confirm ha   => exact quiet (by rw [ha.eq]; rfl) <| ha.forall_mem fun _ => trivial
  case accept hm hf =>
    refine quiet (by rw [hf.eq]; rfl) ?_
    simp only [List.forall_mem_append]
    exact ⟨⟨hm.quiet _, hf.forall_mem fun _ => trivial⟩, by simp [Quiet, Kernel.message, Message.vote]⟩
  case skip         => exact quiet rfl (by simp [Quiet, Kernel.message, Message.vote])
  case install      => exact quiet rfl (by simp [Quiet, Kernel.message, Message.vote])
  case compact      => exact quiet rfl (by simp [Quiet])

theorem Call.safe (h : Call m k k' as) :
    VoteSafe k.id k.hardState as ∧ lastHardState k.hardState as = k'.hardState := by
  cases h
  case same h       => exact h.safe
  case later hlt h  => exact ⟨⟨.inl hlt, h.safe.left⟩, h.safe.right⟩

theorem Call.id_eq (h : Call m k k' as) : k'.id = k.id ∧ k'.peers = k.peers := by
  cases h
  case same h  => exact h.id_eq
  case later h => exact h.id_eq

/-! ### How a node becomes a candidate and the leader -/

-- The handled message is a vote for the node in its term.
def Granted (m : Cause) (k : Kernel) (voter : NodeId) : Prop :=
  ∃ msg, m = .handle msg ∧ msg.kind = .requestVoteResponse true ∧ msg.term = k.currentTerm ∧
    msg.sender = voter

theorem Move.candidate (h : Move m k k' as) (hr : k'.role = .candidate) :
    k.role = .candidate ∧ k'.currentTerm = k.currentTerm ∧
        (∀ v ∈ k'.votesReceived, v ∈ k.votesReceived ∨ Granted m k v) ∨
      k' = k.campaign ∧ as = k.campaignActions ∧ k.peers ≠ [] := by
  cases h
  case idle h _ => 
    rcases h with h | h | h
    · exact .inl ⟨h ▸ hr, rfl, fun _ hv => .inl hv⟩
    · exact absurd (hr.symm.trans h) (by simp)
    · exact absurd (hr.symm.trans h) (by simp)
  case campaign hp => exact .inr ⟨rfl, rfl, hp⟩
  case collect hm hk ht _ =>
    refine .inl ⟨hr, rfl, fun v hv => ?_⟩
    rcases Finset.mem_insert.mp hv with rfl | hv
    · exact .inr ⟨_, hm, hk, ht, rfl⟩
    · exact .inl hv
  case vote    => exact .inl ⟨hr, rfl, fun _ hv => .inl hv⟩
  case compact => exact .inl ⟨hr, rfl, fun _ hv => .inl hv⟩
  -- The other moves lead to, or keep, another role.
  case propose he _    => simp_all [← he]
  case proposeAlone ha => rw [ha.eq] at hr; simp_all
  case confirm ha      => rw [ha.eq] at hr; simp_all
  case accept hf       => rw [hf.eq] at hr; simp_all
  all_goals simp_all [Kernel.lead]

theorem Move.leader (h : Move m k k' as) (hr : k'.role = .leader) :
    k.role = .leader ∧ k'.currentTerm = k.currentTerm ∨
      k.role = .candidate ∧ k'.currentTerm = k.currentTerm ∧
        (∃ q : Finset NodeId, k.majority ≤ q.card ∧ ∀ v ∈ q, v ∈ k.votesReceived ∨ Granted m k v) ∨
      k.role ≠ .leader ∧ k.peers = [] ∧ k.currentTerm < k'.currentTerm ∧
        ∀ msg, m = .handle msg → msg.kind.isPreVote := by
  cases h
  case elect msg _ hm hk ht hr' he hq _ =>
    subst he
    refine .inr <| .inl ⟨hr', rfl, _, hq, fun v hv => ?_⟩
    rcases Finset.mem_insert.mp hv with rfl | hv
    · exact .inr ⟨_, hm, hk, ht, rfl⟩
    · exact .inl hv
  case lone hm hl hp   => exact .inr <| .inr ⟨hl, hp, Nat.lt_succ_self _, hm⟩
  -- The other moves keep the role, or lead to another one.
  case propose he _    => simp_all [← he]
  case proposeAlone ha => rw [ha.eq] at hr ⊢; exact .inl ⟨hr, rfl⟩
  case confirm ha      => rw [ha.eq] at hr ⊢; exact .inl ⟨hr, rfl⟩
  case accept hf       => rw [hf.eq] at hr; simp_all
  all_goals simp_all [Kernel.campaign]

theorem Kernel.campaign_requests (k : Kernel) (h : k.peers ≠ []) :
    ∃ msg, .send msg ∈ k.campaignActions ∧ msg.sender = k.id ∧ msg.term = k.currentTerm + 1 ∧
      msg.vote = some k.id := by
  obtain ⟨peer, hp⟩ := List.exists_mem_of_ne_nil _ h
  exact ⟨_, List.mem_cons_of_mem _ <| List.mem_map_of_mem hp, rfl, rfl, rfl⟩

-- A candidate has collected its votes in its term, or has just voted for itself.
theorem Call.candidate (h : Call m k k' as) (hr : k'.role = .candidate) :
    k.role = .candidate ∧ k'.currentTerm = k.currentTerm ∧
        (∀ v ∈ k'.votesReceived, v ∈ k.votesReceived ∨ Granted m k v) ∨
      k.currentTerm < k'.currentTerm ∧ k.peers ≠ [] ∧ k'.votesReceived = {k.id} ∧
        ∃ msg, .send msg ∈ as ∧ msg.sender = k.id ∧ msg.term = k'.currentTerm ∧
          msg.vote = some k.id := by
  cases h
  case same h =>
    rcases h.candidate hr with h | ⟨rfl, rfl, hp⟩
    case inl => exact .inl h
    case inr => exact .inr ⟨Nat.lt_succ_self _, hp, rfl, k.campaign_requests hp⟩
  case later msg _ _ _ hlt h =>
    rcases h.candidate hr with ⟨hc, _⟩ | ⟨rfl, rfl, hp⟩
    case inl => exact absurd hc (by simp [Kernel.bump])
    case inr =>
      obtain ⟨req, hreq, h⟩ := (k.bump msg.term).campaign_requests hp
      exact .inr ⟨hlt.trans <| Nat.lt_succ_self _, hp, rfl, req, List.mem_cons_of_mem _ hreq, h⟩

-- A message of a later term does not make a leader.
theorem Move.not_leader_of_bump {msg : Message} (h : Move (.handle msg) (k.bump T) k' as)
    (hp : msg.kind.isPreVote = false) : k'.role ≠ .leader := by
  intro hr
  rcases h.leader hr with h | h | h
  · exact absurd h.left (by simp [Kernel.bump])
  · exact absurd h.left (by simp [Kernel.bump])
  · exact absurd (h.right.right.right _ rfl) (by simp [hp])

theorem Call.leader (h : Call m k k' as) (hr : k'.role = .leader) :
    k.role = .leader ∧ k'.currentTerm = k.currentTerm ∨
      k.role = .candidate ∧ k'.currentTerm = k.currentTerm ∧
        (∃ q : Finset NodeId, k.majority ≤ q.card ∧ ∀ v ∈ q, v ∈ k.votesReceived ∨ Granted m k v) ∨
      k.role ≠ .leader ∧ k.peers = [] ∧ k.currentTerm < k'.currentTerm := by
  cases h
  case same h =>
    exact (h.leader hr).imp_right <| .imp_right fun h => ⟨h.left, h.right.left, h.right.right.left⟩
  case later hm hp _ h =>
    subst hm
    exact absurd hr <| h.not_leader_of_bump hp

-- How a leader with peers has won its election.
theorem Call.elect (h : Call m k k' as) (hr : k.role ≠ .leader) (hr' : k'.role = .leader)
    (hp : k.peers ≠ []) : ∃ msg, m = .handle msg ∧ msg.kind = .requestVoteResponse true ∧
      msg.term = k.currentTerm ∧ k.role = .candidate ∧
      k' = { k with votesReceived := insert msg.sender k.votesReceived }.lead ∧
      k.majority ≤ (insert msg.sender k.votesReceived).card := by
  cases h
  case later hm hg _ h =>
    subst hm
    exact absurd hr' <| h.not_leader_of_bump hg
  case same h =>
    cases h
    case elect hm hk ht hc he hq _ =>
      subst he
      exact ⟨_, hm, hk, ht, hc, rfl, hq⟩
    case idle h          => simp_all
    case propose he _    => simp_all
    case proposeAlone ha => simp_all
    case confirm ha      => simp_all
    case accept hf       => rw [hf.eq] at hr'; simp_all
    all_goals simp_all [Kernel.campaign]

-- How a leader with peers has moved its commit index.
theorem Call.advance (h : Call m k k' as) (hr : k'.role = .leader) (hc : k.commitIndex < k'.commitIndex)
    (hp : k.peers ≠ []) : ∃ msg n, m = .handle msg ∧ msg.term = k.currentTerm ∧ k.role = .leader ∧
      ((∃ t i, msg.kind = .appendEntriesResponse true t i) ∧ n = k.log.lastIndex ∨
        msg.kind = .installSnapshotResponse ∧ n = k.log.firstIndex) ∧
      Advances { k with matchIndex := Function.update k.matchIndex msg.sender (some n) } k' as := by
  cases h
  case later hm hg _ h =>
    subst hm
    exact absurd hr <| h.not_leader_of_bump hg
  case same h =>
    cases h
    case confirm hm ht hl hk ha => exact ⟨_, _, hm, ht, hl, hk, ha⟩
    case elect he _ _    => simp [← he, Kernel.lead] at hc
    case propose he _    => simp [← he] at hc
    case proposeAlone ha => contradiction
    case accept hf       => rw [hf.eq] at hr; simp at hr
    all_goals simp_all [Kernel.campaign]

end RaftRupee
