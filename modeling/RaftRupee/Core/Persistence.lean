import RaftRupee.Core.HardState
import RaftRupee.Core.Invocations

namespace RaftRupee

variable {m : Cause} {k k' : Kernel} {as bs pre post : List Action} {msg : Message}
variable {log log' : RaftLog} {es : List LogEntry} {hs : HardState} {c : ℕ}

-- The actions that write to disk.
def Action.isPersist : Action → Bool
  | persistHardState .. | appendEntries _ | truncateAndAppend .. | persistSnapshot .. => true
  | send _ | apply _ => false

-- No write comes after a message.
def PersistsFirst (as : List Action) : Prop :=
  as.Pairwise fun a b => a.isSend → ¬b.isPersist

-- The pair of the last `PersistHardState`.
def lastPersisted (as : List Action) : Option HardState :=
  (as.filterMap fun
    | .persistHardState term votedFor => some (term, votedFor)
    | _                               => none).getLast?

-- The log that comes of the `AppendEntries` and `TruncateAndAppend` actions.
def replay : RaftLog → List Action → Option RaftLog
  | log, []                            => some log
  | log, .appendEntries es :: as       => replay (log.append es) as
  | log, .truncateAndAppend i es :: as => (log.truncateAndAppend i es).bind (replay · as)
  | log, _ :: as                       => replay log as

-- The snapshot that is the base of the log.
def PersistsBase (log : RaftLog) (as : List Action) : Prop :=
  ∃ data, .persistSnapshot log.firstIndex log.sentinel.term data ∈ as

theorem Action.not_isPersist_of_isSend {a : Action} (h : a.isSend) : ¬a.isPersist := by
  cases a <;> simp_all [isPersist, isSend]

theorem lastHardState_eq (hs : HardState) (as : List Action) :
    lastHardState hs as = (lastPersisted as).getD hs := by
  fun_induction lastHardState hs as
  case case1 => rfl
  case case2 term votedFor as hi =>
    rw [hi]
    unfold lastPersisted
    simp [List.getLast?_cons]
  case case3 a as hn hi =>
    rw [hi]
    unfold lastPersisted
    cases a
    case persistHardState term votedFor => exact absurd rfl (hn term votedFor)
    all_goals rfl

theorem replay_append (log : RaftLog) (as bs : List Action) :
    replay log (as ++ bs) = (replay log as).bind (replay · bs) := by
  fun_induction replay log as <;> simp_all [replay, Option.bind_assoc]

theorem replay_of_not_isPersist (h : ∀ a ∈ as, ¬a.isPersist) : replay log as = some log := by
  induction as
  case nil => rfl
  case cons a as hi =>
    rw [List.forall_mem_cons] at h
    cases a <;> simp_all [replay, Action.isPersist]

theorem replay_sentinel (h : replay log as = some log') : log'.sentinel = log.sentinel := by
  fun_induction replay log as
  case case1 =>
    cases h
    rfl
  case case2 hi => exact hi h
  case case3 log j es as hi =>
    obtain ⟨_, ht, h⟩ := Option.bind_eq_some_iff.mp h
    rw [hi _ h]
    unfold RaftLog.truncateAndAppend at ht
    split at ht
    · cases ht
      rfl
    · contradiction
  case case4 hi => exact hi h

theorem lastHardState_of_not_isPersist (h : ∀ a ∈ as, ¬a.isPersist) : lastHardState hs as = hs := by
  induction as
  case nil => rfl
  case cons a as hi =>
    rw [List.forall_mem_cons] at h
    cases a <;> simp_all [lastHardState, Action.isPersist]

namespace PersistsFirst

theorem of_not_isPersist (h : ∀ a ∈ as, ¬a.isPersist) : PersistsFirst as :=
  List.pairwise_of_forall_mem_list fun _ _ b hb _ => h b hb

-- Writes, followed by actions that are none.
theorem append (as bs : List Action) (ha : ∀ a ∈ as, ¬a.isSend) (hb : ∀ b ∈ bs, ¬b.isPersist) :
    PersistsFirst (as ++ bs) := by
  refine List.pairwise_append.mpr ⟨?_, of_not_isPersist hb, fun _ _ b hb' _ => hb b hb'⟩
  exact List.pairwise_of_forall_mem_list fun a ha' _ _ hs => absurd hs (ha a ha')

theorem cons {a : Action} (ha : ¬a.isSend) (h : PersistsFirst as) : PersistsFirst (a :: as) :=
  List.pairwise_cons.mpr ⟨fun _ _ hs => absurd hs ha, h⟩

-- What follows the first message does not write.
theorem after_send (h : PersistsFirst (pre ++ .send msg :: post)) :
    ∀ a ∈ .send msg :: post, ¬a.isPersist := by
  have h := (List.pairwise_append.mp h).right.left
  rw [List.forall_mem_cons]
  exact ⟨by simp [Action.isPersist], fun a ha => (List.pairwise_cons.mp h).left a ha rfl⟩

theorem replay_pre (h : PersistsFirst (pre ++ .send msg :: post)) :
    replay log (pre ++ .send msg :: post) = replay log pre := by
  rw [replay_append]
  cases replay log pre
  case none => rfl
  case some => exact replay_of_not_isPersist h.after_send

theorem lastHardState_pre (h : PersistsFirst (pre ++ .send msg :: post)) :
    lastHardState hs (pre ++ .send msg :: post) = lastHardState hs pre := by
  rw [lastHardState_append, lastHardState_of_not_isPersist h.after_send]

theorem mem_pre (h : PersistsFirst (pre ++ .send msg :: post)) {a : Action} (ha : a.isPersist)
    (hm : a ∈ pre ++ .send msg :: post) : a ∈ pre :=
  (List.mem_append.mp hm).resolve_right fun hm => h.after_send a hm ha

end PersistsFirst

/-! ### Every call writes first -/

-- A call changes the log on disk just as it does in memory, or it starts over from a snapshot. No
-- message follows a snapshot unless the log is empty.
structure Persists (k k' : Kernel) (as : List Action) : Prop where
  first : PersistsFirst as
  log   : replay k.log as = some k'.log ∨
    PersistsBase k'.log as ∧ ((∀ a ∈ as, ¬a.isSend) ∨ k'.log.rest = [])

theorem Persists.of_not_isPersist (h : ∀ a ∈ as, ¬a.isPersist) (hl : k'.log = k.log) :
    Persists k k' as where
  first := .of_not_isPersist h
  log   := .inl <| hl ▸ replay_of_not_isPersist h

-- The entries are written before anything else.
theorem Persists.of_append (h : ∀ a ∈ as, ¬a.isPersist) (hl : k'.log = k.log.append es) :
    Persists k k' (.appendEntries es :: as) where
  first := .cons (by simp [Action.isSend]) <| .of_not_isPersist h
  log   := .inl <| hl ▸ replay_of_not_isPersist h

theorem Kernel.campaignActions_eq (k : Kernel) : ∃ sends, (∀ a ∈ sends, ¬a.isPersist) ∧
    k.campaignActions = .persistHardState (k.currentTerm + 1) (some k.id) :: sends := by
  refine ⟨_, ?_, rfl⟩
  simp [Action.isPersist]

theorem Advances.not_isPersist (h : Advances k k' as) : ∀ a ∈ as, ¬a.isPersist :=
  h.forall_mem (by simp [Action.isPersist])

theorem Merges.replay (h : Merges log es log' as) :
    replay log as = some log' ∧ ∀ a ∈ as, ¬a.isSend := by
  cases h
  case nil       => exact ⟨rfl, by simp⟩
  case keep      => exact ⟨rfl, by simp⟩
  case splice ht => simp [RaftRupee.replay, ht, Action.isSend]

theorem Move.persists (h : Move m k k' as) : Persists k k' as := by
  cases h
  case idle h =>
    exact .of_not_isPersist (fun a ha => Action.not_isPersist_of_isSend (h a ha).isSend) rfl
  case campaign =>
    obtain ⟨sends, hs, he⟩ := k.campaignActions_eq
    rw [he]
    have hr : replay k.log sends = some k.log := replay_of_not_isPersist hs
    exact ⟨.cons (by simp [Action.isSend]) <| .of_not_isPersist hs, .inl hr⟩
  case lone hp =>
    simp only [Kernel.campaignActions, hp, List.map_nil, List.cons_append, List.nil_append]
    exact ⟨.append [_, _] [] (by simp [Action.isSend]) (by simp), .inl rfl⟩
  case vote =>
    exact ⟨.append [_] [_] (by simp [Action.isSend]) (by simp [Action.isPersist]), .inl rfl⟩
  case collect => exact .of_not_isPersist (by simp) rfl
  case elect he _ hs =>
    subst he
    exact .of_append (fun a ha => Action.not_isPersist_of_isSend (hs a ha).isSend) rfl
  case replicate h =>
    exact .of_not_isPersist (fun a ha => Action.not_isPersist_of_isSend (h a ha).isSend) rfl
  case propose he hs =>
    subst he
    refine .of_append (fun a ha => Action.not_isPersist_of_isSend ?_) rfl
    exact (hs a ha).elim Replicates.isSend Action.IsHint.isSend
  case proposeAlone hh ha =>
    refine .of_append (List.forall_mem_append.mpr ⟨ha.not_isPersist, fun a hm => ?_⟩) ha.log_eq
    exact Action.not_isPersist_of_isSend (hh a hm).isSend
  case confirm ha => exact .of_not_isPersist ha.not_isPersist ha.log_eq
  case accept hm hf =>
    obtain ⟨hr, hs⟩ := hm.replay
    have hcommit := hf.forall_mem (P := (¬·.isPersist)) (by simp [Action.isPersist])
    rw [List.append_assoc]
    refine ⟨.append _ _ hs ?rest, .inl ?_⟩
    case rest => exact List.forall_mem_append.mpr ⟨hcommit, by simp [Action.isPersist]⟩
    rw [replay_append, hr, hf.log_eq]
    refine replay_of_not_isPersist <| List.forall_mem_append.mpr ⟨hcommit, ?_⟩
    simp [Action.isPersist]
  case skip => exact .of_not_isPersist (by simp [Action.isPersist]) rfl
  case install i t _ data _ _ _ _ =>
    exact ⟨.append [_] [_] (by simp [Action.isSend]) (by simp [Action.isPersist]),
      .inr ⟨⟨data, by simp [RaftLog.installSnapshot, RaftLog.firstIndex]⟩, .inr rfl⟩⟩
  case compact i t data _ _ =>
    refine ⟨.append [_] [] (by simp [Action.isSend]) (by simp), ?_⟩
    rcases Nat.lt_or_ge k.log.firstIndex i with hi | hi
    · refine .inr ⟨⟨data, ?_⟩, .inl <| by simp [Action.isSend]⟩
      simp [RaftLog.firstIndex, RaftLog.sentinel_compact hi]
    · exact .inl <| congrArg some (RaftLog.compact_of_le hi).symm

theorem Call.persists (h : Call m k k' as) : Persists k k' as := by
  cases h
  case same h => exact h.persists
  case later h =>
    obtain ⟨hf, hl⟩ := h.persists
    refine ⟨.cons (by simp [Action.isSend]) hf, ?_⟩
    rcases hl with hl | ⟨⟨data, hb⟩, hl⟩
    case inl => exact .inl hl
    case inr =>
      refine .inr ⟨⟨data, List.mem_cons_of_mem _ hb⟩, hl.imp_left fun hl => ?_⟩
      exact List.forall_mem_cons.mpr ⟨by simp [Action.isSend], hl⟩

-- A new base of the log is a snapshot that is persisted.
theorem Call.sentinel (h : Call m k k' as) :
    k'.log.sentinel = k.log.sentinel ∨ PersistsBase k'.log as :=
  h.persists.log.imp replay_sentinel And.left

variable {node : RaftNode} {call : Invocation} {o : Outcome}

-- All that a call changes is on disk before its first message leaves.
theorem persists_before_send (h : node.invoke call = some o) :
    PersistsFirst o.2 ∧
    (o.1.kernel.hardState ≠ node.kernel.hardState → lastPersisted o.2 = some o.1.kernel.hardState) ∧
    (o.1.log ≠ node.log → PersistsBase o.1.log o.2 ∨ replay node.log o.2 = some o.1.log) ∧
    ∀ pre msg post, o.2 = pre ++ .send msg :: post →
      lastHardState node.kernel.hardState pre = o.1.kernel.hardState ∧
      (PersistsBase o.1.log pre ∧ o.1.log.rest = [] ∨ replay node.log pre = some o.1.log) := by
  have hc := RaftNode.invoke_call h
  obtain ⟨hf, hl⟩ := hc.persists
  have hs := hc.safe.right
  refine ⟨hf, fun hne => ?_, fun _ => ?_, fun pre msg post he => ⟨?_, ?_⟩⟩
  case refine_1 =>
    rw [lastHardState_eq] at hs
    cases hp : lastPersisted o.2
    case none   => exact absurd (by simpa [hp] using hs) hne.symm
    case some _ => simpa [hp] using hs
  case refine_2 => exact hl.elim .inr fun hl => .inl hl.left
  case refine_3 =>
    rw [he] at hf hs
    rw [← hs, hf.lastHardState_pre]
  case refine_4 =>
    rw [he] at hf hl
    rcases hl with hl | ⟨⟨data, hb⟩, hl⟩
    case inl => exact .inr <| hf.replay_pre.symm.trans hl
    case inr =>
      refine .inl ⟨⟨data, hf.mem_pre rfl hb⟩, hl.resolve_left fun hl => ?_⟩
      exact hl (.send msg) (by simp) rfl

-- A follower steps down to a new leader, whose entry takes the place of one of its own.
theorem persists_before_send_merge : ∃ (node : RaftNode) (o : Outcome),
    o.2.map Action.isPersist = [true, true, false, false] ∧ PersistsFirst o.2 ∧
    (o.1.kernel.hardState ≠ node.kernel.hardState → lastPersisted o.2 = some o.1.kernel.hardState) ∧
    (o.1.log ≠ node.log → PersistsBase o.1.log o.2 ∨ replay node.log o.2 = some o.1.log) ∧
    ∀ pre msg post, o.2 = pre ++ .send msg :: post →
      lastHardState node.kernel.hardState pre = o.1.kernel.hardState ∧
      (PersistsBase o.1.log pre ∧ o.1.log.rest = [] ∨ replay node.log pre = some o.1.log) := by
  let config : Config :=
    { id                     := 1
      peers                  := [2, 3]
      electionTimeoutTicks   := 2
      heartbeatIntervalTicks := 1
      rngSeed                := { draws := fun _ => 0 }
      heartbeat_lt           := by decide }
  let log : RaftLog := .restore { lastIncludedIndex := 0, lastIncludedTerm := 0 } [⟨1, 1, [7]⟩]
  let node : RaftNode := .restore config 1 (some 1) log 0 0
  let call : Invocation := .step ⟨2, 1, 2, .appendEntries 0 0 [⟨1, 2, []⟩] 1⟩
  have hsome : (node.invoke call).isSome := by decide +kernel
  have hpersist : ((node.invoke call).map fun o => o.2.map Action.isPersist) =
      some [true, true, false, false] := by decide +kernel
  obtain ⟨o, ho⟩ := Option.isSome_iff_exists.mp hsome
  rw [ho, Option.map_some, Option.some.injEq] at hpersist
  exact ⟨node, o, hpersist, persists_before_send ho⟩

end RaftRupee
