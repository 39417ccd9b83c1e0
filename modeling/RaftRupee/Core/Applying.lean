import RaftRupee.Core.Invocations

namespace RaftRupee

variable {m : Cause} {k k' : Kernel} {as bs : List Action} {i c n : ℕ} {es : List LogEntry}
variable {log : RaftLog}

-- The entries that are handed to the state machine, in order.
def applied : List Action → List LogEntry
  | []              => []
  | .apply es :: as => es ++ applied as
  | _ :: as         => applied as

theorem applied_append (as bs : List Action) : applied (as ++ bs) = applied as ++ applied bs := by
  fun_induction applied as <;> simp_all [applied]

theorem applied_eq_nil (h : ∀ es, .apply es ∉ as) : applied as = [] := by
  fun_induction applied as
  case case1         => rfl
  case case2 es _ _  => exact absurd List.mem_cons_self (h es)
  case case3 hi      => exact hi fun es hm => h es <| List.mem_cons_of_mem _ hm

theorem Consecutive.takeWhile (h : Consecutive i es) (c : ℕ) :
    es.takeWhile (·.index ≤ c) = es.take (c + 1 - i) := by
  induction es generalizing i
  case nil => simp
  case cons e es hi =>
    obtain ⟨he, hes⟩ := h
    rw [List.takeWhile_cons]
    by_cases hc : e.index ≤ c
    case pos =>
      rw [if_pos (decide_eq_true hc), hi hes, show c + 1 - i = c + 1 - (i + 1) + 1 by omega,
        List.take_succ_cons]
    case neg =>
      rw [if_neg (by simpa using hc), show c + 1 - i = 0 by omega, List.take_zero]

/-! ### What a node applies -/

-- A node applies what it commits, all that it has committed, and never compacts more than that.
structure Kernel.Applying (k : Kernel) : Prop where
  contiguous : k.log.Contiguous
  base_le    : k.log.firstIndex ≤ k.commitIndex
  applied    : k.lastApplied = k.commitIndex

-- The actions of a call apply the entries up to the commit index that it leaves.
structure AppliesUpTo (n c : ℕ) (as : List Action) : Prop where
  consecutive : Consecutive (n + 1) (applied as)
  length      : n + (applied as).length = c
  last        : ∀ es, .apply es ∈ as → es.getLast?.map (·.index) = some c

theorem AppliesUpTo.of_notMem (h : ∀ es, .apply es ∉ as) : AppliesUpTo n n as := by
  refine ⟨?_, ?_, fun es hm => absurd hm (h es)⟩ <;> simp [applied_eq_nil h, Consecutive]

theorem Applies.upTo (h : Applies k k' as) (hc : k.log.Contiguous)
    (hb : k.log.firstIndex ≤ k.lastApplied) (hl : k.lastApplied ≤ k.commitIndex)
    (hlast : k.commitIndex ≤ k.log.lastIndex) :
    k'.lastApplied = k.commitIndex ∧ AppliesUpTo k.lastApplied k.commitIndex as := by
  have hfrom := hc.entriesFrom (Nat.lt_succ_of_le hb)
  have hwhile := hfrom.takeWhile k.commitIndex
  have hlen : ((k.log.entriesFrom (k.lastApplied + 1)).takeWhile (·.index ≤ k.commitIndex)).length =
      k.commitIndex - k.lastApplied := by
    rw [hwhile, List.length_take, RaftLog.entriesFrom_of_lt (Nat.lt_succ_of_le hb), List.length_drop]
    have := hc.lastIndex_eq
    omega
  cases h
  case none h =>
    have he : k.lastApplied = k.commitIndex := by
      rcases h with h | h
      · omega
      · rw [h, List.length_nil] at hlen
        omega
    exact ⟨he, he ▸ .of_notMem (by simp)⟩
  case some es last hlt he hg =>
    have hcons : Consecutive (k.lastApplied + 1) es := he ▸ hwhile ▸ hfrom.take _
    rw [he] at hlen
    have hindex : last.index = k.commitIndex := by
      rw [List.getLast?_eq_getElem?] at hg
      have := hcons.index_eq hg
      omega
    refine ⟨hindex, ?_, ?_, ?_⟩
    · simpa [applied] using hcons
    · simp [applied]
      omega
    · simp [hg, hindex]

-- The entries of a message follow the index that it names.
def Cause.Gapless (m : Cause) : Prop :=
  ∀ msg i t es c, m = .handle msg → msg.kind = .appendEntries i t es c → Consecutive (i + 1) es

def Invocation.Gapless : Invocation → Prop
  | .step { kind := .appendEntries i _ es _, .. } => Consecutive (i + 1) es
  | _ => True

theorem Invocation.Gapless.cause {call : Invocation} (h : call.Gapless) : call.cause.Gapless := by
  intro msg i t es c hm hk
  cases call
  case step =>
    cases hm
    obtain ⟨_, _, _, _⟩ := msg
    cases hk
    exact h
  all_goals cases hm

-- A snapshot of a leader is installed.
def Cause.Installs (m : Cause) (as : List Action) (i : ℕ) : Prop :=
  ∃ msg t o data, m = .handle msg ∧ msg.kind = .installSnapshot i t o data true ∧
    .persistSnapshot i t data ∈ as

theorem Advances.upTo (h : Advances k k' as) (hk : k.Applying) :
    k'.Applying ∧ AppliesUpTo k.commitIndex k'.commitIndex as := by
  have hb := hk.base_le
  cases h
  case none => exact ⟨hk, .of_notMem (by simp)⟩
  case some n hlt hle _ _ ha =>
    have hap := hk.applied
    obtain ⟨hl, hup⟩ := ha.upTo hk.contiguous (hap ▸ hb) (hap ▸ hlt.le) hle
    rw [ha.eq]
    exact ⟨⟨hk.contiguous, hb.trans hlt.le, hl⟩, hap ▸ hup⟩

theorem Follows.upTo (h : Follows k c k' as) (hk : k.Applying) :
    k'.Applying ∧ AppliesUpTo k.commitIndex k'.commitIndex as := by
  have hb := hk.base_le
  cases h
  case none => exact ⟨hk, .of_notMem (by simp)⟩
  case some hlt ha =>
    have hap := hk.applied
    obtain ⟨hl, hup⟩ := ha.upTo hk.contiguous (hap ▸ hb) (hap ▸ hlt.le) (Nat.min_le_right ..)
    rw [ha.eq]
    exact ⟨⟨hk.contiguous, hb.trans hlt.le, hl⟩, hap ▸ hup⟩

theorem AppliesUpTo.prepend (h : AppliesUpTo n c as) (bs : List Action) (hb : ∀ es, .apply es ∉ bs) :
    AppliesUpTo n c (bs ++ as) where
  consecutive := by simpa [applied_append, applied_eq_nil hb] using h.consecutive
  length      := by simpa [applied_append, applied_eq_nil hb] using h.length
  last es hm  := h.last es <| (List.mem_append.mp hm).resolve_left (hb es)

theorem AppliesUpTo.append (h : AppliesUpTo n c as) (hb : ∀ es, .apply es ∉ bs) :
    AppliesUpTo n c (as ++ bs) where
  consecutive := by simpa [applied_append, applied_eq_nil hb] using h.consecutive
  length      := by simpa [applied_append, applied_eq_nil hb] using h.length
  last es hm  := h.last es <| (List.mem_append.mp hm).resolve_right (hb es)

theorem notMem_of_isSend (h : ∀ a ∈ as, a.isSend) :
    (∀ es, .apply es ∉ as) ∧ ∀ i, ¬m.Installs as i :=
  ⟨fun _ hm => (nomatch h _ hm), fun _ ⟨_, _, _, _, _, _, hm⟩ => (nomatch h _ hm)⟩

-- How a call gets from commit index `n` to commit index `c`.
inductive Proceeds (m : Cause) (n c : ℕ) (as : List Action) : Prop
  | applies  : (∀ i, ¬m.Installs as i) → AppliesUpTo n c as → Proceeds m n c as
  | installs : m.Installs as c → n < c → applied as = [] → Proceeds m n c as

-- Most moves apply nothing.
theorem Kernel.Applying.quiet (hk : k.Applying) (hc : k'.log.Contiguous)
    (hb : k'.log.firstIndex ≤ k.commitIndex) (hi : k'.commitIndex = k.commitIndex)
    (hl : k'.lastApplied = k.lastApplied) (hn : ∀ es, .apply es ∉ as) (hs : ∀ i, ¬m.Installs as i) :
    k'.Applying ∧ Proceeds m k.commitIndex k'.commitIndex as :=
  ⟨⟨hc, hi ▸ hb, hl.trans <| hk.applied.trans hi.symm⟩, .applies hs <| hi ▸ .of_notMem hn⟩

theorem Move.applying (h : Move m k k' as) (hk : k.Applying) (hm : m.Gapless) :
    k'.Applying ∧ Proceeds m k.commitIndex k'.commitIndex as := by
  have hc := hk.contiguous
  have hb := hk.base_le
  cases h
  case idle h =>
    obtain ⟨hn, hs⟩ := notMem_of_isSend (m := m) fun a ha => (h a ha).isSend
    exact hk.quiet hc hb rfl rfl hn hs
  case campaign =>
    refine hk.quiet hc hb rfl rfl ?_ ?_ <;> simp [Kernel.campaignActions, Cause.Installs]
  case vote    => refine hk.quiet hc hb rfl rfl ?_ ?_ <;> simp [Cause.Installs]
  case collect => refine hk.quiet hc hb rfl rfl ?_ ?_ <;> simp [Cause.Installs]
  case skip    => refine hk.quiet hc hb rfl rfl ?_ ?_ <;> simp [Cause.Installs]
  case lone =>
    refine hk.quiet (hc.append ⟨rfl, trivial⟩) hb rfl rfl ?_ ?_ <;>
      simp [Kernel.campaignActions, Cause.Installs]
  case elect he _ h =>
    subst he
    obtain ⟨hn, hs⟩ := notMem_of_isSend (m := m) fun a ha => (h a ha).isSend
    exact hk.quiet (hc.append ⟨rfl, trivial⟩) hb rfl rfl (by simpa using hn)
      (by simpa [Cause.Installs] using hs)
  case replicate h =>
    obtain ⟨hn, hs⟩ := notMem_of_isSend (m := m) fun a ha => (h a ha).isSend
    exact hk.quiet hc hb rfl rfl hn hs
  case propose hi _ he h =>
    subst he
    obtain ⟨hn, hs⟩ := notMem_of_isSend (m := m) fun a ha =>
      (h a ha).elim Replicates.isSend Action.IsHint.isSend
    exact hk.quiet (hc.append ⟨hi, trivial⟩) hb rfl rfl (by simpa using hn)
      (by simpa [Cause.Installs] using hs)
  case proposeAlone e commit sends _ _ hi _ hh ha =>
    obtain ⟨hn, hs⟩ := notMem_of_isSend (m := m) fun a hm => (hh a hm).isSend
    obtain ⟨hk', hup⟩ := ha.upTo ⟨hc.append ⟨hi, trivial⟩, hb, hk.applied⟩
    refine ⟨hk', .applies (fun i hi => ?_) <| (hup.prepend [.appendEntries [e]] (by simp)).append hn⟩
    obtain ⟨msg, t, o, data, hm, hk, hi⟩ := hi
    rcases List.mem_append.mp hi with hi | hi
    · have hcommit := ha.forall_mem (P := (· ≠ .persistSnapshot i t data)) (by simp)
      exact absurd rfl <| hcommit _ <| (List.mem_cons.mp hi).resolve_left (by simp)
    · exact hs i ⟨msg, t, o, data, hm, hk, hi⟩
  case confirm hm' _ _ hkind ha =>
    obtain ⟨hk', hup⟩ := ha.upTo ⟨hc, hb, hk.applied⟩
    refine ⟨hk', .applies (fun i hi => ?_) hup⟩
    obtain ⟨msg, _, _, _, hm, hk, _⟩ := hi
    cases hm'.symm.trans hm
    simp [hk] at hkind
  case accept msg i t c es log merge commit hm' hkind _ hti hmerge hf =>
    have hes := hm msg i t es c hm' hkind
    have hlog : log.Contiguous ∧ log.firstIndex = k.log.firstIndex ∧ ∀ es, .apply es ∉ merge := by
      rcases hmerge.spec hes with ⟨rfl, rfl, _⟩ | ⟨n, hn, rfl, htrunc, hmatch, _⟩
      case inl => exact ⟨hc, rfl, by simp⟩
      case inr =>
        have hle := hc.attach_le hti hn.le hmatch
        obtain ⟨hc', hsent, _⟩ := hc.truncateAndAppend (by omega) (hes.drop n) htrunc
        exact ⟨hc', congrArg LogEntry.index hsent, by simp⟩
    obtain ⟨hc', hfirst, hn⟩ := hlog
    obtain ⟨hk', hup⟩ := hf.upTo ⟨hc', hfirst.trans_le hb, hk.applied⟩
    refine ⟨hk', .applies (fun i hi => ?_) <| (hup.prepend merge hn).append (by simp)⟩
    obtain ⟨msg, _, _, _, hm, hk, _⟩ := hi
    cases hm'.symm.trans hm
    simp [hk] at hkind
  case install hm' hkind _ hlt =>
    exact ⟨⟨trivial, le_rfl, rfl⟩, .installs ⟨_, _, _, _, hm', hkind, by simp⟩ hlt rfl⟩
  case compact i t data hm' hi =>
    have hs : ∀ j, ¬m.Installs [.persistSnapshot i t data] j := by
      rintro j ⟨_, _, _, _, hm, _, _⟩
      cases hm'.symm.trans hm
    refine hk.quiet hc.compact ?_ rfl rfl (by simp) hs
    rw [RaftLog.firstIndex_compact]
    exact max_le hb hi

theorem Call.applying (h : Call m k k' as) (hk : k.Applying) (hm : m.Gapless) :
    k'.Applying ∧ Proceeds m k.commitIndex k'.commitIndex as := by
  cases h
  case same h => exact h.applying hk hm
  case later msg as _ _ _ h =>
    have hbump : (k.bump msg.term).Applying := ⟨hk.contiguous, hk.base_le, hk.applied⟩
    obtain ⟨hk', hp⟩ := h.applying hbump hm
    refine ⟨hk', ?_⟩
    rcases hp with ⟨hs, hup⟩ | ⟨hs, hlt, hn⟩
    case applies =>
      have hup := hup.prepend [.persistHardState msg.term none] (by simp)
      refine .applies (fun i hi => hs i ?_) hup
      obtain ⟨msg, t, o, data, hm, hk, hi⟩ := hi
      exact ⟨msg, t, o, data, hm, hk, (List.mem_cons.mp hi).resolve_left (by simp)⟩
    case installs =>
      obtain ⟨msg, t, o, data, hm, hk, hs⟩ := hs
      exact .installs ⟨msg, t, o, data, hm, hk, List.mem_cons_of_mem _ hs⟩ hlt hn

/-! ### Gapless messages do not make a node panic -/

namespace RaftNode

variable {node : RaftNode} {sender : NodeId} {term t : ℕ} {msg : Message}

theorem mergeEntries_isSome (hc : node.log.Contiguous) (ht : node.log.termAt i = some t)
    (hes : Consecutive (i + 1) es) : (node.mergeEntries es).isSome := by
  obtain ⟨n, hn, ha, _, _⟩ := node.log.attachIndex_eq hes
  have hb := (hc.bounds_of_termAt ht).left
  rcases es with _ | ⟨first, rest⟩
  case nil => rfl
  case cons =>
    have hfirst : first.index = i + 1 := hes.left
    simp only [mergeEntries, hfirst, ha, if_neg (show ¬i + 1 + n < i + 1 by omega)]
    split
    case isTrue  => simp [RaftLog.truncateAndAppend_eq (show node.log.firstIndex < i + 1 + n by omega)]
    case isFalse => rfl

theorem becomeFollower_log (node : RaftNode) (term : ℕ) (leader : Option NodeId) :
    (node.becomeFollower term leader).1.log = node.log := by
  unfold becomeFollower
  dsimp only
  split <;> rfl

theorem handleAppendEntries_isSome (hc : node.log.Contiguous) (hes : Consecutive (i + 1) es) :
    (node.handleAppendEntries sender term i t es c).isSome := by
  have hlog := node.becomeFollower_log term (some sender)
  unfold handleAppendEntries
  split
  case isTrue  => rfl
  case isFalse =>
    generalize node.becomeFollower term (some sender) = down at hlog
    obtain ⟨down, as⟩ := down
    have hlog : down.log = node.log := hlog
    dsimp only
    split
    case h_1 => rfl
    case h_2 lt hlt =>
      split
      case isTrue  => rfl
      case isFalse =>
        have hm := mergeEntries_isSome (hlog ▸ hc) hlt hes
        obtain ⟨r, hr⟩ := Option.isSome_iff_exists.mp hm
        simp [hr]

theorem dispatch_isSome (hc : node.log.Contiguous) (hm : (Cause.handle msg).Gapless) :
    (node.dispatch msg).isSome := by
  unfold dispatch
  split
  case h_7 hk => exact handleAppendEntries_isSome hc <| hm _ _ _ _ _ rfl hk
  all_goals rfl

theorem step_isSome (hc : node.log.Contiguous) (hm : (Cause.handle msg).Gapless) :
    (node.step msg).isSome := by
  unfold step
  dsimp only
  split
  all_goals split
  case isTrue.isTrue | isFalse.isTrue => rfl
  case isTrue.isFalse =>
    have hd := dispatch_isSome ((node.becomeFollower_log msg.term none).symm ▸ hc) hm
    obtain ⟨r, hr⟩ := Option.isSome_iff_exists.mp hd
    simp [hr]
  case isFalse.isFalse =>
    obtain ⟨r, hr⟩ := Option.isSome_iff_exists.mp <| dispatch_isSome hc hm
    simp [hr]

theorem invoke_isSome {call : Invocation} (hc : node.log.Contiguous) (hm : call.cause.Gapless) :
    (node.invoke call).isSome := by
  cases call
  case step => exact step_isSome hc hm
  all_goals rfl

end RaftNode

/-! ### In order, without gaps, and once -/

-- The index of the snapshot that an invocation has accepted.
def Returned.accepted (r : Returned) : Option ℕ :=
  match r.invocation with
  | .step { kind := .installSnapshot i t _ data true, .. } =>
    if .persistSnapshot i t data ∈ r.actions then some i else none
  | _ => none

-- A node that has applied all up to `n` goes on with the next index, up to its commit index, or with what
-- follows a snapshot.
def InOrder : ℕ → List Returned → Prop
  | _, []      => True
  | n, r :: rs =>
    match r.accepted with
    | some i => n < i ∧ r.node.commitIndex = i ∧ applied r.actions = [] ∧ InOrder i rs
    | none   => AppliesUpTo n r.node.commitIndex r.actions ∧ InOrder r.node.commitIndex rs

theorem Returned.accepted_eq_some {r : Returned} :
    r.accepted = some i ↔ r.invocation.cause.Installs r.actions i := by
  obtain ⟨invocation, node, actions⟩ := r
  unfold accepted
  constructor
  case mp =>
    intro h
    dsimp only at h
    split at h
    case h_2 => contradiction
    case h_1 i t o data =>
      split at h
      case isFalse => contradiction
      case isTrue hm =>
        cases h
        exact ⟨_, _, _, _, rfl, rfl, hm⟩
  case mpr =>
    rintro ⟨⟨sender, receiver, term, kind⟩, t, o, data, hm, hk, hs⟩
    cases invocation
    case step =>
      cases hm
      cases hk
      exact if_pos hs
    all_goals cases hm

theorem Consecutive.pairwise (h : Consecutive i es) : (es.map (·.index)).Pairwise (· < ·) := by
  induction es generalizing i
  case nil => simp
  case cons e es hi =>
    obtain ⟨he, hes⟩ := h
    rw [List.map_cons, List.pairwise_cons]
    refine ⟨fun j hj => ?_, hi hes⟩
    obtain ⟨e', he', rfl⟩ := List.mem_map.mp hj
    have := hes.index_mem he'
    omega

variable {node : RaftNode} {cs : List Invocation} {r : Returned} {rs : List Returned}

theorem InOrder.cons (h : InOrder n (r :: rs)) : Consecutive (n + 1) (applied r.actions) ∧
    n + (applied r.actions).length ≤ r.node.commitIndex ∧ InOrder r.node.commitIndex rs := by
  rw [InOrder] at h
  split at h
  case h_1 =>
    obtain ⟨hlt, rfl, hn, h⟩ := h
    rw [hn]
    exact ⟨trivial, hlt.le, h⟩
  case h_2 => exact ⟨h.left.consecutive, h.left.length.le, h.right⟩

theorem InOrder.commitIndex_le (h : InOrder n rs) :
    (n :: rs.map (·.node.commitIndex)).Pairwise (· ≤ ·) := by
  induction rs generalizing n
  case nil => simp
  case cons r rs hi =>
    obtain ⟨_, hle, h⟩ := h.cons
    have hi := hi h
    refine List.pairwise_cons.mpr ⟨?_, hi⟩
    rw [List.map_cons, List.forall_mem_cons]
    have hn : n ≤ r.node.commitIndex := by omega
    exact ⟨hn, fun c hc => hn.trans <| (List.pairwise_cons.mp hi).left c hc⟩

theorem InOrder.index_lt (h : InOrder n rs) :
    (n :: (rs.flatMap fun r => applied r.actions).map (·.index)).Pairwise (· < ·) := by
  induction rs generalizing n
  case nil => simp
  case cons r rs hi =>
    obtain ⟨hc, hle, h⟩ := h.cons
    obtain ⟨hlt, hp⟩ := List.pairwise_cons.mp (hi h)
    have hmem : ∀ j ∈ (applied r.actions).map (·.index), n < j ∧ j ≤ r.node.commitIndex := by
      intro j hj
      obtain ⟨e, he, rfl⟩ := List.mem_map.mp hj
      have := hc.index_mem he
      omega
    rw [List.flatMap_cons, List.map_append]
    refine List.pairwise_cons.mpr ⟨fun j hj => ?_, List.pairwise_append.mpr ⟨hc.pairwise, hp, ?_⟩⟩
    · rcases List.mem_append.mp hj with hj | hj
      · exact (hmem j hj).left
      · exact lt_of_le_of_lt (by omega) (hlt j hj)
    · exact fun a ha b hb => (hmem a ha).right.trans_lt <| hlt b hb

theorem RaftNode.Started.applying (h : node.Started) : node.kernel.Applying := by
  cases h
  case new           => exact ⟨trivial, le_rfl, rfl⟩
  case restore log h => exact ⟨h, le_rfl, rfl⟩

theorem Kernel.Applying.inOrder (hk : node.kernel.Applying) (hm : ∀ c ∈ cs, c.Gapless) :
    ∃ rs, node.invokeAll cs = some rs ∧ InOrder node.commitIndex rs := by
  induction cs generalizing node
  case nil => exact ⟨_, rfl, trivial⟩
  case cons c cs hi =>
    rw [List.forall_mem_cons] at hm
    obtain ⟨o, ho⟩ := Option.isSome_iff_exists.mp <| RaftNode.invoke_isSome hk.contiguous hm.left.cause
    obtain ⟨hk', hp⟩ := (RaftNode.invoke_call ho).applying hk hm.left.cause
    obtain ⟨rs, hrs, hin⟩ := hi hk' hm.right
    refine ⟨_, RaftNode.invokeAll_of_invoke ho hrs, ?_⟩
    rw [InOrder]
    rcases hp with ⟨hs, hup⟩ | ⟨hs, hlt, hn⟩
    case applies =>
      have hnone : Returned.accepted ⟨c, o.1, o.2⟩ = none :=
        Option.eq_none_iff_forall_ne_some.mpr fun i hi => hs i <| Returned.accepted_eq_some.mp hi
      rw [hnone]
      exact ⟨hup, hin⟩
    case installs =>
      rw [Returned.accepted_eq_some.mpr hs]
      exact ⟨hlt, rfl, hn, hin⟩

-- Whatever a node is driven by, it applies its log in order.
theorem applies_in_order (h : node.Started) (hm : ∀ c ∈ cs, c.Gapless) :
    ∃ rs, node.invokeAll cs = some rs ∧ InOrder node.lastApplied rs ∧
      ((rs.flatMap fun r => applied r.actions).map (·.index)).Pairwise (· < ·) ∧
      (node.commitIndex :: rs.map (·.node.commitIndex)).Pairwise (· ≤ ·) := by
  obtain ⟨rs, hrs, hin⟩ := h.applying.inOrder hm
  have happlied : node.lastApplied = node.commitIndex := h.applying.applied
  exact ⟨rs, hrs, happlied ▸ hin, (List.pairwise_cons.mp hin.index_lt).right, hin.commitIndex_le⟩

-- A follower applies two entries, then what follows a snapshot.
theorem applies_in_order_snapshot : ∃ (node : RaftNode) (rs : List Returned),
    rs.map (fun r => (applied r.actions).map (·.index)) = [[1, 2], [], [6]] ∧
    InOrder node.lastApplied rs ∧
    ((rs.flatMap fun r => applied r.actions).map (·.index)).Pairwise (· < ·) ∧
    (node.commitIndex :: rs.map (·.node.commitIndex)).Pairwise (· ≤ ·) := by
  let config : Config :=
    { id                     := 1
      peers                  := [2, 3]
      electionTimeoutTicks   := 2
      heartbeatIntervalTicks := 1
      rngSeed                := { draws := fun _ => 0 }
      heartbeat_lt           := by decide }
  let cs : List Invocation :=
    [.step ⟨2, 1, 1, .appendEntries 0 0 [⟨1, 1, []⟩, ⟨2, 1, [7]⟩, ⟨3, 1, [8]⟩] 2⟩,
      .step ⟨2, 1, 1, .installSnapshot 5 1 0 [] true⟩, .step ⟨2, 1, 1, .appendEntries 5 1 [⟨6, 1, [9]⟩] 6⟩]
  have hgapless : ∀ c ∈ cs, c.Gapless := by simp [cs, Invocation.Gapless, Consecutive]
  obtain ⟨rs, hrs, h⟩ := applies_in_order (.new config) hgapless
  have hvalue : ((RaftNode.new config).invokeAll cs).map
      (·.map fun r => (applied r.actions).map (·.index)) = some [[1, 2], [], [6]] := by decide +kernel
  rw [hrs, Option.map_some, Option.some.injEq] at hvalue
  exact ⟨_, rs, hvalue, h⟩

end RaftRupee
