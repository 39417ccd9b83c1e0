import RaftRupee.Core.Entries
import RaftRupee.Core.Terms
import RaftRupee.Sim.Votes

namespace RaftRupee.Cluster

variable {C : Cluster} {guard : State → Event → Prop} {s s' : State} {w w' : World} {id : NodeId}
variable {input : Input} {cut : Option ℕ} {node : RaftNode} {as : List Action} {ev : Event} {T : ℕ}
variable {answers : Option Message}

/-! ### What a step adds to the history -/

theorem restart_elections (h : C.restart s id = some s') : s'.elections = s.elections := by
  obtain ⟨node, _, h⟩ := Option.bind_eq_some_iff.mp h
  cases h
  rfl

-- The history learns of an election even if the call is cut.
theorem call_elections (h : C.step s (.call id input cut) = some s')
    (hcall : s.call id input = some (node, as)) :
    s'.elections = (s.record id (s.nodes id) node).elections := by
  simp only [step] at h
  split at h
  case isFalse => contradiction
  case isTrue  =>
    obtain ⟨_, hcall', h⟩ := Option.bind_eq_some_iff.mp h
    cases hcall.symm.trans hcall'
    cases cut
    all_goals
      obtain ⟨w, hw, h⟩ := Option.bind_eq_some_iff.mp h
      have hel := ((World.grows _).run hw).right.elections
    case none =>
      cases h
      exact hel
    case some => exact (restart_elections h).trans hel

theorem step_elections {ev : Event} (h : C.step s ev = some s') : s.elections ⊆ s'.elections := by
  cases ev
  case restart id =>
    simp only [step] at h
    split at h
    case isFalse => contradiction
    case isTrue  => exact fun _ he => restart_elections h ▸ he
  case call id input cut =>
    have hstep := h
    simp only [step] at h
    split at h
    case isFalse => contradiction
    case isTrue  =>
      obtain ⟨_, hcall, _⟩ := Option.bind_eq_some_iff.mp h
      exact call_elections hstep hcall ▸ World.elections_record ..

theorem goingOn_elections (r : (C.system.goingOn s).Reachable guard s') : s.elections ⊆ s'.elections := by
  induction r
  case init         => exact fun _ he => he
  case step _ hs hi => exact fun _ he => step_elections hs (hi he)

theorem mem_of_step {ev : Event} (h : C.step s ev = some s') : ev.node ∈ C.members := by
  cases ev
  all_goals
    simp only [step] at h
    split at h
    case isFalse => contradiction
    case isTrue hid => exact hid

-- The call completes if its actions can be executed.
theorem step_call (hid : id ∈ C.members) (hcall : s.call id input = some (node, as))
    (hw : (s.record id (s.nodes id) node).processActions id node.currentTerm (s.handled input) as = some w) :
    C.step s (.call id input none) = some { w with nodes := Function.update s.nodes id node } := by
  simp [step, hid, hcall, hw]

/-! ### What a step sends -/

theorem World.processAction_network {a : Action} (h : w.processAction id T answers a = some w') :
    w'.network = w.network ++ a.message.toList.map ({ msg := ·, answers }) := by
  cases a
  case send | apply | persistHardState =>
    cases h
    simp [Action.message, setDisk]
  all_goals
    obtain ⟨_, _, h⟩ := Option.map_eq_some_iff.mp h
    cases h
    simp [Action.message, setDisk]

theorem World.processActions_cons {a : Action} : w.processActions id T answers (a :: as) =
    (w.processAction id T answers a).bind (·.processActions id T answers as) :=
  List.foldlM_cons

-- The messages are put in flight in the order in which they are sent.
theorem World.processActions_network (h : w.processActions id T answers as = some w') :
    w'.network = w.network ++ (as.filterMap Action.message).map ({ msg := ·, answers }) := by
  induction as generalizing w
  case nil =>
    cases h
    simp
  case cons a as hi =>
    rw [processActions_cons] at h
    obtain ⟨w₁, h₁, h⟩ := Option.bind_eq_some_iff.mp h
    rw [hi h, processAction_network h₁, List.append_assoc, ← List.map_append]
    cases hm : a.message <;> simp [hm]

theorem mem_messages {p : Packet}
    (h : p ∈ (as.filterMap Action.message).map ({ msg := ·, answers })) : .send p.msg ∈ as := by
  obtain ⟨msg, hm, rfl⟩ := List.mem_map.mp h
  obtain ⟨a, ha, hmsg⟩ := List.mem_filterMap.mp hm
  cases a
  case send =>
    cases hmsg
    exact ha
  all_goals cases hmsg

-- What a call gets done.
def executed (cut : Option ℕ) (as : List Action) : List Action :=
  cut.elim as as.take

theorem executed_isPrefix (cut : Option ℕ) (as : List Action) : executed cut as <+: as := by
  cases cut
  case none   => exact List.prefix_rfl
  case some k => exact as.take_prefix k

theorem step_sends (h : C.step s ev = some s') : ∃ new, s'.network = s.network ++ new ∧
    ∀ p ∈ new, ∃ id input cut o, ev = .call id input cut ∧ s.call id input = some o ∧
      .send p.msg ∈ executed cut o.2 := by
  have hrestart {s : State} {id : NodeId} (h : C.restart s id = some s') : s'.network = s.network := by
    obtain ⟨node, _, h⟩ := Option.bind_eq_some_iff.mp h
    cases h
    rfl
  rcases ev with ⟨id, input, cut⟩ | id
  all_goals
    simp only [step] at h
    split at h
    case isFalse => contradiction
  case restart.isTrue => exact ⟨[], by simp [hrestart h], by simp⟩
  case call.isTrue =>
    obtain ⟨o, hcall, h⟩ := Option.bind_eq_some_iff.mp h
    cases cut
    all_goals
      obtain ⟨w, hw, h⟩ := Option.bind_eq_some_iff.mp h
      have hn := World.processActions_network hw
    case none =>
      cases h
      exact ⟨_, hn, fun p hp => ⟨_, _, _, o, rfl, hcall, mem_messages hp⟩⟩
    case some => exact ⟨_, (hrestart h).trans hn, fun p hp => ⟨_, _, _, o, rfl, hcall, mem_messages hp⟩⟩

/-! ### What a step does to the term of a node -/

theorem World.processActions_hardState (h : w.processActions id T answers as = some w') :
    (w'.disks id).hardState = lastHardState (w.disks id).hardState as := by
  induction as generalizing w
  case nil =>
    cases h
    rfl
  case cons a as hi =>
    rw [processActions_cons] at h
    obtain ⟨w₁, h₁, h⟩ := Option.bind_eq_some_iff.mp h
    rw [hi h, processAction_hardState h₁, ← lastHardState_append]
    rfl

theorem restart_disks (h : C.restart s id = some s') : s'.disks = s.disks := by
  obtain ⟨node, _, h⟩ := Option.bind_eq_some_iff.mp h
  cases h
  rfl

-- A call writes to the disk of its node what it gets done.
theorem call_disks {o : Outcome} (h : C.step s (.call id input cut) = some s')
    (hcall : s.call id input = some o) : ∃ w, (s.record id (s.nodes id) o.1).processActions id
      o.1.currentTerm (s.handled input) (executed cut o.2) = some w ∧ s'.disks = w.disks := by
  simp only [step] at h
  split at h
  case isFalse => contradiction
  case isTrue  =>
    obtain ⟨_, hcall', h⟩ := Option.bind_eq_some_iff.mp h
    cases hcall.symm.trans hcall'
    cases cut
    all_goals obtain ⟨w, hw, h⟩ := Option.bind_eq_some_iff.mp h
    case none =>
      cases h
      exact ⟨w, hw, rfl⟩
    case some => exact ⟨w, hw, restart_disks h⟩

theorem call_hardState {o : Outcome} (h : C.step s (.call id input cut) = some s')
    (hcall : s.call id input = some o) :
    (s'.disks id).hardState = lastHardState (s.disks id).hardState (executed cut o.2) := by
  obtain ⟨w, hw, hd⟩ := call_disks h hcall
  have hhs := World.processActions_hardState hw
  rw [hd, hhs]
  rfl

-- A step writes to the disk of one node, by the actions of a call.
theorem step_hardState (id : NodeId) (h : C.step s ev = some s') :
    (s'.disks id).hardState = (s.disks id).hardState ∨
      ∃ input cut o, ev = .call id input cut ∧ s.call id input = some o ∧
        (s'.disks id).hardState = lastHardState (s.disks id).hardState (executed cut o.2) := by
  rcases ev with ⟨id', input, cut⟩ | id'
  case restart =>
    simp only [step] at h
    split at h
    case isFalse => contradiction
    case isTrue  => exact .inl <| by rw [restart_disks h]
  case call =>
    have hstep := h
    simp only [step] at h
    split at h
    case isFalse => contradiction
    case isTrue  =>
      obtain ⟨o, hcall, _⟩ := Option.bind_eq_some_iff.mp h
      by_cases hne : id = id'
      case neg =>
        obtain ⟨w, hw, hd⟩ := call_disks hstep hcall
        rw [hd]
        exact .inl <| congrArg _ <| ((World.grows _).run hw).right.disks id hne
      case pos =>
        subst hne
        exact .inr ⟨input, cut, o, rfl, hcall, call_hardState hstep hcall⟩

-- A node stays in its term, unless the step is a call of the node. The call may be cut.
theorem step_currentTerm (r : C.system.Reachable guard s) (hid : id ∈ C.members)
    (h : C.step s ev = some s') : (s'.nodes id).currentTerm = (s.nodes id).currentTerm ∨
      ∃ input cut o, ev = .call id input cut ∧ s.call id input = some o ∧
        (s.nodes id).currentTerm ≤ (s'.nodes id).currentTerm ∧
        (s'.nodes id).currentTerm ≤ o.1.currentTerm := by
  have hm := ((voteLayer C _).invariant r).memory id hid
  have r' : C.system.Reachable (fun _ _ => True) s' := (r.mono fun _ _ _ => trivial).step trivial h
  have hm' := ((voteLayer C _).invariant r').memory id hid
  rcases step_hardState id h with hd | ⟨input, cut, o, hev, hcall, hd⟩
  case inl =>
    exact .inl <| congrArg Prod.fst <| (hm'.hardState.symm.trans hd).trans hm.hardState
  case inr =>
    refine .inr ⟨input, cut, o, hev, hcall, ?_⟩
    obtain ⟨hsafe, hlast⟩ := (State.call_kernel hcall).safe
    obtain ⟨rest, hrest⟩ := executed_isPrefix cut o.2
    rw [← hrest, VoteSafe.append] at hsafe
    rw [← hrest, lastHardState_append] at hlast
    rw [hm'.hardState, hm.hardState] at hd
    have hle := hsafe.left.last_le
    have hle' := hsafe.right.last_le
    rw [hlast] at hle'
    rw [← hd] at hle hle'
    have hterm : ∀ node : RaftNode, node.kernel.hardState.1 = node.currentTerm := fun _ => rfl
    simp only [hterm] at hle hle'
    omega

theorem currentTerm_le (r : C.system.Reachable guard s) (hid : id ∈ C.members) (h : C.step s ev = some s') :
    (s.nodes id).currentTerm ≤ (s'.nodes id).currentTerm := by
  rcases step_currentTerm r hid h with ht | ⟨_, _, _, _, _, hle, _⟩
  · exact ht.ge
  · exact hle

/-! ### The terms of messages -/

-- Once a message has been sent, the call writes no more.
theorem lastHardState_executed {hs : HardState} {msg : Message} (h : PersistsFirst as)
    (hm : .send msg ∈ executed cut as) : lastHardState hs (executed cut as) = lastHardState hs as := by
  obtain ⟨rest, hrest⟩ := executed_isPrefix cut as
  obtain ⟨pre, post, he⟩ := List.append_of_mem hm
  rw [he, List.append_assoc, List.cons_append] at hrest
  rw [he, ← hrest]
  have hwhole : PersistsFirst (pre ++ .send msg :: (post ++ rest)) := hrest ▸ h
  have hpart : PersistsFirst (pre ++ .send msg :: post) := by
    refine hwhole.sublist ?_
    exact (List.Sublist.refl pre).append <| (List.sublist_append_left post rest).cons_cons _
  rw [hwhole.lastHardState_pre, hpart.lastHardState_pre]

-- The node has stored its term before it sends, so that it also keeps it if the call is cut.
theorem currentTerm_of_send {o : Outcome} {msg : Message} (r : C.system.Reachable guard s)
    (hid : id ∈ C.members) (h : C.step s (.call id input cut) = some s')
    (hcall : s.call id input = some o) (hm : .send msg ∈ executed cut o.2) :
    (s'.nodes id).currentTerm = o.1.currentTerm := by
  have r' : C.system.Reachable (fun _ _ => True) s' :=
    (r.mono fun _ _ _ => trivial).step (e := .call id input cut) trivial h
  have hkept := ((voteLayer C _).invariant r).memory id hid
  have hkept' := ((voteLayer C _).invariant r').memory id hid
  have hk := State.call_kernel hcall
  have hhs := call_hardState h hcall
  rw [lastHardState_executed hk.persists.first hm, hkept.hardState, hk.safe.right, hkept'.hardState] at hhs
  exact congrArg Prod.fst hhs

-- A member sends in its own name, and in a term that it has reached.
theorem sent_in_term (r : C.system.Reachable guard s) {p : Packet} (hp : p ∈ s.network) :
    p.msg.sender ∈ C.members ∧
      (p.msg.term ≤ (s.nodes p.msg.sender).currentTerm ∨ p.msg.kind.isPreVote) := by
  induction r
  case init => simp [system, init] at hp
  case step s s' ev r _ hs hi =>
    replace hs : C.step s ev = some s' := hs
    obtain ⟨new, hnew, hsends⟩ := step_sends hs
    rw [hnew] at hp
    rcases List.mem_append.mp hp with hp | hp
    case inl =>
      obtain ⟨hid, ht⟩ := hi hp
      exact ⟨hid, ht.imp_left (·.trans <| currentTerm_le r hid hs)⟩
    case inr =>
      obtain ⟨id, input, cut, o, rfl, hcall, hsend⟩ := hsends p hp
      have hid : id ∈ C.members := mem_of_step hs
      have hm := ((voteLayer C _).invariant r).memory id hid
      have hname : o.1.id = id := (State.call_kernel hcall).id_eq.left.trans hm.id_eq
      have hterm := currentTerm_of_send r hid hs hcall hsend
      rw [State.call_eq_invoke] at hcall
      obtain ⟨call, _, hinvoke⟩ := Option.bind_eq_some_iff.mp hcall
      obtain ⟨hsender, hstamp⟩ := RaftNode.invoke_stamps hinvoke _ <| (executed_isPrefix cut o.2).subset hsend
      rw [hsender.trans hname, hterm]
      exact ⟨hid, hstamp.imp_left le_of_eq⟩

-- Of the messages, only those are delivered that satisfy `D`.
def State.Delivers (D : Message → Prop) (s : State) : Event → Prop
  | .call _ (.deliver n) _ => ∀ p ∈ s.network[n]?, D p.msg
  | _                      => True

instance {D : Message → Prop} [DecidablePred D] : Decidable (s.Delivers D ev) := by
  unfold State.Delivers
  split <;> infer_instance

theorem State.invocation_step {msg : Message} (h : s.invocation id input = some (.step msg))
    (hk : ¬msg.kind.isClient) :
    ∃ n p, input = .deliver n ∧ s.network[n]? = some p ∧ p.msg = msg ∧ msg.receiver = id := by
  cases input
  case deliver n =>
    obtain ⟨p, hp, h⟩ := Option.bind_eq_some_iff.mp h
    split at h
    case isFalse => contradiction
    case isTrue hrcv =>
      cases Invocation.step.inj <| Option.some.inj h
      exact ⟨n, p, rfl, hp, rfl, hrcv⟩
  case request =>
    cases h
    simp [MessageKind.isClient] at hk
  all_goals cases h

end RaftRupee.Cluster
