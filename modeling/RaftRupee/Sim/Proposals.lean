import RaftRupee.Core.Applying
import RaftRupee.Core.Entries
import RaftRupee.Lib.Prefix
import RaftRupee.Sim.Steps
import RaftRupee.Sim.Sync

namespace RaftRupee

/-! ### The entries on a disk -/

namespace StableDisk

variable {disk disk' : StableDisk} {log log' : List LogEntry} {e f : LogEntry} {es : List LogEntry}

theorem appendEntry_tail (h : appendEntry log e = some log') : ∀ f ∈ log'.tail, f ∈ log.tail ∨ f = e := by
  intro f hf
  cases log
  case nil => cases h
  case cons base rest =>
    simp only [appendEntry] at h
    split at h
    case isTrue =>
      cases h
      exact .inl hf
    case isFalse =>
      split at h
      all_goals
        split at h <;> cases h
      case h_1.isTrue =>
        rcases Nat.eq_zero_or_pos (e.index - base.index) with hz | hp
        · simp [hz] at hf
        · obtain ⟨n, hn⟩ := Nat.exists_eq_succ_of_ne_zero hp.ne'
          simp only [hn, List.take_succ_cons, List.cons_append, List.tail_cons, List.mem_append,
            List.mem_singleton] at hf
          exact hf.imp_left List.mem_of_mem_take
      case h_1.isFalse => exact .inl hf
      case h_2.isTrue  => simpa using hf

theorem appendEntry_fold_tail (h : es.foldlM appendEntry log = some log') :
    ∀ f ∈ log'.tail, f ∈ log.tail ∨ f ∈ es := by
  induction es generalizing log
  case nil =>
    cases h
    exact fun _ => .inl
  case cons e es hi =>
    rw [List.foldlM_cons] at h
    obtain ⟨log₁, h₁, h⟩ := Option.bind_eq_some_iff.mp h
    intro f hf
    rcases hi h f hf with hf | hf
    · exact (appendEntry_tail h₁ f hf).imp_right fun he => List.mem_cons.mpr (.inl he)
    · exact .inr (List.mem_cons_of_mem _ hf)

theorem appendEntries_tail (h : disk.appendEntries es = some disk') :
    ∀ f ∈ disk'.logEntries.tail, f ∈ disk.logEntries.tail ∨ f ∈ es := by
  obtain ⟨log, hl, h⟩ := Option.bind_eq_some_iff.mp h
  cases h
  exact appendEntry_fold_tail hl

theorem truncateAndAppend_tail {i : ℕ} (h : disk.truncateAndAppend i es = some disk') :
    ∀ f ∈ disk'.logEntries.tail, f ∈ disk.logEntries.tail ∨ f ∈ es := by
  unfold truncateAndAppend at h
  split at h
  case h_1 => contradiction
  case h_2 base rest hl =>
    split at h
    case isFalse => contradiction
    case isTrue  =>
      intro f hf
      refine (appendEntries_tail h f hf).imp_left fun hf => ?_
      rw [hl] at hf ⊢
      cases hn : i - base.index
      case zero   => simp [hn] at hf
      case succ n => exact List.mem_of_mem_take (by simpa [hn] using hf)

theorem writeSnapshot_tail {snap : SnapshotMeta} {data : Command}
    (h : disk.writeSnapshot snap data = some disk') :
    ∀ f ∈ disk'.logEntries.tail, f ∈ disk.logEntries.tail := by
  unfold writeSnapshot at h
  split at h
  case h_1 => contradiction
  case h_2 base rest hl =>
    dsimp only at h
    intro f hf
    split at h
    case isFalse =>
      cases h
      exact hf
    case isTrue =>
      split at h <;> cases h
      case isTrue  => cases hf
      case isFalse =>
        rw [List.tail_cons, List.tail_drop, hl, List.drop_succ_cons] at hf
        exact hl ▸ List.mem_of_mem_drop hf

theorem reconstructedLog_rest {log : RaftLog} (h : disk.reconstructedLog = some log) :
    log.rest = disk.logEntries.tail := by
  obtain ⟨_, hL, _⟩ := reconstructedLog_spec h
  rw [hL, List.tail_cons]

end StableDisk

namespace Cluster

variable {C : Cluster} {P : LogEntry → Prop} {guard : State → Event → Prop} {s s' : State} {w w' : World}
variable {es es' es₁ es₂ : List Event} {id : NodeId} {input : Input} {cut : Option ℕ} {node : RaftNode}
variable {a : Action} {as : List Action} {e e₁ e₂ : LogEntry} {T : ℕ} {answers : Option Message}

/-! ### Where entries come from -/

-- Every entry on a disk, in a message or given to a state machine has property `P`, and no message asks
-- for a command to be appended.
structure World.Sourced (C : Cluster) (P : LogEntry → Prop) (w : World) : Prop where
  disks    : ∀ id ∈ C.members, ∀ e ∈ (w.disks id).logEntries.tail, P e
  messages : ∀ p ∈ w.network, ∀ e ∈ p.msg.kind.entries, P e
  applied  : ∀ a ∈ w.applied, P a.entry
  requests : ∀ p ∈ w.network, ¬(Action.send p.msg).isRequest

theorem World.Sourced.setDisk {disk : StableDisk} (h : w.Sourced C P)
    (hd : ∀ e ∈ disk.logEntries.tail, e ∈ (w.disks id).logEntries.tail ∨ P e) :
    (w.setDisk id disk).Sourced C P where
  messages := h.messages
  applied  := h.applied
  requests := h.requests
  disks id' hid e he := by
    by_cases hne : id' = id
    case neg => exact h.disks id' hid e (by simpa [World.setDisk, hne] using he)
    case pos =>
      subst hne
      exact (hd e (by simpa [World.setDisk] using he)).elim (h.disks id' hid e) fun h => h

theorem World.Sourced.processAction (h : w.Sourced C P) (ha : ∀ e ∈ a.entries, P e) (hr : ¬a.isRequest)
    (hexec : w.processAction id T answers a = some w') : w'.Sourced C P := by
  cases a
  case send msg =>
    cases hexec
    refine ⟨h.disks, fun p hp => ?_, h.applied, fun p hp => ?_⟩
    all_goals rcases List.mem_append.mp hp with hp | hp
    case refine_1.inl => exact h.messages p hp
    case refine_2.inl => exact h.requests p hp
    all_goals obtain rfl := List.mem_singleton.mp hp
    case refine_1.inr => exact ha
    case refine_2.inr => exact hr
  case apply es =>
    cases hexec
    refine ⟨h.disks, h.messages, fun b hb => ?_, h.requests⟩
    rcases List.mem_append.mp hb with hb | hb
    · exact h.applied b hb
    · obtain ⟨e, he, rfl⟩ := List.mem_map.mp hb
      exact ha e he
  case persistHardState term votedFor =>
    cases hexec
    exact h.setDisk fun _ => .inl
  all_goals
    obtain ⟨disk, hd, hw⟩ := Option.map_eq_some_iff.mp hexec
    cases hw
  case appendEntries =>
    exact h.setDisk fun e he => (StableDisk.appendEntries_tail hd e he).imp_right (ha e)
  case truncateAndAppend =>
    exact h.setDisk fun e he => (StableDisk.truncateAndAppend_tail hd e he).imp_right (ha e)
  case persistSnapshot => exact h.setDisk fun e he => .inl <| StableDisk.writeSnapshot_tail hd e he

-- Each entry that a leader creates has property `P`.
def State.CreatesOnly (P : LogEntry → Prop) (s : State) (ev : Event) : Prop :=
  ∀ id input cut node as e, ev = .call id input cut → s.call id input = some (node, as) →
    .appendEntries [e] ∈ as → P e

def entryLayer (C : Cluster) (P : LogEntry → Prop) (guard : State → Event → Prop)
    (hP : ∀ s ev, guard s ev → s.CreatesOnly P ev) : Layer C guard where
  world        := World.Sourced C P
  memory _ _ k := ∀ e ∈ k.log.rest, P e
  init         := ⟨by simp [init, StableDisk.new], by simp [init], by simp [init], by simp [init]⟩
  spawn hw hid hn := by
    obtain ⟨log, hl, hn⟩ := Option.bind_eq_some_iff.mp hn
    cases hn
    exact fun e he => hw.disks _ hid e (StableDisk.reconstructedLog_rest hl ▸ he)
  call {s id input cut node as} _ hw hm hid hg hcall := by
    have hk := State.call_kernel hcall
    have carried {e} (hc : (s.cause input).Carries e) : P e := by
      obtain ⟨msg, hmsg, he⟩ := hc
      obtain ⟨_, packet, _, hp, rfl, _⟩ := State.cause_handle hcall hmsg
      exact hw.messages packet (List.mem_of_getElem? hp) e he
    have hlog : ∀ e ∈ node.log.rest, P e := by
      intro e he
      rcases hk.log_entries e he with he | hc | ha
      · exact hm id hid e he
      · exact carried hc
      · exact hP _ _ hg _ _ _ _ _ _ rfl hcall ha
    have hstart : (s.record id (s.nodes id) node).Sourced C P :=
      ⟨hw.disks, hw.messages, hw.applied, hw.requests⟩
    refine (Crash.Sound.all (D := World.Sourced C P) (fun _ h => h) ?_ hstart).mono
      (fun _ hw => ⟨hw, fun id' hid' _ => hm id' hid'⟩) fun _ _ _ => hlog
    intro w w' a ha hw hexec
    exact hw.processAction (fun e he => (hk.entries_mem a ha e he).elim (hlog e) carried)
      (hk.not_request a ha) hexec

-- The entry is in the log of a node, on its disk or in a message, or it has been applied.
def State.Has (C : Cluster) (s : State) (e : LogEntry) : Prop :=
  (∃ id ∈ C.members, e ∈ (s.nodes id).log.rest ∨ e ∈ (s.disks id).logEntries.tail) ∨
    (∃ p ∈ s.network, e ∈ p.msg.kind.entries) ∨ ∃ a ∈ s.applied, a.entry = e

theorem State.Has.sourced {hP : ∀ s ev, guard s ev → s.CreatesOnly P ev}
    (h : (entryLayer C P guard hP).Holds s) (he : s.Has C e) : P e := by
  rcases he with ⟨id, hid, he | he⟩ | ⟨p, hp, he⟩ | ⟨a, ha, rfl⟩
  · exact h.memory id hid e he
  · exact h.world.disks id hid e he
  · exact h.world.messages p hp e he
  · exact h.world.applied a ha

-- The command that the environment proposes.
def Input.proposal : Input → Option Command
  | propose command | request _ _ command => some command
  | _                                     => none

def Event.proposal : Event → Option Command
  | call _ input _ => input.proposal
  | restart _      => none

theorem State.invocation_proposal {call : Invocation} (h : ∀ p ∈ s.network, ¬(Action.send p.msg).isRequest)
    (hc : s.invocation id input = some call) : call.proposal = input.proposal := by
  cases input
  case deliver n =>
    obtain ⟨packet, hp, hc⟩ := Option.bind_eq_some_iff.mp hc
    split at hc
    case isFalse => contradiction
    case isTrue  =>
      cases hc
      have hnot := h packet (List.mem_of_getElem? hp)
      obtain ⟨⟨_, _, _, kind⟩, _⟩ := packet
      cases kind
      case clientRequest => exact absurd rfl hnot
      all_goals rfl
  all_goals
    cases hc
    rfl

-- A call of the node creates the entry: as the leader of its term it appends the command that it is asked
-- to append, or none, to the end of its log.
def State.Creates (s : State) (id : NodeId) (input : Input) (e : LogEntry) : Prop :=
  ∃ node as, s.call id input = some (node, as) ∧ .appendEntries [e] ∈ as ∧ node.role = .leader ∧
    e.term = node.currentTerm ∧ e.index = (s.nodes id).log.lastIndex + 1 ∧
    (e.command = [] ∨ input.proposal = some e.command)

-- The last step of the run does so.
def Created (C : Cluster) (es : List Event) (e : LogEntry) : Prop :=
  ∃ before s id input cut, es = before ++ [.call id input cut] ∧
    C.system.Trace (fun _ _ => True) before s ∧ s.Creates id input e

theorem State.creates (h : ∀ p ∈ s.network, ¬(Action.send p.msg).isRequest)
    (hcall : s.call id input = some (node, as)) (ha : .appendEntries [e] ∈ as) : s.Creates id input e := by
  obtain ⟨f, hf, hc⟩ := (State.call_kernel hcall).creates ha
  obtain rfl : e = f := by simpa using hf
  refine ⟨node, as, hcall, ha, hc.role, hc.term, hc.index, ?_⟩
  rw [State.call_eq_invoke] at hcall
  obtain ⟨call, hi, hcall⟩ := Option.bind_eq_some_iff.mp hcall
  exact State.invocation_proposal h hi ▸ RaftNode.invoke_command hcall ha

-- Whatever is found in a log, on a disk, in a message or in a state machine has been created in the run.
theorem State.Has.created (he : s.Has C e) (t : C.system.Trace (fun _ _ => True) es s) :
    ∃ es', es' <+: es ∧ Created C es' e := by
  let P (e : LogEntry) := ∃ es', es' <+: es ∧ Created C es' e
  have hguard : C.system.Trace (State.CreatesOnly P) es s := by
    refine t.strengthen fun es' s ev hpre t' _ id input cut node as e hev hcall ha => ?_
    subst hev
    have hs := (entryLayer C (fun _ => True) (fun _ _ => True) fun _ _ _ _ _ _ _ _ _ _ _ _ => trivial).invariant
      t'.reachable
    exact ⟨_, hpre, es', s, id, input, cut, rfl, t', State.creates hs.world.requests hcall ha⟩
  exact he.sourced <| (entryLayer C P _ fun _ _ h => h).invariant hguard.reachable

-- A leader of the entry's term has created it at the end of its log, and its command is the one proposed in
-- that call, if it has one.
theorem entries_created (t : C.system.Trace (fun _ _ => True) es s) (he : s.Has C e) :
    ∃ before s₁ id input cut node as, before ++ [.call id input cut] <+: es ∧
      C.system.Trace (fun _ _ => True) before s₁ ∧ s₁.call id input = some (node, as) ∧
      .appendEntries [e] ∈ as ∧ node.role = .leader ∧ e.term = node.currentTerm ∧
      e.index = (s₁.nodes id).log.lastIndex + 1 ∧ (e.command = [] ∨ input.proposal = some e.command) := by
  obtain ⟨_, hpre, before, s₁, id, input, cut, rfl, t₁, node, as, hcall, hcreates⟩ := he.created t
  exact ⟨before, s₁, id, input, cut, node, as, hpre, t₁, hcall, hcreates⟩

-- Node 1 is elected, and appends a command that node 2 gets from it.
def proposingRun : List Event :=
  [.tick 1, .tick 1, .deliver 2 0, .deliver 1 2, .deliver 2 3, .deliver 1 5, .propose 1 [7], .deliver 2 8]

theorem entries_created_three : ∃ before id input cut,
    before ++ [.call id input cut] <+: proposingRun ∧ input.proposal = some [7] := by
  have t := TransitionSystem.trace_run (T := (ofSize 3 (by decide)).system) (fun _ _ => True)
    proposingRun (by decide +kernel)
  obtain ⟨before, _, id, input, cut, _, _, hpre, _, _, _, _, _, _, hc⟩ := entries_created
    (e := { index := 2, term := 1, command := [7] }) t <| .inl ⟨2, by decide, .inl <| by decide +kernel⟩
  exact ⟨before, id, input, cut, hpre, hc.resolve_left (by simp)⟩

/-! ### Entries are created once -/

-- A node wins the election of a term once.
theorem leads_still (hn : 1 < C.members.card) (r : C.system.Reachable guard s) (hid : id ∈ C.members)
    (hcall : s.call id input = some (node, as)) (hr : node.role = .leader)
    (hel : ∃ el ∈ s.elections, el.node = id ∧ el.term = node.currentTerm) :
    (s.nodes id).role = .leader ∧ node.currentTerm = (s.nodes id).currentTerm := by
  have hm := ((voteLayer C _).invariant r).memory id hid
  obtain ⟨el, hel, hnode, hterm⟩ := hel
  rcases (State.call_kernel hcall).leader hr with h | ⟨hcand, ht, _⟩ | ⟨_, hp, _⟩
  · exact h
  · exact absurd (hterm.trans ht) (hm.pending hcand el hel hnode).ne
  · have := peers_length hid
    rw [← hm.peers_eq, hp] at this
    simp at this
    omega

-- The node has been elected in the term of the entry, and its log reaches the entry as long as it leads.
structure State.Credits (s : State) (id : NodeId) (e : LogEntry) : Prop where
  elected : ∃ el ∈ s.elections, el.node = id ∧ el.term = e.term
  reached : (s.nodes id).role = .leader → (s.nodes id).currentTerm = e.term →
    e.index ≤ (s.nodes id).log.lastIndex

theorem contiguous_log (r : C.system.Reachable (fun s e => s.compactsWithin e) s) (hid : id ∈ C.members) :
    (s.nodes id).log.Contiguous :=
  (((syncLayer C False (fun _ _ h => h) fun _ _ _ h => h.elim).invariant r).memory id hid).contiguous

theorem State.Credits.step {ev : Event} (h : s.Credits id e) (hn : 1 < C.members.card)
    (r : C.system.Reachable (fun s e => s.compactsWithin e) s) (hid : id ∈ C.members)
    (hs : C.step s ev = some s') : s'.Credits id e where
  elected := h.elected.imp fun _ => .imp_left (step_elections hs ·)
  reached hr ht := by
    rcases step_node hs id with ⟨_, he⟩ | ⟨input, actions, _, hcall⟩ | ⟨disk, hspawn⟩
    · rw [he] at hr ht ⊢
      exact h.reached hr ht
    · obtain ⟨hr', ht'⟩ := leads_still hn r hid hcall hr (ht ▸ h.elected)
      have hc := contiguous_log r hid
      obtain ⟨hc', happ⟩ := (State.call_kernel hcall).appendOnly hc hr
      exact (h.reached hr' (ht'.symm.trans ht)).trans (happ.lastIndex_le hc hc')
    · exact absurd hr (by simp [(StableDisk.spawnNode_follower hspawn).left])

theorem State.Creates.credits (h : s.Creates id input e) (r : C.system.Reachable guard s)
    (hs : C.step s (.call id input cut) = some s') : s'.Credits id e := by
  obtain ⟨node, as, hcall, ha, hr, ht, hi, _⟩ := h
  have hid : id ∈ C.members := mem_of_step hs
  constructor
  case elected =>
    have hm := ((voteLayer C _).invariant r).memory id hid
    obtain ⟨el, hel, hnode, hterm⟩ := hm.elected_record hcall hr
    exact ⟨el, call_elections hs hcall ▸ hel, hnode, hterm.trans ht.symm⟩
  case reached =>
    intro hr' _
    rcases step_node hs id with ⟨hne, _⟩ | ⟨_, _, hev, hcall'⟩ | ⟨disk, hspawn⟩
    · exact absurd rfl hne
    · cases hev
      cases hcall.symm.trans hcall'
      obtain ⟨f, hf, hc⟩ := (State.call_kernel hcall).creates ha
      obtain rfl : e = f := by simpa using hf
      have hlog : (s'.nodes id).log = (s.nodes id).log.append [e] := hc.log
      rw [hlog, RaftLog.lastIndex, RaftLog.last, RaftLog.append, List.getLastD_concat]
    · exact absurd hr' (by simp [(StableDisk.spawnNode_follower hspawn).left])

-- The next entry that is created in the same term comes later in the log.
theorem State.Credits.lt {id' : NodeId} (h : s.Credits id e₁) (hn : 1 < C.members.card)
    (r : C.system.Reachable guard s) (hid : id' ∈ C.members) (hc : s.Creates id' input e₂)
    (ht : e₁.term = e₂.term) : e₁.index < e₂.index := by
  obtain ⟨node, as, hcall, _, hr, hterm, hi, _⟩ := hc
  obtain ⟨el, hel, hnode, helt⟩ := h.elected
  obtain rfl : id = id' :=
    hnode.symm.trans <| leader_unique r hid hcall hr el hel (helt.trans (ht.trans hterm))
  obtain ⟨hr', ht'⟩ := leads_still hn r hid hcall hr ⟨el, hel, hnode, helt.trans (ht.trans hterm)⟩
  have := h.reached hr' (ht'.symm.trans (hterm.symm.trans ht.symm))
  omega

theorem State.Credits.run (hn : 1 < C.members.card) (hid : id ∈ C.members)
    (h : ∀ s₁, C.system.Trace (fun s e => s.compactsWithin e) es₁ s₁ → s₁.Credits id e)
    (t : C.system.Trace (fun s e => s.compactsWithin e) es s) (hpre : es₁ <+: es) : s.Credits id e := by
  induction t
  case init =>
    cases List.prefix_nil.mp hpre
    exact h _ .init
  case step t hg hs hi =>
    rcases List.prefix_concat_iff.mp hpre with rfl | hpre
    · exact h _ (t.step hg hs)
    · exact (hi hpre).step hn t.reachable hid hs

theorem Created.last (h : Created C es e) (t : C.system.Trace guard es s') :
    ∃ before s id input cut, es = before ++ [.call id input cut] ∧ C.system.Trace guard before s ∧
      s.Creates id input e ∧ C.step s (.call id input cut) = some s' := by
  obtain ⟨before, s, id, input, cut, rfl, t₀, hc⟩ := h
  obtain ⟨s₁, t₁, _, hs⟩ := t.last
  cases t₀.unique t₁
  exact ⟨before, _, id, input, cut, rfl, t₁, hc, hs⟩

theorem Created.lt (hn : 1 < C.members.card) (t : C.system.Trace (fun s e => s.compactsWithin e) es₂ s)
    (hpre : es₁ <+: es₂) (hne : es₁ ≠ es₂) (h₁ : Created C es₁ e₁) (h₂ : Created C es₂ e₂)
    (ht : e₁.term = e₂.term) : e₁.index < e₂.index := by
  obtain ⟨before, s₂, id₂, input, cut, rfl, t₂, hc₂, hs₂⟩ := h₂.last t
  have hpre : es₁ <+: before := (List.prefix_concat_iff.mp hpre).resolve_left hne
  obtain ⟨s₁, t₁⟩ := t₂.of_prefix hpre
  obtain ⟨_, _, id₁, _, _, rfl, t₁', hc₁, hs₁⟩ := h₁.last t₁
  have hcredits : s₂.Credits id₁ e₁ := by
    refine .run hn (mem_of_step hs₁) (fun s₁' t' => ?_) t₂ hpre
    exact t₁.unique t' ▸ hc₁.credits t₁'.reachable hs₁
  exact hcredits.lt hn t₂.reachable (mem_of_step hs₂) hc₂ ht

theorem State.Creates.unique {input : Input} (h₁ : s.Creates id input e₁) (h₂ : s.Creates id input e₂) :
    e₁ = e₂ := by
  obtain ⟨node, as, hcall, ha₁, _⟩ := h₁
  obtain ⟨_, _, hcall', ha₂, _⟩ := h₂
  cases hcall.symm.trans hcall'
  obtain ⟨f₁, hf₁, hc₁⟩ := (State.call_kernel hcall).creates ha₁
  obtain ⟨f₂, hf₂, hc₂⟩ := (State.call_kernel hcall).creates ha₂
  have hlog := hc₁.log.symm.trans hc₂.log
  simp only [RaftLog.append, RaftLog.mk.injEq, true_and, List.append_cancel_left_eq] at hlog
  exact List.cons.inj (hf₁.trans (hlog.trans hf₂.symm)) |>.left

theorem Created.unique (h₁ : Created C es e₁) (h₂ : Created C es e₂) : e₁ = e₂ := by
  obtain ⟨_, _, _, _, _, rfl, t₁, hc₁⟩ := h₁
  obtain ⟨_, _, _, _, _, hes, t₂, hc₂⟩ := h₂
  obtain ⟨rfl, hev⟩ := List.append_singleton_inj.mp hes
  cases hev
  cases t₁.unique t₂
  exact hc₁.unique hc₂

-- The index and the term of an entry tell when it was created.
theorem created_once (hn : 1 < C.members.card) (t : C.system.Trace (fun s e => s.compactsWithin e) es s)
    (hpre₁ : es₁ <+: es) (hpre₂ : es₂ <+: es) (h₁ : Created C es₁ e₁) (h₂ : Created C es₂ e₂)
    (hi : e₁.index = e₂.index) (ht : e₁.term = e₂.term) : es₁ = es₂ ∧ e₁ = e₂ := by
  obtain ⟨s₁, t₁⟩ := t.of_prefix hpre₁
  obtain ⟨s₂, t₂⟩ := t.of_prefix hpre₂
  have he : es₁ = es₂ := by
    by_contra hne
    rcases List.prefix_or_prefix_of_prefix hpre₁ hpre₂ with hpre | hpre
    · exact absurd hi (Created.lt hn t₂ hpre hne h₁ h₂ ht).ne
    · exact absurd hi (Created.lt hn t₁ hpre (Ne.symm hne) h₂ h₁ ht.symm).ne'
  subst he
  exact ⟨rfl, h₁.unique h₂⟩

theorem State.Has.unique (h₁ : s.Has C e₁) (h₂ : s.Has C e₂) (hn : 1 < C.members.card)
    (r : C.system.Reachable (fun s e => s.compactsWithin e) s) (hi : e₁.index = e₂.index)
    (ht : e₁.term = e₂.term) : e₁ = e₂ := by
  obtain ⟨es, t⟩ := r.trace
  obtain ⟨es₁, hpre₁, hc₁⟩ := h₁.created (t.mono fun _ _ _ => trivial)
  obtain ⟨es₂, hpre₂, hc₂⟩ := h₂.created (t.mono fun _ _ _ => trivial)
  exact (created_once hn t hpre₁ hpre₂ hc₁ hc₂ hi ht).right

-- Entries of the same index and term are the same, wherever and whenever they are found in a run.
theorem entries_alike (hn : 1 < C.members.card)
    (t : C.system.Trace (fun s e => s.compactsWithin e) es s)
    (t' : C.system.Trace (fun s e => s.compactsWithin e) es' s') (hpre : es <+: es') (h₁ : s.Has C e₁)
    (h₂ : s'.Has C e₂) (hi : e₁.index = e₂.index) (ht : e₁.term = e₂.term) : e₁ = e₂ := by
  obtain ⟨es₁, hpre₁, hc₁⟩ := h₁.created (t.mono fun _ _ _ => trivial)
  obtain ⟨es₂, hpre₂, hc₂⟩ := h₂.created (t'.mono fun _ _ _ => trivial)
  exact (created_once hn t' (hpre₁.trans hpre) hpre₂ hc₁ hc₂ hi ht).right

-- Node 2 has the command in the same place as node 1 had it, which has crashed since.
theorem entries_alike_three : ∃ s s' : State, (∃ e ∈ (s.nodes 1).log.rest, e.index = 2 ∧ e.command = [7]) ∧
    ∀ e₁ ∈ (s.nodes 1).log.rest, ∀ e₂ ∈ (s'.nodes 2).log.rest, e₁.index = e₂.index →
      e₁.term = e₂.term → e₁ = e₂ := by
  let system := (ofSize 3 (by decide)).system
  have t := TransitionSystem.trace_run (T := system) (fun s e => s.compactsWithin e)
    proposingRun.dropLast (by decide +kernel)
  have t' := TransitionSystem.trace_run (T := system) (fun s e => s.compactsWithin e)
    (proposingRun ++ [.restart 1]) (by decide +kernel)
  refine ⟨_, _, ?_, fun e₁ he₁ e₂ he₂ => entries_alike (by decide) t t'
    ((List.dropLast_prefix _).trans (List.prefix_append ..)) (.inl ⟨1, by decide, .inl he₁⟩)
    (.inl ⟨2, by decide, .inl he₂⟩)⟩
  decide +kernel

-- A log has a command at most as often as it has been proposed.
theorem commands_proposed (t : C.system.Trace (fun s e => s.compactsWithin e) es s)
    (hid : id ∈ C.members) {command : Command} (hc : command ≠ []) :
    (s.nodes id).log.rest.countP (·.command = command) ≤ es.countP (·.proposal = some command) := by
  classical
  let held := (s.nodes id).log.rest.filter (·.command = command)
  have hcreated : ∀ e ∈ held, ∃ es', es' <+: es ∧ Created C es' e := fun e he =>
    State.Has.created (.inl ⟨id, hid, .inl (List.mem_filter.mp he).left⟩) (t.mono fun _ _ _ => trivial)
  choose! creation hpre hcreation using hcreated
  -- The entries of a log differ, and so do the calls that have created them.
  have hnodup : held.Nodup := by
    have hlt := List.pairwise_map.mp (contiguous_log t.reachable hid).pairwise
    exact (hlt.imp fun h he => absurd (congrArg LogEntry.index he) h.ne).filter _
  have hinj : Set.InjOn creation held.toFinset := by
    intro e he f hf hef
    have he := List.mem_toFinset.mp he
    have hf := List.mem_toFinset.mp hf
    exact (hcreation e he).unique (hef ▸ hcreation f hf)
  rw [List.countP_eq_length_filter, ← List.toFinset_card_of_nodup hnodup, ← Finset.card_image_of_injOn hinj]
  refine List.IsPrefix.card_le_countP _ fun q hq => ?_
  obtain ⟨e, he, rfl⟩ := Finset.mem_image.mp hq
  have he := List.mem_toFinset.mp he
  refine ⟨hpre e he, ?_⟩
  obtain ⟨before, _, id', input, cut, hes, _, _, _, _, _, _, _, _, hcmd⟩ := hcreation e he
  have hce : e.command = command := by simpa using (List.mem_filter.mp he).right
  refine ⟨before, _, hes, ?_⟩
  exact decide_eq_true (hce ▸ hcmd.resolve_left (hce ▸ hc))

theorem commands_proposed_three : ∃ s, (ofSize 3 (by decide)).system.Trace (fun s e => s.compactsWithin e)
    proposingRun s ∧ (s.nodes 2).log.rest.countP (·.command = [7]) ≤
      proposingRun.countP (·.proposal = some [7]) :=
  have t := TransitionSystem.trace_run (T := (ofSize 3 (by decide)).system) (fun s e => s.compactsWithin e)
    proposingRun (by decide +kernel)
  ⟨_, t, commands_proposed t (by decide) (by decide)⟩

end Cluster
end RaftRupee
