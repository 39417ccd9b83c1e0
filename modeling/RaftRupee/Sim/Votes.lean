import RaftRupee.Lib.Quorum
import RaftRupee.Sim.Layer

namespace RaftRupee

namespace StableDisk

variable {disk disk' : StableDisk}

def hardState (disk : StableDisk) : HardState :=
  (disk.currentTerm, disk.votedFor)

theorem appendEntries_hardState {es : List LogEntry} (h : disk.appendEntries es = some disk') :
    disk'.hardState = disk.hardState := by
  rw [appendEntries_frame h, hardState, hardState]

theorem truncateAndAppend_hardState {i : ℕ} {es : List LogEntry}
    (h : disk.truncateAndAppend i es = some disk') : disk'.hardState = disk.hardState := by
  rw [truncateAndAppend_frame h, hardState, hardState]

theorem writeSnapshot_hardState {snap : SnapshotMeta} {data : Command}
    (h : disk.writeSnapshot snap data = some disk') : disk'.hardState = disk.hardState := by
  rw [writeSnapshot_frame h, hardState, hardState]

end StableDisk

namespace Cluster

variable {C : Cluster} {guard : State → Event → Prop} {s : State} {w w' : World} {id c c' : NodeId}
variable {T : ℕ} {m : Cause} {answers : Option Message} {k k' : Kernel} {as : List Action}

theorem peers_length (h : id ∈ C.members) : (C.config id).peers.length + 1 = C.members.card := by
  have he : (C.config id).peers.toFinset = C.members.erase id := by
    ext peer
    simp [C.mem_peers h, and_comm]
  rw [← List.toFinset_card_of_nodup (C.peers_nodup id), he]
  exact Finset.card_erase_add_one h

theorem mem_majorities_of_card {q : Finset NodeId} (h : id ∈ C.members) (hs : q ⊆ C.members)
    (hq : ((C.config id).peers.length + 1) / 2 + 1 ≤ q.card) :
    q ∈ QuorumSystem.majorities C.members :=
  ⟨hs, by rwa [peers_length h] at hq⟩

namespace World

-- A message of node `id` shows that its vote in term `T` went to candidate `c`.
def Voted (w : World) (id : NodeId) (T : ℕ) (c : NodeId) : Prop :=
  ∃ p ∈ w.network, p.msg.sender = id ∧ p.msg.term = T ∧ p.msg.vote = some c

theorem Voted.mono (hn : w.network <+: w'.network) (h : w.Voted id T c) : w'.Voted id T c :=
  have ⟨p, hp, h⟩ := h
  ⟨p, hn.subset hp, h⟩

-- The majority behind a leader.
structure Won (C : Cluster) (w : World) (e : Election) : Prop where
  votes : ∃ q ∈ QuorumSystem.majorities C.members, ∀ id ∈ q, w.Voted id e.term e.node
  term  : e.term ≤ (w.disks e.node).currentTerm

structure VotesRecorded (C : Cluster) (w : World) : Prop where
  sender  : ∀ {id T c}, w.Voted id T c → id ∈ C.members
  -- A vote is on disk before it is sent, and stays there until the term is over.
  sent    : ∀ {id T c}, w.Voted id T c →
    T < (w.disks id).currentTerm ∨ (w.disks id).hardState = (T, some c)
  unique  : ∀ {id T c c'}, w.Voted id T c → w.Voted id T c' → c = c'
  members : ∀ e ∈ w.elections, e.node ∈ C.members
  won     : 1 < C.members.card → ∀ e ∈ w.elections, w.Won C e

-- What a node that is a candidate or the leader has.
structure Standing (C : Cluster) (w : World) (id : NodeId) (k : Kernel) : Prop where
  voters  : k.role = .candidate → ∀ v ∈ k.votesReceived, v ∈ C.members ∧ w.Voted v k.currentTerm id
  pending : k.role = .candidate → ∀ e ∈ w.elections, e.node = id → e.term < k.currentTerm
  elected : k.role = .leader → ∃ e ∈ w.elections, e.node = id ∧ e.term = k.currentTerm

structure VotesKept (C : Cluster) (w : World) (id : NodeId) (k : Kernel) : Prop
    extends Standing C w id k where
  id_eq     : k.id = id
  peers_eq  : k.peers = (C.config id).peers
  hardState : (w.disks id).hardState = k.hardState

-- What other nodes do does not concern a node.
theorem VotesKept.mono (h : w.VotesKept C id k) (hn : w.network <+: w'.network)
    (he : w.elections ⊆ w'.elections) (he' : ∀ e ∈ w'.elections, e.node = id → e ∈ w.elections)
    (hd : w'.disks id = w.disks id) : w'.VotesKept C id k where
  voters hr v hv     := (h.voters hr v hv).imp_right <| .mono hn
  pending hr e hm hi := h.pending hr e (he' e hm hi) hi
  elected hr         := (h.elected hr).imp fun _ => .imp_left (he ·)
  id_eq              := h.id_eq
  peers_eq           := h.peers_eq
  hardState          := hd ▸ h.hardState

/-! ### Executing actions -/

theorem processAction_hardState {a : Action} (h : w.processAction id T answers a = some w') :
    (w'.disks id).hardState = lastHardState (w.disks id).hardState [a] := by
  cases a
  case send  => cases h; rfl
  case apply => cases h; rfl
  case persistHardState =>
    cases h
    simp [setDisk, StableDisk.writeHardState, StableDisk.hardState, lastHardState]
  all_goals
    obtain ⟨_, hd, hw⟩ := Option.map_eq_some_iff.mp h
    cases hw
    simp only [setDisk, Function.update_self, lastHardState]
  case appendEntries     => exact StableDisk.appendEntries_hardState hd
  case truncateAndAppend => exact StableDisk.truncateAndAppend_hardState hd
  case persistSnapshot   => exact StableDisk.writeSnapshot_hardState hd

-- A vote that was not there before is on disk.
theorem Voted.of_processAction {a : Action} (h : w.processAction id T answers a = some w')
    (hs : VoteSafe id (w.disks id).hardState [a]) {v T' : ℕ} (hv : w'.Voted v T' c) :
    w.Voted v T' c ∨ v = id ∧ (w.disks id).hardState = (T', some c) := by
  obtain ⟨p, hp, hsender, hterm, hvote⟩ := hv
  rcases mem_network h hp with hp | ⟨rfl, _⟩
  case inl => exact .inl ⟨p, hp, hsender, hterm, hvote⟩
  case inr => exact .inr ⟨hsender.symm.trans hs.left.left, hterm ▸ hs.left.right c hvote⟩

theorem VotesRecorded.processAction {a : Action} (h : w.VotesRecorded C) (hid : id ∈ C.members)
    (ha : w.processAction id T answers a = some w')
    (hs : VoteSafe id (w.disks id).hardState [a]) : w'.VotesRecorded C := by
  have hg := Grows.processAction ha
  have new : ∀ {v T' c}, w'.Voted v T' c →
      w.Voted v T' c ∨ v = id ∧ (w.disks id).hardState = (T', some c) :=
    Voted.of_processAction ha hs
  -- The hard state on disk only moves on, for this node and all others.
  have hle : ∀ v, (w.disks v).currentTerm < (w'.disks v).currentTerm ∨
      (w.disks v).currentTerm = (w'.disks v).currentTerm ∧
        ((w.disks v).votedFor = none ∨ (w.disks v).votedFor = (w'.disks v).votedFor) := by
    intro v
    by_cases hv : v = id
    case neg => exact hg.disks v hv ▸ .inr ⟨rfl, .inr rfl⟩
    case pos =>
      have := hs.last_le
      rw [← processAction_hardState ha] at this
      exact hv ▸ this
  constructor
  case sender =>
    intro v T' c hv
    rcases new hv with hv | ⟨rfl, _⟩
    · exact h.sender hv
    · exact hid
  case sent =>
    intro v T' c hv
    have hold : T' < (w.disks v).currentTerm ∨ (w.disks v).hardState = (T', some c) := by
      rcases new hv with hv | ⟨rfl, hv⟩
      · exact h.sent hv
      · exact .inr hv
    have hv := hle v
    simp only [StableDisk.hardState, Prod.mk.injEq] at hold ⊢
    grind
  case unique =>
    intro v T' c c' hv hv'
    have old : ∀ {c c'}, w.Voted v T' c → (w.disks v).hardState = (T', some c') → c = c' := by
      intro c c' hv hd
      rcases h.sent hv with hlt | he
      · exact absurd (congrArg Prod.fst hd) hlt.ne'
      · simpa [he] using hd
    rcases new hv with ho | ⟨rfl, hn⟩ <;> rcases new hv' with ho' | ⟨hvid, hn'⟩
    · exact h.unique ho ho'
    · exact old ho (hvid ▸ hn')
    · exact (old ho' hn).symm
    · simpa [hn] using hn'
  case members => exact hg.elections ▸ h.members
  case won =>
    intro hc e he
    have hw := h.won hc e (hg.elections ▸ he)
    obtain ⟨q, hq, hv⟩ := hw.votes
    refine ⟨⟨q, hq, fun v hvq => (hv v hvq).mono hg.network⟩, hw.term.trans ?_⟩
    have := hle e.node
    omega

-- Executing the actions of a call keeps the votes, and leaves the hard state of its result on disk.
theorem VotesRecorded.execute (h : w.VotesRecorded C) (T : ℕ) (answers : Option Message)
    (hid : id ∈ C.members)
    (hs : VoteSafe id (w.disks id).hardState as) :
    Crash.Sound (World.processAction id T answers) (fun w' => w'.VotesRecorded C ∧ Grows id w w') w as
      fun w' => (w'.disks id).hardState = lastHardState (w.disks id).hardState as := by
  induction as generalizing w
  case nil => exact .nil ⟨h, .refl⟩ rfl
  case cons a as hi =>
    have hsplit : VoteSafe id _ ([a] ++ as) := hs
    obtain ⟨ha, has⟩ := VoteSafe.append.mp hsplit
    refine .cons ⟨h, .refl⟩ fun w₁ h₁ => ?_
    have hlast := processAction_hardState h₁
    have hg := Grows.processAction h₁
    refine (hi (h.processAction hid h₁ ha) (hlast ▸ has)).mono ?_ ?_
    · exact fun w₂ h₂ => ⟨h₂.left, hg.trans h₂.right⟩
    · intro w₂ _ h₂
      rw [h₂, hlast, ← lastHardState_append]
      rfl

end World

/-! ### The layer -/

variable {node : RaftNode} {input : Input}

theorem one_lt_card (hid : id ∈ C.members) (hp : (C.config id).peers ≠ []) :
    1 < C.members.card := by
  have := List.length_pos_of_ne_nil hp
  have := peers_length hid
  omega

theorem State.granted (h : s.VotesRecorded C) (hcall : s.call id input = some (node, as)) {v : NodeId}
    (hg : Granted (s.cause input) k v) : v ∈ C.members ∧ s.Voted v k.currentTerm id := by
  obtain ⟨msg, hm, hk, ht, hv⟩ := hg
  obtain ⟨_, packet, _, hp, hpm, hrcv⟩ := cause_handle hcall hm
  have hvoted : s.Voted v k.currentTerm id :=
    ⟨packet, List.mem_of_getElem? hp, hpm ▸ hv, hpm ▸ ht, by simp [Message.vote, hpm, hk, ← hrcv]⟩
  exact ⟨h.sender hvoted, hvoted⟩

-- The votes that a candidate has when it becomes leader are those of a majority.
theorem World.VotesKept.won (h : s.VotesRecorded C) (hm : s.VotesKept C id (s.nodes id).kernel)
    (hid : id ∈ C.members) (hcall : s.call id input = some (node, as)) (hc : 1 < C.members.card)
    (hr : (s.nodes id).role ≠ .leader) (hr' : node.role = .leader) :
    (∃ q ∈ QuorumSystem.majorities C.members, ∀ v ∈ q, s.Voted v node.currentTerm id) ∧
      node.currentTerm ≤ (s.disks id).currentTerm := by
  rcases (State.call_kernel hcall).leader hr' with hl | ⟨hcand, ht, q, hq, hv⟩ | ⟨_, hp, _⟩
  case inl => exact absurd hl.left hr
  case inr.inr =>
    have := peers_length hid
    rw [← hm.peers_eq, hp] at this
    simp at this
    omega
  case inr.inl =>
    have hterm : node.currentTerm = (s.nodes id).currentTerm := ht
    have hvote : ∀ v ∈ q, v ∈ C.members ∧ s.Voted v node.currentTerm id := by
      intro v hvq
      rw [hterm]
      rcases hv v hvq with hv | hv
      · exact hm.voters hcand v hv
      · exact State.granted h hcall hv
    refine ⟨⟨q, mem_majorities_of_card hid (fun v hvq => (hvote v hvq).left) ?_, ?_⟩, ?_⟩
    · exact hm.peers_eq ▸ hq
    · exact fun v hvq => (hvote v hvq).right
    · exact (hterm.trans (congrArg Prod.fst hm.hardState).symm).le

theorem World.elections_record (w : World) (id : NodeId) (node node' : RaftNode) :
    w.elections ⊆ (w.record id node node').elections := by
  simp only [record]
  split <;> simp

theorem World.mem_record_elections {node node' : RaftNode} {e : Election}
    (he : e ∈ (w.record id node node').elections) : e ∈ w.elections ∨
      e = { node := id, term := node'.currentTerm, log := node'.log } ∧ node.role ≠ .leader ∧
        node'.role = .leader := by
  simp only [World.record] at he
  split at he
  case isFalse => exact .inl he
  case isTrue hr =>
    rcases List.mem_append.mp he with he | he
    · exact .inl he
    · cases List.mem_singleton.mp he
      exact .inr ⟨rfl, hr⟩

theorem World.VotesRecorded.record (h : s.VotesRecorded C)
    (hm : s.VotesKept C id (s.nodes id).kernel) (hid : id ∈ C.members)
    (hcall : s.call id input = some (node, as)) :
    (s.record id (s.nodes id) node).VotesRecorded C := by
  refine ⟨h.sender, h.sent, h.unique, fun e he => ?_, fun hc e he => ?_⟩
  all_goals rcases mem_record_elections he with he | ⟨rfl, hr, hr'⟩
  · exact h.members e he
  · exact hid
  · exact ⟨(h.won hc e he).votes, (h.won hc e he).term⟩
  · obtain ⟨hq, hle⟩ := hm.won h hid hcall hc hr hr'
    exact ⟨hq, hle⟩

theorem World.VotesKept.elected_record (hm : s.VotesKept C id (s.nodes id).kernel)
    (hcall : s.call id input = some (node, as)) (hr : node.role = .leader) :
    ∃ e ∈ (s.record id (s.nodes id) node).elections, e.node = id ∧ e.term = node.currentTerm := by
  by_cases hl : (s.nodes id).role = .leader
  case neg =>
    have hnew : (s.nodes id).role ≠ .leader ∧ node.role = .leader := ⟨hl, hr⟩
    simp only [record, hnew, and_self, ne_eq, not_false_eq_true, if_true]
    exact ⟨_, List.mem_append_right _ <| List.mem_singleton_self _, rfl, rfl⟩
  case pos =>
    have ht : node.currentTerm = (s.nodes id).currentTerm := by
      rcases (State.call_kernel hcall).leader hr with h | h | h
      · exact h.right
      · exact h.right.left
      · exact absurd hl h.left
    obtain ⟨e, he, hn, het⟩ := hm.elected hl
    exact ⟨e, elections_record _ _ _ _ he, hn, het.trans ht.symm⟩

theorem World.Standing.call (h : s.VotesRecorded C)
    (hm : s.VotesKept C id (s.nodes id).kernel) (hid : id ∈ C.members)
    (hcall : s.call id input = some (node, as)) (hn : s.network <+: w.network)
    (he : w.elections = (s.record id (s.nodes id) node).elections)
    (hs : ∀ msg, .send msg ∈ as → ∃ p ∈ w.network, p.msg = msg) :
    w.Standing C id node.kernel := by
  have hk := State.call_kernel hcall
  have hterm : (s.disks id).currentTerm = (s.nodes id).currentTerm := congrArg Prod.fst hm.hardState
  constructor
  case voters =>
    intro hr v hv
    rcases hk.candidate hr with ⟨hc, ht, hv'⟩ | ⟨_, _, hv', msg, hmsg, hsender, ht, hvote⟩
    case inl =>
      rw [ht]
      rcases hv' v hv with hv | hv
      · exact (hm.voters hc v hv).imp_right <| .mono hn
      · exact (State.granted h hcall hv).imp_right <| .mono hn
    case inr =>
      rw [hv', Finset.mem_singleton, hm.id_eq] at hv
      obtain ⟨p, hp, hpm⟩ := hs msg hmsg
      rw [hv]
      exact ⟨hid, p, hp, hpm ▸ hsender.trans hm.id_eq, hpm ▸ ht, hpm ▸ hvote.trans (by rw [hm.id_eq])⟩
  case pending =>
    intro hr e hmem hn
    rw [he] at hmem
    rcases mem_record_elections hmem with hmem | ⟨_, _, hl⟩
    case inr => exact absurd (hr.symm.trans hl) (by simp)
    case inl =>
      rcases hk.candidate hr with ⟨hc, ht, _⟩ | ⟨hlt, hp, _⟩
      · exact ht ▸ hm.pending hc e hmem hn
      · have := (h.won (one_lt_card hid (hm.peers_eq ▸ hp)) e hmem).term
        rw [hn, hterm] at this
        exact this.trans_lt hlt
  case elected =>
    intro hr
    exact he ▸ hm.elected_record hcall hr

def voteLayer (C : Cluster) (guard : State → Event → Prop) : Layer C guard where
  world  := World.VotesRecorded C
  memory := World.VotesKept C
  init   := by constructor <;> simp [World.Voted, init]
  spawn {w id node} _ _ hn := by
    obtain ⟨log, _, hn⟩ := Option.bind_eq_some_iff.mp hn
    cases hn
    refine ⟨⟨?_, ?_, ?_⟩, C.config_id id, rfl, rfl⟩ <;> intro h <;> cases h
  call {s id input cut node as} _ h hm hid _ hcall := by
    have hk := State.call_kernel hcall
    have hmid := hm id hid
    have hsafe := hk.safe
    rw [← hmid.hardState, hmid.id_eq] at hsafe
    have hexec := (h.record hmid hid hcall).execute node.currentTerm (s.handled input) hid hsafe.left
    refine (hexec.and <| World.sent _).mono (fun w ⟨⟨hw, hg⟩, _⟩ => ⟨hw, fun id' hid' hne => ?_⟩) ?_
    · refine (hm id' hid').mono hg.network ?_ ?_ <| hg.disks id' hne
      · exact hg.elections ▸ World.elections_record ..
      · intro e he hn
        rcases World.mem_record_elections (hg.elections ▸ he) with he | he
        · exact he
        · exact absurd (hn.symm.trans <| congrArg Election.node he.left) hne
    · rintro w ⟨⟨hw, hg⟩, _⟩ ⟨hd, hs⟩
      have hst := World.Standing.call h hmid hid hcall hg.network hg.elections
        fun msg hmsg => ⟨_, hs msg hmsg, rfl⟩
      exact ⟨hst, hk.id_eq.left.trans hmid.id_eq, hk.id_eq.right.trans hmid.peers_eq,
        hd.trans hsafe.right⟩

-- Two majorities share a node, which has voted once.
theorem World.VotesRecorded.election_unique (h : w.VotesRecorded C) {e e' : Election}
    (he : e ∈ w.elections) (he' : e' ∈ w.elections) (ht : e.term = e'.term) : e.node = e'.node := by
  by_cases hc : 1 < C.members.card
  case neg =>
    exact Finset.card_le_one.mp (not_lt.mp hc) _ (h.members e he) _ (h.members e' he')
  case pos =>
    obtain ⟨q, hq, hv⟩ := (h.won hc e he).votes
    obtain ⟨q', hq', hv'⟩ := (h.won hc e' he').votes
    obtain ⟨v, hvq, hvq'⟩ := QuorumSystem.inter _ hq hq'
    exact h.unique (hv v hvq) (ht ▸ hv' v hvq')

-- A node that is the leader after a call shares its term with no other leader.
theorem leader_unique {guard : State → Event → Prop} (r : C.system.Reachable guard s)
    (hid : id ∈ C.members) (hcall : s.call id input = some (node, as)) (hr : node.role = .leader) :
    ∀ e ∈ s.elections, e.term = node.currentTerm → e.node = id := by
  have h := (voteLayer C _).invariant r
  have hm := h.memory id hid
  obtain ⟨e, he, hn, ht⟩ := hm.elected_record hcall hr
  intro e' he' ht'
  have hrec := World.VotesRecorded.record h.world hm hid hcall
  exact (hrec.election_unique (World.elections_record _ _ _ _ he') he (ht'.trans ht.symm)).trans hn

-- Election safety: in each term at most one node ever becomes leader, and every leader is one that has
-- become leader in its term.
theorem election_safety (r : C.system.Reachable (fun _ _ => True) s) :
    (∀ e ∈ s.elections, ∀ e' ∈ s.elections, e.term = e'.term → e.node = e'.node) ∧
      ∀ id ∈ C.members, (s.nodes id).role = .leader →
        ∃ e ∈ s.elections, e.node = id ∧ e.term = (s.nodes id).currentTerm := by
  have h := (voteLayer C _).invariant r
  exact ⟨fun e he e' he' => h.world.election_unique he he', fun id hid => (h.memory id hid).elected⟩

-- Two of three nodes are leaders, in two terms.
theorem election_safety_three : ∃ s, (ofSize 3 (by decide)).system.Reachable (fun _ _ => True) s ∧
    s.elections.map (fun e => (e.node, e.term)) = [(1, 1), (2, 2)] ∧
    (∀ e ∈ s.elections, ∀ e' ∈ s.elections, e.term = e'.term → e.node = e'.node) ∧
    ∀ id ∈ (ofSize 3 (by decide)).members, (s.nodes id).role = .leader →
      ∃ e ∈ s.elections, e.node = id ∧ e.term = (s.nodes id).currentTerm :=
  have r := TransitionSystem.reachable_run (T := (ofSize 3 (by decide)).system) (fun _ _ => True)
    [.tick 1, .tick 1, .deliver 2 0, .deliver 1 2, .deliver 2 3, .deliver 3 4, .deliver 1 5, .tick 2,
      .tick 2, .deliver 3 10, .deliver 2 11, .deliver 3 13, .deliver 2 14] (by decide +kernel)
  ⟨_, r, by decide +kernel, election_safety r⟩

end Cluster
end RaftRupee
