import RaftRupee.Core.Entries
import RaftRupee.Core.Invocations
import RaftRupee.Lib.Ballot
import RaftRupee.Server.Process

namespace RaftRupee

/-! ### What is written as the hard state -/

section

variable {m : Cause} {k k' : Kernel} {as : List Action} {T : ℕ} {votedFor : Option NodeId}

-- The term is not later than the node's, and the vote is one for the node or for somebody who asks for it.
structure Writes (m : Cause) (k k' : Kernel) (T : ℕ) (votedFor : Option NodeId) : Prop where
  term : T ≤ k'.currentTerm
  vote : ∀ c ∈ votedFor, c = k.id ∨
    ∃ msg, m = .handle msg ∧ (∃ i t, msg.kind = .requestVote i t) ∧ msg.sender = c

theorem Kernel.campaign_writes (h : .persistHardState T votedFor ∈ k.campaignActions) :
    T = k.currentTerm + 1 ∧ votedFor = some k.id := by
  simpa [campaignActions] using h

theorem Move.writes (h : Move m k k' as) (ha : .persistHardState T votedFor ∈ as) :
    Writes m k k' T votedFor := by
  have not_send {bs : List Action} (hb : ∀ b ∈ bs, b.isSend) : .persistHardState T votedFor ∉ bs :=
    fun hm => Bool.false_ne_true (hb _ hm)
  have not_apply {bs : List Action} (hb : ∀ b ∈ bs, b ≠ .persistHardState T votedFor) :
      .persistHardState T votedFor ∉ bs := fun hm => hb _ hm rfl
  cases h
  case campaign =>
    obtain ⟨rfl, rfl⟩ := Kernel.campaign_writes ha
    exact ⟨le_rfl, fun c hc => .inl (Option.some.inj hc).symm⟩
  case lone =>
    rcases List.mem_append.mp ha with ha | ha
    · obtain ⟨rfl, rfl⟩ := Kernel.campaign_writes ha
      exact ⟨le_rfl, fun c hc => .inl (Option.some.inj hc).symm⟩
    · simp at ha
  case vote msg i t hm hk _ _ _ =>
    obtain ⟨rfl, rfl⟩ : T = k.currentTerm ∧ votedFor = some msg.sender := by simpa using ha
    exact ⟨le_rfl, fun c hc => .inr ⟨msg, hm, ⟨i, t, hk⟩, Option.some.inj hc⟩⟩
  case idle hs      => exact absurd ha <| not_send fun b hb => (hs b hb).isSend
  case replicate hs => exact absurd ha <| not_send fun b hb => (hs b hb).isSend
  case elect hs     =>
    rcases List.mem_cons.mp ha with he | ha
    · cases he
    · exact absurd ha <| not_send fun b hb => (hs b hb).isSend
  case propose hs   =>
    rcases List.mem_cons.mp ha with he | ha
    · cases he
    · exact absurd ha <| not_send fun b hb => (hs b hb).elim (·.isSend) (·.isSend)
  case proposeAlone hs hc =>
    simp only [List.cons_append, List.mem_cons, List.mem_append] at ha
    rcases ha with he | ha | ha
    · cases he
    · exact absurd ha <| not_apply (hc.forall_mem (by simp))
    · exact absurd ha <| not_send fun b hb => (hs b hb).isSend
  case confirm hc   => exact absurd ha <| not_apply (hc.forall_mem (by simp))
  case accept hm hf =>
    simp only [List.mem_append, List.mem_singleton, reduceCtorEq, or_false] at ha
    rcases ha with ha | ha
    · cases hm <;> simp at ha
    · exact absurd ha <| not_apply (hf.forall_mem (by simp))
  all_goals simp at ha

theorem Call.writes (h : Call m k k' as) (ha : .persistHardState T votedFor ∈ as) :
    Writes m k k' T votedFor := by
  cases h
  case same h          => exact h.writes ha
  case later msg _ _ h =>
    rcases List.mem_cons.mp ha with he | ha
    case inr => exact ⟨(h.writes ha).term, (h.writes ha).vote⟩
    case inl =>
      cases he
      have hle := h.safe.left.last_le
      rw [h.safe.right] at hle
      exact ⟨hle.elim le_of_lt fun h => h.left.le, by simp⟩

end

/-! ### What a server finds on its disk -/

namespace DurableDisk

variable {disk : DurableDisk} {a : Action}

-- Whatever the memory of the buffers holds, the term and the vote that are read are these.
def Holds (disk : DurableDisk) (hs : HardState) : Prop :=
  ∀ memory, disk.recoveredState memory = .ok hs

def ballot (disk : DurableDisk) : HardState :=
  ((disk.recoveredState fun _ => 0).toOption).getD (0, none)

variable {hs : HardState} {T : ℕ} {votedFor : Option NodeId}

theorem Holds.ballot (h : disk.Holds hs) : disk.ballot = hs := by
  rw [DurableDisk.ballot, h]
  rfl

theorem holds_new : new.Holds (0, none) :=
  fun _ => rfl

-- The numbers are `u64`, and the vote is not for the node whose number stands for no vote.
structure Fits (T : ℕ) (votedFor : Option NodeId) : Prop where
  term : T < 256 ^ 8
  vote : ∀ c ∈ votedFor, c ≠ 0 ∧ c < 256 ^ 8

theorem holds_write (disk : DurableDisk) (memory : Memory) (h : Fits T votedFor) :
    { disk with hsFile := disk.hsFile.writeHardState memory T votedFor : DurableDisk }.Holds
      (T, votedFor) := by
  intro memory'
  have hv : votedFor.filter (· ≠ 0) = votedFor := by
    cases votedFor
    case none   => rfl
    case some c => simp [Option.filter, (h.vote c rfl).left]
  have hfits : ∀ c ∈ votedFor, c < 256 ^ 8 := fun c hc => (h.vote c hc).right
  rw [recoveredState, HardStateFile.readHardState_writeHardState _ _ _ h.term hfits, hv]
  rfl

theorem Holds.of_hsFile {disk' : DurableDisk} (h : disk.Holds hs) (he : disk'.hsFile = disk.hsFile) :
    disk'.Holds hs := by
  intro memory
  rw [recoveredState, he]
  exact h memory

theorem Holds.perform (h : disk.Holds hs) (memory : Memory × Memory)
    (hf : ∀ T votedFor, a = .persistHardState T votedFor → Fits T votedFor) :
    (disk.perform memory a).Holds (lastHardState hs [a]) := by
  cases a
  case persistHardState T votedFor => exact disk.holds_write memory.1 (hf T votedFor rfl)
  all_goals exact h.of_hsFile rfl

-- Nothing is torn but `wal.log`.
theorem Holds.performCut (h : disk.Holds hs) (memory : Memory × Memory) (k : ℕ) (a : Action) :
    (disk.performCut memory k a).Holds hs := by
  cases a <;> exact h.of_hsFile rfl

end DurableDisk

namespace Deployment

variable {D : Deployment} {server : Server} {s s' : State} {w w' : World} {p : Process} {id : NodeId}
variable {client : Bool} {memory : ℕ → Memory × Memory} {node node' : RaftNode} {as : List Action}

namespace World

-- A server that has sent a message with a vote has cast it.
def poll (w : World) : Poll NodeId where
  ballots id := (w.disks id).ballot
  Cast v T c := ∃ p ∈ w.posted, p.msg.sender = v ∧ p.msg.term = T ∧ p.msg.vote = some c

-- No server forgets its term or its vote.
def Onward (w w' : World) : Prop :=
  ∀ v, Ballot.Onward (w.disks v).ballot (w'.disks v).ballot

structure Recorded (D : Deployment) (w : World) : Prop where
  holds  : ∀ id, (w.disks id).Holds (w.disks id).ballot
  fair   : w.poll.Fair
  sender : ∀ p ∈ w.posted, p.msg.sender ∈ D.members
  won    : ∀ e ∈ w.elections, w.poll.Wins (.majorities D.members) e.2 e.1
  term   : ∀ e ∈ w.elections, e.2 ≤ (w.disks e.1).ballot.1
  once   : (w.elections.map (·.2)).Nodup

-- What the process of server `id` does to the world while it handles actions.
structure Extends (id : NodeId) (w w' : World) : Prop where
  posted    : w.posted <+: w'.posted
  disks     : ∀ v, v ≠ id → w'.disks v = w.disks v
  elections : w'.elections = w.elections

theorem Extends.refl : Extends id w w :=
  ⟨List.prefix_rfl, fun _ _ => rfl, rfl⟩

theorem Extends.trans {w'' : World} (h : Extends id w w') (h' : Extends id w' w'') : Extends id w w'' where
  posted    := h.posted.trans h'.posted
  disks v n := (h'.disks v n).trans (h.disks v n)
  elections := h'.elections.trans h.elections

theorem cast_mono (h : w.posted <+: w'.posted) {v c : NodeId} {T : ℕ} (hc : w.poll.Cast v T c) :
    w'.poll.Cast v T c :=
  have ⟨p, hp, hc⟩ := hc
  ⟨p, h.subset hp, hc⟩

theorem Extends.onward {b : HardState} {as : List Action} (h : Extends id w w')
    (hb : (w.disks id).ballot = b) (hb' : (w'.disks id).ballot = lastHardState b as)
    (hs : VoteSafe id b as) : w.Onward w' := by
  intro v
  by_cases hv : v = id
  case pos => exact hv ▸ hb ▸ hb' ▸ hs.last_le
  case neg => exact h.disks v hv ▸ .refl _

variable {a : Action}

theorem processAction_disks (w : World) (server : Server) (client : Bool) (memory : Memory × Memory)
    (a : Action) :
    (w.processAction server client memory a).disks =
      Function.update w.disks server.id ((w.disks server.id).perform memory a) := by
  cases a <;> rfl

theorem processAction_extends (w : World) (server : Server) (client : Bool) (memory : Memory × Memory)
    (a : Action) : Extends server.id w (w.processAction server client memory a) where
  posted    := by cases a <;> simp [processAction, setDisk]
  disks v n := by rw [processAction_disks, Function.update_of_ne n]
  elections := by cases a <;> rfl

theorem mem_processAction {memory : Memory × Memory} {p : Posted}
    (h : p ∈ (w.processAction server client memory a).posted) : p ∈ w.posted ∨ a = .send p.msg := by
  cases a
  case send msg =>
    rcases List.mem_append.mp h with h | h
    · exact .inl h
    · cases List.mem_singleton.mp h
      exact .inr rfl
  all_goals exact .inl h

-- The hard state is written before the message with the vote is sent, and holds until the term is over.
theorem Recorded.processAction (h : w.Recorded D) (hid : server.id ∈ D.members) (client : Bool)
    (memory : Memory × Memory)
    (hs : VoteSafe server.id (w.disks server.id).ballot [a])
    (hf : ∀ T votedFor, a = .persistHardState T votedFor → DurableDisk.Fits T votedFor) :
    (w.processAction server client memory a).Recorded D ∧
      ((w.processAction server client memory a).disks server.id).ballot =
        lastHardState (w.disks server.id).ballot [a] := by
  have hx := w.processAction_extends server client memory a
  have hnew := (h.holds server.id).perform memory hf
  have hdisk : (w.processAction server client memory a).disks server.id =
      (w.disks server.id).perform memory a := by
    rw [processAction_disks, Function.update_self]
  have hlast : ((w.processAction server client memory a).disks server.id).ballot =
      lastHardState (w.disks server.id).ballot [a] := by rw [hdisk, hnew.ballot]
  have hnext : w.poll.Next (w.processAction server client memory a).poll := by
    constructor
    case onward => exact hx.onward rfl hlast hs
    case casts =>
      rintro v T c ⟨p, hp, rfl, rfl, hv⟩
      rcases mem_processAction hp with hp | rfl
      · exact .inl ⟨p, hp, rfl, rfl, hv⟩
      · exact .inr <| hs.left.left ▸ hs.left.right c hv
  refine ⟨⟨fun v => ?_, h.fair.next hnext, fun p hp => ?_, fun e he => ?_, fun e he => ?_, ?_⟩, hlast⟩
  case refine_1 =>
    by_cases hv : v = server.id
    case pos => rw [hv, hlast, hdisk]; exact hnew
    case neg => rw [hx.disks v hv]; exact h.holds v
  case refine_2 =>
    rcases mem_processAction hp with hp | rfl
    · exact h.sender p hp
    · exact hs.left.left ▸ hid
  case refine_3 => exact (h.won e (hx.elections ▸ he)).mono fun _ => cast_mono hx.posted
  case refine_4 =>
    exact (h.term e (hx.elections ▸ he)).trans (hnext.onward e.1).le
  case refine_5 => exact hx.elections ▸ h.once

theorem processActions_extends (w : World) (server : Server) (client : Bool) (memory : ℕ → Memory × Memory)
    (as : List Action) : Extends server.id w (w.processActions server client memory as) := by
  induction as generalizing w
  case nil          => exact .refl
  case cons a as hi => exact (w.processAction_extends ..).trans (hi _)

theorem Recorded.processActions (h : w.Recorded D) (hid : server.id ∈ D.members) (client : Bool)
    (memory : ℕ → Memory × Memory)
    (hs : VoteSafe server.id (w.disks server.id).ballot as)
    (hf : ∀ T votedFor, .persistHardState T votedFor ∈ as → DurableDisk.Fits T votedFor) :
    (w.processActions server client memory as).Recorded D ∧
      ((w.processActions server client memory as).disks server.id).ballot =
        lastHardState (w.disks server.id).ballot as := by
  induction as generalizing w
  case nil          => exact ⟨h, rfl⟩
  case cons a as hi =>
    obtain ⟨ha, has⟩ := VoteSafe.append.mp (show VoteSafe server.id _ ([a] ++ as) from hs)
    obtain ⟨h₁, hlast⟩ := h.processAction hid client (memory as.length) ha
      fun T votedFor he => hf T votedFor <| he ▸ List.mem_cons_self
    obtain ⟨h₂, hlast'⟩ := hi h₁ (hlast ▸ has) fun T votedFor hm => hf T votedFor <|
      List.mem_cons_of_mem _ hm
    refine ⟨h₂, hlast'.trans ?_⟩
    rw [hlast, ← lastHardState_append]
    rfl

theorem mem_posted_processActions {msg : Message} (h : .send msg ∈ as) :
    ∃ p ∈ (w.processActions server client memory as).posted, p.msg = msg := by
  induction as generalizing w
  case nil          => cases h
  case cons a as hi =>
    rcases List.mem_cons.mp h with rfl | h
    · have hx := (w.processAction server client (memory as.length) (.send msg)).processActions_extends
        server client memory as
      refine ⟨{ msg, route := server.route client msg }, hx.posted.subset ?_, rfl⟩
      exact List.mem_append_right _ (List.mem_singleton_self _)
    · exact hi h

theorem stopWithin_extends (w : World) (server : Server) (memory : Memory × Memory) (k : ℕ)
    (a : Option Action) : Extends server.id w (w.stopWithin server memory k a) := by
  cases a
  case none   => exact .refl
  case some a => exact ⟨List.prefix_rfl, fun v hv => Function.update_of_ne hv .., rfl⟩

theorem stopWithin_posted (w : World) (server : Server) (memory : Memory × Memory) (k : ℕ)
    (a : Option Action) : (w.stopWithin server memory k a).posted = w.posted := by
  cases a <;> rfl

theorem Recorded.stopWithin_holds (h : w.Recorded D) (server : Server) (memory : Memory × Memory) (k : ℕ)
    (a : Option Action) (v : NodeId) :
    ((w.stopWithin server memory k a).disks v).Holds (w.disks v).ballot := by
  cases a
  case none   => exact h.holds v
  case some a =>
    by_cases hv : v = server.id
    case pos =>
      rw [hv]
      simp only [World.stopWithin, setDisk, Function.update_self]
      exact (h.holds server.id).performCut memory k a
    case neg =>
      simp only [World.stopWithin, setDisk, Function.update_of_ne hv]
      exact h.holds v

theorem Recorded.stopWithin (h : w.Recorded D) (server : Server) (memory : Memory × Memory) (k : ℕ)
    (a : Option Action) : (w.stopWithin server memory k a).Recorded D := by
  have hb := h.stopWithin_holds server memory k a
  have hx := w.stopWithin_extends server memory k a
  have hposted := w.stopWithin_posted server memory k a
  have hpoll : (w.stopWithin server memory k a).poll = w.poll := by
    simp only [poll, (hb _).ballot, hposted]
  refine ⟨fun v => (hb v).ballot ▸ hb v, hpoll ▸ h.fair, hposted ▸ h.sender, fun e he => ?_, fun e he => ?_,
    hx.elections ▸ h.once⟩
  · exact hpoll ▸ h.won e (hx.elections ▸ he)
  · exact (hb e.1).ballot ▸ h.term e (hx.elections ▸ he)

theorem mem_record {e : NodeId × ℕ} (he : e ∈ (w.record id node node').elections) :
    e ∈ w.elections ∨ e = (id, node'.currentTerm) ∧ node.role ≠ .leader ∧ node'.role = .leader := by
  simp only [record] at he
  split at he
  case isFalse   => exact .inl he
  case isTrue hr =>
    rcases List.mem_append.mp he with he | he
    · exact .inl he
    · exact .inr ⟨List.mem_singleton.mp he, hr⟩

theorem elections_record (w : World) (id : NodeId) (node node' : RaftNode) :
    w.elections ⊆ (w.record id node node').elections := by
  simp only [record]
  split <;> simp

end World

/-! ### A server that runs -/

structure Process.Kept (D : Deployment) (w : World) (id : NodeId) (p : Process) : Prop where
  id_eq     : p.server.id = id
  addresses : p.server.addresses.Perm D.addresses
  runs      : p.server.Runs p.node
  hardState : (w.disks id).ballot = p.node.kernel.hardState
  voters    : p.node.role = .candidate → ∀ v ∈ p.node.votesReceived, w.poll.Cast v p.node.currentTerm id
  pending   : p.node.role = .candidate → ∀ e ∈ w.elections, e.1 = id → e.2 < p.node.currentTerm
  elected   : p.node.role = .leader → (id, p.node.currentTerm) ∈ w.elections

structure State.Kept (D : Deployment) (s : State) : Prop extends World.Recorded D s.toWorld where
  processes : ∀ id p, s.processes id = some p → p.Kept D s.toWorld id

namespace Process.Kept

theorem mem_members (h : p.Kept D w id) : id ∈ D.members := by
  rw [members, List.mem_toFinset, ← h.id_eq, ← (h.addresses.map (·.1)).mem_iff]
  exact p.server.self_mem

-- The peers are all the members.
theorem majority (h : p.Kept D w id) : D.members.card / 2 + 1 ≤ p.node.majority := by
  have hc : D.members.card = p.server.members.length := by
    rw [members, List.toFinset_card_of_nodup D.nodup, Server.members]
    exact ((h.addresses.map (·.1)).length_eq).symm
  rw [h.runs.majority, hc]
  omega

theorem peers_ne_nil (h : p.Kept D w id) : p.node.peers ≠ [] :=
  h.runs.peers ▸ List.ne_nil_of_length_pos p.server.length_pos

-- What other servers do does not concern a process.
theorem mono (h : p.Kept D w id) (hp : w.posted <+: w'.posted) (hd : w'.disks id = w.disks id)
    (he : w.elections ⊆ w'.elections) (he' : ∀ e ∈ w'.elections, e.1 = id → e ∈ w.elections) :
    p.Kept D w' id where
  id_eq              := h.id_eq
  addresses          := h.addresses
  runs               := h.runs
  hardState          := hd ▸ h.hardState
  voters hr v hv     := World.cast_mono hp (h.voters hr v hv)
  pending hr e hm hi := h.pending hr e (he' e hm hi) hi
  elected hr         := he (h.elected hr)

end Process.Kept

/-! ### A call -/

variable {input : Input} {inv : Invocation} {o : Outcome} {msg : Message}

-- Messages come from servers, and clients only ask to propose a command.
theorem State.read_handle (h : s.read id input = some (inv, client)) (hm : inv.cause = .handle msg) :
    (∃ q ∈ s.posted, q.msg = msg ∧ msg.receiver = id) ∨ ∃ command, msg.kind = .clientRequest command := by
  cases input
  case tick =>
    cases h
    cases hm
  case request command =>
    cases h
    cases hm
    exact .inr ⟨command, rfl⟩
  case receive k accepted =>
    obtain ⟨q, hq, h⟩ := Option.bind_eq_some_iff.mp h
    split at h
    case isFalse  => contradiction
    case isTrue hr =>
      cases h
      cases hm
      exact .inl ⟨q, List.mem_of_getElem? hq, rfl, hr.right⟩

theorem State.granted (h : s.read id input = some (inv, client)) {k : Kernel} {v : NodeId}
    (hg : Granted inv.cause k v) : s.poll.Cast v k.currentTerm id := by
  obtain ⟨msg, hm, hk, ht, hv⟩ := hg
  rcases State.read_handle h hm with ⟨q, hq, rfl, hr⟩ | ⟨command, hc⟩
  case inl => exact ⟨q, hq, hv, ht, by simp [Message.vote, hk, hr]⟩
  case inr => cases hk.symm.trans hc

theorem Process.Kept.safe (hp : p.Kept D w id) (hcall : p.node.invoke inv = some o) :
    VoteSafe id (w.disks id).ballot o.2 ∧
      lastHardState (w.disks id).ballot o.2 = o.1.kernel.hardState := by
  rw [hp.hardState, ← hp.id_eq, ← hp.runs.id]
  exact (RaftNode.invoke_call hcall).safe

namespace State.Kept

-- The other processes are not concerned.
theorem others (hs : s.Kept D) (hx : World.Extends id (s.record id p.node o.1) w) {v : NodeId}
    {p' : Process} (hv : v ≠ id) (hp' : s.processes v = some p') : p'.Kept D w v := by
  refine (hs.processes v p' hp').mono hx.posted (hx.disks v hv) ?_ fun e he hi => ?_
  · exact hx.elections ▸ World.elections_record ..
  · rcases World.mem_record (hx.elections ▸ he) with he | ⟨rfl, _⟩
    · exact he
    · exact absurd hi.symm hv

theorem stop (hs : s.Kept D) (id : NodeId) : (s.setProcess id none).Kept D := by
  refine ⟨hs.toRecorded, fun v p hp => hs.processes v p ?_⟩
  by_cases hv : v = id
  case pos => cases (Function.update_self ..).symm.trans (hv ▸ hp)
  case neg => exact (Function.update_of_ne hv ..).symm.trans hp

variable (hs : s.Kept D) (hp : s.processes id = some p) (hread : s.read id input = some (inv, client))
  (hcall : p.node.invoke inv = some o)

include hs hp hread hcall

-- All votes are for members.
theorem fits (h0 : 0 ∉ D.members) (ht : o.1.currentTerm < 256 ^ 8) :
    ∀ T votedFor, .persistHardState T votedFor ∈ o.2 → DurableDisk.Fits T votedFor := by
  intro T votedFor ha
  have hk := hs.processes id p hp
  have hw := (RaftNode.invoke_call hcall).writes ha
  have member {c : NodeId} (hc : c ∈ D.members) : c ≠ 0 ∧ c < 256 ^ 8 :=
    ⟨fun he => h0 (he ▸ hc), D.fits c (List.mem_toFinset.mp hc)⟩
  refine ⟨hw.term.trans_lt ht, fun c hc => member ?_⟩
  rcases hw.vote c hc with rfl | ⟨msg, hm, ⟨i, t, hm'⟩, rfl⟩
  case inl =>
    have hid : p.node.kernel.id = id := hk.runs.id.trans hk.id_eq
    exact hid ▸ hk.mem_members
  case inr =>
    rcases State.read_handle hread hm with ⟨q, hq, rfl, _⟩ | ⟨command, hc⟩
    · exact hs.sender q hq
    · cases hm'.symm.trans hc

-- A majority has voted for a candidate that becomes the leader.
theorem wins (hr : p.node.role ≠ .leader) (hr' : o.1.role = .leader) :
    p.node.role = .candidate ∧ o.1.currentTerm = p.node.currentTerm ∧
      s.poll.Wins (.majorities D.members) o.1.currentTerm id := by
  have hk := hs.processes id p hp
  rcases (RaftNode.invoke_call hcall).leader hr' with hl | ⟨hc, ht, q, hq, hv⟩ | ⟨_, he, _⟩
  case inl     => exact absurd hl.left hr
  case inr.inr => exact absurd he hk.peers_ne_nil
  case inr.inl =>
    have hterm : o.1.currentTerm = p.node.currentTerm := ht
    have hcast : ∀ v ∈ q, s.poll.Cast v p.node.currentTerm id := fun v hvq =>
      (hv v hvq).elim (hk.voters hc v) (State.granted hread)
    refine ⟨hc, ht, q, ⟨fun v hvq => ?_, hk.majority.trans hq⟩, fun v hvq => hterm ▸ hcast v hvq⟩
    obtain ⟨m, hm, rfl, _⟩ := hcast v hvq
    exact hs.sender m hm

theorem record : (s.record id p.node o.1).Recorded D := by
  have hk := hs.processes id p hp
  have new {e} (he : e ∈ (s.record id p.node o.1).elections) := World.mem_record he
  refine ⟨hs.holds, hs.fair, hs.sender, fun e he => ?_, fun e he => ?_, ?_⟩
  case refine_1 =>
    rcases new he with he | ⟨rfl, hr, hr'⟩
    · exact hs.won e he
    · exact (hs.wins hp hread hcall hr hr').right.right
  case refine_2 =>
    rcases new he with he | ⟨rfl, hr, hr'⟩
    · exact hs.term e he
    · have hb := congrArg Prod.fst hk.hardState
      exact ((hs.wins hp hread hcall hr hr').right.left.trans hb.symm).le
  case refine_3 =>
    simp only [World.record]
    split
    case isFalse   => exact hs.once
    case isTrue hr =>
      obtain ⟨hc, ht, hwin⟩ := hs.wins hp hread hcall hr.left hr.right
      rw [List.map_append, List.nodup_append]
      refine ⟨hs.once, List.nodup_singleton _, fun T hT T' hT' he => ?_⟩
      obtain ⟨e, hm, rfl⟩ := List.mem_map.mp hT
      have he' : e.2 = o.1.currentTerm := he.trans (List.mem_singleton.mp hT')
      have heid : e.1 = id := hs.fair.winner_unique (hs.won e hm) (he' ▸ hwin)
      have := hk.pending hc e hm heid
      omega

-- The process after the call, when its actions have been handled.
theorem process (hx : World.Extends id (s.record id p.node o.1) w)
    (hb : (w.disks id).ballot = o.1.kernel.hardState)
    (hsent : ∀ msg, .send msg ∈ o.2 → ∃ q ∈ w.posted, q.msg = msg) :
    { p with node := o.1 : Process }.Kept D w id := by
  have hk := hs.processes id p hp
  have hc := RaftNode.invoke_call hcall
  have hid : p.node.id = id := hk.runs.id.trans hk.id_eq
  have mem {e} (he : e ∈ s.elections) : e ∈ w.elections :=
    hx.elections ▸ World.elections_record s.toWorld id p.node o.1 he
  refine ⟨hk.id_eq, hk.addresses, ⟨?_, ?_⟩, hb, fun hr v hv => ?_, fun hr e he hi => ?_, fun hr => ?_⟩
  case refine_1 => exact hc.id_eq.left.trans hk.runs.id
  case refine_2 => exact hc.id_eq.right.trans hk.runs.peers
  case refine_3 =>
    rcases hc.candidate hr with ⟨hcand, ht, hv'⟩ | ⟨_, _, hv', msg, hmsg, hsender, ht, hvote⟩
    case inl =>
      have hterm : o.1.currentTerm = p.node.currentTerm := ht
      rw [hterm]
      exact World.cast_mono hx.posted <| (hv' v hv).elim (hk.voters hcand v) (State.granted hread)
    case inr =>
      rw [show o.1.votesReceived = {p.node.id} from hv', Finset.mem_singleton, hid] at hv
      obtain ⟨q, hq, rfl⟩ := hsent msg hmsg
      exact ⟨q, hq, hsender.trans (hid.trans hv.symm), ht, hvote.trans (congrArg some hid)⟩
  case refine_4 =>
    rcases World.mem_record (hx.elections ▸ he) with he | ⟨_, _, hl⟩
    case inr => exact absurd (hr.symm.trans hl) (by simp)
    case inl =>
      rcases hc.candidate hr with ⟨hcand, ht, _⟩ | ⟨hlt, _⟩
      · exact (hk.pending hcand e he hi).trans_eq ht.symm
      · have := hs.term e he
        rw [hi, congrArg Prod.fst hk.hardState] at this
        exact this.trans_lt hlt
  case refine_5 =>
    by_cases hl : p.node.role = .leader
    case pos =>
      have ht : o.1.currentTerm = p.node.currentTerm := by
        rcases hc.leader hr with h | h | h
        · exact h.right
        · exact h.right.left
        · exact absurd hl h.left
      exact ht ▸ mem (hk.elected hl)
    case neg =>
      have hnew : p.node.role ≠ .leader ∧ o.1.role = .leader := ⟨hl, hr⟩
      rw [hx.elections]
      simp only [World.record, hnew, and_self, ne_eq, not_false_eq_true, if_true]
      exact List.mem_append_right _ <| List.mem_singleton_self _

theorem run (h0 : 0 ∉ D.members) (ht : o.1.currentTerm < 256 ^ 8) (memory : ℕ → Memory × Memory)
    (cut : Option (ℕ × ℕ)) :
    (s.run id p client memory o cut).Kept D ∧ s.Onward (s.run id p client memory o cut).toWorld := by
  have hk := hs.processes id p hp
  have hrec := hs.record hp hread hcall
  have hf := hs.fits hp hread hcall h0 ht
  obtain ⟨hsafe, hlast⟩ := hk.safe hcall
  have hid := hk.mem_members
  obtain rfl := hk.id_eq
  cases cut
  case none =>
    have hx := (s.record p.server.id p.node o.1).processActions_extends p.server client memory o.2
    obtain ⟨hw, hb⟩ := hrec.processActions hid client memory hsafe hf
    refine ⟨⟨hw, fun v p' hp' => ?_⟩, hx.onward rfl hb hsafe⟩
    by_cases hv : v = p.server.id
    case pos =>
      rw [hv] at hp' ⊢
      cases (Function.update_self ..).symm.trans hp'
      exact hs.process hp hread hcall hx (hb.trans hlast) fun msg => World.mem_posted_processActions
    case neg => exact hs.others hx hv <| (Function.update_of_ne hv ..).symm.trans hp'
  case some cut =>
    have hx := (s.record p.server.id p.node o.1).processActions_extends p.server client memory
      (o.2.take cut.1)
    obtain ⟨hw, hb⟩ := hrec.processActions hid client memory (hsafe.take cut.1)
      fun T votedFor hm => hf T votedFor (List.mem_of_mem_take hm)
    refine ⟨⟨hw.stopWithin .., fun v p' hp' => ?_⟩, fun v => ?_⟩
    case refine_1 =>
      by_cases hv : v = p.server.id
      case pos => cases (Function.update_self ..).symm.trans (hv ▸ hp')
      case neg =>
        refine hs.others (hx.trans ?_) hv <| (Function.update_of_ne hv ..).symm.trans hp'
        exact World.stopWithin_extends ..
    case refine_2 =>
      exact (hw.stopWithin_holds p.server _ cut.2 _ v).ballot ▸ hx.onward rfl hb (hsafe.take cut.1) v

end State.Kept

/-! ### Runs -/

-- The node that a call leaves behind.
def State.newNode (s : State) : Event → Option RaftNode
  | .call id input _ _ => do
    let process ← s.processes id
    let (inv, _) ← s.read id input
    let o ← process.node.invoke inv
    some o.1
  | _                  => none

-- No term has run over.
def TermsFit (s : State) (e : Event) : Prop :=
  ∀ node ∈ s.newNode e, node.currentTerm < 256 ^ 8

instance (s : State) (e : Event) : Decidable (TermsFit s e) :=
  inferInstanceAs (Decidable (∀ node ∈ s.newNode e, _))

-- What a step can do.
inductive State.Steps (D : Deployment) (s : State) : Event → State → Prop
  | start {server : Server} {rngSeed : SmallRng} {memory : Memory} {hs : HardState} {log : RaftLog} :
    server.addresses.Perm D.addresses → s.processes server.id = none →
    (s.disks server.id).recoveredState memory = .ok hs →
    log = .restore { lastIncludedIndex := 0, lastIncludedTerm := 0 }
      (Wal.replayWal (s.disks server.id).walFile) →
    Steps D s (.start server rngSeed memory) (s.setProcess server.id <|
      some { server, node := .restore (server.config rngSeed) hs.1 hs.2 log 0 0 })
  | stop {e : Event} {id : NodeId} : Steps D s e (s.setProcess id none)
  | call {id : NodeId} {input : Input} {memory : ℕ → Memory × Memory} {cut : Option (ℕ × ℕ)} {p : Process}
      {inv : Invocation} {client : Bool} {o : Outcome} :
    s.processes id = some p → s.read id input = some (inv, client) → p.node.invoke inv = some o →
    Steps D s (.call id input memory cut) (s.run id p client memory o cut)

theorem State.steps {e : Event} (h : D.step s e = some s') : s.Steps D e s' := by
  cases e
  case stop id =>
    cases h
    exact .stop
  case start server rngSeed memory =>
    simp only [Deployment.step] at h
    split at h
    case isFalse    => contradiction
    case isTrue hst =>
      obtain ⟨hs, hread, h⟩ := Option.bind_eq_some_iff.mp h
      cases h
      refine .start hst.left (Option.isNone_iff_eq_none.mp hst.right) ?_ rfl
      revert hread
      cases (s.disks server.id).recoveredState memory <;> simp [Except.toOption]
  case call id input memory cut =>
    obtain ⟨p, hp, h⟩ := Option.bind_eq_some_iff.mp h
    obtain ⟨⟨inv, client⟩, hread, h⟩ := Option.bind_eq_some_iff.mp h
    dsimp only at h
    split at h
    case h_1         => cases h; exact .stop
    case h_2 o hcall => cases h; exact .call hp hread hcall

theorem State.newNode_call {memory : ℕ → Memory × Memory} {cut : Option (ℕ × ℕ)}
    (hp : s.processes id = some p) (hread : s.read id input = some (inv, client))
    (hcall : p.node.invoke inv = some o) :
    s.newNode (.call id input memory cut) = some o.1 := by
  simp [newNode, hp, hread, hcall]

theorem State.Kept.step (hs : s.Kept D) (h0 : 0 ∉ D.members) {e : Event} (ht : TermsFit s e)
    (h : D.step s e = some s') : s'.Kept D ∧ s.Onward s'.toWorld := by
  cases State.steps h
  case stop                    => exact ⟨hs.stop _, fun _ => .refl _⟩
  case call hp hread hcall     =>
    exact hs.run hp hread hcall h0 (ht _ <| State.newNode_call hp hread hcall) ..
  case start server _ memory _ _ hperm _ hread _ =>
    refine ⟨⟨hs.toRecorded, fun v p hp => ?_⟩, fun _ => .refl _⟩
    by_cases hv : v = server.id
    case neg => exact hs.processes v p <| (Function.update_of_ne hv ..).symm.trans hp
    case pos =>
      rw [hv] at hp ⊢
      cases (Function.update_self ..).symm.trans hp
      have hb := (hs.holds server.id memory).symm.trans hread
      refine ⟨rfl, hperm, ⟨rfl, rfl⟩, Except.ok.inj hb, ?_, ?_, ?_⟩ <;> intro hr <;> cases hr

theorem kept_init : State.Kept D init where
  holds _       := DurableDisk.holds_new
  fair          := by constructor <;> simp [World.poll, init]
  sender        := by simp [init]
  won           := by simp [init]
  term          := by simp [init]
  once          := List.nodup_nil
  processes _ _ := by simp [init]

theorem State.Kept.invariant (h0 : 0 ∉ D.members) (r : D.system.Reachable TermsFit s) : s.Kept D :=
  r.invariant kept_init fun _ hi ht hs => (hi.step h0 ht hs).left

-- In each term at most one server ever becomes the leader, at most once, however often the processes stop
-- and start again. No server votes twice in a term, and each leader is one that has become leader in its term.
theorem leaders_unique (h0 : 0 ∉ D.members) (r : D.system.Reachable TermsFit s) :
    (s.elections.map (·.2)).Nodup ∧
      (∀ v T c c', s.poll.Cast v T c → s.poll.Cast v T c' → c = c') ∧
      ∀ id p, s.processes id = some p → p.node.role = .leader → (id, p.node.currentTerm) ∈ s.elections := by
  have hs := State.Kept.invariant h0 r
  exact ⟨hs.once, fun v T c c' => hs.fair.unique, fun id p hp => (hs.processes id p hp).elected⟩

/-! ### Servers by their numbers -/

def member (D : Deployment) (id : NodeId) (h : id ∈ D.addresses.map (·.1)) : Server where
  id        := id
  addresses := D.addresses
  nodup     := D.nodup
  self_mem  := h

-- Buffers of zeros, and shortest timeouts.
def zeros (_ : ℕ) : Memory × Memory :=
  (fun _ => 0, fun _ => 0)

def Event.boot (D : Deployment) (id : NodeId) (h : id ∈ D.addresses.map (·.1)) : Event :=
  .start (D.member id h) ⟨fun _ => 0⟩ fun _ => 0

def Event.ticks (n : ℕ) (id : NodeId) : List Event :=
  .replicate n (.call id .tick zeros none)

def Event.reads (id : NodeId) (posted : ℕ) : Event :=
  .call id (.receive posted true) zeros none

def three : Deployment where
  addresses := [(1, "127.0.0.1:5001"), (2, "127.0.0.1:5002"), (3, "127.0.0.1:5003")]
  nodup     := by decide
  fits      := by decide

-- Server 1 asks for votes, and server 3 stops when its vote is on disk, but not yet sent.
def Event.voteOfThree : List Event :=
  [.boot three 1 (by decide), .boot three 2 (by decide), .boot three 3 (by decide)] ++ ticks 15 1 ++
    [reads 2 1, reads 3 2, reads 1 3, reads 1 4, reads 2 6, .call 3 (.receive 7 true) zeros (some (2, 0))]

-- It votes again when it runs again.
def Event.revoteOfThree : List Event :=
  [.boot three 3 (by decide), reads 3 7, reads 1 8, reads 1 9]

theorem leaders_unique_three : ∃ s, three.system.Reachable TermsFit s ∧ s.elections = [(1, 1)] ∧
    (s.elections.map (·.2)).Nodup ∧
      (∀ v T c c', s.poll.Cast v T c → s.poll.Cast v T c' → c = c') ∧
      ∀ id p, s.processes id = some p → p.node.role = .leader → (id, p.node.currentTerm) ∈ s.elections :=
  have r := TransitionSystem.reachable_run (T := three.system) TermsFit
    (Event.voteOfThree ++ Event.revoteOfThree) (by decide +kernel)
  ⟨_, r, by decide +kernel, leaders_unique (by decide) r⟩

def four : Deployment where
  addresses := [(0, "127.0.0.1:5000"), (1, "127.0.0.1:5001"), (2, "127.0.0.1:5002"), (3, "127.0.0.1:5003")]
  nodup     := by decide
  fits      := by decide

-- Servers 1 and 2 vote for server 0, which becomes the leader. When they have forgotten it, they vote for
-- server 3 as well.
def Event.twoOfFour : List Event :=
  [.boot four 0 (by decide), .boot four 1 (by decide), .boot four 2 (by decide),
      .boot four 3 (by decide)] ++ ticks 15 0 ++ ticks 15 3 ++
    [reads 1 1, reads 2 2, reads 1 5, reads 2 6, reads 0 8, reads 0 9, reads 1 13, reads 2 14, reads 0 16,
      reads 0 17, .stop 1, .stop 2, .boot four 1 (by decide), .boot four 2 (by decide), reads 3 10,
      reads 3 11, reads 1 23, reads 2 24, reads 3 26, reads 3 27]

-- With a server of number zero there can be two leaders.
theorem two_leaders : ∃ s, four.system.Reachable TermsFit s ∧ s.elections = [(0, 1), (3, 1)] :=
  have r := TransitionSystem.reachable_run (T := four.system) TermsFit Event.twoOfFour (by decide +kernel)
  ⟨_, r, by decide +kernel⟩

-- Reading the hard state never fails, and a server that runs has the term and the vote that a restart would
-- find. Whatever happens later, what is found then is at least as far.
theorem hardState_onward (h0 : 0 ∉ D.members) (r : D.system.Reachable TermsFit s)
    (r' : (D.system.goingOn s).Reachable TermsFit s') (id : NodeId) (memory memory' : Memory) :
    ∃ hs hs', (s.disks id).recoveredState memory = .ok hs ∧
      (s'.disks id).recoveredState memory' = .ok hs' ∧ Ballot.Onward hs hs' ∧
      ∀ p, s'.processes id = some p → (p.node.currentTerm, p.node.votedFor) = hs' := by
  have hk := State.Kept.invariant h0 r
  obtain ⟨hk', hon⟩ : s'.Kept D ∧ s.Onward s'.toWorld := by
    let Inv (t : State) : Prop := t.Kept D ∧ s.Onward t.toWorld
    refine show Inv s' from r'.invariant ⟨hk, fun _ => .refl _⟩ fun _ hi ht hs => ?_
    obtain ⟨hstep, hon⟩ := hi.left.step h0 ht hs
    exact ⟨hstep, fun v => (hi.right v).trans (hon v)⟩
  exact ⟨_, _, hk.holds id memory, hk'.holds id memory', hon id, fun p hp =>
    (hk'.processes id p hp).hardState.symm⟩

theorem voteOfThree_runs : (three.system.run TermsFit init Event.voteOfThree).isSome := by
  decide +kernel

theorem hardState_onward_three : ∃ s s', three.system.Reachable TermsFit s ∧
    (three.system.goingOn s).Reachable TermsFit s' ∧ (s.disks 3).ballot = (1, some 1) ∧
    ∃ hs hs', (s.disks 3).recoveredState (fun _ => 0) = .ok hs ∧
      (s'.disks 3).recoveredState (fun _ => 1) = .ok hs' ∧ Ballot.Onward hs hs' ∧
      ∀ p, s'.processes 3 = some p → (p.node.currentTerm, p.node.votedFor) = hs' :=
  have r := TransitionSystem.reachable_run (T := three.system) TermsFit Event.voteOfThree voteOfThree_runs
  have r' := TransitionSystem.reachable_run
    (T := three.system.goingOn ((three.system.run TermsFit init Event.voteOfThree).get voteOfThree_runs))
    TermsFit Event.revoteOfThree (by decide +kernel)
  ⟨_, _, r, r', by decide +kernel, hardState_onward (by decide) r r' 3 (fun _ => 0) fun _ => 1⟩

end Deployment

end RaftRupee
