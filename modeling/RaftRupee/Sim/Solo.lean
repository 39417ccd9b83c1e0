import Mathlib.Data.List.TakeWhile
import RaftRupee.Sim.View
import RaftRupee.Sim.Sync

namespace RaftRupee

-- All that a node without peers ever sends.
def MessageKind.isReply : MessageKind → Bool
  | clientResponse .. => true
  | _                 => false

namespace RaftNode

variable {node : RaftNode} {command : Command}

theorem tick_alone (hp : node.peers = []) : ∀ msg, .send msg ∉ node.tick.2 := by
  intro msg h
  unfold tick startPreVote startRealElection becomeLeader broadcastHeartbeats at h
  split at h <;> dsimp only at h <;> split at h <;> simp [resetElectionTimer, hp] at h

theorem propose_alone (hp : node.peers = []) : ∀ msg, .send msg ∉ (node.propose command).2 := by
  intro msg h
  have hcommit : ∀ node : RaftNode, .send msg ∉ node.maybeAdvanceCommitIndex.2 := fun node h =>
    (maybeAdvanceCommitIndex_advances node).forall_mem (P := (· ≠ .send msg)) (by simp) _ h rfl
  unfold propose broadcastAppendEntries at h
  split at h
  · simp at h
  · simp [hp, hcommit] at h

end RaftNode

namespace Cluster

open Replication

variable {C : Cluster} {guard : State → Event → Prop} {s : State} {w w' : World} {id : NodeId}
variable {T : ℕ} {m : Cause} {answers : Option Message} {k k' : Kernel}
variable {F full : List LogEntry} {log : RaftLog}
variable {as : List Action} {input : Input} {o : Outcome} {post : World → Prop}

theorem State.call_alone (hp : (s.nodes id).peers = []) (hs : ∀ p ∈ s.network, p.msg.kind.isReply)
    (h : s.call id input = some o) :
    (∀ msg, s.cause input ≠ .handle msg) ∧ (∀ msg, .send msg ∈ o.2 → msg.kind.isReply) ∨
      o = (s.nodes id, []) := by
  cases input
  case tick =>
    cases h
    exact .inl ⟨by simp [cause], fun msg hm => absurd hm <| RaftNode.tick_alone hp msg⟩
  case propose command =>
    cases h
    exact .inl ⟨by simp [cause], fun msg hm => absurd hm <| RaftNode.propose_alone hp msg⟩
  case compactLogs i t data =>
    cases h
    refine .inl ⟨by simp [cause], fun msg hm => ?_⟩
    unfold RaftNode.compactLogs at hm
    split at hm <;> simp at hm
  case request client term command =>
    have hreq : (s.nodes id).handleClientRequest client command = o := by
      simpa [State.call, RaftNode.step, MessageKind.isPreVote, MessageKind.isClient,
        RaftNode.dispatch] using h
    refine .inl ⟨by simp [cause], fun msg hm => ?_⟩
    rw [← hreq, RaftNode.handleClientRequest] at hm
    split at hm
    case isTrue =>
      rcases List.mem_append.mp hm with hm | hm
      · exact absurd hm <| RaftNode.propose_alone hp msg
      · simp at hm
        simp [hm, RaftNode.message, MessageKind.isReply]
    case isFalse =>
      simp at hm
      simp [hm, RaftNode.message, MessageKind.isReply]
  case deliver n =>
    obtain ⟨packet, hn, h⟩ := Option.bind_eq_some_iff.mp h
    have hreply := hs packet <| List.mem_of_getElem? hn
    obtain ⟨b, hint, hk⟩ : ∃ b hint, packet.msg.kind = .clientResponse b hint := by
      unfold MessageKind.isReply at hreply
      split at hreply
      · exact ⟨_, _, ‹_›⟩
      · contradiction
    split at h
    case isFalse => contradiction
    case isTrue =>
      simp [RaftNode.step, hk, MessageKind.isPreVote, MessageKind.isClient, RaftNode.dispatch] at h
      exact .inr h.symm

/-! ### A cluster of one node -/

-- The log of the node only grows, and what follows an election is of its term or later. It starts with
-- the entries `F`.
structure Alone (C : Cluster) (F full : List LogEntry) (w : World) : Prop where
  logs    : ∀ id ∈ C.members, ∃ log, (w.disks id).Holds log ∧ View log full
  terms   : ∀ id ∈ C.members, ∀ e ∈ full, e.term ≤ (w.disks id).currentTerm
  sent    : ∀ p ∈ w.network, p.msg.kind.isReply
  rising  : ∀ id ∈ C.members, ∀ el ∈ w.elections, el.term ≤ (w.disks id).currentTerm + 1
  elected : ∀ el ∈ w.elections, ∃ log e, View el.log (log ++ [e]) ∧ log <+: full ∧
    ∀ e ∈ full.drop log.length, el.term ≤ e.term
  applied : ∀ a ∈ w.applied, 0 < a.entry.index ∧ full[a.entry.index - 1]? = some a.entry ∧
    ∃ cm ∈ w.commits, a.entry.term ≤ cm.term ∧ cm.term ≤ a.term ∧ a.entry.index ≤ cm.index
  floor   : F <+: full

-- What a node without peers may do without writing to its disk.
def AllowsAlone (full : List LogEntry) (cs : List Commit) (T : ℕ) : Action → Prop
  | .send msg => msg.kind.isReply
  | .apply es => ∀ e ∈ es, 0 < e.index ∧ full[e.index - 1]? = some e ∧
    ∃ cm ∈ cs, e.term ≤ cm.term ∧ cm.term ≤ T ∧ e.index ≤ cm.index
  | _         => False

theorem Alone.messages (h : Alone C F full w) (ha : ∀ a ∈ as, AllowsAlone full w.commits T a) :
    Crash.Sound (World.processAction id T answers) (fun w => ∃ full, Alone C F full w) w as
      fun w' => Alone C F full w' ∧ w'.elections = w.elections := by
  let J (w' : World) := Alone C F full w' ∧ w'.elections = w.elections ∧ w'.commits = w.commits
  refine (Crash.Sound.all (J := J) (fun _ h => ⟨full, h.left⟩) ?_ ⟨h, rfl, rfl⟩).mono (fun _ h => h)
    fun _ _ h => ⟨h.left, h.right.left⟩
  rintro w₁ w₂ a hm ⟨hk, he, hc⟩ h₂
  have ha := ha a hm
  rw [← hc] at ha
  cases a
  case apply es =>
    cases h₂
    refine ⟨⟨hk.logs, hk.terms, hk.sent, hk.rising, hk.elected, fun a hm => ?_, hk.floor⟩, he, hc⟩
    rcases List.mem_append.mp hm with hm | hm
    · exact hk.applied a hm
    · obtain ⟨e, he, hm⟩ := List.mem_map.mp hm
      exact hm ▸ ha e he
  case send msg =>
    cases h₂
    refine ⟨⟨hk.logs, hk.terms, fun p hp => ?_, hk.rising, hk.elected, hk.applied, hk.floor⟩, he, hc⟩
    rcases List.mem_append.mp hp with hp | hp
    · exact hk.sent p hp
    · cases List.mem_singleton.mp hp
      exact ha
  all_goals exact ha.elim

-- The only node writes its disk.
theorem Alone.setDisk {disk : StableDisk} (es : List LogEntry) (h : Alone C F full w)
    (hid : id ∈ C.members) (hall : ∀ n ∈ C.members, n = id) (hd : disk.Holds log)
    (hv : View log (full ++ es)) (ht : (w.disks id).currentTerm ≤ disk.currentTerm)
    (hle : ∀ e ∈ es, e.term ≤ disk.currentTerm) (hge : ∀ e ∈ es, ∀ el ∈ w.elections, el.term ≤ e.term) :
    Alone C F (full ++ es) (w.setDisk id disk) where
  logs n hn := by
    rw [hall n hn]
    exact ⟨log, by simpa [World.setDisk] using hd, hv⟩
  terms n hn e he := by
    rw [hall n hn, World.setDisk]
    simp only [Function.update_self]
    rcases List.mem_append.mp he with he | he
    · exact (h.terms id hid e he).trans ht
    · exact hle e he
  sent := h.sent
  rising n hn el hel := by
    rw [hall n hn, World.setDisk]
    simp only [Function.update_self]
    exact (h.rising id hid el hel).trans <| Nat.succ_le_succ ht
  elected el hel := by
    obtain ⟨log, e, hlog, hp, hnew⟩ := h.elected el hel
    refine ⟨log, e, hlog, hp.trans <| List.prefix_append .., fun x hx => ?_⟩
    rw [List.drop_append_of_le_length hp.length_le] at hx
    rcases List.mem_append.mp hx with hx | hx
    · exact hnew x hx
    · exact hge x hx el hel
  applied a ha := by
    obtain ⟨h0, he, hcm⟩ := h.applied a ha
    exact ⟨h0, (List.prefix_append ..).getElem?_eq_some he, hcm⟩
  floor := h.floor.trans <| List.prefix_append ..

-- History learns from a call of the only node.
theorem Alone.record {node node' : RaftNode} (h : Alone C F full w)
    (hall : ∀ n ∈ C.members, n = id) (hel : node.role ≠ .leader → node'.role = .leader →
      node'.currentTerm ≤ (w.disks id).currentTerm + 1 ∧ ∃ e, View node'.log (full ++ [e])) :
    Alone C F full (w.record id node node') where
  logs  := h.logs
  terms := h.terms
  sent  := h.sent
  rising n hn el hm := by
    rcases World.mem_record_elections hm with hm | ⟨rfl, hr, hr'⟩
    · exact h.rising n hn el hm
    · exact hall n hn ▸ (hel hr hr').left
  elected el hm := by
    rcases World.mem_record_elections hm with hm | ⟨rfl, hr, hr'⟩
    · exact h.elected el hm
    · obtain ⟨e, hv⟩ := (hel hr hr').right
      exact ⟨full, e, hv, List.prefix_rfl, by simp⟩
  applied a ha := by
    obtain ⟨h0, he, cm, hcm, hle⟩ := h.applied a ha
    refine ⟨h0, he, cm, ?_, hle⟩
    simp only [World.record]
    split
    · exact List.mem_append_left _ hcm
    · exact hcm
  floor := h.floor

-- What the only node knows when it acts.
structure Lonely (C : Cluster) (F full : List LogEntry) (id : NodeId) (w : World) (k k' : Kernel) :
    Prop where
  alone    : Alone C F full w
  member   : id ∈ C.members
  only     : ∀ n ∈ C.members, n = id
  peers    : k.peers = []
  holds    : (w.disks id).Holds k.log
  base_le  : k.log.firstIndex ≤ k.commitIndex
  le       : k.commitIndex ≤ full.length
  term     : (w.disks id).currentTerm = k.currentTerm
  risen    : k'.role = .leader → ∀ el ∈ w.elections, el.term ≤ k'.currentTerm
  advanced : k'.role = .leader → k.commitIndex < k'.commitIndex →
    ∃ cm ∈ w.commits, cm.term = k'.currentTerm ∧ cm.index = k'.commitIndex

theorem Lonely.view (h : Lonely C F full id w k k') : View k.log full := by
  obtain ⟨log, hd, hv⟩ := h.alone.logs id h.member
  exact hd.unique h.holds ▸ hv

-- An entry of the node's own term is appended.
theorem Alone.append {e : LogEntry} (h : Alone C F full w) (hid : id ∈ C.members)
    (hall : ∀ n ∈ C.members, n = id) (hd : (w.disks id).Holds log) (hi : e.index = log.lastIndex + 1)
    (ht : e.term = (w.disks id).currentTerm) (hel : ∀ el ∈ w.elections, el.term ≤ e.term)
    (ha : ∀ a ∈ as, AllowsAlone (full ++ [e]) w.commits T a) :
    Crash.Sound (World.processAction id T answers) (fun w => ∃ full, Alone C F full w) w
      (.appendEntries [e] :: as) fun w' => Alone C F (full ++ [e]) w' ∧ w'.elections = w.elections := by
  have hnext : Consecutive (log.lastIndex + 1) [e] := ⟨hi, trivial⟩
  obtain ⟨disk, hw, hd'⟩ := hd.append hnext
  have hv : View log full := by
    obtain ⟨log', hd', hv⟩ := h.logs id hid
    exact hd'.unique hd ▸ hv
  have hterm : disk.currentTerm = (w.disks id).currentTerm :=
    congrArg Prod.fst <| StableDisk.appendEntries_hardState hw
  have h' : Alone C F (full ++ [e]) (w.setDisk id disk) := by
    refine h.setDisk [e] hid hall hd' (hv.append hnext) hterm.ge ?_ ?_
    · simp [ht, hterm]
    · simpa using hel
  refine .cons ⟨full, h⟩ fun w₁ h₁ => ?_
  obtain rfl : w.setDisk id disk = w₁ := by simpa [World.processAction, hw] using h₁
  exact h'.messages ha

-- Executing the actions turns the kernel of the node into `k'`.
abbrev Leaves (C : Cluster) (F : List LogEntry) (id : NodeId) (answers : Option Message) (w : World)
    (as : List Action) (k' : Kernel) : Prop :=
  Crash.Sound (World.processAction id k'.currentTerm answers) (fun w => ∃ full, Alone C F full w) w as
    fun w' => ∃ full, Alone C F full w' ∧ w'.elections = w.elections ∧ k'.commitIndex ≤ full.length

-- The node elects itself.
theorem Lonely.lone (h : Lonely C F full id w k k.campaign.lead) (hp : k.peers = []) :
    Leaves C F id answers w (k.campaignActions ++ [.appendEntries [k.campaign.noop]])
      k.campaign.lead := by
  have hlast := h.view.lastIndex
  let disk := (w.disks id).writeHardState (k.currentTerm + 1) (some k.id)
  have hold : disk.Holds k.log := h.holds.writeHardState ..
  have hbump : Alone C F full (w.setDisk id disk) := by
    have := h.alone.setDisk [] h.member h.only hold (by simpa using h.view)
      (h.term.trans_le <| Nat.le_succ _) (by simp) (by simp)
    simpa using this
  have hd : ((w.setDisk id disk).disks id).Holds k.log := by simpa [World.setDisk] using hold
  have ht : ((w.setDisk id disk).disks id).currentTerm = k.currentTerm + 1 := by
    simp [World.setDisk, disk, StableDisk.writeHardState]
  rw [Kernel.campaignActions, hp]
  refine .cons ⟨full, h.alone⟩ fun w₁ h₁ => ?_
  obtain rfl : w.setDisk id disk = w₁ := by simpa [World.processAction] using h₁
  refine (hbump.append (e := k.campaign.noop) h.member h.only hd rfl ht.symm (h.risen rfl)
    (by simp)).mono (fun _ h => h) fun w' _ hw' => ⟨_, hw'.left, hw'.right, ?_⟩
  exact h.le.trans <| by simp

-- It commits a new entry at once, and applies entries of its own log.
theorem Lonely.commits {e : LogEntry} {commit : List Action} (h : Lonely C F full id w k k')
    (hr : k'.role = .leader) (hi : e.index = k.log.lastIndex + 1) (ht : e.term = k.currentTerm)
    (hadv : Advances { k with log := k.log.append [e] } k' commit) :
    k'.commitIndex ≤ (full ++ [e]).length ∧
      ∀ a ∈ commit, AllowsAlone (full ++ [e]) w.commits k'.currentTerm a := by
  have hv := h.view.append (show Consecutive (k.log.lastIndex + 1) [e] from ⟨hi, trivial⟩)
  cases hadv
  case none => exact ⟨h.le.trans <| by simp, by simp⟩
  case some n hlt hle _ _ happ =>
    have hc : k'.commitIndex = n := by rw [happ.eq]
    refine ⟨hc ▸ hle.trans hv.lastIndex.le, ?_⟩
    obtain ⟨cm, hcm, hct, hci⟩ := h.advanced hr (hc ▸ hlt)
    cases happ
    case none => simp
    case some es last hes _ =>
      simp only [List.mem_singleton, forall_eq]
      intro x hx
      rw [← hes] at hx
      have hle := List.mem_takeWhile_imp hx
      obtain ⟨h0, hx⟩ := hv.getElem?_of_mem <|
        RaftLog.entriesFrom_subset _ _ <| List.takeWhile_subset _ hx
      refine ⟨by omega, hx, cm, hcm, hct ▸ ?_, hct.le, hci ▸ by simpa using hle⟩
      rcases List.mem_append.mp <| List.mem_of_getElem? hx with hx | hx
      · exact (h.alone.terms id h.member x hx).trans_eq h.term
      · exact (List.mem_singleton.mp hx ▸ ht).le

theorem Lonely.compact {i t : ℕ} {data : Command} (h : Lonely C F full id w k k')
    (hadm : Admissible True m k) (hm : m = .compactLogs i t) (hi : i ≤ k.commitIndex) :
    Leaves C F id answers w [.persistSnapshot i t data] { k with log := k.log.compact i t } := by
  obtain ⟨hb, ht⟩ := hadm.compact hm hi
  have hlen := hi.trans h.le
  obtain ⟨disk, hd, hh⟩ := h.holds.writeSnapshot data hb (RaftLog.sentinel_term_of_termAt ht)
  rw [h.view.termAt hb hlen, Option.getD_some] at ht
  have hterm : disk.currentTerm = (w.disks id).currentTerm :=
    congrArg Prod.fst <| StableDisk.writeSnapshot_hardState hd
  have h' : Alone C F full (w.setDisk id disk) := by
    have := h.alone.setDisk [] h.member h.only hh (by simpa using h.view.compact hb hlen ht)
      hterm.ge (by simp) (by simp)
    simpa using this
  refine .cons ⟨full, h.alone⟩ fun w₁ h₁ => ?_
  obtain rfl : w.setDisk id disk = w₁ := by simpa [World.processAction, hd] using h₁
  exact .nil ⟨full, h'⟩ ⟨full, h', rfl, h.le⟩

theorem Lonely.move (h : Lonely C F full id w k k') (hm : Move m k k' as) (hc : ∀ msg, m ≠ .handle msg)
    (ha : ∀ msg, .send msg ∈ as → msg.kind.isReply) (hadm : Admissible True m k) :
    Leaves C F id answers w as k' := by
  have messages : k'.commitIndex = k.commitIndex → (∀ a ∈ as, ∃ msg, a = .send msg) →
      Leaves C F id answers w as k' := by
    intro hci hs
    refine (h.alone.messages fun a hm => ?_).mono (fun _ h => h)
      fun w' _ hw' => ⟨full, hw'.left, hw'.right, hci ▸ h.le⟩
    obtain ⟨msg, rfl⟩ := hs a hm
    exact ha msg hm
  cases hm
  case idle hi =>
    refine messages rfl fun a hm => ?_
    have := hi a hm
    cases a
    case send msg => exact ⟨msg, rfl⟩
    all_goals exact this.elim
  case replicate hr hs =>
    refine messages rfl fun a hm => ?_
    cases hs a hm <;> exact ⟨_, rfl⟩
  case campaign hp         => exact absurd h.peers hp
  case propose hp _ _ _ _  => exact absurd h.peers hp
  case lone hp             => exact h.lone hp
  case compact hm hi       => exact h.compact hadm hm hi
  case proposeAlone e commit sends hr hp hi ht hh hadv =>
    have hterm := hadv.currentTerm_eq
    have hrole : k'.role = .leader := hadv.role_eq.trans hr
    have hel : ∀ el ∈ w.elections, el.term ≤ e.term := fun el hm =>
      (h.risen hrole el hm).trans_eq <| hterm.trans ht.symm
    have hcommit := h.commits hrole hi ht hadv
    rw [List.cons_append]
    refine (h.alone.append h.member h.only h.holds hi (ht.trans h.term.symm) hel fun a hm => ?_).mono
      (fun _ h => h) fun w' _ hw' => ⟨_, hw'.left, hw'.right, hcommit.left⟩
    rcases List.mem_append.mp hm with hm' | hm'
    · exact hcommit.right a hm'
    · have hhint := hh a hm'
      cases a
      case send msg => exact ha msg (List.mem_cons_of_mem _ hm)
      all_goals exact hhint.elim
  all_goals exact absurd ‹_› (hc _)

theorem lead_of_move (h : Move m k k' as) (hc : ∀ msg, m ≠ .handle msg) (hr : k.role ≠ .leader)
    (hr' : k'.role = .leader) : k' = k.campaign.lead := by
  cases h
  case lone              => rfl
  case idle              => simp_all
  case campaign          => simp [Kernel.campaign] at hr'
  case propose hl _ _ _ _ _      => exact absurd hl hr
  case proposeAlone hl _ _ _ _ _ => exact absurd hl hr
  case replicate         => exact absurd hr' hr
  case compact           => exact absurd hr' hr
  all_goals exact absurd ‹_› (hc _)

-- The log of a cluster of one node.
def solo (C : Cluster) (F : List LogEntry) (hn : C.members.card ≤ 1)
    (hc : ∀ s e, guard s e → s.compactsWithin e) (hK : ∀ s e, guard s e → s.snapshotCovers e) :
    Preserved C guard (List LogEntry) where
  world full w       := Alone C F full w
  memory full w id k := (k.role = .leader → ∀ el ∈ w.elections, el.term ≤ k.currentTerm) ∧
    k.commitIndex ≤ full.length
  spawn {full w id node} hw hid hn := by
    obtain ⟨log, hd, hv⟩ := hw.logs id hid
    cases (hd.spawnNode _).symm.trans hn
    exact ⟨nofun, hv.base_le⟩
  call {full s id input cut node as} r hw hm hid hg hcall := by
    have hsync := (syncLayer C True hc fun s e h _ => hK s e h).invariant r
    have hkept := ((voteLayer C _).invariant r).memory id hid
    obtain ⟨log, hl, hcov⟩ := (hsync.memory id hid).disk
    have hl : (s.disks id).Holds (s.nodes id).kernel.log := hcov.eq trivial ▸ hl
    have hv : View (s.nodes id).kernel.log full := by
      obtain ⟨log, hd, hv⟩ := hw.logs id hid
      exact hd.unique hl ▸ hv
    have hall : ∀ n ∈ C.members, n = id := fun n hn' => Finset.card_le_one.mp hn n hn' id hid
    have hp : (s.nodes id).peers = [] := by
      have hlen := C.peers_length hid
      exact hkept.peers_eq.trans <| List.length_eq_zero_iff.mp (by omega)
    have ht : (s.disks id).currentTerm = (s.nodes id).kernel.currentTerm :=
      congrArg Prod.fst hkept.hardState
    rcases State.call_alone hp hw.sent hcall with ⟨hc', ha⟩ | he
    case inr =>
      cases he
      have hw' : s.record id (s.nodes id) (s.nodes id) = s.toWorld := by simp [World.record]
      rw [hw']
      exact .nil ⟨full, hw, fun n hn' hne => absurd (hall n hn') hne⟩
        ⟨full, ⟨hw, fun n hn' hne => absurd (hall n hn') hne⟩, hm id hid⟩
    case inl =>
      have hk := State.call_kernel hcall
      cases hk
      case later hm _ _ _ => exact absurd hm (hc' _)
      case same hmove =>
        have hrise := fun hr hr' => lead_of_move hmove hc' hr hr'
        have hw' : Alone C F full (s.record id (s.nodes id) node) := by
          refine hw.record hall fun hr hr' => ?_
          have hlead := hrise hr hr'
          have hterm : node.currentTerm = (s.nodes id).kernel.currentTerm + 1 :=
            congrArg Kernel.currentTerm hlead
          have hlog : node.log = _ := congrArg Kernel.log hlead
          rw [hterm, ht, hlog]
          exact ⟨le_rfl, _, hv.append ⟨rfl, trivial⟩⟩
        have hlonely : Lonely C F full id (s.record id (s.nodes id) node) (s.nodes id).kernel
            node.kernel := {
          alone    := hw'
          member   := hid
          only     := hall
          peers    := hp
          holds    := hl
          base_le  := (hsync.memory id hid).base_le
          le       := (hm id hid).right
          term     := ht
          risen    := fun hr' el hel => by
            by_cases hr : (s.nodes id).role = .leader
            case neg =>
              have hterm : node.currentTerm = (s.nodes id).kernel.currentTerm + 1 :=
                congrArg Kernel.currentTerm (hrise hr hr')
              exact (hw'.rising id hid el hel).trans_eq <| (congrArg Nat.succ ht).trans hterm.symm
            case pos =>
              rcases hmove.leader hr' with h | h | h
              case inl =>
                rcases World.mem_record_elections hel with hel | ⟨_, hne, _⟩
                · exact ((hm id hid).left hr el hel).trans_eq h.right.symm
                · exact absurd hr hne
              · exact absurd (hr.symm.trans h.left) (by simp)
              · exact absurd hr h.left
          advanced := fun hr hci => by
            have hr : node.role = .leader := hr
            have hci : (s.nodes id).commitIndex < node.commitIndex := hci
            simp only [World.record, hr, hci, and_self, if_true]
            exact ⟨_, List.mem_append_right _ <| List.mem_singleton_self _, rfl, rfl⟩ }
        refine (hlonely.move hmove hc' ha <| State.admissible hsync.world hcall (hc _ _ hg) fun _ =>
          hK _ _ hg).mono (fun _ ⟨full, h⟩ => ⟨full, h, fun n hn' hne => absurd (hall n hn') hne⟩) ?_
        rintro w' _ ⟨full, h, he, hle⟩
        refine ⟨full, ⟨h, fun n hn' hne => absurd (hall n hn') hne⟩, fun hr el hel => ?_, hle⟩
        exact hlonely.risen hr el (he ▸ hel)

def soloLayer (C : Cluster) (hn : C.members.card ≤ 1) (hc : ∀ s e, guard s e → s.compactsWithin e)
    (hK : ∀ s e, guard s e → s.snapshotCovers e) : GhostLayer C guard (List LogEntry) where
  toPreserved := solo C [] hn hc hK
  init        := by
    refine ⟨[], fun id _ => ⟨_, .new id, .new⟩, by simp, ?_, ?_, ?_, ?_, List.prefix_rfl⟩ <;>
      simp [Cluster.init]

end Cluster
end RaftRupee
