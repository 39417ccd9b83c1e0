import Mathlib.Data.Finset.Max
import Mathlib.Data.Prod.Lex
import RaftRupee.Core.Lease
import RaftRupee.Sim.Restarts
import RaftRupee.Sim.Standoff

namespace RaftRupee

-- Executing the action cannot fail, and leaves the log on disk alone.
def Action.light : Action → Bool
  | send _ | persistHardState .. => true
  | _                            => false

namespace RaftNode

-- A node with peers asks them for their pre-votes, or for their votes.
theorem startPreVote_spec {node : RaftNode} (hp : node.peers ≠ []) : ∃ preCandidate, node.startPreVote =
      (preCandidate, node.peers.map fun peer => .send
        ⟨node.id, peer, node.currentTerm + 1, .preVote node.log.lastIndex node.log.lastTerm⟩) ∧
    preCandidate.role = .preCandidate ∧ preCandidate.currentTerm = node.currentTerm ∧
    preCandidate.preVotesReceived = {node.id} ∧ preCandidate.log = node.log := by
  have hne : node.peers.isEmpty = false := by simpa using hp
  simp only [startPreVote, hne]
  exact ⟨_, rfl, rfl, rfl, rfl, rfl⟩

theorem startRealElection_spec {node : RaftNode} (hp : node.peers ≠ []) : ∃ candidate, node.startRealElection =
      (candidate, .persistHardState (node.currentTerm + 1) (some node.id) :: node.peers.map fun peer => .send
        ⟨node.id, peer, node.currentTerm + 1, .requestVote node.log.lastIndex node.log.lastTerm⟩) ∧
    candidate.role = .candidate ∧ candidate.currentTerm = node.currentTerm + 1 ∧
    candidate.votesReceived = {node.id} ∧ candidate.log = node.log := by
  have hne : node.peers.isEmpty = false := by simpa using hp
  simp only [startRealElection, hne]
  exact ⟨_, rfl, rfl, rfl, rfl, rfl⟩

variable {node : RaftNode} {sender receiver : NodeId} {term i t : ℕ}

theorem step_preVote_grants (hl : node.leaderId = none) (ht : node.currentTerm ≤ term)
    (hu : node.isLogUpToDate i t) : node.step ⟨sender, receiver, term, .preVote i t⟩ =
      some (node, [.send <| node.message sender <| .preVoteResponse true]) := by
  rw [step_of_isPreVote rfl, dispatch]
  simp [handlePreVote, leaderLeaseActive, hl, ht, hu]

theorem step_requestVote_grants (ht : node.currentTerm < term) (hu : node.isLogUpToDate i t) :
    ∃ voter, node.step ⟨sender, receiver, term, .requestVote i t⟩ = some (voter,
      [.persistHardState term none, .persistHardState term (some sender),
        .send ⟨node.id, sender, term, .requestVoteResponse true⟩]) := by
  have hstep : node.step ⟨sender, receiver, term, .requestVote i t⟩ = _ := step_requestVote_of_lt rfl ht
  rw [if_pos hu, becomeFollower_of_lt none ht] at hstep
  exact ⟨_, hstep⟩

-- A node without peers elects itself when its timer expires.
theorem tick_elects (hp : node.peers = []) (hr : node.role = .follower)
    (hdue : node.electionTimeout ≤ node.electionElapsed + 1) : ∃ leader e, node.tick = (leader,
      [.persistHardState (node.currentTerm + 1) (some node.id)] ++ [.appendEntries [e]]) ∧
    leader.role = .leader ∧ e.index = node.log.lastIndex + 1 := by
  have hb (leader : RaftNode) (h : leader.peers = []) : leader.broadcastHeartbeats = [] := by
    simp [broadcastHeartbeats, h]
  have htick : node.tick = startPreVote { node with electionElapsed := 0 } := by
    simp [tick, hr, hdue]
  rw [htick]
  simp only [startPreVote, startRealElection, becomeLeader, resetElectionTimer, hp, hb, List.isEmpty_nil,
    List.map_nil, List.nil_append, ite_true]
  exact ⟨_, _, rfl, rfl, rfl⟩

end RaftNode

namespace Cluster

variable {C : Cluster} {s₀ s₁ s s' s'' : State} {w w' : World} {id : NodeId} {input : Input} {node : RaftNode}
variable {as bs : List Action} {msg : Message} {T : ℕ} {e : LogEntry} {answers : Option Message}
variable {log : RaftLog} {i : ℕ}

/-! ### Steps that go through -/

theorem light_of_isSend {a : Action} (h : a.isSend) : a.light := by
  cases a
  case send => rfl
  all_goals cases h

theorem World.processActions_append (w : World) : w.processActions id T answers (as ++ bs) =
    (w.processActions id T answers as).bind (·.processActions id T answers bs) :=
  List.foldlM_append

theorem World.exists_processActions (w : World) (id : NodeId) (T : ℕ) (answers : Option Message)
    (hl : ∀ a ∈ as, a.light) :
    ∃ w', w.processActions id T answers as = some w' ∧
      ∀ id', (w'.disks id').logEntries = (w.disks id').logEntries := by
  induction as generalizing w
  case nil => exact ⟨w, rfl, fun _ => rfl⟩
  case cons a as hi =>
    rw [List.forall_mem_cons] at hl
    have hone : ∃ w₁, w.processAction id T answers a = some w₁ ∧
        ∀ id', (w₁.disks id').logEntries = (w.disks id').logEntries := by
      cases a
      case send => exact ⟨_, rfl, fun _ => rfl⟩
      case persistHardState term votedFor =>
        refine ⟨_, rfl, fun id' => ?_⟩
        by_cases hne : id' = id
        case pos =>
          subst hne
          simp [setDisk, StableDisk.writeHardState]
        case neg => simp [setDisk, hne]
      all_goals exact absurd hl.left Bool.false_ne_true
    obtain ⟨w₁, h₁, hd₁⟩ := hone
    obtain ⟨w₂, h₂, hd₂⟩ := hi w₁ hl.right
    exact ⟨w₂, by rw [processActions_cons, h₁]; exact h₂, fun id' => (hd₂ id').trans (hd₁ id')⟩

-- So it is with actions that append an entry to the log on disk.
theorem World.exists_processActions_entry (w : World) (id : NodeId) (T : ℕ) (answers : Option Message)
    (ha : ∀ a ∈ as, a.light) (hb : ∀ b ∈ bs, b.light) (hd : (w.disks id).Takes i) (he : e.index = i) :
    ∃ w', w.processActions id T answers (as ++ .appendEntries [e] :: bs) = some w' := by
  obtain ⟨w₁, h₁, hd₁⟩ := w.exists_processActions id T answers ha
  have ht : (w₁.disks id).Takes i := by rwa [StableDisk.Takes, hd₁ id]
  obtain ⟨disk, happ⟩ := ht.appendEntries he
  obtain ⟨w₂, h₂, _⟩ := (w₁.setDisk id disk).exists_processActions id T answers hb
  refine ⟨w₂, ?_⟩
  rw [processActions_append, h₁, Option.bind_some, processActions_cons, processAction, happ]
  exact h₂

/-! ### Going on without what is in flight -/

-- From the one state on the cluster can get to the other, without the messages in flight in `s₀`.
def State.Leads (C : Cluster) (s₀ s s' : State) : Prop :=
  (C.system.goingOn s).Reachable (fun _ ev => s₀.Loses ev) s'

theorem State.Leads.trans (h : s₀.Leads C s s') (h' : s₀.Leads C s' s'') : s₀.Leads C s s'' :=
  h.goOn h' fun _ _ hg => hg

-- The message has been sent since.
def State.Sent (s₀ s : State) (msg : Message) : Prop :=
  ∃ n p, s₀.network.length ≤ n ∧ s.network[n]? = some p ∧ p.msg = msg

theorem State.Leads.network (h : s₀.Leads C s s') : s.network <+: s'.network := by
  change (C.system.goingOn s).Reachable _ s' at h
  induction h
  case init         => exact List.prefix_rfl
  case step _ hs hi => exact hi.trans (step_network hs)

theorem State.Leads.sent (h : s₀.Leads C s s') (hs : s₀.Sent s msg) : s₀.Sent s' msg := by
  obtain ⟨n, p, hn, hp, hm⟩ := hs
  refine ⟨n, p, hn, ?_, hm⟩
  obtain ⟨_, hnet⟩ := h.network
  rw [← hnet]
  exact List.getElem?_append_left (List.getElem?_eq_some_iff.mp hp).choose ▸ hp

-- The node has come out of a call as `node`, and has sent what the call sends.
structure Acted (C : Cluster) (s₀ s : State) (id : NodeId) (node : RaftNode) (as : List Action) (s' : State) :
    Prop where
  leads : s₀.Leads C s s'
  nodes : s'.nodes = Function.update s.nodes id node
  sent  : ∀ msg, .send msg ∈ as → s₀.Sent s' msg

theorem exists_acted (hid : id ∈ C.members) (hlen : s₀.network.length ≤ s.network.length)
    (hg : s₀.Loses (.call id input none))
    (hcall : s.call id input = some (node, as))
    (hw : (s.record id (s.nodes id) node).processActions id node.currentTerm (s.handled input) as = some w) :
    Acted C s₀ s id node as { w with nodes := Function.update s.nodes id node } where
  leads := .next hg (step_call hid hcall hw)
  nodes := rfl
  sent msg hm := by
    have hnet := World.processActions_network hw
    change w.network = s.network ++ _ at hnet
    have hmem : msg ∈ as.filterMap Action.message := List.mem_filterMap.mpr ⟨_, hm, rfl⟩
    obtain ⟨i, hi⟩ := List.mem_iff_getElem?.mp hmem
    refine ⟨s.network.length + i, ⟨msg, s.handled input⟩, by omega, ?_, rfl⟩
    simp only [hnet]
    rw [List.getElem?_append_right (Nat.le_add_right ..), Nat.add_sub_cancel_left, List.getElem?_map, hi]
    rfl

-- Nothing has been written to a log on disk.
def State.Holding (s s' : State) : Prop :=
  ∀ id, (s'.disks id).logEntries = (s.disks id).logEntries

theorem State.Holding.takes (h : s.Holding s') (ht : (s.disks id).Takes i) : (s'.disks id).Takes i := by
  rwa [StableDisk.Takes, h id]

theorem exists_light (hid : id ∈ C.members) (hlen : s₀.network.length ≤ s.network.length)
    (hg : s₀.Loses (.call id input none))
    (hcall : s.call id input = some (node, as)) (hl : ∀ a ∈ as, a.light) :
    ∃ s', Acted C s₀ s id node as s' ∧ s.Holding s' := by
  obtain ⟨w, hw, hd⟩ := (s.record id (s.nodes id) node).exists_processActions id node.currentTerm
    (s.handled input) hl
  exact ⟨_, exists_acted hid hlen hg hcall hw, hd⟩

theorem exists_entry (as : List Action) (hid : id ∈ C.members) (hlen : s₀.network.length ≤ s.network.length)
    (hg : s₀.Loses (.call id input none))
    (hcall : s.call id input = some (node, as ++ .appendEntries [e] :: bs)) (ha : ∀ a ∈ as, a.light)
    (hb : ∀ b ∈ bs, b.light) (hd : (s.disks id).Takes i) (he : e.index = i) :
    ∃ s', Acted C s₀ s id node (as ++ .appendEntries [e] :: bs) s' := by
  have hd' : ((s.record id (s.nodes id) node).disks id).Takes i := hd
  obtain ⟨w, hw⟩ := (s.record id (s.nodes id) node).exists_processActions_entry id node.currentTerm
    (s.handled input) ha hb hd' he
  exact ⟨_, exists_acted hid hlen hg hcall hw⟩

theorem State.Sent.delivery (h : s₀.Sent s msg) (hr : msg.receiver = id) : ∃ n,
    s₀.Loses (.call id (.deliver n) none) ∧ s.call id (.deliver n) = (s.nodes id).step msg ∧
      s₀.network.length ≤ s.network.length := by
  obtain ⟨n, p, hn, hp, rfl⟩ := h
  refine ⟨n, hn, by simp [call, hp, hr], hn.trans (List.getElem?_eq_some_iff.mp hp).choose.le⟩

theorem exists_delivered (hid : id ∈ C.members) (hs : s₀.Sent s msg) (hr : msg.receiver = id)
    (hstep : (s.nodes id).step msg = some (node, as)) (hl : ∀ a ∈ as, a.light) :
    ∃ s', Acted C s₀ s id node as s' ∧ s.Holding s' := by
  obtain ⟨n, hg, hcall, hlen⟩ := hs.delivery hr
  exact exists_light hid hlen hg (hcall.trans hstep) hl

/-! ### Restarting the voters -/

-- The node follows nobody in term `T`, and its disk takes the entry that comes next in its log.
structure Rested (s : State) (T : ℕ) (id : NodeId) : Prop where
  term     : (s.nodes id).currentTerm = T
  role     : (s.nodes id).role = .follower
  leaderId : (s.nodes id).leaderId = none
  takes    : (s.disks id).Takes ((s.nodes id).log.lastIndex + 1)

theorem exists_restarted (r : C.system.Reachable (fun _ _ => True) s) (hid : id ∈ C.members) :
    ∃ s', s₀.Leads C s s' ∧ s'.toWorld = s.toWorld ∧ (∀ id', id' ≠ id → s'.nodes id' = s.nodes id') ∧
      Rested s' (s.nodes id).currentTerm id := by
  obtain ⟨b, hb⟩ := disk_numbered r hid
  obtain ⟨log, hl⟩ := hb.exists_reconstructedLog
  have hvotes := ((voteLayer C _).invariant r).memory id hid
  have hstep : C.step s (.restart id) =
      some { s with nodes := Function.update s.nodes id (.restore (C.config id)
      (s.disks id).currentTerm (s.disks id).votedFor log (s.disks id).initialCommitApplied
      (s.disks id).initialCommitApplied) } := by
    simp [step, hid, restart, StableDisk.spawnNode, hl]
  have hleads : s₀.Leads C s _ :=
    TransitionSystem.Reachable.next (T := C.system) (e := Event.restart id) trivial hstep
  refine ⟨_, hleads, rfl, fun id' hne => by simp [hne], ?_⟩
  have hterm : (s.disks id).currentTerm = (s.nodes id).currentTerm := congrArg Prod.fst hvotes.hardState
  constructor <;> simp only [Function.update_self, RaftNode.restore]
  case term     => exact hterm
  case role     => rfl
  case leaderId => rfl
  case takes    => exact hb.takes hl

theorem exists_rested (r : C.system.Reachable (fun _ _ => True) s₀) {M : Finset NodeId}
    (hM : M ⊆ C.members) : ∃ s, s₀.Leads C s₀ s ∧ s.toWorld = s₀.toWorld ∧
      (∀ id, id ∉ M → s.nodes id = s₀.nodes id) ∧ ∀ id ∈ M, Rested s (s₀.nodes id).currentTerm id := by
  induction M using Finset.induction_on
  case empty => exact ⟨s₀, .init, rfl, fun _ _ => rfl, by simp⟩
  case insert id M hnot hi =>
    obtain ⟨hid, hM⟩ := Finset.insert_subset_iff.mp hM
    obtain ⟨s, hleads, hw, hkeep, hrested⟩ := hi hM
    obtain ⟨s', hleads', hw', hkeep', hrested'⟩ := exists_restarted
      (r.goOn hleads fun _ _ _ => trivial) hid
    refine ⟨s', hleads.trans hleads', hw'.trans hw, fun id' hne => ?_, fun id' hmem => ?_⟩
    · rw [Finset.mem_insert, not_or] at hne
      exact (hkeep' id' hne.left).trans (hkeep id' hne.right)
    · rcases Finset.mem_insert.mp hmem with rfl | hmem
      · exact hkeep id' hnot ▸ hrested'
      · have hne : id' ≠ id := fun he => hnot (he ▸ hmem)
        obtain ⟨hterm, hrole, hleader, htakes⟩ := hrested id' hmem
        constructor <;> rw [hkeep' id' hne]
        case takes => rwa [hw']
        all_goals assumption

/-! ### The timer of the candidate -/

-- A follower waits until its timer is about to expire.
theorem exists_due (hid : id ∈ C.members) (hlen : s₀.network.length ≤ s.network.length)
    (hr : (s.nodes id).role = .follower) : ∃ s' elapsed, s₀.Leads C s s' ∧ s.Holding s' ∧
      s'.nodes = Function.update s.nodes id { s.nodes id with electionElapsed := elapsed } ∧
      (s.nodes id).electionTimeout ≤ elapsed + 1 := by
  induction hn : (s.nodes id).electionTimeout - ((s.nodes id).electionElapsed + 1) generalizing s
  case zero =>
    exact ⟨s, (s.nodes id).electionElapsed, .init, fun _ => rfl, by simp, by omega⟩
  case succ n hi =>
    have hcall : s.call id .tick =
        some ({ s.nodes id with electionElapsed := (s.nodes id).electionElapsed + 1 }, []) := by
      simp [State.call, RaftNode.tick, hr]
      omega
    have hg : s₀.Loses (.call id .tick none) := trivial
    obtain ⟨s₁, hacted, hhold⟩ := exists_light hid hlen hg hcall (by simp)
    have hnode : s₁.nodes id = { s.nodes id with electionElapsed := (s.nodes id).electionElapsed + 1 } := by
      rw [hacted.nodes, Function.update_self]
    obtain ⟨s₂, elapsed, hleads, hhold', hnodes, hle⟩ := hi
      (hlen.trans hacted.leads.network.length_le) (by rw [hnode]; exact hr) (by rw [hnode]; simp; omega)
    refine ⟨s₂, elapsed, hacted.leads.trans hleads, fun id' => (hhold' id').trans (hhold id'), ?_, ?_⟩
    · rw [hnodes, hnode, hacted.nodes, Function.update_idem]
    · simpa [hnode] using hle

/-! ### The election -/

-- Restarted nodes, of which none has a longer log than the candidate.
structure Electorate (C : Cluster) (s₁ : State) (M : Finset NodeId) (c : NodeId) (T : ℕ) (log : RaftLog) :
    Prop where
  reached : C.system.Reachable (fun _ _ => True) s₁
  members : M ⊆ C.members
  mem     : c ∈ M
  several : 1 < C.members.card
  voters  : ∀ m ∈ M, m ≠ c → (s₁.nodes m).currentTerm = T ∧ (s₁.nodes m).leaderId = none ∧
    (s₁.nodes m).isLogUpToDate log.lastIndex log.lastTerm

variable {M V : Finset NodeId} {c : NodeId}

-- The candidate `c` asks in term `T`, with the log `log`.
structure Asks (C : Cluster) (s₀ s₁ : State) (c : NodeId) (T : ℕ) (log : RaftLog) (kind : MessageKind)
    (s : State) : Prop where
  leads : s₀.Leads C s₁ s
  keeps : (s.nodes c).log = log
  takes : (s.disks c).Takes (log.lastIndex + 1)
  asked : ∀ m ∈ C.members, m ≠ c → s₀.Sent s ⟨c, m, T, kind⟩

-- It waits for pre-votes, and has those of `V`.
structure AsksPreVotes (C : Cluster) (s₀ s₁ : State) (M : Finset NodeId) (c : NodeId) (T : ℕ) (log : RaftLog)
    (s : State) (V : Finset NodeId) : Prop
    extends Asks C s₀ s₁ c (T + 1) log (.preVote log.lastIndex log.lastTerm) s where
  role     : (s.nodes c).role = .preCandidate
  term     : (s.nodes c).currentTerm = T
  received : (s.nodes c).preVotesReceived = V
  self_mem : c ∈ V
  voters   : ∀ m ∈ M, m ≠ c → s.nodes m = s₁.nodes m

-- It waits for votes, and has those of `V`.
structure AsksVotes (C : Cluster) (s₀ s₁ : State) (M : Finset NodeId) (c : NodeId) (T : ℕ) (log : RaftLog)
    (s : State) (V : Finset NodeId) : Prop
    extends Asks C s₀ s₁ c (T + 1) log (.requestVote log.lastIndex log.lastTerm) s where
  role     : (s.nodes c).role = .candidate
  term     : (s.nodes c).currentTerm = T + 1
  received : (s.nodes c).votesReceived = V
  self_mem : c ∈ V
  voters   : ∀ m ∈ M, m ∉ V → s.nodes m = s₁.nodes m

theorem majority_eq (hid : id ∈ C.members) (hm : s.VotesKept C id (s.nodes id).kernel) :
    (s.nodes id).majority = C.members.card / 2 + 1 := by
  have hpeers := peers_length hid
  rw [← hm.peers_eq] at hpeers
  rw [RaftNode.majority, ← hpeers]
  rfl

theorem peers_ne_nil (hid : id ∈ C.members) (hm : s.VotesKept C id (s.nodes id).kernel)
    (hn : 1 < C.members.card) : (s.nodes id).peers ≠ [] := by
  intro hp
  have hpeers := peers_length hid
  rw [← hm.peers_eq] at hpeers
  have hnil : (s.nodes id).kernel.peers = [] := hp
  simp [hnil] at hpeers
  omega

theorem mem_peers_of (hid : id ∈ C.members) (hm : s.VotesKept C id (s.nodes id).kernel) {m : NodeId}
    (hmem : m ∈ C.members) (hne : m ≠ id) : m ∈ (s.nodes id).peers := by
  have hp : (s.nodes id).peers = (C.config id).peers := hm.peers_eq
  exact hp ▸ (C.mem_peers hid m).mpr ⟨hmem, hne⟩

-- One more member is asked for its pre-vote.
theorem AsksPreVotes.ask {m : NodeId} (he : Electorate C s₁ M c T log)
    (h : AsksPreVotes C s₀ s₁ M c T log s V) (hm : m ∈ M) (hv : m ∉ V) :
    ∃ s', s₀.Leads C s s' ∧ if C.members.card / 2 + 1 ≤ (insert m V).card then
      AsksVotes C s₀ s₁ M c T log s' {c} else AsksPreVotes C s₀ s₁ M c T log s' (insert m V) := by
  have hne : m ≠ c := fun hc => hv (hc ▸ h.self_mem)
  have hmem := he.members hm
  have hc := he.members he.mem
  obtain ⟨hterm, hleader, hup⟩ := he.voters m hm hne
  rw [← h.voters m hm hne] at hterm hleader hup
  have r : C.system.Reachable (fun _ _ => True) s := he.reached.goOn h.leads fun _ _ _ => trivial
  have hid : (s.nodes m).id = m := (((voteLayer C _).invariant r).memory m hmem).id_eq
  obtain ⟨s₂, hacted, hhold⟩ := exists_delivered hmem (h.asked m hmem hne) rfl
    (RaftNode.step_preVote_grants hleader (by rw [hterm]; exact Nat.le_succ T) hup) (by simp [Action.light])
  have hnodes : s₂.nodes = s.nodes := by rw [hacted.nodes, Function.update_eq_self]
  have hreply := hacted.sent _ (List.mem_singleton_self _)
  rw [show (s.nodes m).message c (.preVoteResponse true) = ⟨m, c, T, .preVoteResponse true⟩ by
    simp [RaftNode.message, hid, hterm]] at hreply
  -- The candidate counts the reply, which carries its own term.
  have hkept := ((voteLayer C _).invariant r).memory c hc
  have hstep : (s₂.nodes c).step ⟨m, c, T, .preVoteResponse true⟩ =
      some ((s.nodes c).handlePreVoteResponse m (s.nodes c).currentTerm true) := by
    rw [hnodes, RaftNode.step_of_isPreVote rfl, h.term]
    rfl
  rw [RaftNode.handlePreVoteResponse_granted m h.role, h.received, majority_eq hc hkept] at hstep
  split
  case isFalse hq =>
    rw [if_neg hq] at hstep
    obtain ⟨s₃, hacted', hhold'⟩ := exists_delivered hc hreply rfl hstep (by simp)
    have hleads := hacted.leads.trans hacted'.leads
    have hself : s₃.nodes c = { s.nodes c with preVotesReceived := insert m V } := by
      rw [hacted'.nodes, Function.update_self]
    refine ⟨s₃, hleads,
      ⟨⟨h.leads.trans hleads, ?keeps, ?takes, ?asked⟩, ?role, ?term, ?received, ?self_mem, ?voters⟩⟩
    case keeps    => exact hself ▸ h.keeps
    case takes    => exact hhold'.takes (hhold.takes h.takes)
    case asked    => exact fun m hm hne => hleads.sent (h.asked m hm hne)
    case role     => exact hself ▸ h.role
    case term     => exact hself ▸ h.term
    case received => rw [hself]
    case self_mem => exact Finset.mem_insert_of_mem h.self_mem
    case voters   =>
      intro m hm hne
      rw [hacted'.nodes, Function.update_of_ne hne, hnodes, h.voters m hm hne]
  case isTrue hq =>
    rw [if_pos hq] at hstep
    let backed : RaftNode := { s.nodes c with preVotesReceived := insert m V }
    have hcid : (s.nodes c).id = c := hkept.id_eq
    have hp : backed.peers ≠ [] := peers_ne_nil hc hkept he.several
    obtain ⟨cand, helect, hrole, hterm', hreceived, hlog⟩ := RaftNode.startRealElection_spec hp
    rw [helect] at hstep
    obtain ⟨s₃, hacted', hhold'⟩ := exists_delivered hc hreply rfl hstep (by simp [Action.light])
    have hleads := hacted.leads.trans hacted'.leads
    have hself : s₃.nodes c = cand := by rw [hacted'.nodes, Function.update_self]
    refine ⟨s₃, hleads,
      ⟨⟨h.leads.trans hleads, ?keeps, ?takes, ?asked⟩, ?role, ?term, ?received, ?self_mem, ?voters⟩⟩
    case keeps    => rw [hself, hlog, ← h.keeps]
    case takes    => exact hhold'.takes (hhold.takes h.takes)
    case role     => rw [hself, hrole]
    case term     => rw [hself, hterm', ← h.term]
    case received => rw [hself, hreceived, hcid]
    case self_mem => exact Finset.mem_singleton_self c
    case asked    =>
      intro m hm hne
      have hsent := hacted'.sent _
        (List.mem_cons_of_mem _ <| List.mem_map_of_mem <| mem_peers_of hc hkept hm hne)
      rwa [hcid, h.keeps, h.term] at hsent
    case voters   =>
      intro m hm hne
      rw [Finset.mem_singleton] at hne
      rw [hacted'.nodes, Function.update_of_ne hne, hnodes, h.voters m hm hne]

-- One more member is asked for its vote.
theorem AsksVotes.ask {m : NodeId} (he : Electorate C s₁ M c T log)
    (h : AsksVotes C s₀ s₁ M c T log s V) (hm : m ∈ M) (hv : m ∉ V) :
    ∃ s', s₀.Leads C s s' ∧ if C.members.card / 2 + 1 ≤ (insert m V).card then
      (s'.nodes c).role = .leader else AsksVotes C s₀ s₁ M c T log s' (insert m V) := by
  have hne : m ≠ c := fun hc => hv (hc ▸ h.self_mem)
  have hmem := he.members hm
  have hc := he.members he.mem
  obtain ⟨hterm, _, hup⟩ := he.voters m hm hne
  rw [← h.voters m hm hv] at hterm hup
  have r : C.system.Reachable (fun _ _ => True) s := he.reached.goOn h.leads fun _ _ _ => trivial
  have hid : (s.nodes m).id = m := (((voteLayer C _).invariant r).memory m hmem).id_eq
  have hlt : (s.nodes m).currentTerm < T + 1 := by omega
  obtain ⟨voter, hstep⟩ := RaftNode.step_requestVote_grants hlt hup
  obtain ⟨s₂, hacted, hhold⟩ := exists_delivered hmem (h.asked m hmem hne) rfl hstep (by simp [Action.light])
  have hreply := hacted.sent _ <| List.mem_cons_of_mem _ <| List.mem_cons_of_mem _ <| List.mem_singleton_self _
  rw [hid] at hreply
  have hcand : s₂.nodes c = s.nodes c := by rw [hacted.nodes, Function.update_of_ne hne.symm]
  -- The candidate counts the vote.
  have hkept := ((voteLayer C _).invariant r).memory c hc
  have hstep' : (s₂.nodes c).step ⟨m, c, T + 1, .requestVoteResponse true⟩ =
      some ((s.nodes c).handleRequestVoteResponse m (s.nodes c).currentTerm true) := by
    rw [hcand, RaftNode.step_of_term h.term.symm, h.term]
    rfl
  rw [RaftNode.handleRequestVoteResponse_granted m h.role, h.received, majority_eq hc hkept] at hstep'
  split
  case isTrue hq =>
    rw [if_pos hq] at hstep'
    obtain ⟨n, hg, hcall, hlen⟩ := hreply.delivery rfl
    have htakes : (s₂.disks c).Takes ((s.nodes c).log.lastIndex + 1) := h.keeps ▸ hhold.takes h.takes
    obtain ⟨s₃, hacted'⟩ := exists_entry [] hc hlen hg (hcall.trans hstep') (by simp)
      (fun a ha => light_of_isSend (RaftNode.broadcast_replicates _ a ha).isSend) htakes rfl
    refine ⟨s₃, hacted.leads.trans hacted'.leads, ?_⟩
    rw [hacted'.nodes, Function.update_self]
  case isFalse hq =>
    rw [if_neg hq] at hstep'
    obtain ⟨s₃, hacted', hhold'⟩ := exists_delivered hc hreply rfl hstep' (by simp)
    have hleads := hacted.leads.trans hacted'.leads
    have hself : s₃.nodes c = { s.nodes c with votesReceived := insert m V } := by
      rw [hacted'.nodes, Function.update_self]
    refine ⟨s₃, hleads,
      ⟨⟨h.leads.trans hleads, ?keeps, ?takes, ?asked⟩, ?role, ?term, ?received, ?self_mem, ?voters⟩⟩
    case keeps    => exact hself ▸ h.keeps
    case takes    => exact hhold'.takes (hhold.takes h.takes)
    case asked    => exact fun m hm hne => hleads.sent (h.asked m hm hne)
    case role     => exact hself ▸ h.role
    case term     => exact hself ▸ h.term
    case received => rw [hself]
    case self_mem => exact Finset.mem_insert_of_mem h.self_mem
    case voters   =>
      intro v hv hne
      rw [Finset.mem_insert, not_or] at hne
      have hvc : v ≠ c := fun he => hne.right (he ▸ h.self_mem)
      rw [hacted'.nodes, Function.update_of_ne hvc, hacted.nodes, Function.update_of_ne hne.left,
        h.voters v hv hne.right]

-- The timer of the candidate expires.
theorem Electorate.start (he : Electorate C s₁ M c T log) (hlen : s₀.network.length ≤ s₁.network.length)
    (hr : (s₁.nodes c).role = .follower) (ht : (s₁.nodes c).currentTerm = T) (hl : (s₁.nodes c).log = log)
    (hd : (s₁.disks c).Takes (log.lastIndex + 1))
    (hdue : (s₁.nodes c).electionTimeout ≤ (s₁.nodes c).electionElapsed + 1) :
    ∃ s, AsksPreVotes C s₀ s₁ M c T log s {c} := by
  have hc := he.members he.mem
  have hkept := ((voteLayer C _).invariant he.reached).memory c hc
  have hcid : (s₁.nodes c).id = c := hkept.id_eq
  let expired : RaftNode := { s₁.nodes c with electionElapsed := 0 }
  have hp : expired.peers ≠ [] := peers_ne_nil hc hkept he.several
  obtain ⟨pre, hpre, hrole, hterm, hreceived, hlog⟩ := RaftNode.startPreVote_spec hp
  have hcall : s₁.call c .tick = some expired.startPreVote := by
    simp [State.call, RaftNode.tick, hr, hdue, expired]
  rw [hpre] at hcall
  have hg : s₀.Loses (.call c .tick none) := trivial
  obtain ⟨s, hacted, hhold⟩ := exists_light hc hlen hg hcall (by simp [Action.light])
  have hself : s.nodes c = pre := by rw [hacted.nodes, Function.update_self]
  refine ⟨s, ⟨⟨hacted.leads, ?keeps, ?takes, ?asked⟩, ?role, ?term, ?received, ?self_mem, ?voters⟩⟩
  case keeps    => rw [hself, hlog, ← hl]
  case takes    => exact hhold.takes hd
  case role     => rw [hself, hrole]
  case term     => rw [hself, hterm, ← ht]
  case received => rw [hself, hreceived, hcid]
  case self_mem => exact Finset.mem_singleton_self c
  case asked    =>
    intro m hm hne
    have hsent := hacted.sent _ (List.mem_map_of_mem <| mem_peers_of hc hkept hm hne)
    rwa [hcid, hl, ht] at hsent
  case voters   =>
    intro m _ hne
    rw [hacted.nodes, Function.update_of_ne hne]

-- Some node has the longest log.
theorem exists_longest (hne : M.Nonempty) : ∃ c ∈ M, ∀ m ∈ M,
    (s.nodes m).isLogUpToDate (s.nodes c).log.lastIndex (s.nodes c).log.lastTerm := by
  obtain ⟨c, hc, hmax⟩ := M.exists_max_image
    (fun m => toLex ((s.nodes m).log.lastTerm, (s.nodes m).log.lastIndex)) hne
  refine ⟨c, hc, fun m hm => ?_⟩
  have hle := Prod.Lex.toLex_le_toLex.mp (hmax m hm)
  simp only [RaftNode.isLogUpToDate]
  grind

theorem exists_leader_alone (hid : id ∈ C.members) (hm : s.VotesKept C id (s.nodes id).kernel)
    (hn : C.members.card ≤ 1) (hlen : s₀.network.length ≤ s.network.length)
    (hr : (s.nodes id).role = .follower)
    (hd : (s.disks id).Takes ((s.nodes id).log.lastIndex + 1))
    (hdue : (s.nodes id).electionTimeout ≤ (s.nodes id).electionElapsed + 1) :
    ∃ s', s₀.Leads C s s' ∧ (s'.nodes id).role = .leader := by
  have hpeers := peers_length hid
  rw [← hm.peers_eq] at hpeers
  have hp : (s.nodes id).peers = [] :=
    List.eq_nil_of_length_eq_zero (l := (s.nodes id).kernel.peers) (by omega)
  obtain ⟨leader, e, htick, hrole, he⟩ := RaftNode.tick_elects hp hr hdue
  have hg : s₀.Loses (.call id .tick none) := trivial
  obtain ⟨s', hacted⟩ :=
    exists_entry _ hid hlen hg (congrArg some htick) (by simp [Action.light]) (by simp) hd he
  refine ⟨s', hacted.leads, ?_⟩
  rw [hacted.nodes, Function.update_self, hrole]

-- A majority in one term can elect one of its nodes.
theorem exists_leader (r : C.system.Reachable (fun _ _ => True) s₀)
    (hT : C.members.card < 2 * (C.members.filter fun id => (s₀.nodes id).currentTerm = T).card) :
    ∃ s, s₀.Leads C s₀ s ∧ ∃ id ∈ C.members, (s.nodes id).role = .leader := by
  obtain ⟨M, hdef⟩ : ∃ M, M = C.members.filter fun id => (s₀.nodes id).currentTerm = T := ⟨_, rfl⟩
  rw [← hdef] at hT
  have hM : M ⊆ C.members := hdef ▸ Finset.filter_subset ..
  obtain ⟨s₁, hleads₁, _, _, hrested⟩ := exists_rested r hM
  obtain ⟨c, hcM, hup⟩ := exists_longest (s := s₁) (M := M) (Finset.card_pos.mp (by omega))
  have hrested (m) (hm : m ∈ M) : Rested s₁ T m := by
    have ht := (Finset.mem_filter.mp (hdef ▸ hm)).right
    exact ht ▸ hrested m hm
  have hc := hM hcM
  obtain ⟨hterm, hrole, _, htakes⟩ := hrested c hcM
  obtain ⟨s₂, elapsed, hleads₂, hhold₂, hnodes₂, hdue⟩ := exists_due hc hleads₁.network.length_le hrole
  have hleads := hleads₁.trans hleads₂
  have r₂ : C.system.Reachable (fun _ _ => True) s₂ := r.goOn hleads fun _ _ _ => trivial
  have hself : s₂.nodes c = { s₁.nodes c with electionElapsed := elapsed } := by
    rw [hnodes₂, Function.update_self]
  have hrole₂ : (s₂.nodes c).role = .follower := hself ▸ hrole
  have hterm₂ : (s₂.nodes c).currentTerm = T := hself ▸ hterm
  have hlog₂ : (s₂.nodes c).log = (s₁.nodes c).log := by rw [hself]
  have htakes₂ := hhold₂.takes htakes
  have hdue₂ : (s₂.nodes c).electionTimeout ≤ (s₂.nodes c).electionElapsed + 1 := hself ▸ hdue
  have hlen := hleads.network.length_le
  by_cases hn : 1 < C.members.card
  case neg =>
    have hkept := ((voteLayer C _).invariant r₂).memory c hc
    obtain ⟨s₃, hleads₃, hleader⟩ :=
      exists_leader_alone hc hkept (by omega) hlen hrole₂ (hlog₂ ▸ htakes₂) hdue₂
    exact ⟨s₃, hleads.trans hleads₃, c, hc, hleader⟩
  case pos =>
    have he : Electorate C s₂ M c T (s₁.nodes c).log := by
      refine ⟨r₂, hM, hcM, hn, fun m hm hne => ?_⟩
      rw [hnodes₂, Function.update_of_ne hne]
      exact ⟨(hrested m hm).term, (hrested m hm).leaderId, hup m hm⟩
    obtain ⟨s₃, h₃⟩ := he.start hlen hrole₂ hterm₂ hlog₂ htakes₂ hdue₂
    have hq : C.members.card / 2 + 1 ≤ M.card := by omega
    have hone : ({c} : Finset NodeId).card < C.members.card / 2 + 1 := by
      rw [Finset.card_singleton]
      omega
    have htrans {s s' s''} (h : s₀.Leads C s s') (h' : s₀.Leads C s' s'') := h.trans h'
    obtain ⟨s₄, hleads₄, h₄⟩ := exists_of_gather (s₀.Leads C) (AsksPreVotes C s₀ s₂ M c T _) htrans
      (fun _ _ _ h hm hv => h.ask he hm hv) h₃ hq hone
    obtain ⟨s₅, hleads₅, h₅⟩ := exists_of_gather (s₀.Leads C) (AsksVotes C s₀ s₂ M c T _) htrans
      (fun _ _ _ h hm hv => h.ask he hm hv) h₄ hq hone
    exact ⟨s₅, ((hleads.trans h₃.leads).trans hleads₄).trans hleads₅, c, hc, h₅⟩

-- A cluster that has lost its messages can elect a leader as long as a majority of its nodes is in one term.
theorem leader_possible_iff (r : C.system.Reachable (fun _ _ => True) s₀)
    (hl : ∀ id ∈ C.members, (s₀.nodes id).role ≠ .leader)
    (hc : ∀ id ∈ C.members, (s₀.nodes id).role = .preCandidate → ∀ v ∈ (s₀.nodes id).preVotesReceived,
      v ∈ C.members ∧ (s₀.nodes v).currentTerm = (s₀.nodes id).currentTerm) :
    (∃ s, (C.system.goingOn s₀).Reachable (fun _ e => s₀.Loses e) s ∧
      ∃ id ∈ C.members, (s.nodes id).role = .leader) ↔
    ∃ T, C.members.card < 2 * (C.members.filter fun id => (s₀.nodes id).currentTerm = T).card := by
  constructor
  case mp =>
    rintro ⟨s, r', id, hid, hrole⟩
    by_contra hT
    push Not at hT
    have hsplit : s₀.Split C := ⟨hl, hT, hc⟩
    exact (hsplit.standoff r r').leaderless id hid hrole
  case mpr =>
    rintro ⟨T, hT⟩
    exact exists_leader r hT

-- A candidate has moved to term 1 alone. The other two of the three nodes can still elect one of them.
theorem leader_possible_three : ∃ s₀, (ofSize 3 (by decide)).system.Reachable (fun _ _ => True) s₀ ∧
    (s₀.nodes 1).role = .candidate ∧
    ∃ s, ((ofSize 3 (by decide)).system.goingOn s₀).Reachable (fun _ e => s₀.Loses e) s ∧
      ∃ id ∈ (ofSize 3 (by decide)).members, (s.nodes id).role = .leader := by
  have r := TransitionSystem.reachable_run (T := (ofSize 3 (by decide)).system) (fun _ _ => True)
    [.tick 1, .tick 1, .deliver 2 0, .deliver 1 2] (by decide +kernel)
  refine ⟨_, r, ?_, (leader_possible_iff r ?_ ?_).mpr ⟨0, ?_⟩⟩ <;> decide +kernel

end Cluster
end RaftRupee
