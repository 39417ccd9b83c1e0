import RaftRupee.Lib.Replication.Lineage
import RaftRupee.Sim.Sync
import RaftRupee.Sim.View

namespace RaftRupee

open Replication

-- The history that a node without it continues from when it compacts beyond its log.
def filler (k : ℕ) : List LogEntry :=
  (List.range k).map fun i => { index := i + 1, term := 0, command := [] }

@[simp]
theorem filler_length (k : ℕ) : (filler k).length = k := by
  simp [filler]

theorem filler_take {k m : ℕ} (h : k ≤ m) : (filler m).take k = filler k := by
  rw [filler, ← List.map_take, List.take_range, Nat.min_eq_left h]
  rfl

theorem filler_getElem? {k i : ℕ} {e : LogEntry} (h : (filler k)[i]? = some e) :
    i < k ∧ e.term = 0 := by
  simp only [filler, List.getElem?_map, Option.map_eq_some_iff] at h
  obtain ⟨j, hj, he⟩ := h
  have hi := (List.getElem?_eq_some_iff.mp hj).choose
  exact ⟨by simpa using hi, he ▸ rfl⟩

theorem filler_lastTerm (k : ℕ) : lastTerm (filler k) = 0 := by
  rcases k with _ | k
  case zero => rfl
  case succ =>
    obtain ⟨e, he, ht⟩ := exists_last (show 0 < (filler (k + 1)).length by simp)
    exact ht.trans (filler_getElem? he).right

namespace Cluster

-- The complete logs of the nodes, and where their entries come from.
structure Traces where
  logs    : NodeId → List LogEntry
  lineage : Lineage LogEntry

variable {C : Cluster} {s : State} {w w' : World} {id : NodeId} {T : ℕ}
variable {m : Cause} {answers : Option Message} {k k' : Kernel} {as bs : List Action}
variable {log log' : RaftLog} {g g' : Traces} {M : List LogEntry} {e : LogEntry}
variable {guard : State → Event → Prop} {input : Input} {node : RaftNode}

namespace Traces

def create (g : Traces) (id : NodeId) (e : LogEntry) : Traces where
  logs    := Function.update g.logs id (g.logs id ++ [e])
  lineage := g.lineage.create (g.logs id) e

def setLog (g : Traces) (id : NodeId) (log : List LogEntry) : Traces :=
  { g with logs := Function.update g.logs id log }

-- The entries and snapshots that are sent come from logs with a lineage.
def Allows (g : Traces) : Action → Prop
  | .send msg =>
    (∀ i t es c, msg.kind = .appendEntries i t es c → es = [] ∨
      ∃ M, Traced g.lineage M ∧ i ≤ M.length ∧ t = lastTerm (M.take i) ∧ es = M.drop i) ∧
    ∀ i t o data done, msg.kind = .installSnapshot i t o data done →
      ∃ M, Traced g.lineage M ∧ M.length = i ∧ t = lastTerm M
  | .apply _  => True
  | _         => False

structure Explains (C : Cluster) (g : Traces) (w : World) : Prop where
  logs    : ∀ id ∈ C.members, ∃ log, (w.disks id).Holds log ∧ View log (g.logs id)
  traced  : ∀ id ∈ C.members, Traced g.lineage (g.logs id)
  sent    : ∀ p ∈ w.network, g.Allows (.send p.msg)
  -- Only a leader creates entries, after it has made its term durable.
  created : ∀ {T k}, g.lineage T k ≠ none → T ≠ 0 →
    ∃ e ∈ w.elections, e.term = T ∧ T ≤ (w.disks e.node).currentTerm
  zero    : ∀ k, g.lineage 0 k = some (filler (k + 1))

-- A leader has not created an entry beyond the end of its log.
structure Tracks (g : Traces) (id : NodeId) (k : Kernel) : Prop where
  positive : k.role = .candidate → 0 < k.currentTerm
  fresh    : k.role = .leader → ∀ j, (g.logs id).length ≤ j → g.lineage k.currentTerm j = none

theorem filler_traced (h : g.Explains C w) (n : ℕ) : Traced g.lineage (filler n) := by
  intro j e he
  obtain ⟨hj, ht⟩ := filler_getElem? he
  rw [filler_take (by omega)]
  exact (congrArg (g.lineage · j) ht).trans <| h.zero j

theorem Allows.mono {a : Action} (h : g.Allows a)
    (hm : ∀ {T k l}, g.lineage T k = some l → g'.lineage T k = some l) : g'.Allows a := by
  cases a
  case send msg =>
    refine ⟨fun i t es c hk => ?_, fun i t o data done hk => ?_⟩
    · exact (h.left i t es c hk).imp_right fun ⟨M, ht, h⟩ => ⟨M, ht.mono hm, h⟩
    · obtain ⟨M, ht, h⟩ := h.right i t o data done hk
      exact ⟨M, ht.mono hm, h⟩
  all_goals exact h

/-! ### Executing actions -/

variable {ks : NodeId → Kernel} {post : World → Prop}

-- What holds while node `id` acts.
structure Kept (C : Cluster) (ks : NodeId → Kernel) (id : NodeId) (g : Traces) (w : World) : Prop
    extends g.Explains C w where
  others : ∀ id' ∈ C.members, id' ≠ id → g.Tracks id' (ks id')

theorem Kept.messages (h : g.Kept C ks id w) (ha : ∀ a ∈ as, g.Allows a)
    (hp : ∀ w', g.Kept C ks id w' → w'.disks = w.disks → post w') :
    Crash.Sound (World.processAction id T answers) (fun w => ∃ g : Traces, g.Kept C ks id w) w as
      post := by
  let J (w' : World) := g.Kept C ks id w' ∧ w'.disks = w.disks
  refine (Crash.Sound.all (J := J) (fun _ h => ⟨g, h.left⟩) ?_ ⟨h, rfl⟩).mono (fun _ h => h)
    fun w' _ h => hp w' h.left h.right
  rintro w₁ w₂ a hm ⟨hk, hd⟩ h₂
  have ha := ha a hm
  cases a
  case apply =>
    cases h₂
    exact ⟨⟨⟨hk.logs, hk.traced, hk.sent, hk.created, hk.zero⟩, hk.others⟩, hd⟩
  case send msg =>
    cases h₂
    refine ⟨⟨⟨hk.logs, hk.traced, fun p hp => ?_, hk.created, hk.zero⟩, hk.others⟩, hd⟩
    rcases List.mem_append.mp hp with hp | hp
    · exact hk.sent p hp
    · cases List.mem_singleton.mp hp
      exact ha
  all_goals exact ha.elim

-- Writing the disk of the acting node.
theorem Explains.setDisk {disk : StableDisk} (h : g.Explains C w) (hd : disk.Holds log)
    (hv : View log (g.logs id)) (ht : (w.disks id).currentTerm ≤ disk.currentTerm) :
    g.Explains C (w.setDisk id disk) where
  logs id' hid := by
    by_cases hi : id' = id
    case pos =>
      subst hi
      exact ⟨log, by simpa [World.setDisk] using hd, hv⟩
    case neg => simpa [World.setDisk, hi] using h.logs id' hid
  traced  := h.traced
  sent    := h.sent
  created hl hT := by
    obtain ⟨e, he, heT, hle⟩ := h.created hl hT
    refine ⟨e, he, heT, ?_⟩
    by_cases hi : e.node = id
    case pos =>
      rw [hi] at hle
      simpa [World.setDisk, hi] using hle.trans ht
    case neg => simpa [World.setDisk, hi] using hle
  zero    := h.zero

theorem Kept.persistHardState {term : ℕ} {votedFor : Option NodeId} (h : g.Kept C ks id w)
    (hid : id ∈ C.members) (ht : (w.disks id).currentTerm ≤ term)
    (hp : ∀ w', g.Kept C ks id w' → (w'.disks id).currentTerm = term →
      (∀ log, (w.disks id).Holds log → (w'.disks id).Holds log) →
      w'.elections = w.elections → w'.network = w.network →
      Crash.Sound (World.processAction id T answers) (fun w => ∃ g : Traces, g.Kept C ks id w) w' as
        post) :
    Crash.Sound (World.processAction id T answers) (fun w => ∃ g : Traces, g.Kept C ks id w) w
      (.persistHardState term votedFor :: as) post := by
  refine .cons ⟨g, h⟩ fun w₁ h₁ => ?_
  cases h₁
  obtain ⟨log, hl, hv⟩ := h.logs id hid
  refine hp _ ⟨h.setDisk (hl.writeHardState term votedFor) hv ht, h.others⟩ ?_ ?_ rfl rfl
  · simp [World.setDisk, StableDisk.writeHardState]
  · exact fun log hl => by simpa [World.setDisk] using hl.writeHardState term votedFor

-- The acting node gets another log, none of whose entries are new.
theorem Kept.setLog {a : Action} {disk : StableDisk} (h : g.Kept C ks id w)
    (ha : w.processAction id T answers a = some (w.setDisk id disk)) (hd : disk.Holds log)
    (hv : View log M) (hM : Traced g.lineage M)
    (ht : disk.currentTerm = (w.disks id).currentTerm) (hb : ∀ b ∈ bs, g.Allows b)
    (hk : (g.setLog id M).Tracks id k') :
    Crash.Sound (World.processAction id T answers) (fun w => ∃ g : Traces, g.Kept C ks id w) w
      (a :: bs) fun w => ∃ g : Traces, g.Kept C ks id w ∧ g.Tracks id k' := by
  refine .cons ⟨g, h⟩ fun w₁ h₁ => ?_
  rw [ha, Option.some.injEq] at h₁
  subst h₁
  have hkept : (g.setLog id M).Kept C ks id (w.setDisk id disk) := by
    refine ⟨⟨fun id' hid => ?_, fun id' hid => ?_, h.sent, fun hl hT => ?_, h.zero⟩, fun id' hid hne => ?_⟩
    · by_cases hi : id' = id
      case pos =>
        subst hi
        exact ⟨log, by simpa [World.setDisk] using hd, by simpa [Traces.setLog] using hv⟩
      case neg => simpa [World.setDisk, Traces.setLog, hi] using h.logs id' hid
    · by_cases hi : id' = id
      case pos => simpa [Traces.setLog, hi] using hM
      case neg => simpa [Traces.setLog, hi] using h.traced id' hid
    · obtain ⟨e, he, heT, hle⟩ := h.created hl hT
      refine ⟨e, he, heT, ?_⟩
      by_cases hi : e.node = id
      case pos => simpa [World.setDisk, hi, ht] using hle
      case neg => simpa [World.setDisk, hi] using hle
    · have hk := h.others id' hid hne
      exact ⟨hk.positive, by simpa [Traces.setLog, hne] using hk.fresh⟩
  exact hkept.messages hb fun w' hw' _ => ⟨_, hw', hk⟩

-- What lets node `id` create entries of term `T`.
structure Leads (C : Cluster) (ks : NodeId → Kernel) (id : NodeId) (T : ℕ) (g : Traces)
    (w : World) : Prop where
  fresh   : ∀ j, (g.logs id).length ≤ j → g.lineage T j = none
  elected : ∃ e ∈ w.elections, e.node = id ∧ e.term = T
  durable : (w.disks id).currentTerm = T
  only    : ∀ id' ∈ C.members, id' ≠ id → (ks id').role = .leader → (ks id').currentTerm ≠ T

theorem Kept.create {disk : StableDisk} (h : g.Kept C ks id w) (hid : id ∈ C.members)
    (hl : g.Leads C ks id e.term w) (ha : (w.disks id).appendEntries [e] = some disk)
    (hd : disk.Holds log) (hv : View log (g.logs id ++ [e]))
    (ht : disk.currentTerm = (w.disks id).currentTerm)
    (hk : k'.role = .leader ∧ k'.currentTerm = e.term)
    (hb : Traced (g.create id e).lineage (g.logs id ++ [e]) → ∀ b ∈ bs, (g.create id e).Allows b) :
    Crash.Sound (World.processAction id T answers) (fun w => ∃ g : Traces, g.Kept C ks id w) w
      (.appendEntries [e] :: bs) fun w => ∃ g : Traces, g.Kept C ks id w ∧ g.Tracks id k' := by
  have hnone := hl.fresh _ le_rfl
  have hmono : ∀ {T k l}, g.lineage T k = some l → (g.create id e).lineage T k = some l :=
    fun hl => Lineage.create_of_some hnone hl
  have hpos : e.term ≠ 0 := by
    intro h0
    rw [h0, h.zero] at hnone
    contradiction
  have hold : ∀ {T k}, (T = e.term → k ≠ (g.logs id).length) →
      (g.create id e).lineage T k = g.lineage T k :=
    fun hc => if_neg fun h => hc h.left h.right
  have htraced := (h.traced id hid).create hnone
  refine .cons ⟨g, h⟩ fun w₁ h₁ => ?_
  simp only [World.processAction, ha, Option.map_some, Option.some.injEq] at h₁
  subst h₁
  have hdterm : ∀ id', ((w.setDisk id disk).disks id').currentTerm = (w.disks id').currentTerm := by
    intro id'
    by_cases hi : id' = id
    case pos => simpa [World.setDisk, hi] using ht
    case neg => simp [World.setDisk, hi]
  have hkept : (g.create id e).Kept C ks id (w.setDisk id disk) := by
    refine ⟨⟨fun id' hid => ?_, fun id' hid => ?_, fun p hp => (h.sent p hp).mono hmono,
      fun {T k} hne hT => ?_, fun k => hmono (h.zero k)⟩, fun id' hid hne => ?_⟩
    · by_cases hi : id' = id
      case pos =>
        subst hi
        exact ⟨log, by simpa [World.setDisk] using hd, by simpa [Traces.create] using hv⟩
      case neg => simpa [World.setDisk, Traces.create, hi] using h.logs id' hid
    · by_cases hi : id' = id
      case pos =>
        subst hi
        simpa [Traces.create] using htraced
      case neg => simpa [Traces.create, hi] using (h.traced id' hid).mono hmono
    · by_cases hT' : T = e.term
      case pos =>
        obtain ⟨el, hel, hn, ht⟩ := hl.elected
        exact ⟨el, hel, ht.trans hT'.symm, by rw [hdterm, hn, hl.durable, hT']⟩
      case neg =>
        rw [hold fun hc => absurd hc hT'] at hne
        obtain ⟨el, hel, ht, hle⟩ := h.created hne hT
        exact ⟨el, hel, ht, hle.trans_eq (hdterm _).symm⟩
    · have hk := h.others id' hid hne
      refine ⟨hk.positive, fun hr j hj => ?_⟩
      rw [hold fun hc => absurd hc <| hl.only id' hid hne hr]
      exact hk.fresh hr j <| by simpa [Traces.create, hne] using hj
  refine hkept.messages (hb htraced) fun w' hw' _ => ⟨_, hw', ?_, fun _ j hj => ?_⟩
  · intro hr
    simp [hk.left] at hr
  · have hj : (g.logs id).length + 1 ≤ j := by simpa [Traces.create] using hj
    rw [hk.right, hold fun _ => by omega]
    exact hl.fresh j (by omega)

/-! ### What the moves send -/

theorem allows_of_isHint {a : Action} (h : a.IsHint id) : g.Allows a := by
  cases a
  case send msg =>
    have hh := h.right
    constructor <;> intros <;> simp_all [MessageKind.isHint]
  all_goals exact h.elim

theorem allows_of_replicates (hv : View k.log M) (hM : Traced g.lineage M) {a : Action}
    (h : Replicates k a) : g.Allows a := by
  cases h
  case snapshot snap hs =>
    rw [hv.snapshotMeta] at hs
    subst hs
    refine ⟨fun _ _ _ _ hk => by simp [Kernel.message] at hk, fun i t o data done hk => ?_⟩
    simp only [Kernel.message, MessageKind.installSnapshot.injEq] at hk
    obtain ⟨rfl, rfl, _⟩ := hk
    exact ⟨_, hM.take _, List.length_take_of_le hv.base_le, rfl⟩
  case entries next hn =>
    refine ⟨fun i t es c hk => ?_, fun _ _ _ _ _ hk => by simp [Kernel.message] at hk⟩
    simp only [Kernel.message, MessageKind.appendEntries.injEq] at hk
    obtain ⟨rfl, rfl, rfl, _⟩ := hk
    rw [hv.entriesFrom hn]
    by_cases hl : next - 1 ≤ M.length
    case neg => exact .inl <| List.drop_eq_nil_of_le (by omega)
    case pos =>
      refine .inr ⟨M, hM, hl, ?_, rfl⟩
      rw [hv.termAt (by omega) hl, Option.getD_some]

theorem allows_reply {receiver : NodeId} {kind : MessageKind}
    (h : ∀ i t es c, kind ≠ .appendEntries i t es c)
    (h' : ∀ i t o data done, kind ≠ .installSnapshot i t o data done) :
    g.Allows (.send (k.message receiver kind)) :=
  ⟨fun i t es c hk => absurd hk (h i t es c), fun i t o data done hk => absurd hk (h' i t o data done)⟩

theorem allows_campaign (k : Kernel) : ∀ a ∈ k.campaignActions.tail, g.Allows a := by
  intro a ha
  obtain ⟨_, _, ha⟩ := List.mem_map.mp ha
  exact ha ▸ allows_reply (by simp) (by simp)

/-! ### Moves -/

theorem Explains.view (h : g.Explains C w) (hid : id ∈ C.members) (hd : (w.disks id).Holds log) :
    View log (g.logs id) := by
  obtain ⟨log', hd', hv⟩ := h.logs id hid
  exact hd.unique hd' ▸ hv

theorem appendEntries_currentTerm {disk disk' : StableDisk} {es : List LogEntry}
    (h : disk.appendEntries es = some disk') : disk'.currentTerm = disk.currentTerm :=
  congrArg Prod.fst <| StableDisk.appendEntries_hardState h

-- Executing the actions turns the kernel of the acting node into `k'`.
abbrev Leaves (C : Cluster) (ks : NodeId → Kernel) (id : NodeId) (T : ℕ) (answers : Option Message)
    (w : World) (as : List Action) (k' : Kernel) : Prop :=
  Crash.Sound (World.processAction id T answers) (fun w => ∃ g : Traces, g.Kept C ks id w) w as
    fun w => ∃ g : Traces, g.Kept C ks id w ∧ g.Tracks id k'

theorem Kept.leaves (h : g.Kept C ks id w) (ht : g.Tracks id k') (ha : ∀ a ∈ as, g.Allows a) :
    Leaves C ks id T answers w as k' :=
  h.messages ha fun _ hw _ => ⟨g, hw, ht⟩

theorem Tracks.follower (hr : k.role = .follower) : g.Tracks id k :=
  ⟨by simp [hr], by simp [hr]⟩

-- The leader appends an entry to its log.
theorem Kept.append (h : g.Kept C ks id w) (hid : id ∈ C.members) (hd : (w.disks id).Holds log)
    (hl : g.Leads C ks id e.term w) (hi : e.index = log.lastIndex + 1)
    (hk : k'.role = .leader ∧ k'.currentTerm = e.term)
    (hb : View (log.append [e]) (g.logs id ++ [e]) →
      Traced (g.create id e).lineage (g.logs id ++ [e]) → ∀ b ∈ bs, (g.create id e).Allows b) :
    Leaves C ks id T answers w (.appendEntries [e] :: bs) k' := by
  have hc : Consecutive (log.lastIndex + 1) [e] := ⟨hi, trivial⟩
  obtain ⟨disk, ha, hd'⟩ := hd.append hc
  have hv := (h.view hid hd).append hc
  exact h.create hid hl ha hd' hv (appendEntries_currentTerm ha) hk (hb hv)

-- What a node knows when it is the leader after a move.
structure Elected (C : Cluster) (ks : NodeId → Kernel) (id : NodeId) (g : Traces) (w : World)
    (k k' : Kernel) : Prop where
  recorded : ∃ e ∈ w.elections, e.node = id ∧ e.term = k'.currentTerm
  only     : ∀ id' ∈ C.members, id' ≠ id → (ks id').role = .leader →
    (ks id').currentTerm ≠ k'.currentTerm
  first    : k.role ≠ .leader → ∀ j, g.lineage k'.currentTerm j = none

-- What a node knows when it acts.
structure Acting (C : Cluster) (ks : NodeId → Kernel) (id : NodeId) (m : Cause) (g : Traces)
    (w : World) (k k' : Kernel) : Prop where
  kept       : g.Kept C ks id w
  tracks     : g.Tracks id k
  holds      : (w.disks id).Holds k.log
  base_le    : k.log.firstIndex ≤ k.commitIndex
  term       : (w.disks id).currentTerm = k.currentTerm
  received   : ∀ msg, m = .handle msg → ∃ p ∈ w.network, p.msg = msg
  admissible : Admissible True m k
  elected    : k'.role = .leader → g.Elected C ks id w k k'

theorem Acting.leads (h : g.Acting C ks id m w k k') (hr : k.role = .leader)
    (hr' : k'.role = .leader) (ht : k'.currentTerm = k.currentTerm) :
    g.Leads C ks id k.currentTerm w :=
  have he := h.elected hr'
  ⟨h.tracks.fresh hr, ht ▸ he.recorded, h.term, ht ▸ he.only⟩

-- The entries that a node accepts are those of a log that some leader has held.
theorem Acting.accept {msg : Message} {i t c : ℕ} {es : List LogEntry} {merge commit : List Action}
    (h : g.Acting C ks id m w k k') (hid : id ∈ C.members) (hm : m = .handle msg)
    (hk : msg.kind = .appendEntries i t es c) (ht : k.log.termAt i = some t)
    (hmerge : Merges k.log es log merge) (hf : Follows { k with role := .follower, log } c k' commit) :
    Leaves C ks id T answers w (merge ++ commit ++
      [.send <| k.message msg.sender <| .appendEntriesResponse true none none]) k' := by
  have hv := h.kept.view hid h.holds
  have hM := h.kept.traced id hid
  have hrole : k'.role = .follower := hf.role_eq
  have hrest : ∀ a ∈ commit ++
      [.send <| k.message msg.sender <| .appendEntriesResponse true none none], g.Allows a := by
    simp only [List.forall_mem_append]
    exact ⟨hf.forall_mem fun _ => trivial, by simpa using allows_reply (by simp) (by simp)⟩
  obtain ⟨p, hp, hpm⟩ := h.received msg hm
  have hes := h.admissible.entries hm hk
  rw [List.append_assoc]
  rcases (h.kept.sent p hp).left i t es c (hpm ▸ hk) with rfl | ⟨M, hM', hi, htM, hesM⟩
  case inl =>
    cases hmerge
    exact h.kept.leaves (.follower hrole) hrest
  case inr =>
    rcases hv.merge hmerge (hM.agree hM') ht hi htM hesM hes with
      ⟨rfl, rfl, _⟩ | ⟨n, rfl, hn, hle, htrunc, hv', _⟩
    case inl => exact h.kept.leaves (.follower hrole) hrest
    case inr =>
      have hb := (hv.of_termAt ht).left
      obtain ⟨disk, _, hd, htd, hh⟩ := h.holds.truncateAndAppend (by omega) (by omega) (hes.drop n)
      rw [htrunc, Option.some.injEq] at htd
      subst htd
      have hterm := congrArg Prod.fst <| StableDisk.truncateAndAppend_hardState hd
      exact h.kept.setLog (by simp [World.processAction, hd]) hh hv' hM' hterm hrest <| .follower hrole

-- A snapshot that covers the log of the node replaces it by the log that the snapshot was taken of.
theorem Acting.install {msg : Message} {i t o : ℕ} {data : Command}
    (h : g.Acting C ks id m w k k') (hm : m = .handle msg)
    (hk : msg.kind = .installSnapshot i t o data true) (ht : msg.term = k.currentTerm)
    (hi : k.commitIndex < i) (hr : k'.role = .follower) :
    Leaves C ks id T answers w
      [.persistSnapshot i t data, .send <| k.message msg.sender .installSnapshotResponse] k' := by
  obtain ⟨p, hp, hpm⟩ := h.received msg hm
  obtain ⟨M, hM', hlen, htM⟩ := (h.kept.sent p hp).right i t _ _ _ (hpm ▸ hk)
  have hb := h.base_le
  have hle := h.admissible.snapshot trivial hm hk ht.ge hi
  obtain ⟨disk, hd, hh⟩ := h.holds.writeSnapshot_above (i := i) t data (by omega)
  rw [h.holds.contiguous.compact_eq_installSnapshot (by omega) hle] at hh
  have hterm := congrArg Prod.fst <| StableDisk.writeSnapshot_hardState hd
  refine h.kept.setLog (by simp [World.processAction, hd]) hh (.installSnapshot hlen htM) hM' hterm ?_
    <| .follower hr
  simpa using allows_reply (by simp) (by simp)

-- A node compacts its log, possibly beyond its end.
theorem Acting.compact {i t : ℕ} {data : Command} (h : g.Acting C ks id m w k k')
    (hid : id ∈ C.members) (hm : m = .compactLogs i t) (hi : i ≤ k.commitIndex) :
    Leaves C ks id T answers w [.persistSnapshot i t data] { k with log := k.log.compact i t } := by
  have hv := h.kept.view hid h.holds
  have hM := h.kept.traced id hid
  obtain ⟨hb, ht⟩ := h.admissible.compact hm hi
  have hlast := hv.lastIndex
  have same : ∀ {log : RaftLog}, (g.setLog id (g.logs id)).Tracks id { k with log } := by
    simpa [Traces.setLog] using ⟨h.tracks.positive, h.tracks.fresh⟩
  obtain ⟨disk, hd, hh⟩ := h.holds.writeSnapshot data hb (RaftLog.sentinel_term_of_termAt ht)
  have hterm := congrArg Prod.fst <| StableDisk.writeSnapshot_hardState hd
  have ha : w.processAction id T answers (.persistSnapshot i t data) = some (w.setDisk id disk) := by
    simp [World.processAction, hd]
  rcases Nat.lt_or_ge (g.logs id).length i with hl | hl
  case inr =>
    rw [hv.termAt hb hl, Option.getD_some] at ht
    exact h.kept.setLog ha hh (hv.compact hb hl ht) hM hterm (by simp) same
  case inl =>
    -- The node compacts beyond its log.
    have hlt : k.log.firstIndex < i := hv.base_le.trans_lt hl
    have hnone : k.log.termAt i = none := by
      rw [RaftLog.termAt, hv.entryAt hlt, List.getElem?_eq_none (by omega)]
      rfl
    rw [hnone, Option.getD_none] at ht
    rw [h.holds.contiguous.compact_eq_installSnapshot hlt (by omega)] at hh
    refine h.kept.setLog ha hh (.installSnapshot (filler_length i) (ht.trans (filler_lastTerm i).symm))
      (filler_traced h.kept.toExplains i) hterm (by simp) ⟨h.tracks.positive, fun hr j hj => ?_⟩
    have hj : i ≤ j := by simpa [Traces.setLog] using hj
    exact h.tracks.fresh hr j (by omega)

theorem Acting.move (h : g.Acting C ks id m w k k') (hid : id ∈ C.members)
    (hm : Move m k k' as) :
    Leaves C ks id T answers w as k' := by
  have hv := h.kept.view hid h.holds
  have hM := h.kept.traced id hid
  -- Most moves only send messages.
  have messages : g.Tracks id k' → (∀ a ∈ as, g.Allows a) → Leaves C ks id T answers w as k' :=
    h.kept.leaves
  cases hm
  case idle role hr ha =>
    refine messages ⟨?_, ?_⟩ fun a hm => allows_of_isHint (ha a hm)
    all_goals
      intro hc
      dsimp only at hc
      rw [hc] at hr
    · exact h.tracks.positive (by simpa using hr : _ = k.role).symm
    · exact h.tracks.fresh (by simpa using hr : _ = k.role).symm
  case campaign =>
    refine h.kept.persistHardState hid (by rw [h.term]; omega) fun w₁ h₁ _ _ _ _ => ?_
    refine h₁.messages (allows_campaign k) fun w₂ h₂ _ => ⟨g, h₂, ?_, ?_⟩
    · exact fun _ => Nat.succ_pos _
    · simp [Kernel.campaign]
  case lone hr hp =>
    have he := h.elected rfl
    rw [Kernel.campaignActions, hp]
    refine h.kept.persistHardState hid (by rw [h.term]; omega) fun w₁ h₁ ht hd hel _ => ?_
    exact h₁.append hid (hd _ h.holds)
      ⟨fun j _ => he.first hr j, hel ▸ he.recorded, ht, he.only⟩ rfl ⟨rfl, rfl⟩ (by simp)
  case vote =>
    refine h.kept.persistHardState hid h.term.le fun w₁ h₁ _ _ _ _ => ?_
    refine h₁.messages ?_ fun w₂ h₂ _ => ⟨g, h₂, h.tracks.positive, h.tracks.fresh⟩
    simpa using allows_reply (by simp) (by simp)
  case collect => exact messages ⟨h.tracks.positive, h.tracks.fresh⟩ (by simp)
  case elect hr he _ ha =>
    subst he
    have hl := h.elected rfl
    have hfirst := hl.first (by simp [hr])
    refine h.kept.append hid h.holds ⟨fun j _ => hfirst j, hl.recorded, h.term, hl.only⟩ rfl ⟨rfl, rfl⟩ ?_
    exact fun hv' hM' a hm => allows_of_replicates hv' hM' (ha a hm)
  case replicate ha => exact messages h.tracks fun a hm => allows_of_replicates hv hM (ha a hm)
  case propose e _ hr _ hi ht he ha =>
    subst he
    refine h.kept.append hid h.holds (ht ▸ h.leads hr hr rfl) hi ⟨hr, ht.symm⟩ fun hv' hM' a hm => ?_
    rcases ha a hm with ha | ha
    · exact allows_of_replicates hv' hM' ha
    · exact allows_of_isHint ha
  case proposeAlone e _ _ hr _ hi ht hh ha =>
    have hrole : k'.role = .leader := ha.role_eq.trans hr
    have hterm : k'.currentTerm = k.currentTerm := ha.currentTerm_eq
    refine h.kept.append hid h.holds (ht ▸ h.leads hr hrole hterm) hi ⟨hrole, hterm.trans ht.symm⟩
      fun _ _ a hm => ?_
    rcases List.mem_append.mp hm with hm | hm
    · exact ha.forall_mem (fun _ => trivial) a hm
    · exact allows_of_isHint <| hh a hm
  case confirm ha =>
    have he := ha.eq
    refine messages ⟨?_, ?_⟩ <| ha.forall_mem fun _ => trivial
    all_goals rw [he]
    · exact h.tracks.positive
    · exact h.tracks.fresh
  case skip => exact messages (.follower rfl) <| by simpa using allows_reply (by simp) (by simp)
  case accept hm hk _ ht hmerge hf => exact h.accept hid hm hk ht hmerge hf
  case install hm hk ht hi         => exact h.install hm hk ht hi rfl
  case compact hm hi               => exact h.compact hid hm hi

theorem Acting.call (h : g.Acting C ks id m w k k') (hid : id ∈ C.members)
    (hc : Call m k k' as) :
    Leaves C ks id T answers w as k' := by
  cases hc
  case same hm => exact h.move hid hm
  case later msg _ hm hp hlt hmove =>
    subst hm
    refine h.kept.persistHardState hid (h.term.le.trans hlt.le) fun w₁ h₁ ht hd hel hn => ?_
    have hadm : Admissible True (.handle msg) (k.bump msg.term) :=
      ⟨h.admissible.entries, h.admissible.compact, fun hK hm hk hle =>
        h.admissible.snapshot hK hm hk <| hlt.le.trans hle⟩
    have hacting : g.Acting C ks id (.handle msg) w₁ (k.bump msg.term) k' := {
      kept       := h₁
      tracks     := ⟨by simp [Kernel.bump], by simp [Kernel.bump]⟩
      holds      := hd _ h.holds
      base_le    := h.base_le
      term       := ht
      received   := hn ▸ h.received
      admissible := hadm
      elected    := fun hr => absurd hr <| hmove.not_leader_of_bump hp }
    exact hacting.move hid hmove

/-! ### The layer -/

theorem Explains.record {g : Traces} {node node' : RaftNode} (h : g.Explains C w) :
    g.Explains C (w.record id node node') where
  logs        := h.logs
  traced      := h.traced
  sent        := h.sent
  created h₁ h₂ :=
    have ⟨e, he, h⟩ := h.created h₁ h₂
    ⟨e, World.elections_record _ _ _ _ he, h⟩
  zero        := h.zero

-- A node that becomes leader is the first to create entries in its term.
theorem Elected.of_call {g : Traces} (r : C.system.Reachable guard s) (h : g.Explains C s.toWorld)
    (hm : ∀ id ∈ C.members, g.Tracks id (s.nodes id).kernel) (hid : id ∈ C.members)
    (hcall : s.call id input = some (node, as)) (hr : node.role = .leader) :
    g.Elected C (fun id => (s.nodes id).kernel) id (s.record id (s.nodes id) node)
      (s.nodes id).kernel node.kernel := by
  have hvotes := (voteLayer C _).invariant r
  have hkept := hvotes.memory id hid
  have hdisk : (s.disks id).currentTerm = (s.nodes id).currentTerm :=
    congrArg Prod.fst hkept.hardState
  have hunique := leader_unique r hid hcall hr
  refine ⟨hkept.elected_record hcall hr, fun id' hid' hne hr' ht' => ?_, fun hl j => ?_⟩
  · obtain ⟨e, he, hn, ht⟩ := (hvotes.memory id' hid').elected hr'
    exact hne <| hn.symm.trans <| hunique e he <| ht.trans ht'
  · by_contra hne
    have created : node.currentTerm ≠ 0 → ∃ e ∈ s.elections, e.node = id ∧
        e.term = node.currentTerm ∧ node.currentTerm ≤ (s.nodes id).currentTerm := by
      intro hT
      obtain ⟨e, he, ht, hle⟩ := h.created hne hT
      have hn := hunique e he ht
      exact ⟨e, he, hn, ht, hdisk ▸ hn ▸ hle⟩
    rcases (State.call_kernel hcall).leader hr with hlead | ⟨hc, ht, _⟩ | ⟨_, _, ht⟩
    · exact absurd hlead.left hl
    · have ht : node.currentTerm = (s.nodes id).currentTerm := ht
      have hpos : 0 < (s.nodes id).currentTerm := (hm id hid).positive hc
      obtain ⟨e, he, hn, het, _⟩ := created (by omega)
      have hlt : e.term < (s.nodes id).currentTerm := hkept.pending hc e he hn
      omega
    · have ht : (s.nodes id).currentTerm < node.currentTerm := ht
      obtain ⟨_, _, _, _, hle⟩ := created (by omega)
      omega

end Traces

def logLayer (C : Cluster) (hc : ∀ s e, guard s e → s.compactsWithin e)
    (hK : ∀ s e, guard s e → s.snapshotCovers e) : GhostLayer C guard Traces where
  world  g w      := g.Explains C w
  memory g _ id k := g.Tracks id k
  init            := by
    refine ⟨⟨fun _ => [], fun T k => if T = 0 then some (filler (k + 1)) else none⟩, ?_⟩
    refine ⟨fun id _ => ⟨_, .new id, .new⟩, fun _ _ => .nil, by simp [init], ?_, fun _ => rfl⟩
    intro T k hne hT
    exact absurd (if_neg hT) hne
  spawn _ _ hn    := by
    obtain ⟨_, _, hn⟩ := Option.bind_eq_some_iff.mp hn
    cases hn
    constructor <;> intro h <;> cases h
  call {g s id input cut node as} r hw hm hid hg hcall := by
    have hvotes := (voteLayer C _).invariant r
    have hsync := (syncLayer C True hc fun s e h _ => hK s e h).invariant r
    obtain ⟨log, hl, hcov⟩ := (hsync.memory id hid).disk
    have hacting : g.Acting C (fun id => (s.nodes id).kernel) id (s.cause input)
        (s.record id (s.nodes id) node) (s.nodes id).kernel node.kernel := {
      kept       := ⟨hw.record, fun id' hid' _ => hm id' hid'⟩
      tracks     := hm id hid
      holds      := hcov.eq trivial ▸ hl
      base_le    := (hsync.memory id hid).base_le
      term       := congrArg Prod.fst (hvotes.memory id hid).hardState
      received   := fun msg hmsg =>
        have ⟨_, packet, _, hp, hpm, _⟩ := State.cause_handle hcall hmsg
        ⟨packet, List.mem_of_getElem? hp, hpm⟩
      admissible := State.admissible hsync.world hcall (hc _ _ hg) fun _ => hK _ _ hg
      elected    := Traces.Elected.of_call r hw hm hid hcall }
    exact (hacting.call hid (State.call_kernel hcall)).mono (fun _ ⟨g, h⟩ => ⟨g, h.toExplains, h.others⟩)
      fun _ _ ⟨g, h, ht⟩ => ⟨g, ⟨h.toExplains, h.others⟩, ht⟩

-- Log matching, for two logs that can have been compacted.
def LogsMatch (log₁ log₂ : RaftLog) : Prop :=
  ∀ i e₁ e₂, log₁.firstIndex < i → log₂.firstIndex < i → log₁.entryAt i = some e₁ →
    log₂.entryAt i = some e₂ → e₁.term = e₂.term →
    (∀ j < i, ∀ t₁ t₂, log₁.termAt j = some t₁ → log₂.termAt j = some t₂ → t₁ = t₂) ∧
      ∀ j ≤ i, log₁.firstIndex < j → log₂.firstIndex < j →
        ∃ e, log₁.entryAt j = some e ∧ log₂.entryAt j = some e

theorem LogsMatch.of_agree {log₁ log₂ : RaftLog} {full₁ full₂ : List LogEntry}
    (hv₁ : View log₁ full₁) (hv₂ : View log₂ full₂) (ha : Agree full₁ full₂) :
    LogsMatch log₁ log₂ := by
  intro i e₁ e₂ hi₁ hi₂ he₁ he₂ ht
  rw [hv₁.entryAt hi₁] at he₁
  rw [hv₂.entryAt hi₂] at he₂
  have hlt₁ : i - 1 < full₁.length := (List.getElem?_eq_some_iff.mp he₁).choose
  have htake : ∀ j ≤ i, full₁.take j = full₂.take j := by
    intro j hj
    have := congrArg (List.take j) <| ha _ _ _ he₁ he₂ ht
    rwa [List.take_take, List.take_take, Nat.min_eq_left (by omega)] at this
  refine ⟨fun j hj t₁ t₂ ht₁ ht₂ => ?_, fun j hj hj₁ hj₂ => ?_⟩
  · rw [(hv₁.of_termAt ht₁).right.right, (hv₂.of_termAt ht₂).right.right, htake j hj.le]
  · have he : full₁[j - 1]? = some full₁[j - 1] := List.getElem?_eq_getElem (by omega)
    refine ⟨_, (hv₁.entryAt hj₁).trans he, (hv₂.entryAt hj₂).trans ?_⟩
    rw [← List.getElem?_take_of_lt (show j - 1 < i by omega), ← htake i le_rfl,
      List.getElem?_take_of_lt (by omega), he]

-- Any two logs match, as long as each snapshot that a node installs reaches the end of its log.
theorem log_matching {id₁ id₂ : NodeId}
    (r : C.system.Reachable (fun s e => s.compactsWithin e ∧ s.snapshotCovers e) s)
    (hid₁ : id₁ ∈ C.members) (hid₂ : id₂ ∈ C.members) :
    LogsMatch (s.nodes id₁).log (s.nodes id₂).log := by
  obtain ⟨g, hg⟩ := (logLayer C (fun _ _ h => h.left) fun _ _ h => h.right).invariant r
  have hsync := (syncLayer C True (fun _ _ h => h.left) fun _ _ h _ => h.right).invariant r
  have view : ∀ id ∈ C.members, View (s.nodes id).log (g.logs id) := by
    intro id hid
    obtain ⟨log, hl, hcov⟩ := (hsync.memory id hid).disk
    have hlog : log = (s.nodes id).log := hcov.eq trivial
    exact hg.world.view hid <| hlog ▸ hl
  exact .of_agree (view id₁ hid₁) (view id₂ hid₂) <|
    (hg.world.traced id₁ hid₁).agree (hg.world.traced id₂ hid₂)

-- Of five nodes, node 1 has been deposed, and node 3 has sent it a snapshot that covers its log.
theorem log_matching_five : ∃ s, (ofSize 5 (by decide)).system.Reachable
      (fun s e => s.compactsWithin e ∧ s.snapshotCovers e) s ∧
    (s.nodes 1).log.entries = [⟨1, 2, []⟩, ⟨2, 2, [8]⟩] ∧
    (s.nodes 4).log.entries = [⟨0, 0, []⟩, ⟨1, 2, []⟩, ⟨2, 2, [8]⟩] ∧
    LogsMatch (s.nodes 1).log (s.nodes 4).log :=
  have r := TransitionSystem.reachable_run (T := (ofSize 5 (by decide)).system)
    (fun s e => s.compactsWithin e ∧ s.snapshotCovers e)
    [.tick 1, .tick 1, .deliver 3 1, .deliver 4 2, .deliver 1 4, .deliver 1 5, .deliver 3 7,
      .deliver 4 8, .deliver 5 9, .deliver 1 10, .deliver 1 11, .tick 3, .tick 3, .deliver 4 19,
      .deliver 5 20, .deliver 3 21, .deliver 3 22, .deliver 4 25, .deliver 5 26, .deliver 3 27,
      .deliver 3 28, .deliver 4 31, .deliver 5 32, .deliver 3 33, .deliver 3 34, .compact 3 1 2, .tick 3,
      .deliver 1 35, .deliver 3 39, .propose 3 [8], .deliver 1 40, .deliver 4 42] (by decide +kernel)
  ⟨_, r, by decide +kernel, by decide +kernel, log_matching r (by decide) (by decide)⟩

-- Node 1 has an entry of its own beyond the snapshot, which its disk keeps and a restart brings back.
theorem not_log_matching : ∃ s, (ofSize 5 (by decide)).system.Reachable (fun _ _ => True) s ∧
    ¬LogsMatch (s.nodes 1).log (s.nodes 2).log := by
  have r := TransitionSystem.reachable_run (T := (ofSize 5 (by decide)).system) (fun _ _ => True)
    [.tick 1, .tick 1, .deliver 3 1, .deliver 4 2, .deliver 1 4, .deliver 1 5, .deliver 3 7,
      .deliver 4 8, .deliver 5 9, .deliver 1 10, .deliver 1 11, .propose 1 [7], .deliver 2 17, .tick 3,
      .tick 3, .deliver 4 24, .deliver 5 25, .deliver 3 26, .deliver 3 27, .deliver 4 30, .deliver 5 31,
      .deliver 3 32, .deliver 3 33, .deliver 4 36, .deliver 5 37, .deliver 3 38, .deliver 3 39,
      .compact 3 1 2, .tick 3, .deliver 1 40, .restart 1] (by decide +kernel)
  refine ⟨_, r, fun h => ?_⟩
  have hlow := (h 2 ⟨2, 1, [7]⟩ ⟨2, 1, [7]⟩ (by decide +kernel) (by decide +kernel) (by decide +kernel)
    (by decide +kernel) rfl).left 1 (by decide) 2 1 (by decide +kernel) (by decide +kernel)
  contradiction

end Cluster
end RaftRupee
