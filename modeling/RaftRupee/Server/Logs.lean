import RaftRupee.Core.AppendOnly
import RaftRupee.Core.Applying
import RaftRupee.Core.Persistence
import RaftRupee.Server.Elections
import RaftRupee.Server.Recovery

namespace RaftRupee

/-! ### A call writes the log once -/

variable {m : Cause} {k k' : Kernel} {as bs : List Action} {log log' : RaftLog} {es : List LogEntry}

def Action.isLog : Action → Bool
  | appendEntries _ | truncateAndAppend .. => true
  | _                                      => false

theorem Action.not_isLog_of_isSend {a : Action} (h : a.isSend) : ¬a.isLog := by
  cases a <;> simp_all [isLog, isSend]

-- One action that may write the log, and others that do not.
theorem countP_isLog_cons (a : Action) (h : ∀ b ∈ as, ¬b.isLog) : (a :: as).countP Action.isLog ≤ 1 := by
  rw [List.countP_cons, List.countP_eq_zero.mpr h]
  split <;> simp

theorem countP_isLog_zero (h : ∀ b ∈ as, ¬b.isLog) : as.countP Action.isLog ≤ 1 :=
  (List.countP_eq_zero.mpr h).trans_le (Nat.zero_le _)

theorem Kernel.campaignActions_not_isLog (k : Kernel) : ∀ a ∈ k.campaignActions, ¬a.isLog := by
  simp [campaignActions, Action.isLog]

theorem Merges.countP_isLog (h : Merges log es log' as) : as.countP Action.isLog ≤ 1 := by
  cases h <;> simp [Action.isLog]

theorem Move.countP_isLog (h : Move m k k' as) : as.countP Action.isLog ≤ 1 := by
  have applies (es : List LogEntry) : ¬(Action.apply es).isLog := Bool.false_ne_true
  cases h
  case idle hs       => exact countP_isLog_zero fun a ha => Action.not_isLog_of_isSend (hs a ha).isSend
  case replicate hs  => exact countP_isLog_zero fun a ha => Action.not_isLog_of_isSend (hs a ha).isSend
  case campaign      => exact countP_isLog_zero k.campaignActions_not_isLog
  case confirm ha    => exact countP_isLog_zero <| ha.forall_mem applies
  case elect hs      => exact countP_isLog_cons _ fun a ha => Action.not_isLog_of_isSend (hs a ha).isSend
  case propose hs    =>
    refine countP_isLog_cons _ fun a ha => Action.not_isLog_of_isSend ?_
    exact (hs a ha).elim Replicates.isSend Action.IsHint.isSend
  case proposeAlone hs ha =>
    refine countP_isLog_cons _ <| List.forall_mem_append.mpr ⟨ha.forall_mem applies, fun a hm => ?_⟩
    exact Action.not_isLog_of_isSend (hs a hm).isSend
  case lone          =>
    rw [List.countP_append, List.countP_eq_zero.mpr k.campaignActions_not_isLog]
    simp [Action.isLog]
  case accept hm hf  =>
    rw [List.countP_append, List.countP_append, List.countP_eq_zero.mpr (hf.forall_mem applies)]
    exact hm.countP_isLog
  all_goals simp [Action.isLog]

theorem Call.countP_isLog (h : Call m k k' as) : as.countP Action.isLog ≤ 1 := by
  cases h
  case same h  => exact h.countP_isLog
  case later h => simpa [Action.isLog] using h.countP_isLog

theorem replay_of_countP_eq_zero (h : as.countP Action.isLog = 0) : replay log as = some log := by
  induction as
  case nil          => rfl
  case cons a as hi =>
    rw [List.countP_cons] at h
    cases a <;> simp_all [replay, Action.isLog]

-- However far the actions have been handled, the log on disk is the old one or the new one.
theorem replay_take (h : as.countP Action.isLog ≤ 1) (hr : replay log as = some log') (n : ℕ) :
    replay log (as.take n) = some log ∨ replay log (as.take n) = some log' := by
  induction as generalizing n
  case nil          => exact .inl (by simp [replay])
  case cons a as hi =>
    cases n
    case zero   => exact .inl rfl
    case succ n =>
      rw [List.countP_cons] at h
      have hcons (bs : List Action) : replay log (a :: bs) = (replay log [a]).bind (replay · bs) :=
        replay_append log [a] bs
      rw [List.take_succ_cons, hcons]
      rw [hcons] at hr
      by_cases ha : a.isLog
      case pos =>
        have h0 : as.countP Action.isLog = 0 := by simpa [ha] using h
        have h0' : (as.take n).countP Action.isLog = 0 :=
          Nat.eq_zero_of_le_zero <| h0 ▸ (List.take_sublist n as).countP_le
        obtain ⟨log₁, h₁, hr⟩ := Option.bind_eq_some_iff.mp hr
        rw [replay_of_countP_eq_zero h0] at hr
        exact .inr (by rw [h₁, Option.bind_some, replay_of_countP_eq_zero h0', hr])
      case neg =>
        have h₁ : replay log [a] = some log := replay_of_countP_eq_zero (by simp [ha])
        rw [h₁, Option.bind_some] at hr ⊢
        exact hi (by simpa [ha] using h) hr n

/-! ### What the file describes -/

namespace Wal

variable {wal : Wal} {fromIndex : ℕ}

-- The calls that have written the file describe a log.
def Describes (wal : Wal) (log : List LogEntry) : Prop :=
  ∃ run : List (Call × Memory × Memory), Emitted (run.map (·.1)) ∧ write run = wal ∧
    described (run.map (·.1)) = log

instance (entry : LogEntry) : Decidable (Fits entry) :=
  decidable_of_iff (entry.index < 256 ^ 8 ∧ entry.term < 256 ^ 8 ∧ entry.command.length < 256 ^ 4)
    ⟨fun h => ⟨h.left, h.right.left, h.right.right⟩, fun h => ⟨h.index, h.term, h.command⟩⟩

theorem describes_nil : Describes [] [] :=
  ⟨[], .nil, rfl, rfl⟩

theorem Describes.call (h : Describes wal es) (call : Call) (memory memory' : Memory)
    (hf : ∀ e ∈ call.batch, Fits e) (hp : (call.describe es).Pairwise (·.index < ·.index)) :
    Describes (Call.exec wal (call, memory, memory')) (call.describe es) := by
  obtain ⟨run, he, rfl, rfl⟩ := h
  refine ⟨run ++ [(call, memory, memory')], ?_, write_concat .., ?_⟩
  · rw [List.map_append]
    exact he.concat hf (by rwa [described_concat])
  · rw [List.map_append]
    exact described_concat ..

end Wal

-- A log of a server, which can be stored in full.
structure RaftLog.Storable (log : RaftLog) : Prop where
  firstIndex : log.firstIndex = 0
  contiguous : log.Contiguous
  fits       : ∀ e ∈ log.rest, Wal.Fits e

-- A new file, or one from which a restart gets back a log that the file describes.
def Wal.Resumable (wal : Wal) : Prop :=
  wal = [] ∨ ∃ log : RaftLog, log.Storable ∧ wal.Describes log.rest ∧ replayWal wal = log.rest

theorem RaftLog.Storable.pairwise (h : log.Storable) : log.rest.Pairwise (·.index < ·.index) :=
  List.pairwise_map.mp <| Consecutive.pairwise h.contiguous

theorem Consecutive.filter_lt {i : ℕ} (h : Consecutive i es) (n : ℕ) :
    es.filter (·.index < n) = es.take (n - i) := by
  induction es generalizing i
  case nil          => simp
  case cons e es hi =>
    obtain ⟨rfl, hes⟩ := h
    rw [List.filter_cons]
    by_cases hn : e.index < n
    case pos =>
      rw [if_pos (decide_eq_true hn), hi hes, show n - e.index = n - (e.index + 1) + 1 by omega,
        List.take_succ_cons]
    case neg =>
      rw [if_neg (by simpa using hn), hi hes, show n - e.index = 0 by omega,
        show n - (e.index + 1) = 0 by omega]
      rfl

namespace DurableDisk

variable {disk : DurableDisk} {a : Action} {memory : Memory × Memory}

theorem describes_perform (h : disk.walFile.Describes log.rest) (hl : log.Storable)
    (hl' : log'.Storable) (hr : replay log [a] = some log') :
    (disk.perform memory a).walFile.Describes log'.rest := by
  cases a
  case appendEntries es =>
    cases hr
    refine h.call (.append es) memory.1 memory.2 (fun e he => hl'.fits e ?_) hl'.pairwise
    exact List.mem_append_right _ he
  case truncateAndAppend i es =>
    obtain ⟨_, ht, hr⟩ := Option.bind_eq_some_iff.mp hr
    cases hr
    rw [RaftLog.truncateAndAppend] at ht
    split at ht
    case isFalse => contradiction
    case isTrue  =>
      have hd : log'.rest = (Wal.Call.truncateAndAppend i es).describe log.rest := by
        cases ht
        have hc : Consecutive (log.firstIndex + 1) log.rest := hl.contiguous
        rw [Wal.Call.describe, hc.filter_lt, Nat.sub_sub]
      rw [hd]
      have hfits : ∀ e ∈ es, Wal.Fits e := by
        intro e he
        refine hl'.fits e ?_
        rw [hd]
        exact List.mem_append_right _ he
      exact h.call (.truncateAndAppend i es) memory.1 memory.2 hfits (hd ▸ hl'.pairwise)
  all_goals
    cases hr
    exact h

-- A process that stops between two actions.
theorem performCut_zero (disk : DurableDisk) (memory : Memory × Memory) (a : Action) :
    (disk.performCut memory 0 a).walFile = disk.walFile := by
  cases a
  case appendEntries es =>
    simp only [performCut, Nat.zero_mul, Nat.add_zero, Wal.appendLogEntries]
    split <;> simp
  all_goals rfl

end DurableDisk

namespace Deployment

variable {D : Deployment} {server : Server} {s s' : State} {w : World} {p : Process} {id : NodeId}
variable {client : Bool} {memory : ℕ → Memory × Memory} {input : Input} {inv : Invocation} {o : Outcome}
variable {o' : Option Process}

namespace World

theorem mem_processActions {q : Posted} (h : q ∈ (w.processActions server client memory as).posted) :
    q ∈ w.posted ∨ .send q.msg ∈ as := by
  induction as generalizing w
  case nil          => exact .inl h
  case cons a as hi =>
    rcases hi h with h | h
    · exact (mem_processAction h).imp_right fun ha => List.mem_cons.mpr (.inl ha.symm)
    · exact .inr (List.mem_cons_of_mem _ h)

-- The file goes through logs that can be stored.
theorem processActions_describes (h : (w.disks server.id).walFile.Describes log.rest)
    (hl : ∀ n log₁, replay log (as.take n) = some log₁ → log₁.Storable)
    (hr : replay log as = some log') :
    ((w.processActions server client memory as).disks server.id).walFile.Describes log'.rest := by
  induction as generalizing w log
  case nil =>
    cases hr
    exact h
  case cons a as hi =>
    have hcons (bs : List Action) : replay log (a :: bs) = (replay log [a]).bind (replay · bs) :=
      replay_append log [a] bs
    obtain ⟨log₁, h₁, hr⟩ := Option.bind_eq_some_iff.mp ((hcons as).symm.trans hr)
    refine hi ?_ (fun n log₂ h₂ => hl (n + 1) log₂ ?_) hr
    · rw [processAction_disks, Function.update_self]
      exact DurableDisk.describes_perform h (hl 0 log rfl) (hl 1 log₁ h₁) h₁
    · rw [List.take_succ_cons, hcons, h₁, Option.bind_some, h₂]

theorem stopWithin_walFile (w : World) (server : Server) (memory : Memory × Memory) (a : Option Action)
    (v : NodeId) : ((w.stopWithin server memory 0 a).disks v).walFile = (w.disks v).walFile := by
  cases a
  case none   => rfl
  case some a =>
    by_cases hv : v = server.id
    case pos =>
      rw [hv]
      simp only [stopWithin, setDisk, Function.update_self]
      exact DurableDisk.performCut_zero ..
    case neg => simp only [stopWithin, setDisk, Function.update_of_ne hv]

end World

namespace State

variable {cut : Option (ℕ × ℕ)}

theorem mem_run_posted {q : Posted} (h : q ∈ (s.run id p client memory o cut).posted) :
    q ∈ s.posted ∨ .send q.msg ∈ o.2 := by
  cases cut
  case none     => exact World.mem_processActions (w := s.record id p.node o.1) h
  case some cut =>
    rw [run, World.stopWithin_posted] at h
    exact (World.mem_processActions h).imp_right List.mem_of_mem_take

theorem run_processes {v : NodeId} {p' : Process}
    (h : (s.run id p client memory o cut).processes v = some p') :
    v ≠ id ∧ s.processes v = some p' ∨ v = id ∧ cut = none ∧ p' = { p with node := o.1 } := by
  by_cases hv : v = id
  case neg => cases cut <;> exact .inl ⟨hv, (Function.update_of_ne hv ..).symm.trans h⟩
  case pos =>
    subst hv
    cases cut
    case none   =>
      simp only [run, Function.update_self, Option.some.injEq] at h
      exact .inr ⟨rfl, rfl, h.symm⟩
    case some _ => cases (Function.update_self ..).symm.trans h

theorem run_disks {v : NodeId} (hv : v ≠ p.server.id) :
    (s.run id p client memory o cut).disks v = s.disks v := by
  have hx (as : List Action) := (s.record id p.node o.1).processActions_extends p.server client memory as
  cases cut
  case none     => exact (hx o.2).disks v hv
  case some cut => exact ((hx (o.2.take cut.1)).trans (World.stopWithin_extends ..)).disks v hv

end State

/-! ### Snapshots -/

-- No log has another base than the start, and no snapshot that is sent reaches further.
structure State.Based (s : State) : Prop where
  posted    : ∀ q ∈ s.posted, ∀ i t k data done, q.msg.kind = .installSnapshot i t k data done → i = 0
  processes : ∀ id p, s.processes id = some p → p.node.log.firstIndex = 0

namespace State.Based

variable (h : s.Based) (hp : s.processes id = some p) (hread : s.read id input = some (inv, client))
  (hcall : p.node.invoke inv = some o)

include h hread hcall

theorem not_persistSnapshot (i t : ℕ) (data : Command) : .persistSnapshot i t data ∉ o.2 := by
  intro hm
  cases (RaftNode.invoke_call hcall).snapshots hm
  case compact hc _        =>
    cases input
    case tick    => cases hread; cases hc
    case request => cases hread; cases hc
    case receive =>
      obtain ⟨q, _, hr⟩ := Option.bind_eq_some_iff.mp hread
      split at hr <;> cases hr
      cases hc
  case install msg k hm hk hi =>
    rcases State.read_handle hread hm with ⟨q, hq, rfl, _⟩ | ⟨command, hc⟩
    · exact absurd (h.posted q hq _ _ _ _ _ hk ▸ hi) (Nat.not_lt_zero _)
    · cases hk.symm.trans hc

include hp

theorem call : o.1.log.firstIndex = 0 ∧ ∀ msg, .send msg ∈ o.2 →
    ∀ i t k data done, msg.kind = .installSnapshot i t k data done → i = 0 := by
  have hc := RaftNode.invoke_call hcall
  have hsent : o.1.log.sentinel = p.node.log.sentinel :=
    hc.sentinel.resolve_right fun ⟨data, hm⟩ => h.not_persistSnapshot hread hcall _ _ data hm
  have hfirst : o.1.log.firstIndex = 0 := (congrArg LogEntry.index hsent).trans (h.processes id p hp)
  refine ⟨hfirst, fun msg hm i t k data done hk => ?_⟩
  cases hc.emits _ hm
  case hint hh         => exact absurd hh.right (by simp [MessageKind.isHint, hk])
  case send kind hf    =>
    obtain rfl : kind = _ := hk
    exact absurd rfl hf
  case other hs _      => exact absurd rfl hs
  case replicate _ hr  =>
    cases hr
    case entries      => cases hk
    case snapshot he  =>
      rw [RaftLog.snapshotMeta, if_pos (show o.1.kernel.log.sentinel.index = 0 from hfirst)] at he
      cases hk
      rw [← he]
      rfl

end State.Based

theorem State.based_init : State.Based init where
  posted        := by simp [init]
  processes _ _ := by simp [init]

theorem State.Based.setProcess (h : s.Based) (hp : ∀ p', some p' = o' → p'.node.log.firstIndex = 0) :
    (s.setProcess id o').Based where
  posted         := h.posted
  processes v p' := by
    intro hp'
    by_cases hv : v = id
    case neg => exact h.processes v p' <| (Function.update_of_ne hv ..).symm.trans hp'
    case pos =>
      subst hv
      exact hp p' (hp'.symm.trans (Function.update_self ..))

theorem State.Based.step (h : s.Based) {e : Event} (hs : D.step s e = some s') : s'.Based := by
  cases State.steps hs
  case stop                 => exact h.setProcess fun _ hp => (Option.some_ne_none _ hp).elim
  case start hlog           =>
    refine h.setProcess fun p' hp => ?_
    cases hp
    rw [hlog]
    rfl
  case call hp hread hcall  =>
    obtain ⟨hf, hsent⟩ := h.call hp hread hcall
    refine ⟨fun q hq => (State.mem_run_posted hq).elim (h.posted q) (hsent q.msg), fun v p' hp' => ?_⟩
    rcases State.run_processes hp' with ⟨_, hp'⟩ | ⟨_, _, rfl⟩
    · exact h.processes v p' hp'
    · exact hf

theorem State.Based.invariant {guard : State → Event → Prop} (r : D.system.Reachable guard s) : s.Based :=
  r.invariant State.based_init fun _ hi _ hs => hi.step hs

-- No server ever persists a snapshot, takes one over or sends one that is not empty, and so the action
-- that the loop ignores never comes.
theorem never_snapshots (r : D.system.Reachable (fun _ _ => True) s) :
    (∀ q ∈ s.posted, ∀ i t k data done, q.msg.kind = .installSnapshot i t k data done → i = 0) ∧
      ∀ id p, s.processes id = some p → p.node.log.firstIndex = 0 ∧
        ∀ input inv client o, s.read id input = some (inv, client) → p.node.invoke inv = some o →
          ∀ i t data, .persistSnapshot i t data ∉ o.2 := by
  have h := State.Based.invariant r
  refine ⟨h.posted, fun id p hp => ⟨h.processes id p hp, fun input inv client o hread hcall => ?_⟩⟩
  exact h.not_persistSnapshot hread hcall

theorem never_snapshots_three : ∃ s, three.system.Reachable (fun _ _ => True) s ∧ s.elections = [(1, 1)] ∧
    (∀ q ∈ s.posted, ∀ i t k data done, q.msg.kind = .installSnapshot i t k data done → i = 0) ∧
      ∀ id p, s.processes id = some p → p.node.log.firstIndex = 0 ∧
        ∀ input inv client o, s.read id input = some (inv, client) → p.node.invoke inv = some o →
          ∀ i t data, .persistSnapshot i t data ∉ o.2 :=
  have r := TransitionSystem.reachable_run (T := three.system) (fun _ _ => True)
    (Event.voteOfThree ++ Event.revoteOfThree) (by decide +kernel)
  ⟨_, r, by decide +kernel, never_snapshots r⟩

/-! ### Logs on disk -/

-- No process stops in the middle of a write of its log, all entries can be written in full, and a
-- process only starts on a file with `Start`.
def Intact (Start : Wal → Prop) (s : State) (e : Event) : Prop :=
  match e with
  | .stop _           => True
  | .start server _ _ => Start (s.disks server.id).walFile
  | .call _ _ _ cut   =>
    (∀ c ∈ cut, c.2 = 0) ∧ ∀ node ∈ s.newNode e, ∀ entry ∈ node.log.rest, Wal.Fits entry

instance (Start : Wal → Prop) [DecidablePred Start] (s : State) (e : Event) :
    Decidable (Intact Start s e) :=
  match e with
  | .stop _           => .isTrue trivial
  | .start server _ _ => inferInstanceAs (Decidable (Start (s.disks server.id).walFile))
  | .call id input memory cut =>
    inferInstanceAs (Decidable ((∀ c ∈ cut, c.2 = 0) ∧
      ∀ node ∈ s.newNode (.call id input memory cut), ∀ entry ∈ node.log.rest, Wal.Fits entry))

structure Process.Stored (id : NodeId) (disk : DurableDisk) (p : Process) : Prop where
  id_eq     : p.server.id = id
  applying  : p.node.kernel.Applying
  storable  : p.node.log.Storable
  describes : disk.walFile.Describes p.node.log.rest

structure State.Stored (s : State) : Prop where
  gapless   : ∀ q ∈ s.posted, ∀ i t es c, q.msg.kind = .appendEntries i t es c → Consecutive (i + 1) es
  disks     : ∀ id, ∃ log : RaftLog, log.Storable ∧ (s.disks id).walFile.Describes log.rest
  processes : ∀ id p, s.processes id = some p → p.Stored id (s.disks id)

namespace State.Stored

variable (h : s.Stored)

include h

theorem cause_gapless (hread : s.read id input = some (inv, client)) : inv.cause.Gapless := by
  intro msg i t es c hm hk
  rcases State.read_handle hread hm with ⟨q, hq, rfl, _⟩ | ⟨command, hc⟩
  · exact h.gapless q hq i t es c hk
  · cases hk.symm.trans hc

variable (hb : s.Based) (hp : s.processes id = some p) (hread : s.read id input = some (inv, client))
  (hcall : p.node.invoke inv = some o) (hf : ∀ entry ∈ o.1.log.rest, Wal.Fits entry)

include hb hp hread hcall hf

-- The new log can be stored as well, and it is what the actions write.
theorem call : o.1.kernel.Applying ∧ o.1.log.Storable ∧ replay p.node.log o.2 = some o.1.log := by
  have hc := RaftNode.invoke_call hcall
  obtain ⟨hk, _⟩ := hc.applying (h.processes id p hp).applying (h.cause_gapless hread)
  refine ⟨hk, ⟨(hb.call hp hread hcall).left, hk.contiguous, hf⟩, ?_⟩
  exact hc.persists.log.resolve_right fun hs =>
    have ⟨data, hm⟩ := hs.left
    hb.not_persistSnapshot hread hcall _ _ data hm

theorem call_gapless {msg : Message} (hm : .send msg ∈ o.2) {i t c : ℕ} {es : List LogEntry}
    (hk : msg.kind = .appendEntries i t es c) : Consecutive (i + 1) es := by
  obtain ⟨happ, _⟩ := h.call hb hp hread hcall hf
  cases (RaftNode.invoke_call hcall).emits _ hm
  case hint hh         => exact absurd hh.right (by simp [MessageKind.isHint, hk])
  case other hs _      => exact absurd rfl hs
  case send kind hf    =>
    obtain rfl : kind = _ := hk
    exact absurd rfl hf
  case replicate _ hr  =>
    cases hr
    case snapshot             => cases hk
    case entries next hlt =>
      cases hk
      rw [Nat.sub_add_cancel (Nat.one_le_of_lt hlt)]
      exact happ.contiguous.entriesFrom hlt

-- Wherever a call is cut between two actions, the file describes the old log or the new one.
theorem describes_take (memory : ℕ → Memory × Memory) {w : World}
    (hw : (w.disks p.server.id).walFile = (s.disks p.server.id).walFile) (n : ℕ) :
    ∃ log : RaftLog, log.Storable ∧ (o.2.length ≤ n → log = o.1.log) ∧
      ((w.processActions p.server client memory (o.2.take n)).disks p.server.id).walFile.Describes
        log.rest := by
  have hs := h.processes id p hp
  obtain ⟨_, hnew, hr⟩ := h.call hb hp hread hcall hf
  have htake := replay_take (RaftNode.invoke_call hcall).countP_isLog hr
  have stored {n : ℕ} {log₁ : RaftLog} (h₁ : replay p.node.log (o.2.take n) = some log₁) :
      log₁.Storable := by
    rcases htake n with ht | ht <;> cases ht.symm.trans h₁
    · exact hs.storable
    · exact hnew
  obtain ⟨log₁, h₁⟩ : ∃ log₁, replay p.node.log (o.2.take n) = some log₁ :=
    (htake n).elim (fun ht => ⟨_, ht⟩) fun ht => ⟨_, ht⟩
  refine ⟨log₁, stored h₁, fun hn => ?_, ?_⟩
  · rw [List.take_of_length_le hn, hr] at h₁
    exact (Option.some.inj h₁).symm
  · refine World.processActions_describes ?_ (fun m log₂ h₂ => ?_) h₁
    · rw [hw, hs.id_eq]
      exact hs.describes
    · rw [List.take_take] at h₂
      exact stored h₂

theorem run (memory : ℕ → Memory × Memory) {cut : Option (ℕ × ℕ)} (hcut : ∀ c ∈ cut, c.2 = 0) :
    (s.run id p client memory o cut).Stored := by
  have hs := h.processes id p hp
  obtain ⟨happ, hnew, _⟩ := h.call hb hp hread hcall hf
  have hwal := h.describes_take hb hp hread hcall hf memory (w := s.record id p.node o.1) rfl
  refine ⟨fun q hq i t es c hk => ?_, fun v => ?_, fun v p' hp' => ?_⟩
  case refine_1 =>
    rcases State.mem_run_posted hq with hq | hm
    · exact h.gapless q hq i t es c hk
    · exact h.call_gapless hb hp hread hcall hf hm hk
  case refine_2 =>
    by_cases hv : v = p.server.id
    case neg => exact (State.run_disks hv).symm ▸ h.disks v
    case pos =>
      subst hv
      cases cut
      case none     =>
        obtain ⟨log, hl, _, hd⟩ := hwal o.2.length
        rw [List.take_length] at hd
        exact ⟨log, hl, hd⟩
      case some cut =>
        obtain ⟨log, hl, _, hd⟩ := hwal cut.1
        obtain ⟨n, k⟩ := cut
        obtain rfl : k = 0 := hcut _ rfl
        exact ⟨log, hl, (World.stopWithin_walFile ..).symm ▸ hd⟩
  case refine_3 =>
    rcases State.run_processes hp' with ⟨hv, hp'⟩ | ⟨rfl, rfl, rfl⟩
    case inl => exact (State.run_disks (hs.id_eq ▸ hv)).symm ▸ h.processes v p' hp'
    case inr =>
      obtain ⟨log, _, hlog, hd⟩ := hwal o.2.length
      obtain rfl := hlog le_rfl
      rw [List.take_length] at hd
      exact ⟨hs.id_eq, happ, hnew, hs.id_eq ▸ hd⟩

end State.Stored

theorem State.Stored.setProcess (h : s.Stored) (hp : ∀ p', some p' = o' → p'.Stored id (s.disks id)) :
    (s.setProcess id o').Stored where
  gapless        := h.gapless
  disks          := h.disks
  processes v p' := by
    intro hp'
    by_cases hv : v = id
    case neg => exact h.processes v p' <| (Function.update_of_ne hv ..).symm.trans hp'
    case pos =>
      subst hv
      exact hp p' (hp'.symm.trans (Function.update_self ..))

theorem State.Stored.step (h : s.Stored) (hb : s.Based) {e : Event} (hi : Intact Wal.Resumable s e)
    (hs : D.step s e = some s') : s'.Stored := by
  cases State.steps hs
  case stop                 => exact h.setProcess fun _ hp => (Option.some_ne_none _ hp).elim
  case call hp hread hcall  =>
    exact h.run hb hp hread hcall (hi.right _ <| State.newNode_call hp hread hcall) _ hi.left
  case start server _ _ _ log _ _ _ hlog =>
    refine h.setProcess fun p' hp => ?_
    cases hp
    have hlog : log.Storable ∧ (s.disks server.id).walFile.Describes log.rest := by
      subst hlog
      rcases hi with he | ⟨log₀, hl, hd, hreplay⟩
      case inr =>
        rw [hreplay]
        exact ⟨⟨rfl, hl.firstIndex ▸ hl.contiguous, hl.fits⟩, hd⟩
      case inl =>
        rw [he, Wal.replayWal_short (by decide)]
        exact ⟨⟨rfl, trivial, by simp [RaftLog.restore]⟩, Wal.describes_nil⟩
    exact ⟨rfl, ⟨hlog.left.contiguous, hlog.left.firstIndex.le, rfl⟩, hlog.left, hlog.right⟩

theorem State.stored_init : State.Stored init where
  gapless   := by simp [init]
  disks _   := ⟨.new, ⟨rfl, trivial, by simp [RaftLog.new]⟩, Wal.describes_nil⟩
  processes := by simp [init]

-- The files hold logs, that of a server that runs its own, whenever a process stops between two
-- actions. A server applies what it commits, and no message makes it panic.
theorem logs_on_disk (r : D.system.Reachable (Intact Wal.Resumable) s) :
    (∀ id, ∃ log : RaftLog, log.Storable ∧ (s.disks id).walFile.Describes log.rest) ∧
      ∀ id p, s.processes id = some p →
        p.node.log.Storable ∧ (s.disks id).walFile.Describes p.node.log.rest ∧
        p.node.lastApplied = p.node.commitIndex ∧
        ∀ input inv client, s.read id input = some (inv, client) → (p.node.invoke inv).isSome := by
  have h : s.Stored := by
    refine TransitionSystem.Reachable.invariant r State.stored_init ?_
    exact fun r hi hg hs => hi.step (State.Based.invariant r) hg hs
  refine ⟨h.disks, fun id p hp => ?_⟩
  have hs := h.processes id p hp
  refine ⟨hs.storable, hs.describes, hs.applying.applied, fun input inv client hread => ?_⟩
  exact RaftNode.invoke_isSome hs.storable.contiguous (h.cause_gapless hread)

/-! ### A leader that starts again -/

-- The entry that a leader starts its term with.
def firstNoop : LogEntry where
  index   := 1
  term    := 1
  command := []

-- A file with this entry. What the rest of the buffer holds is not taken for a record, as its length would
-- exceed the file.
def noopFile : Wal :=
  Wal.appendLogEntries [] [firstNoop] fun _ => 255

theorem noopFile_resumable : noopFile.Resumable := by
  have hfits : ∀ e ∈ [firstNoop], Wal.Fits e := by decide
  have hd : noopFile.Describes [firstNoop] := Wal.describes_nil.call (.append [firstNoop]) (fun _ => 255)
    (fun _ => 255) hfits (by simp [Wal.Call.describe])
  have hreplay : Wal.replayWal noopFile = [firstNoop] := by decide +kernel
  exact .inr ⟨{ RaftLog.new with rest := [firstNoop] }, ⟨rfl, ⟨rfl, trivial⟩, hfits⟩, hd, hreplay⟩

theorem one_mem_three : 1 ∈ three.addresses.map (·.1) := by
  decide

-- Server 1 is elected and writes its first entry, stops, and starts again.
def Event.restartOfThree : List Event :=
  Event.voteOfThree ++ Event.revoteOfThree.take 3 ++
    [.call 1 (.receive 9 true) (fun _ => (fun _ => 255, fun _ => 255)) none, .stop 1,
      .boot three 1 one_mem_three]

-- The server that has been the leader has its entry in its log again.
theorem logs_on_disk_three : ∃ s, three.system.Reachable (Intact Wal.Resumable) s ∧ s.elections = [(1, 1)] ∧
    (s.processes 1).map (·.node.log.rest) = some [firstNoop] ∧
    (∀ id, ∃ log : RaftLog, log.Storable ∧ (s.disks id).walFile.Describes log.rest) ∧
      ∀ id p, s.processes id = some p →
        p.node.log.Storable ∧ (s.disks id).walFile.Describes p.node.log.rest ∧
        p.node.lastApplied = p.node.commitIndex ∧
        ∀ input inv client, s.read id input = some (inv, client) → (p.node.invoke inv).isSome := by
  have r := TransitionSystem.reachable_run (T := three.system) (Intact fun wal => wal = [] ∨ wal == noopFile)
    Event.restartOfThree (by decide +kernel)
  have hguard : ∀ s e, Intact (fun wal => wal = [] ∨ wal == noopFile) s e → Intact Wal.Resumable s e := by
    intro s e h
    cases e
    case start =>
      rcases h with h | h
      · exact .inl h
      · have hfile := noopFile_resumable
        rwa [← beq_iff_eq.mp h] at hfile
    all_goals exact h
  have r' := r.mono hguard
  exact ⟨_, r', by decide +kernel, by decide +kernel, logs_on_disk r'⟩

end Deployment

end RaftRupee
