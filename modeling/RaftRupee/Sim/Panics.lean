import RaftRupee.Core.Applying
import RaftRupee.Sim.Steps
import RaftRupee.Sim.Sync

namespace RaftRupee

variable {log dlog : RaftLog} {as : List Action} {a : Action}

-- What a call can write to the log on disk, when the node has the log `log`.
inductive RaftLog.Stores (log : RaftLog) : Action → Prop
  | append {e : LogEntry} : e.index = log.lastIndex + 1 → log.Stores (.appendEntries [e])
  | truncate {i : ℕ} {es : List LogEntry} :
    log.firstIndex < i → i ≤ log.lastIndex + 1 → Consecutive i es → log.Stores (.truncateAndAppend i es)
  | snapshot {i t : ℕ} {data : Command} :
    log.firstIndex ≤ i → (i = log.firstIndex → t = log.sentinel.term) →
    log.Stores (.persistSnapshot i t data)

-- All actions are calm but one at most, which writes the log.
inductive RaftLog.StoresOnce (log : RaftLog) : List Action → Prop
  | calm {as : List Action} : (∀ a ∈ as, a.Calm) → log.StoresOnce as
  | write {as bs : List Action} {a : Action} :
    (∀ a ∈ as, a.Calm) → log.Stores a → (∀ b ∈ bs, b.Calm) → log.StoresOnce (as ++ a :: bs)

theorem RaftLog.StoresOnce.append {bs : List Action} (ha : ∀ a ∈ as, a.Calm) (h : log.StoresOnce bs) :
    log.StoresOnce (as ++ bs) := by
  cases h
  case calm hb => exact .calm <| List.forall_mem_append.mpr ⟨ha, hb⟩
  case write hb hs hc =>
    rw [← List.append_assoc]
    exact .write (List.forall_mem_append.mpr ⟨ha, hb⟩) hs hc

theorem RaftLog.StoresOnce.cons (ha : a.Calm) (h : log.StoresOnce as) : log.StoresOnce (a :: as) :=
  have h' : log.StoresOnce ([a] ++ as) := h.append (List.forall_mem_singleton.mpr ha)
  h'

theorem RaftLog.Stores.once {bs : List Action} (hs : log.Stores a) (hb : ∀ b ∈ bs, b.Calm) :
    log.StoresOnce (a :: bs) :=
  have h : log.StoresOnce ([] ++ a :: bs) := .write (by simp) hs hb
  h

namespace Cluster

variable {C : Cluster} {K : Prop} {s : State} {w : World} {id : NodeId} {T : ℕ} {m : Cause}
variable {answers : Option Message} {k k' : Kernel} {e : Event} {input : Input} {cut : Option ℕ}

namespace Admissible

theorem accept_storesOnce {msg : Message} {i t c : ℕ} {es : List LogEntry} {merge commit : List Action}
    (ha : Admissible K m k) (hk : k.WellFormed) (hm : m = .handle msg)
    (hkind : msg.kind = .appendEntries i t es c) (hti : k.log.termAt i = some t)
    (hmerge : Merges k.log es log merge)
    (hf : Follows { k with role := .follower, log } c k' commit) : k.log.StoresOnce (merge ++ commit ++
      [.send <| k.message msg.sender <| .appendEntriesResponse true none none]) := by
  have hes := ha.entries hm hkind
  have hcalm : ∀ a ∈ commit ++ [.send <| k.message msg.sender <| .appendEntriesResponse true none none],
      a.Calm := by
    simp only [List.forall_mem_append]
    exact ⟨hf.forall_mem fun _ => trivial, by simp [Action.Calm, Kernel.message]⟩
  have hbase := (hk.contiguous.bounds_of_termAt hti).left
  rw [List.append_assoc]
  rcases hmerge.spec hes with ⟨_, rfl, _⟩ | ⟨n, hn, rfl, _, hmatch, _⟩
  case inl => exact .calm hcalm
  case inr =>
    have hle := hk.contiguous.attach_le hti hn.le hmatch
    exact (RaftLog.Stores.truncate (by omega) (by omega) (hes.drop n)).once hcalm

theorem move_storesOnce (ha : Admissible K m k) (hk : k.WellFormed) (h : Move m k k' as) :
    k.log.StoresOnce as := by
  have calm_apply (es : List LogEntry) : (Action.apply es).Calm := trivial
  cases h
  case idle h            => exact .calm fun a ha => calm_of_isHint (h a ha)
  case campaign          => exact .calm <| calm_campaignActions k
  case vote              => exact .calm <| by simp [Action.Calm, Kernel.message]
  case collect           => exact .calm <| by simp
  case skip              => exact .calm <| by simp [Action.Calm, Kernel.message]
  case replicate h       => exact .calm fun a ha => calm_of_replicates hk.contiguous (h a ha)
  case confirm h         => exact .calm <| h.forall_mem calm_apply
  case lone              => exact .append (calm_campaignActions k) <| (RaftLog.Stores.append rfl).once (by simp)
  case elect e hm he _ h =>
    subst he
    have hnext : Consecutive (k.log.lastIndex + 1) [Kernel.noop _] := ⟨rfl, trivial⟩
    refine (RaftLog.Stores.append rfl).once fun b hb => ?_
    exact calm_of_replicates (hk.contiguous.append hnext) (h b hb)
  case propose hi _ he h =>
    subst he
    have hnext : Consecutive (k.log.lastIndex + 1) [_] := ⟨hi, trivial⟩
    refine (RaftLog.Stores.append hi).once fun b hb => (h b hb).elim (calm_of_replicates ?_) calm_of_isHint
    exact hk.contiguous.append hnext
  case proposeAlone hi _ h hc =>
    refine (RaftLog.Stores.append hi).once fun b hb => ?_
    exact (List.mem_append.mp hb).elim (hc.forall_mem calm_apply b) fun hb => calm_of_isHint (h b hb)
  case accept hm hkind _ hti hmerge hf => exact ha.accept_storesOnce hk hm hkind hti hmerge hf
  case install hi =>
    have hbase := hk.base_le
    exact (RaftLog.Stores.snapshot (by omega) (by omega)).once <| by simp [Action.Calm, Kernel.message]
  case compact hm hi =>
    obtain ⟨hbase, ht⟩ := ha.compact hm hi
    exact (RaftLog.Stores.snapshot hbase <| RaftLog.sentinel_term_of_termAt ht).once (by simp)

theorem storesOnce (ha : Admissible K m k) (hk : k.WellFormed) (h : Call m k k' as) : k.log.StoresOnce as := by
  cases h
  case same h => exact ha.move_storesOnce hk h
  case later msg _ hm _ hlt h =>
    have ha' : Admissible K m (k.bump msg.term) :=
      ⟨ha.entries, ha.compact, fun hK hm hk hle => ha.snapshot hK hm hk <| hlt.le.trans hle⟩
    have hk' : (k.bump msg.term).WellFormed := ⟨hk.contiguous, hk.command, hk.base_le⟩
    exact (ha'.move_storesOnce hk' h).cons trivial

end Admissible

/-! ### Executing the actions -/

namespace World

theorem exists_calm (w : World) (id : NodeId) (T : ℕ) (answers : Option Message) (hc : ∀ a ∈ as, a.Calm) :
    ∃ w', w.processActions id T answers as = some w' ∧
      ∀ log, (w.disks id).Holds log → (w'.disks id).Holds log := by
  induction as generalizing w
  case nil => exact ⟨w, rfl, fun _ h => h⟩
  case cons a as hi =>
    obtain ⟨ha, hc⟩ := List.forall_mem_cons.mp hc
    obtain ⟨w₁, h₁, hd₁⟩ : ∃ w₁, w.processAction id T answers a = some w₁ ∧
        ∀ log, (w.disks id).Holds log → (w₁.disks id).Holds log := by
      cases a
      case send  => exact ⟨_, rfl, fun _ h => h⟩
      case apply => exact ⟨_, rfl, fun _ h => h⟩
      case persistHardState term votedFor =>
        exact ⟨_, rfl, fun log h => by simpa [setDisk] using h.writeHardState term votedFor⟩
      all_goals exact ha.elim
    obtain ⟨w', h', hd'⟩ := hi w₁ hc
    exact ⟨w', by rw [processActions_cons, h₁]; exact h', fun log h => hd' log (hd₁ log h)⟩

-- The disk takes what a node writes whose log it covers.
theorem isSome_of_stores (T : ℕ) (answers : Option Message) (hd : (w.disks id).Holds dlog)
    (hcov : Covers K dlog log) (hl : log.Contiguous) (hs : log.Stores a) :
    (w.processAction id T answers a).isSome := by
  have hfirst : dlog.firstIndex = log.firstIndex := congrArg LogEntry.index hcov.sentinel
  have hle := hcov.lastIndex
  have hlast := hl.lastIndex_eq
  cases hs
  case append e he =>
    obtain ⟨disk, _, hdisk, _⟩ := hd.appendOne (e := e) (by omega) (by omega)
    simp [processAction, hdisk]
  case truncate hi hl he =>
    obtain ⟨disk, _, hdisk, _⟩ := hd.truncateAndAppend (by omega) (by omega) he
    simp [processAction, hdisk]
  case snapshot i t data hi ht =>
    have hterm : i = dlog.firstIndex → t = dlog.sentinel.term := by rwa [hfirst, hcov.sentinel]
    obtain ⟨disk, hdisk, _⟩ := hd.writeSnapshot data (hfirst.trans_le hi) hterm
    simp [processAction, hdisk]

theorem Synced.processActions_isSome (T : ℕ) (answers : Option Message) (hk : w.Synced K id k)
    (h : k.log.StoresOnce as) : (w.processActions id T answers as).isSome := by
  cases h
  case calm hc =>
    obtain ⟨w', hw, _⟩ := w.exists_calm id T answers hc
    exact Option.isSome_of_eq_some hw
  case write ha hs hb =>
    obtain ⟨dlog, hd, hcov⟩ := hk.disk
    obtain ⟨w₁, h₁, hd₁⟩ := w.exists_calm id T answers ha
    obtain ⟨w₂, h₂⟩ := Option.isSome_iff_exists.mp <|
      isSome_of_stores T answers (hd₁ dlog hd) hcov hk.contiguous hs
    obtain ⟨w₃, h₃, _⟩ := w₂.exists_calm id T answers hb
    rw [processActions, List.foldlM_append]
    simp only [processActions] at h₁ h₃
    simp [h₁, h₂, h₃]

theorem exists_take (n : ℕ) (h : (w.processActions id T answers as).isSome) :
    ∃ w', w.processActions id T answers (as.take n) = some w' := by
  rw [processActions, ← as.take_append_drop n, List.foldlM_append] at h
  cases hw : (as.take n).foldlM (processAction id T answers) w
  case none    => simp [hw] at h
  case some w' => exact ⟨w', hw⟩

end World

/-! ### Events that can happen -/

-- The event names a member, and what is delivered has been sent to it.
def State.Offers (C : Cluster) (s : State) : Event → Prop
  | .call id input _ => id ∈ C.members ∧ (s.invocation id input).isSome
  | .restart id      => id ∈ C.members

instance (C : Cluster) (s : State) (e : Event) : Decidable (s.Offers C e) :=
  match e with
  | .call id input _ => inferInstanceAs (Decidable (id ∈ C.members ∧ (s.invocation id input).isSome))
  | .restart id      => inferInstanceAs (Decidable (id ∈ C.members))

theorem State.exists_call (hs : s.Stored C) (hk : s.Synced K id (s.nodes id).kernel)
    (hi : (s.invocation id input).isSome) : ∃ o, s.call id input = some o := by
  obtain ⟨call, hi⟩ := Option.isSome_iff_exists.mp hi
  rw [s.call_eq_invoke, hi, Option.bind_some]
  refine Option.isSome_iff_exists.mp <| RaftNode.invoke_isSome hk.contiguous fun msg i t es c hm hkind => ?_
  cases call
  case step msg' =>
    cases hm
    obtain ⟨_, p, _, hp, rfl, _⟩ := invocation_step hi (by simp [hkind, MessageKind.isClient])
    exact hs.entries p (List.mem_of_getElem? hp) i t es c hkind
  all_goals cases hm

theorem World.Stored.exists_restart (hs : s.Stored C) (hid : id ∈ C.members) :
    ∃ s', C.restart s id = some s' := by
  obtain ⟨log, hl⟩ := hs.disks id hid
  exact ⟨_, by rw [restart, hl.spawnNode (C.config id)]; rfl⟩

theorem State.offers_of_step (h : (C.step s e).isSome) : s.Offers C e := by
  cases e
  case restart id =>
    by_contra hid
    simp [step, show id ∉ C.members from hid] at h
  case call id input cut =>
    by_cases hid : id ∈ C.members
    case neg => simp [step, hid] at h
    case pos =>
      refine ⟨hid, ?_⟩
      rw [step, if_pos hid, s.call_eq_invoke] at h
      cases hi : s.invocation id input
      case none => simp [hi] at h
      case some => rfl

-- A crash in a call leaves a log on disk wherever it comes.
theorem World.Synced.exists_crash (hk : w.Synced K id k) (hs : w.Stored C) (hid : id ∈ C.members)
    (ha : Admissible K m k) (hcall : Call m k k' as)
    (hruns : (w.processActions id T answers as).isSome) (n : ℕ) :
    ∃ w', w.processActions id T answers (as.take n) = some w' ∧ w'.Stored C := by
  obtain ⟨w', hw⟩ := exists_take n hruns
  exact ⟨w', hw, ((hk.call hcall hs hid ha).take n).run hw |>.left.left⟩

theorem exists_step_call (hs : s.Stored C) (hk : s.Synced False id (s.nodes id).kernel)
    (hc : s.compactsWithin (.call id input cut)) (hid : id ∈ C.members) (hi : (s.invocation id input).isSome) :
    (C.step s (.call id input cut)).isSome := by
  obtain ⟨⟨node, as⟩, hcall⟩ := s.exists_call hs hk hi
  have ha := State.admissible (K := False) hs hcall hc fun h => h.elim
  have hrecord : (s.record id (s.nodes id) node).Synced False id (s.nodes id).kernel :=
    ⟨hk.toWellFormed, hk.disk⟩
  have hstored : (s.record id (s.nodes id) node).Stored C := ⟨hs.disks, hs.entries⟩
  have hkernel := State.call_kernel hcall
  have hruns := hrecord.processActions_isSome node.currentTerm (s.handled input) <|
    ha.storesOnce hk.toWellFormed hkernel
  cases cut
  case none =>
    obtain ⟨w, hw⟩ := Option.isSome_iff_exists.mp hruns
    exact Option.isSome_of_eq_some (step_call hid hcall hw)
  case some n =>
    obtain ⟨w, hw, hw'⟩ := hrecord.exists_crash hstored hid ha hkernel hruns n
    have hdown : ({ w with nodes := s.nodes } : State).Stored C := hw'
    obtain ⟨s', hs'⟩ := hdown.exists_restart hid
    simp [step, hid, hcall, hw, hs']

-- No call panics, and neither does what its actions write, wherever it is cut, nor a restart.
theorem step_isSome_iff (r : C.system.Reachable (fun s e => s.compactsWithin e) s) (hc : s.compactsWithin e) :
    (C.step s e).isSome ↔ s.Offers C e := by
  have hsync := (syncLayer C False (fun _ _ h => h) fun _ _ _ h => h.elim).invariant r
  constructor
  case mp => exact State.offers_of_step
  case mpr =>
    intro h
    cases e
    case restart id =>
      have hid : id ∈ C.members := h
      obtain ⟨s', hs'⟩ := hsync.world.exists_restart hid
      simp [step, hid, hs']
    case call id input cut =>
      exact exists_step_call hsync.world (hsync.memory id h.left) hc h.left h.right

-- So also when the disk of a node has kept what its log has given up.
theorem step_isSome_three : ∃ s, (ofSize 3 (by decide)).system.Reachable (fun s e => s.compactsWithin e) s ∧
    ¬s.Recovers (ofSize 3 (by decide)) 1 ∧
    ((ofSize 3 (by decide)).step s (.call 3 (.deliver 12) (some 1))).isSome := by
  have r := TransitionSystem.reachable_run (T := (ofSize 3 (by decide)).system) (fun s e => s.compactsWithin e)
    [.tick 1, .tick 1, .deliver 2 0, .deliver 1 2, .deliver 2 3, .deliver 3 4, .deliver 1 5,
      .propose 1 [7], .tick 2, .tick 2, .deliver 3 12, .deliver 2 13, .deliver 3 15, .deliver 2 16,
      .deliver 3 18, .deliver 2 19, .compact 2 1 2, .tick 2, .deliver 1 20] (by decide +kernel)
  exact ⟨_, r, by decide +kernel, (step_isSome_iff r (by decide +kernel)).mpr (by decide +kernel)⟩

end Cluster
end RaftRupee
