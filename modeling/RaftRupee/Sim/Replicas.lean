import Mathlib.Data.List.TakeWhile
import RaftRupee.Sim.Leaders

namespace RaftRupee.Cluster

open Replication

variable {C : Cluster} {guard : State → Event → Prop} {s : State} {w w' : World} {id : NodeId}
variable {T n c : ℕ} {cs : List Commit} {m : Cause} {answers : Option Message} {k k' : Kernel}
variable {as bs : List Action} {log log' : RaftLog} {g g' : Shadow} {e : LogEntry} {F : NodeId → List LogEntry}
variable {input : Input} {node : RaftNode} {ks : NodeId → Kernel} {post : World → Prop}

namespace Shadow

/-! ### Executing actions -/

-- What holds while node `id` acts.
structure Kept (C : Cluster) (F : NodeId → List LogEntry) (ks : NodeId → Kernel) (id : NodeId)
    (g : Shadow) (w : World) : Prop
    extends g.Refines C F w where
  others : ∀ n ∈ C.members, n ≠ id → g.Replica w.commits n (ks n)

theorem Kept.messages (h : g.Kept C F ks id w) (ha : ∀ a ∈ as, g.Allows w.commits T answers a)
    (hp : ∀ w', g.Kept C F ks id w' → w'.commits = w.commits → post w') :
    Crash.Sound (World.processAction id T answers) (fun w => ∃ g : Shadow, g.Kept C F ks id w) w as
      post := by
  let J (w' : World) := g.Kept C F ks id w' ∧ w'.commits = w.commits
  refine (Crash.Sound.all (J := J) (fun _ h => ⟨g, h.left⟩) ?_ ⟨h, rfl⟩).mono (fun _ h => h)
    fun w' _ h => hp w' h.left h.right
  rintro w₁ w₂ a hm ⟨hk, hc⟩ h₂
  have ha := ha a hm
  rw [← hc] at ha
  cases a
  case apply es =>
    cases h₂
    refine ⟨⟨⟨hk.matching, hk.safe, hk.term, hk.logs, hk.sent, hk.elected, hk.lined, hk.committed,
      fun a hm => ?_, hk.floor⟩, hk.others⟩, hc⟩
    rcases List.mem_append.mp hm with hm | hm
    · exact hk.applied a hm
    · obtain ⟨e, he, hm⟩ := List.mem_map.mp hm
      exact hm ▸ ha e he
  case send msg =>
    cases h₂
    refine ⟨⟨⟨hk.matching, hk.safe, hk.term, hk.logs, fun p hp => ?_, hk.elected, hk.lined,
      hk.committed, hk.applied, hk.floor⟩, hk.others⟩, hc⟩
    rcases List.mem_append.mp hp with hp | hp
    · exact hk.sent p hp
    · cases List.mem_singleton.mp hp
      exact ha
  all_goals exact ha.elim

-- A step of the acting node that leaves the other leaders' logs alone.
theorem Kept.evolve {disk : StableDisk} (h : g.Kept C F ks id w) (he : g.Evolves C g')
    (hlog : ∀ n ≠ id, g'.log n = g.log n) (hterm : ∀ n ≠ id, g'.term n = g.term n)
    (hline : ∀ T, g'.line T ≠ g.line T → g.line T ≠ [] ∧
      ∀ n ∈ C.members, n ≠ id → (ks n).role = .leader → (ks n).currentTerm ≠ T)
    (ht : g'.term id = disk.currentTerm)
    (hd : disk.Holds log) (hv : View log (g'.log id)) (hs : g'.Settled w.commits id log.firstIndex) :
    g'.Kept C F ks id (w.setDisk id disk) where
  toRefines := by
    refine h.toRefines.evolve he hlog hterm (fun T hT => ?_) ht hd hv hs
    by_cases hne : g'.line T = g.line T
    · exact hne ▸ hT
    · exact (hline T hne).left
  others n hn hi := by
    refine (h.others n hn hi).evolve h.toRefines he (hlog n hi) (hterm n hi) fun hl => ?_
    by_contra hne
    exact (hline _ hne).right n hn hi hl rfl

-- Executing an action that writes the disk of the acting node.
theorem Kept.write {a : Action} {disk : StableDisk} (h : g.Kept C F ks id w)
    (ha : w.processAction id T answers a = some (w.setDisk id disk))
    (hp : Crash.Sound (World.processAction id T answers) (fun w => ∃ g : Shadow, g.Kept C F ks id w)
      (w.setDisk id disk) as post) :
    Crash.Sound (World.processAction id T answers) (fun w => ∃ g : Shadow, g.Kept C F ks id w) w
      (a :: as) post := by
  refine .cons ⟨g, h⟩ fun w₁ h₁ => ?_
  rw [ha, Option.some.injEq] at h₁
  exact h₁ ▸ hp

/-! ### Messages -/

theorem allows_of_isHint {a : Action} (h : a.IsHint id) : g.Allows cs T answers a := by
  cases a
  case send msg =>
    have hh := h.right
    simp only [Allows, Vouches]
    split <;> simp_all [MessageKind.isHint]
  all_goals exact h.elim

-- What the leader of a term sends is part of its log.
theorem Leads.allows (hl : g.Leads id k) (hs : g.Settled cs id k.commitIndex)
    (ht : g.term id = k.currentTerm)
    (hv : View k.log (g.log id)) (hb : k.log.firstIndex ≤ k.commitIndex) {a : Action}
    (h : Replicates k a) : g.Allows cs T answers a := by
  have hbound : Bound cs k.currentTerm k.commitIndex := ht ▸ hs.bound
  cases h
  case snapshot snap hsnap =>
    rw [hv.snapshotMeta] at hsnap
    subst hsnap
    simp only [Allows, Vouches, Kernel.message, hl.line]
    exact ⟨hv.base_le, trivial, hbound.mono le_rfl hb⟩
  case entries next hn =>
    simp only [Allows, Vouches, Kernel.message, hl.line, hv.entriesFrom hn]
    by_cases hlen : next - 1 ≤ (g.log id).length
    case pos =>
      refine .inr ⟨_, le_rfl, hlen, hs.le_length, ?_, by rw [List.take_length], hbound⟩
      rw [hv.termAt (by omega) hlen, Option.getD_some]
    case neg =>
      refine .inl ⟨List.drop_eq_nil_of_le (by omega), ?_, by omega⟩
      have hnone : k.log.termAt (next - 1) = none := by
        by_contra hne
        obtain ⟨t, ht⟩ := Option.ne_none_iff_exists'.mp hne
        exact hlen (hv.of_termAt ht).right.left
      rw [hnone, Option.getD_none]

theorem Settled.allows (hs : g.Settled cs id k.commitIndex) (hv : View k.log (g.log id))
    (ht : g.term id = T)
    (h : Applies k k' as) : ∀ a ∈ as, g.Allows cs T answers a := by
  cases h
  case none => simp
  case some es last he _ =>
    simp only [List.mem_singleton, forall_eq]
    intro e hm
    rw [← he] at hm
    have hle := List.mem_takeWhile_imp hm
    exact ht ▸ hs.decided hv (k.log.entriesFrom_subset _ <| List.takeWhile_subset _ hm)
      (by simpa using hle)

/-! ### Steps of the shadow while a node acts -/

-- A node takes over the first `k` entries of the log of its term's leader.
def replace (g : Shadow) (n : NodeId) (T k : ℕ) : Shadow :=
  { g with toState := (g.toState.setLog n ((g.line T).take k)).ack n T k }

@[simp]
theorem replace_log (g : Shadow) (n : NodeId) (T k : ℕ) :
    (g.replace n T k).log n = (g.line T).take k :=
  Function.update_self ..

theorem le_acked_replace (g : Shadow) (n : NodeId) (T k : ℕ) : k ≤ (g.replace n T k).acked n T := by
  simp [replace, State.ack]

theorem Evolves.replace (ht : g.term id = T) (h0 : 0 < n) (hn : n ≤ (g.line T).length)
    (hg : (g.log id).length ≤ n ∨ ¬((g.line T).take n <+: g.log id)) :
    g.Evolves C (g.replace id T n) :=
  ⟨.replace ht h0 hn hg, fun _ _ _ => rfl⟩

theorem Kept.replace {disk : StableDisk} (h : g.Kept C F ks id w) (he : g.Evolves C (g.replace id T n))
    (ht : g.term id = disk.currentTerm) (hd : disk.Holds log) (hv : View log ((g.line T).take n))
    (hs : (g.replace id T n).Settled w.commits id log.firstIndex) :
    (g.replace id T n).Kept C F ks id (w.setDisk id disk) :=
  h.evolve he (fun _ hi => Function.update_of_ne hi ..) (fun _ _ => rfl) (fun _ h => absurd rfl h) ht hd
    (g.replace_log id T n ▸ hv) hs

-- Steps that are not visible on the disk.
theorem Kept.ghost (h : g.Kept C F ks id w) (hid : id ∈ C.members) (he : g.Evolves C g')
    (hlog : g'.log = g.log) (hterm : g'.term = g.term)
    (hline : ∀ T, g'.line T ≠ g.line T → g.line T ≠ [] ∧
      ∀ n ∈ C.members, n ≠ id → (ks n).role = .leader → (ks n).currentTerm ≠ T) :
    g'.Kept C F ks id w := by
  obtain ⟨log, hd, hv, hs⟩ := h.logs id hid
  have := h.evolve he (fun _ _ => hlog ▸ rfl) (fun _ _ => hterm ▸ rfl) hline
    (hterm ▸ h.term id hid) hd (hlog ▸ hv) (hs.evolve h.toRefines he)
  simpa [World.setDisk] using this

theorem Kept.bump {requested : NodeId → ℕ → List LogEntry} (v : Option NodeId)
    (h : g.Kept C F ks id w) (hid : id ∈ C.members) (ht : g.term id ≤ T)
    (hr : ∀ n T', T' ≤ g.term n → requested n T' = g.requested n T') :
    Kept C F ks id { toState := g.toState.bump id T, requested }
      (w.setDisk id ((w.disks id).writeHardState T v)) := by
  obtain ⟨log, hd, hv, hs⟩ := h.logs id hid
  have he : g.Evolves C { toState := g.toState.bump id T, requested } := ⟨.bump ht, hr⟩
  exact h.evolve he (fun _ _ => rfl) (fun _ hi => Function.update_of_ne hi ..) (fun _ h => absurd rfl h)
    (Function.update_self ..) (hd.writeHardState T v) hv (hs.evolve h.toRefines he)

/-! ### Moves -/

-- What a node knows when it acts.
structure Acting (C : Cluster) (F : NodeId → List LogEntry) (ks : NodeId → Kernel) (id : NodeId)
    (m : Cause)
    (answers : Option Message) (g : Shadow) (w : World) (k k' : Kernel) : Prop where
  kept         : g.Kept C F ks id w
  replica      : g.Replica w.commits id k
  member       : id ∈ C.members
  id_eq        : k.id = id
  peers        : k.peers ≠ []
  holds        : (w.disks id).Holds k.log
  base_le      : k.log.firstIndex ≤ k.commitIndex
  received     : ∀ msg, m = .handle msg →
    answers = some msg ∧ msg.receiver = id ∧ ∃ p ∈ w.network, p.msg = msg
  admissible   : Admissible True m k
  acknowledged : g.Acknowledged m k
  risen        : k.role ≠ .leader → k'.role = .leader → g.line k'.currentTerm = g.log id ++ [k.noop]
  advanced     : k'.role = .leader → k.commitIndex < k'.commitIndex →
    ∃ cm ∈ w.commits, cm.term = k'.currentTerm ∧ cm.index = k'.commitIndex
  only         : k'.role = .leader → ∀ n ∈ C.members, n ≠ id → (ks n).role = .leader →
    (ks n).currentTerm ≠ k'.currentTerm

-- Executing the actions turns the kernel of the acting node into `k'`.
abbrev Leaves (C : Cluster) (F : NodeId → List LogEntry) (ks : NodeId → Kernel) (id : NodeId)
    (T : ℕ) (answers : Option Message)
    (w : World) (as : List Action) (k' : Kernel) : Prop :=
  Crash.Sound (World.processAction id T answers) (fun w => ∃ g : Shadow, g.Kept C F ks id w) w as
    fun w => ∃ g : Shadow, g.Kept C F ks id w ∧ g.Replica w.commits id k'

theorem Kept.leaves (h : g.Kept C F ks id w) (hr : g.Replica w.commits id k')
    (ha : ∀ a ∈ as, g.Allows w.commits T answers a) : Leaves C F ks id T answers w as k' :=
  h.messages ha fun _ hw hc => ⟨g, hw, hc ▸ hr⟩

theorem Replica.follower (ht : g.term id = k.currentTerm) (hs : g.Settled cs id k.commitIndex)
    (hr : k.role = .follower) : g.Replica cs id k :=
  ⟨ht, hs, by simp [hr], by simp [hr]⟩

variable {k₁ : Kernel}

theorem Acting.view (h : g.Acting C F ks id m answers w k k') : View k.log (g.log id) :=
  h.kept.toRefines.view h.member h.holds

theorem Kept.currentTerm {disk : StableDisk} (h : g.Kept C F ks id w) (hid : id ∈ C.members)
    (hd : disk.hardState = (w.disks id).hardState) : g.term id = disk.currentTerm :=
  (h.term id hid).trans (congrArg Prod.fst hd).symm

-- The leader of a term writes the entry by which its log has been extended.
theorem Kept.append (h : g.Kept C F ks id w) (hid : id ∈ C.members) (hd : (w.disks id).Holds log)
    (ht : g.term id = k'.currentTerm) (hs : g.Settled w.commits id k'.commitIndex)
    (hb : log.firstIndex ≤ k'.commitIndex) (hi : e.index = log.lastIndex + 1)
    (hline : g.line k'.currentTerm = g.log id ++ [e]) (hr : k'.role = .leader)
    (hl : k'.log = log.append [e])
    (hm : ∀ peer n, k'.matchIndex peer = some n → n ≤ log.firstIndex ∨ n ≤ g.acked peer k'.currentTerm)
    (ha : ∀ a ∈ as, Replicates k' a ∨ a.IsHint id) :
    Leaves C F ks id T answers w (.appendEntries [e] :: as) k' := by
  have hlen : (g.line k'.currentTerm).length = (g.log id).length + 1 := by simp [hline]
  have he := Evolves.replace (C := C) ht (by omega) le_rfl (.inl <| hlen ▸ Nat.le_succ _)
  have hnext : Consecutive (log.lastIndex + 1) [e] := ⟨hi, trivial⟩
  obtain ⟨disk, hw, hd'⟩ := hd.append hnext
  have hv : View (log.append [e]) ((g.line k'.currentTerm).take (g.line k'.currentTerm).length) := by
    rw [List.take_length, hline]
    exact (h.toRefines.view hid hd).append hnext
  have hs' := hs.evolve h.toRefines he
  have hterm := h.currentTerm hid <| StableDisk.appendEntries_hardState hw
  have hkept := h.replace he hterm hd' hv <| hs'.of_le hb
  have hlog := (g.replace_log id k'.currentTerm _).trans <| List.take_length
  have hleads : (g.replace id k'.currentTerm (g.line k'.currentTerm).length).Leads id k' := by
    refine ⟨hlog.symm, ?_, ?_, fun peer n hn => ?_⟩
    · simp [hline]
    · rw [hlog]
      exact g.le_acked_replace ..
    · rw [hl]
      exact (hm peer n hn).imp_right fun h => h.trans <| he.step.acked_le ..
  refine h.write (by simp [World.processAction, hw]) <|
    hkept.leaves ⟨ht, hs', fun _ => hleads, by simp [hr]⟩ ?_
  intro a hmem
  rcases ha a hmem with ha | ha
  · have hdisk : ((w.setDisk id disk).disks id).Holds k'.log := by simpa [World.setDisk, hl] using hd'
    have hv' := hkept.toRefines.view hid hdisk
    exact hleads.allows hs' ht hv' (by rwa [hl]) ha
  · exact allows_of_isHint ha

-- A node has no entry of term zero.
theorem Refines.term_pos (h : g.Refines C F w) (hv : View log (g.log id)) (hn : 0 < n) :
    log.termAt n ≠ some 0 := by
  intro ht
  obtain ⟨_, hlen, hlast⟩ := hv.of_termAt ht
  have he : (g.log id)[n - 1]? = some (g.log id)[n - 1] := List.getElem?_eq_getElem (by omega)
  have hterm := lastTerm_take he
  rw [Nat.sub_add_cancel hn, ← hlast] at hterm
  have hpre := (h.matching.logs id _ _ he).length_le
  rw [← hterm, h.matching.zero, List.length_take, List.length_nil] at hpre
  omega

-- A follower that has taken over the leader's entries up to `n` follows the leader's commit index.
theorem Kept.follow {msg : Message} {log : RaftLog} {i t c : ℕ} {es : List LogEntry} {commit : List Action}
    (h : g.Kept C F ks id w) (hv : View log (g.log id)) (hid : k.id = id)
    (ht : g.term id = k.currentTerm) (hs : g.Settled w.commits id k.commitIndex)
    (hn : n ≤ g.acked id k.currentTerm) (hp : (g.line k.currentTerm).take n <+: g.log id)
    (hlen : n ≤ (g.line k.currentTerm).length) (hkind : msg.kind = .appendEntries i t es c)
    (hi : i + es.length = n) (hc : c ≤ n) (hb : Bound w.commits k.currentTerm c)
    (hf : Follows { k with role := .follower, log } c k' commit) :
    Leaves C F ks id k.currentTerm (some msg) w
      (commit ++ [.send <| k.message msg.sender <| .appendEntriesResponse true none none]) k' := by
  have hreply : ∀ a ∈ [Action.send <| k.message msg.sender <| .appendEntriesResponse true none none],
      g.Allows w.commits k.currentTerm (some msg) a := by
    simp only [List.mem_singleton, forall_eq, Allows, Vouches, Kernel.message]
    exact ⟨msg, i, t, es, c, rfl, hkind, by rw [hid, hi]; exact hn⟩
  cases hf
  case none => exact h.leaves (.follower ht hs rfl) <| by simpa using hreply
  case some hlt ha =>
    have hlast := hv.lastIndex
    have hprefix := hp.length_le
    rw [List.length_take_of_le hlen] at hprefix
    have hcommit : (g.log id).take (min c log.lastIndex) <+: g.line k.currentTerm := by
      rw [hp.take_eq_take (by rw [List.length_take_of_le hlen]; omega), List.take_take]
      exact List.take_prefix ..
    have hs' : g.Settled w.commits id (min c log.lastIndex) :=
      h.toRefines.settled (hb.mono le_rfl (Nat.min_le_left ..)) ht hcommit (by omega)
    have happlies : ∀ a ∈ commit, g.Allows w.commits k.currentTerm (some msg) a :=
      hs'.allows (k := { k with role := .follower, log, commitIndex := min c log.lastIndex }) hv ht ha
    refine h.leaves ?_ <| List.forall_mem_append.mpr ⟨happlies, hreply⟩
    rw [ha.eq]
    exact .follower ht hs' rfl

theorem Leads.of_eq (h : g.Leads id k) (ht : k'.currentTerm = k.currentTerm)
    (hm : k'.matchIndex = k.matchIndex) (hf : k.log.firstIndex ≤ k'.log.firstIndex) : g.Leads id k' where
  line           := ht ▸ h.line
  nonempty       := h.nonempty
  own            := ht ▸ h.own
  peers peer n h' := by
    rw [ht]
    exact (h.peers peer n <| hm ▸ h').imp_left hf.trans'

theorem Stands.of_eq (h : g.Stands id k) (ht : k'.currentTerm = k.currentTerm)
    (hv : k'.votesReceived = k.votesReceived) : g.Stands id k' :=
  ⟨ht ▸ h.positive, ht ▸ h.requested, ht ▸ h.lt, ht ▸ hv ▸ h.votes⟩

-- A node that stays a leader or a candidate, or becomes neither.
theorem Replica.of_eq (h : g.Replica cs id k) (ht : k'.currentTerm = k.currentTerm)
    (hc : k'.commitIndex = k.commitIndex)
    (hr : k'.role = k.role ∨ k'.role = .follower ∨ k'.role = .preCandidate)
    (hm : k'.matchIndex = k.matchIndex) (hf : k.log.firstIndex ≤ k'.log.firstIndex)
    (hv : k'.votesReceived = k.votesReceived) : g.Replica cs id k' where
  term      := ht ▸ h.term
  settled   := hc ▸ h.settled
  leads hl  := by
    rcases hr with hr | hr | hr
    · exact (h.leads <| hr ▸ hl).of_eq ht hm hf
    · exact absurd (hr.symm.trans hl) (by simp)
    · exact absurd (hr.symm.trans hl) (by simp)
  stands hc := by
    rcases hr with hr | hr | hr
    · exact (h.stands <| hr ▸ hc).of_eq ht hv
    · exact absurd (hr.symm.trans hc) (by simp)
    · exact absurd (hr.symm.trans hc) (by simp)

-- A node votes for itself, and asks the others for their votes.
theorem Acting.campaign (h : g.Acting C F ks id m answers w k k₁) :
    Leaves C F ks id T answers w k.campaignActions k.campaign := by
  have hid := h.id_eq
  have hlast := h.view.lastIndex
  have hlt := h.view.lastTerm_eq
  have hle : ∀ e ∈ g.log id, e.term < k.currentTerm + 1 := fun e he =>
    Nat.lt_succ_of_le <| h.replica.term ▸ h.kept.matching.log id e he
  let requested := Function.update g.requested id <|
    Function.update (g.requested id) (k.currentTerm + 1) (g.log id)
  have hreq : requested id (k.currentTerm + 1) = g.log id := by simp [requested]
  have hold : ∀ n T', T' ≤ g.term n → requested n T' = g.requested n T' := by
    intro n T' hT
    by_cases hn : n = id
    case neg => simp [requested, hn]
    case pos =>
      subst hn
      have hne : T' ≠ k.currentTerm + 1 := by have := h.replica.term; omega
      simp [requested, hne]
  let g₁ : Shadow := { toState := g.toState.bump id (k.currentTerm + 1), requested }
  let w₁ := w.setDisk id ((w.disks id).writeHardState (k.currentTerm + 1) (some k.id))
  have h₁ : g₁.Kept C F ks id w₁ := h.kept.bump _ h.member (by rw [h.replica.term]; omega) hold
  have ht : g₁.term id = k.currentTerm + 1 := Function.update_self ..
  let g₂ : Shadow := { g₁ with toState := g₁.toState.back id (k.currentTerm + 1) (g.log id) }
  have he₁ : g.Evolves C g₁ := ⟨.bump (by rw [h.replica.term]; omega), hold⟩
  have he₂ : g₁.Evolves C g₂ :=
    ⟨.back ht (h.kept.matching.logs id) hle (.inr ⟨rfl, le_rfl⟩), fun _ _ _ => rfl⟩
  have h₂ : g₂.Kept C F ks id _ := h₁.ghost h.member he₂ rfl rfl fun _ h => absurd rfl h
  have hs₁ : g₁.Settled w.commits id k.commitIndex := h.replica.settled.evolve h.kept.toRefines he₁
  have hs : g₂.Settled w.commits id k.commitIndex := Settled.evolve (w := w₁) hs₁ h₁.toRefines he₂
  have hstands : g₂.Stands id k.campaign := by
    refine ⟨Nat.succ_pos _, hreq, hle, fun v hv => .inr ⟨?_, rfl, rfl⟩⟩
    exact (Finset.mem_singleton.mp hv).trans hid
  refine h.kept.write rfl <| h₂.leaves ⟨ht, hs, nofun, fun _ => hstands⟩ fun a ha => ?_
  obtain ⟨peer, _, rfl⟩ := List.mem_map.mp ha
  simp only [Allows, Vouches, Kernel.message, Kernel.campaign, hid]
  change k.currentTerm + 1 ≤ g₁.term id ∧ Matches g.line (requested id (k.currentTerm + 1)) ∧
    (∀ e ∈ requested id (k.currentTerm + 1), e.term < k.currentTerm + 1) ∧
    k.log.lastIndex = (requested id (k.currentTerm + 1)).length ∧
    k.log.lastTerm = lastTerm (requested id (k.currentTerm + 1))
  rw [hreq]
  exact ⟨ht.ge, h.kept.matching.logs id, hle, hlast, hlt⟩

-- A node votes for a candidate whose log is as up to date as its own.
theorem Acting.vote {msg : Message} {i t : ℕ} (h : g.Acting C F ks id m answers w k k')
    (hm : m = .handle msg) (hk : msg.kind = .requestVote i t) (ht : msg.term = k.currentTerm)
    (hlog : k.log.lastTerm < t ∨ k.log.lastTerm = t ∧ k.log.lastIndex ≤ i) :
    Leaves C F ks id T answers w [.persistHardState k.currentTerm (some msg.sender),
      .send <| k.message msg.sender <| .requestVoteResponse true] { k with votedFor := some msg.sender } := by
  obtain ⟨_, _, p, hp, hpm⟩ := h.received msg hm
  have hsent := h.kept.sent p hp
  simp only [Vouches, hpm, hk, ht] at hsent
  obtain ⟨hterm, hmatch, hlt, rfl, rfl⟩ := hsent
  rw [h.view.lastTerm_eq, h.view.lastIndex] at hlog
  have hbump := h.kept.bump (some msg.sender) h.member h.replica.term.le (fun _ _ _ => rfl)
  have hsame : g.toState.bump id k.currentTerm = g.toState := by simp [State.bump, ← h.replica.term]
  rw [hsame] at hbump
  let g₁ : Shadow := { g with
    toState := g.toState.back id k.currentTerm (g.requested msg.sender k.currentTerm) }
  have he : g.Evolves C g₁ := ⟨.back h.replica.term hmatch hlt hlog, fun _ _ _ => rfl⟩
  have h₁ : g₁.Kept C F ks id _ := hbump.ghost h.member he rfl rfl fun _ h => absurd rfl h
  have hr := h.replica.evolve h.kept.toRefines he rfl rfl fun _ => rfl
  refine h.kept.write rfl <| h₁.leaves (hr.of_eq rfl rfl (.inl rfl) rfl le_rfl rfl) fun a ha => ?_
  rw [List.mem_singleton.mp ha]
  exact ⟨hterm, .inr ⟨h.id_eq, rfl, rfl⟩⟩

-- The leader of a term extends its log.
theorem Acting.propose (h : g.Acting C F ks id m answers w k k') (hr : k.role = .leader)
    (hi : e.index = k.log.lastIndex + 1) (ht : e.term = k.currentTerm)
    (hk : { k with log := k.log.append [e] } = k') (ha : ∀ a ∈ as, Replicates k' a ∨ a.IsHint k.id) :
    Leaves C F ks id T answers w (.appendEntries [e] :: as) k' := by
  have hleads := h.replica.leads hr
  have hline := hleads.line
  have hne : g.line k.currentTerm ≠ [] := hline ▸ hleads.nonempty
  have hpos : 0 < k.currentTerm := by
    rw [Nat.pos_iff_ne_zero]
    exact fun h0 => hne <| h0 ▸ h.kept.matching.zero
  let g₁ : Shadow := { g with toState := g.toState.extend k.currentTerm (g.line k.currentTerm ++ [e]) }
  have he : g.Evolves C g₁ := ⟨.append hne hpos ht, fun _ _ _ => rfl⟩
  have hold : ∀ T, T ≠ k.currentTerm → g₁.line T = g.line T := fun T hT => Function.update_of_ne hT ..
  have hnew : g₁.line k.currentTerm = g.log id ++ [e] := by
    rw [← hline]
    exact Function.update_self ..
  have hterm : k'.currentTerm = k.currentTerm := hk ▸ rfl
  have h₁ : g₁.Kept C F ks id w := by
    refine h.kept.ghost h.member he rfl rfl fun T hT => ?_
    obtain rfl : T = k.currentTerm := by_contra fun hne => hT <| hold T hne
    exact ⟨hne, hterm ▸ h.only (hk ▸ hr)⟩
  have hs := h.replica.settled.evolve h.kept.toRefines he
  have hb : k.log.firstIndex ≤ k'.commitIndex := hk ▸ h.base_le
  refine h₁.append h.member h.holds (hterm ▸ h.replica.term) (hk ▸ hs) hb hi (hterm ▸ hnew) (hk ▸ hr)
    (hk ▸ rfl) (fun peer n hn => ?_) fun a hm => (ha a hm).imp_right fun h' => h.id_eq ▸ h'
  rw [hterm]
  exact hleads.peers peer n <| by simpa [← hk] using hn

-- A leader learns what a peer has acknowledged, and commits what a majority has.
theorem Acting.confirm {msg : Message} (h : g.Acting C F ks id m answers w k k') (hm : m = .handle msg)
    (ht : msg.term = k.currentTerm) (hr : k.role = .leader)
    (hk : (∃ t i, msg.kind = .appendEntriesResponse true t i) ∧ n = k.log.lastIndex ∨
      msg.kind = .installSnapshotResponse ∧ n = k.log.firstIndex)
    (ha : Advances { k with matchIndex := Function.update k.matchIndex msg.sender (some n) } k' as) :
    Leaves C F ks id k.currentTerm answers w as k' := by
  have hleads := (h.replica.leads hr).confirm h.acknowledged hm ht hr hk
  have hterm := ha.currentTerm_eq
  have hrole : k'.role = .leader := ha.role_eq.trans hr
  cases ha
  case none =>
    exact h.kept.leaves ⟨h.replica.term, h.replica.settled, fun _ => hleads, by simp [hr]⟩ (by simp)
  case some c hlt hle _ _ ha =>
    have hc : k'.commitIndex = c := by rw [ha.eq]
    obtain ⟨cm, hcm, hct, hci⟩ := h.advanced hrole (hc ▸ hlt)
    have hlast := h.view.lastIndex
    have hs : g.Settled w.commits id c := by
      refine .inr ⟨cm, hcm, ?_, (hci.trans hc).ge, hle.trans hlast.le, ?_⟩
      · exact (hct.trans <| hterm.trans h.replica.term.symm).le
      · rw [hct, hterm, hleads.line]
        exact List.take_prefix ..
    let k₁ : Kernel := { k with
      matchIndex  := Function.update k.matchIndex msg.sender (some n)
      commitIndex := c }
    have hs₁ : g.Settled w.commits id k₁.commitIndex := hs
    have happlies : ∀ a ∈ as, g.Allows w.commits k.currentTerm answers a :=
      hs₁.allows h.view h.replica.term ha
    refine h.kept.leaves ?_ happlies
    rw [ha.eq]
    exact ⟨h.replica.term, hs, fun _ => hleads.of_eq rfl rfl le_rfl, by simp [hr]⟩

theorem Evolves.refl (id : NodeId) : g.Evolves C g := by
  have h : Step C.quorums g.toState (g.toState.bump id (g.term id)) := .bump le_rfl
  rw [show g.toState.bump id (g.term id) = g.toState by simp [State.bump]] at h
  exact ⟨h, fun _ _ _ => rfl⟩

-- A follower takes over entries of the leader of its term.
theorem Acting.accept {msg : Message} {i t c : ℕ} {es : List LogEntry} {log : RaftLog}
    {merge commit : List Action} (h : g.Acting C F ks id m answers w k k') (hm : m = .handle msg)
    (hk : msg.kind = .appendEntries i t es c) (ht : msg.term = k.currentTerm)
    (hti : k.log.termAt i = some t) (hmerge : Merges k.log es log merge)
    (hf : Follows { k with role := .follower, log } c k' commit) :
    Leaves C F ks id k.currentTerm answers w (merge ++ commit ++
      [.send <| k.message msg.sender <| .appendEntriesResponse true none none]) k' := by
  obtain ⟨rfl, _, p, hp, hpm⟩ := h.received msg hm
  have hsent := h.kept.sent p hp
  simp only [Vouches, hpm, hk, ht] at hsent
  rcases hsent with ⟨_, rfl, h0⟩ | ⟨q, hq, hi, hc, htM, hes, hb⟩
  case inl => exact absurd hti <| h.kept.term_pos h.view h0
  case inr =>
    have hterm := h.replica.term
    have hcons := h.admissible.entries hm hk
    have hlen : ((g.line k.currentTerm).take q).length = q := List.length_take_of_le hq
    have hagree : Agree (g.log id) ((g.line k.currentTerm).take q) :=
      (h.kept.matching.logs id).agree (h.kept.matching.lines k.currentTerm).take
    have hiq : i + es.length = q := by
      rw [hes, List.length_drop, hlen]
      omega
    have htM' : t = lastTerm (((g.line k.currentTerm).take q).take i) := by
      rwa [List.take_take, Nat.min_eq_left hi]
    rcases h.view.merge hmerge hagree hti (hlen.symm ▸ hi) htM' hes hcons with
      ⟨rfl, rfl, hpre⟩ | ⟨n, rfl, hn, hle, htrunc, hv, hg⟩
    case inl =>
      let g₁ : Shadow := { g with toState := g.toState.ack id k.currentTerm q }
      have he : g.Evolves C g₁ := ⟨.keep hterm hq hpre, fun _ _ _ => rfl⟩
      have h₁ : g₁.Kept C F ks id w := h.kept.ghost h.member he rfl rfl fun _ h => absurd rfl h
      have hs := h.replica.settled.evolve h.kept.toRefines he
      have hack : q ≤ g₁.acked id k.currentTerm := by simp [g₁, State.ack]
      exact h₁.follow h.view h.id_eq hterm hs hack hpre hq hk hiq hc hb hf
    case inr =>
      have hbase := (h.view.of_termAt hti).left
      obtain ⟨disk, _, hd, htd, hh⟩ := h.holds.truncateAndAppend (by omega) (by omega) (hcons.drop n)
      rw [htrunc, Option.some.injEq] at htd
      subst htd
      obtain ⟨_, hsent, _⟩ :=
        h.view.contiguous.truncateAndAppend (by omega) (hcons.drop n) htrunc
      have he := Evolves.replace (C := C) hterm (by omega) hq (hg.imp_left fun hg => hg.trans hlen.le)
      have hs := h.replica.settled.evolve h.kept.toRefines he
      have hfirst : log.firstIndex ≤ k.commitIndex := by
        rw [RaftLog.firstIndex, hsent]
        exact h.base_le
      have hdisk := h.kept.currentTerm h.member <| StableDisk.truncateAndAppend_hardState hd
      have h₁ := h.kept.replace he hdisk hh hv (hs.of_le hfirst)
      have hlog := g.replace_log id k.currentTerm q
      have hack := g.le_acked_replace id k.currentTerm q
      rw [List.append_assoc, List.singleton_append]
      refine h.kept.write (by simp [World.processAction, hd]) <|
        h₁.follow (hlog ▸ hv) h.id_eq hterm hs hack (hlog ▸ List.prefix_rfl) hq hk hiq hc hb hf

-- A follower installs a snapshot of what its leader has committed.
theorem Acting.install {msg : Message} {i t o : ℕ} {data : Command}
    (h : g.Acting C F ks id m answers w k k') (hm : m = .handle msg)
    (hk : msg.kind = .installSnapshot i t o data true) (ht : msg.term = k.currentTerm)
    (hi : k.commitIndex < i) : Leaves C F ks id T answers w [.persistSnapshot i t data,
      .send <| k.message msg.sender .installSnapshotResponse] { k with
        role        := .follower
        log         := k.log.installSnapshot { lastIncludedIndex := i, lastIncludedTerm := t }
        commitIndex := i
        lastApplied := i } := by
  obtain ⟨_, _, p, hp, hpm⟩ := h.received msg hm
  have hsent := h.kept.sent p hp
  simp only [Vouches, hpm, hk, ht] at hsent
  obtain ⟨hlen, rfl, hbound⟩ := hsent
  have hterm := h.replica.term
  have hbase := h.base_le
  have hlast := h.view.lastIndex
  have hle := h.admissible.snapshot trivial hm hk ht.ge hi
  obtain ⟨disk, hd, hh⟩ := h.holds.writeSnapshot_above (i := i) _ data (by omega)
  rw [h.holds.contiguous.compact_eq_installSnapshot (by omega) hle] at hh
  have he := Evolves.replace (C := C) hterm (by omega) hlen (.inl <| hlast ▸ hle)
  have hlog := g.replace_log id k.currentTerm i
  have hlog' : ((g.replace id k.currentTerm i).log id).length = i := by
    rw [hlog, List.length_take_of_le hlen]
  have hs : (g.replace id k.currentTerm i).Settled w.commits id i := by
    rcases hbound with rfl | ⟨cm, hcm, hct, hci⟩
    · omega
    · refine .inr ⟨cm, hcm, hterm ▸ hct, hci, hlog'.ge, ?_⟩
      have hc := h.kept.committed cm hcm
      rw [hlog, List.take_take, Nat.min_self]
      refine h.kept.safe.take_prefix_of_committed hc hct List.prefix_rfl hci hlen
  have hdisk := h.kept.currentTerm h.member <| StableDisk.writeSnapshot_hardState hd
  have hv : View (k.log.installSnapshot { lastIncludedIndex := i, lastIncludedTerm := _ })
      ((g.line k.currentTerm).take i) := .installSnapshot (List.length_take_of_le hlen) rfl
  have h₁ := h.kept.replace he hdisk hh hv hs
  refine h.kept.write (by simp [World.processAction, hd]) <| h₁.leaves (.follower hterm hs rfl) ?_
  simp [Allows, Vouches, Kernel.message]

-- A node compacts what it has committed.
theorem Acting.compact {i t : ℕ} {data : Command} (h : g.Acting C F ks id m answers w k k')
    (hm : m = .compactLogs i t) (hi : i ≤ k.commitIndex) : Leaves C F ks id T answers w
      [.persistSnapshot i t data] { k with log := k.log.compact i t } := by
  obtain ⟨hb, ht⟩ := h.admissible.compact hm hi
  have hlen := hi.trans h.replica.settled.le_length
  obtain ⟨disk, hd, hh⟩ := h.holds.writeSnapshot data hb (RaftLog.sentinel_term_of_termAt ht)
  rw [h.view.termAt hb hlen, Option.getD_some] at ht
  have hf := k.log.firstIndex_compact i t
  have hdisk := h.kept.currentTerm h.member <| StableDisk.writeSnapshot_hardState hd
  have h₁ := h.kept.evolve (.refl id) (fun _ _ => rfl) (fun _ _ => rfl) (fun _ h => absurd rfl h)
    hdisk hh (h.view.compact hb hlen ht) (h.replica.settled.of_le (by omega))
  refine h.kept.write (by simp [World.processAction, hd]) <| h₁.leaves ?_ (by simp)
  exact h.replica.of_eq rfl rfl (.inl rfl) rfl (hf ▸ le_max_left ..) rfl

theorem Acting.move (h : g.Acting C F ks id m answers w k k') (hm : Move m k k' as) :
    Leaves C F ks id k'.currentTerm answers w as k' := by
  have messages : g.Replica w.commits id k' →
      (∀ a ∈ as, g.Allows w.commits k'.currentTerm answers a) →
      Leaves C F ks id k'.currentTerm answers w as k' := h.kept.leaves
  cases hm
  case idle hr ha =>
    exact messages (h.replica.of_eq rfl rfl hr rfl le_rfl rfl) fun a hm =>
      allows_of_isHint <| h.id_eq ▸ ha a hm
  case campaign           => exact h.campaign
  case lone hp            => exact absurd hp h.peers
  case vote hmsg hk ht _ hl => exact h.vote hmsg hk ht hl
  case collect msg hmsg hk ht hr =>
    refine messages ⟨h.replica.term, h.replica.settled, by simp [hr], fun _ => ?_⟩ (by simp)
    have hs := h.replica.stands hr
    refine ⟨hs.positive, hs.requested, hs.lt, fun v hv => ?_⟩
    rcases Finset.mem_insert.mp hv with rfl | hv
    case inr => exact hs.votes v hv
    case inl =>
      obtain ⟨_, hrcv, p, hp, hpm⟩ := h.received msg hmsg
      have hsent := h.kept.sent p hp
      simp only [Vouches, hpm, hk, hrcv, ht] at hsent
      exact hs.requested ▸ hsent.right
  case elect hr he _ ha =>
    subst he
    have hline := h.risen (by simp [hr]) rfl
    refine h.kept.append h.member h.holds h.replica.term h.replica.settled h.base_le rfl hline rfl rfl
      (fun peer n hn => .inl ?_) fun a hm => .inl <| ha a hm
    simp only [Kernel.lead] at hn
    split at hn
    · exact Option.some.inj hn ▸ Nat.zero_le _
    · contradiction
  case replicate hr ha =>
    exact messages h.replica fun a hm => (h.replica.leads hr).allows h.replica.settled h.replica.term
      h.view h.base_le (ha a hm)
  case propose hr _ hi ht he ha => exact h.propose hr hi ht he ha
  case proposeAlone hp _ _ _ _  => exact absurd hp h.peers
  case confirm hmsg ht hr hk ha =>
    rw [ha.currentTerm_eq]
    exact h.confirm hmsg ht hr hk ha
  case accept hmsg hk ht hti hmerge hf =>
    have hterm : k'.currentTerm = k.currentTerm := by rw [hf.eq]
    rw [hterm]
    exact h.accept hmsg hk ht hti hmerge hf
  case skip =>
    exact messages (.follower h.replica.term h.replica.settled rfl) <| by
      simp [Allows, Vouches, Kernel.message]
  case install hmsg hk ht hi => exact h.install hmsg hk ht hi
  case compact hmsg hi       => exact h.compact hmsg hi

theorem Acting.call (h : g.Acting C F ks id m answers w k k') (hc : Call m k k' as) :
    Leaves C F ks id k'.currentTerm answers w as k' := by
  cases hc
  case same hm => exact h.move hm
  case later msg _ hm hp hlt hmove =>
    subst hm
    have hterm := h.replica.term
    have hle : g.term id ≤ msg.term := hterm.trans_le hlt.le
    let g₁ : Shadow := { g with toState := g.toState.bump id msg.term }
    have he : g.Evolves C g₁ := ⟨.bump hle, fun _ _ _ => rfl⟩
    have hs : g₁.Settled w.commits id k.commitIndex := h.replica.settled.evolve h.kept.toRefines he
    have h₁ : g₁.Kept C F ks id _ := h.kept.bump none h.member hle fun _ _ _ => rfl
    have hnot := hmove.not_leader_of_bump hp
    have hadm : Admissible True (.handle msg) (k.bump msg.term) :=
      ⟨h.admissible.entries, h.admissible.compact, fun hK hm hk hle =>
        h.admissible.snapshot hK hm hk <| hlt.le.trans hle⟩
    have hholds : StableDisk.Holds _ (k.bump msg.term).log := h.holds.writeHardState msg.term none
    have hacting : g₁.Acting C F ks id (.handle msg) answers _ (k.bump msg.term) k' := {
      kept         := h₁
      replica      := .follower (Function.update_self ..) hs rfl
      member       := h.member
      id_eq        := h.id_eq
      peers        := h.peers
      holds        := by simpa [World.setDisk] using hholds
      base_le      := h.base_le
      received     := h.received
      admissible   := hadm
      acknowledged := by simp [Acknowledged, Kernel.bump]
      risen        := fun _ hr => absurd hr hnot
      advanced     := fun hr => absurd hr hnot
      only         := fun hr => absurd hr hnot }
    exact h.kept.write rfl <| hacting.move hmove

end Shadow
end RaftRupee.Cluster
