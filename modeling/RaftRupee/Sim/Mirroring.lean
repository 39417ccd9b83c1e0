import RaftRupee.Core.TermOrder
import RaftRupee.Sim.Sync

namespace RaftRupee

-- The disk of the node is written.
def Action.writes : Action → Bool
  | send _ | apply _ => false
  | _                => true

namespace StableDisk

variable {disk disk' : StableDisk} {log dlog : RaftLog} {base e : LogEntry} {rest es : List LogEntry}
variable {S : Prop} {a : Action} {as bs : List Action} {n : ℕ}

-- What `process_actions` does to the disk.
def perform (disk : StableDisk) : Action → Option StableDisk
  | .send _ | .apply _              => some disk
  | .appendEntries es               => disk.appendEntries es
  | .truncateAndAppend i es         => disk.truncateAndAppend i es
  | .persistHardState term votedFor => some (disk.writeHardState term votedFor)
  | .persistSnapshot i t data       =>
    disk.writeSnapshot { lastIncludedIndex := i, lastIncludedTerm := t } data

def performAll (disk : StableDisk) (as : List Action) : Option StableDisk :=
  as.foldlM perform disk

theorem performAll_append (h : disk.performAll as = some disk') :
    disk.performAll (as ++ bs) = disk'.performAll bs := by
  rw [performAll, List.foldlM_append]
  exact congrArg (· >>= _) h

theorem performAll_cons (h : disk.perform a = some disk') :
    disk.performAll (a :: as) = disk'.performAll as := by
  rw [performAll, List.foldlM_cons, h]
  rfl

theorem performAll_of_not_writes (h : ∀ a ∈ as, ¬a.writes) : disk.performAll as = some disk := by
  induction as
  case nil => rfl
  case cons a as hi =>
    obtain ⟨ha, has⟩ := List.forall_mem_cons.mp h
    have hperform : disk.perform a = some disk := by
      cases a
      case send | apply => rfl
      all_goals exact absurd rfl ha
    rw [performAll_cons hperform]
    exact hi has

-- An entry that comes right after the first `n` ones, unless there is one of its term already.
theorem appendEntry_eq (hi : e.index = base.index + n + 1) (hn : n ≤ rest.length) :
    appendEntry (base :: rest) e = some (base ::
      if (rest[n]?).map (·.term) = some e.term then rest else rest.take n ++ [e]) := by
  have hlt : ¬e.index < base.index := by omega
  simp only [appendEntry, hlt, if_false, show e.index - base.index = n + 1 by omega,
    List.getElem?_cons_succ, List.take_succ_cons]
  cases hr : rest[n]?
  case none =>
    have hlen : n = rest.length := le_antisymm hn (List.getElem?_eq_none_iff.mp hr)
    simp [hlen]
  case some held =>
    by_cases ht : held.term = e.term <;> simp [ht]

-- The disk holds a log with terms up to its own. With `S` they do not decrease.
structure Stores (S : Prop) (disk : StableDisk) (log : RaftLog) : Prop where
  holds   : disk.Holds log
  bounded : ∀ e ∈ log.entries, e.term ≤ disk.currentTerm
  sorted  : S → log.Sorted

theorem Stores.new (id : NodeId) : (StableDisk.new id).Stores S .new where
  holds   := .new id
  bounded := by simp [RaftLog.entries, RaftLog.new]
  sorted  := fun _ => RaftLog.sorted_new

theorem Stores.writeHardState {T : ℕ} (h : disk.Stores S log) (hT : disk.currentTerm ≤ T)
    (votedFor : Option NodeId) : (disk.writeHardState T votedFor).Stores S log where
  holds   := h.holds.writeHardState T votedFor
  bounded := fun e he => (h.bounded e he).trans hT
  sorted  := h.sorted

theorem Stores.appendOne (h : disk.Stores S log) (hn : n ≤ log.rest.length)
    (hi : e.index = log.firstIndex + n + 1) (ht : ∀ e' ∈ log.entries, e'.term ≤ e.term)
    (hT : e.term ≤ disk.currentTerm) :
    let rest := if (log.rest[n]?).map (·.term) = some e.term then log.rest else log.rest.take n ++ [e]
    ∃ disk', disk.appendEntries [e] = some disk' ∧ disk'.currentTerm = disk.currentTerm ∧
      disk'.Stores S { log with rest } := by
  intro rest
  obtain ⟨base, hb, hbi⟩ := h.holds.entries
  have happend : disk.appendEntries [e] = some { disk with logEntries := base :: rest } := by
    rw [appendEntries, hb, List.foldlM_cons, appendEntry_eq (by omega) hn]
    rfl
  by_cases hheld : (log.rest[n]?).map (·.term) = some e.term
  case pos =>
    have hrest : rest = log.rest := if_pos hheld
    refine ⟨_, happend, rfl, ?_, ?_, ?_⟩
    · exact h.holds.setRest hbi (hrest ▸ h.holds.contiguous)
    · rw [hrest]
      exact h.bounded
    · rw [hrest]
      exact h.sorted
  case neg =>
    have hrest : rest = log.rest.take n ++ [e] := if_neg hheld
    have hsub : ∀ e' ∈ log.sentinel :: log.rest.take n, e' ∈ log.entries := by
      rintro e' (_ | ⟨_, he'⟩)
      · exact List.mem_cons_self
      · exact List.mem_cons_of_mem _ (List.mem_of_mem_take he')
    have hentries : RaftLog.entries { log with rest } = (log.sentinel :: log.rest.take n) ++ [e] := by
      simp [RaftLog.entries, hrest]
    refine ⟨_, happend, rfl, ?_, ?_, fun hS => ?_⟩
    · refine h.holds.setRest hbi (hrest ▸ Consecutive.append.mpr ⟨h.holds.contiguous.take n, ?_, trivial⟩)
      rw [List.length_take_of_le hn, hi]
      omega
    · rw [hentries]
      simp only [List.forall_mem_append, List.forall_mem_singleton]
      exact ⟨fun e' he' => h.bounded e' (hsub e' he'), hT⟩
    · have htake : (log.sentinel :: log.rest.take n).Pairwise (·.term ≤ ·.term) :=
        List.Pairwise.take (i := n + 1) (h.sorted hS)
      rw [RaftLog.Sorted, hentries, List.pairwise_append]
      refine ⟨htake, List.pairwise_singleton .., fun e' he' _ hm => ?_⟩
      cases List.mem_singleton.mp hm
      exact ht e' (hsub e' he')

end StableDisk

/-! ### A node and its disk -/

-- The node is in the term of its disk, which holds its log and possibly more.
structure Mirrors (S : Prop) (disk : StableDisk) (k : Kernel) : Prop extends k.WellFormed where
  term : disk.currentTerm = k.currentTerm
  log  : ∃ dlog, disk.Stores S dlog ∧ dlog.Continues k.log

namespace Mirrors

variable {S : Prop} {disk disk' : StableDisk} {k k' : Kernel} {e : LogEntry} {m : Cause}
variable {msg : Message} {i t c : ℕ} {es : List LogEntry} {log : RaftLog} {as bs : List Action}

theorem bounded (h : Mirrors S disk k) : ∀ e ∈ k.log.entries, e.term ≤ k.currentTerm := by
  obtain ⟨dlog, hs, hc⟩ := h.log
  exact h.term ▸ hc.bounded hs.bounded

theorem sorted (h : Mirrors S disk k) (hS : S) : k.log.Sorted := by
  obtain ⟨dlog, hs, hc⟩ := h.log
  exact hc.sorted (hs.sorted hS)

theorem of_eq (h : Mirrors S disk k) (hl : k'.log = k.log) (hc : k.commitIndex ≤ k'.commitIndex)
    (ht : k'.currentTerm = k.currentTerm) : Mirrors S disk k' where
  contiguous := hl ▸ h.contiguous
  command    := hl ▸ h.command
  base_le    := hl ▸ h.base_le.trans hc
  term       := h.term.trans ht.symm
  log        := hl ▸ h.log

-- The hard state is written.
theorem writeHardState (h : Mirrors S disk k) (k' : Kernel) (votedFor : Option NodeId)
    (hl : k'.log = k.log) (hc : k.commitIndex ≤ k'.commitIndex) (ht : k.currentTerm ≤ k'.currentTerm) :
    Mirrors S (disk.writeHardState k'.currentTerm votedFor) k' where
  contiguous := hl ▸ h.contiguous
  command    := hl ▸ h.command
  base_le    := hl ▸ h.base_le.trans hc
  term       := rfl
  log        := by
    obtain ⟨dlog, hs, hcont⟩ := h.log
    exact ⟨dlog, hs.writeHardState (h.term.trans_le ht) votedFor, hl ▸ hcont⟩

-- A leader appends an entry of its own.
theorem append (h : Mirrors S disk k) (hi : e.index = k.log.lastIndex + 1) (ht : e.term = k.currentTerm)
    (hl : k'.log = k.log.append [e]) (hc : k.commitIndex ≤ k'.commitIndex)
    (ht' : k'.currentTerm = k.currentTerm) :
    ∃ disk', disk.appendEntries [e] = some disk' ∧ Mirrors S disk' k' := by
  obtain ⟨dlog, hs, hcont⟩ := h.log
  have hlast := h.contiguous.lastIndex_eq
  obtain ⟨disk', ha, hd, hs'⟩ := hs.appendOne hcont.length_le (e := e)
    (by rw [hcont.firstIndex_eq]; omega) (by rw [ht, ← h.term]; exact hs.bounded)
    (by rw [ht, h.term])
  refine ⟨disk', ha, ⟨?_, hl ▸ h.command, hl ▸ h.base_le.trans hc⟩, ?_, _, hs', ?_⟩
  · exact hl ▸ h.contiguous.append ⟨hi, trivial⟩
  · rw [hd, h.term, ht']
  · exact hl ▸ hcont.append e

-- A follower takes the entries of a message in.
theorem accept {merge : List Action} (h : Mirrors S disk k) (ho : msg.Orderly S)
    (hk : msg.kind = .appendEntries i t es c) (hm : msg.term = k.currentTerm)
    (hti : k.log.termAt i = some t) (hmerge : Merges k.log es log merge) (hl : k'.log = log)
    (hc : k.commitIndex ≤ k'.commitIndex) (ht' : k'.currentTerm = k.currentTerm) :
    ∃ disk', disk.performAll merge = some disk' ∧ Mirrors S disk' k' := by
  have hes := ho.consecutive _ _ _ _ hk
  rcases hmerge.spec hes with ⟨rfl, rfl, _⟩ | ⟨n, hn, rfl, htrunc, hmatch, _⟩
  case inl => exact ⟨disk, rfl, h.of_eq hl hc ht'⟩
  case inr =>
    obtain ⟨dlog, hs, hcont⟩ := h.log
    have hbase := (h.contiguous.bounds_of_termAt hti).left
    have hle := h.contiguous.attach_le hti hn.le hmatch
    have hlast := hcont.lastIndex_le h.contiguous hs.holds.contiguous
    have hfirst := hcont.firstIndex_eq
    have hsuffix := hes.drop n
    obtain ⟨hcontiguous, hsent, _⟩ := h.contiguous.truncateAndAppend (by omega) hsuffix htrunc
    obtain ⟨disk', dlog', hd, htd, hh⟩ := hs.holds.truncateAndAppend (by omega) (by omega) hsuffix
    rw [RaftLog.truncateAndAppend_eq (by omega), Option.some.injEq] at htrunc htd
    have hterm : disk'.currentTerm = disk.currentTerm :=
      congrArg Prod.fst <| StableDisk.truncateAndAppend_hardState hd
    have hoffset : i + 1 + n - k.log.firstIndex - 1 = i + n - k.log.firstIndex := by omega
    rw [hfirst, hoffset] at htd
    rw [hoffset] at htrunc
    refine ⟨disk', ?_, ⟨hl ▸ hcontiguous, ?_, ?_⟩, ?_, dlog', ⟨hh, ?_, fun hS => ?_⟩, ?_⟩
    · rw [StableDisk.performAll_cons (a := .truncateAndAppend ..) hd]
      rfl
    · rw [hl, hsent]
      exact h.command
    · rw [hl, RaftLog.firstIndex, hsent]
      exact h.base_le.trans hc
    · rw [hterm, h.term, ht']
    · intro e he
      rw [← htd, RaftLog.entries, List.mem_cons, List.mem_append] at he
      rcases he with rfl | he | he
      · exact hterm ▸ hs.bounded _ List.mem_cons_self
      · exact hterm ▸ hs.bounded e (List.mem_cons_of_mem _ (List.mem_of_mem_take he))
      · rw [hterm, h.term, ← hm]
        exact ho.bounded _ _ _ _ hk e (List.mem_of_mem_drop he)
    · -- The entries attach to the last one that both logs have, or to the entry of the check.
      have hasc := ho.ascends hS _ _ _ _ hk
      have hlink : ∃ u, k.log.termAt (i + n) = some u ∧ Ascends u (es.drop n) := by
        rcases n with _ | n
        case zero => exact ⟨t, hti, hasc⟩
        case succ =>
          have he := List.getElem?_eq_getElem (show n < es.length by omega)
          have hheld := hmatch n (by omega)
          rw [he, show i + 1 + n = i + (n + 1) by omega] at hheld
          exact ⟨_, hheld, hasc.drop_of_getElem? he⟩
      obtain ⟨u, hu, hasc⟩ := hlink
      rw [← htd, ← hfirst]
      exact (hs.sorted hS).splice (by omega) (hcont.termAt hu) hasc
    · rw [hl, ← htd, ← htrunc]
      refine hcont.splice ?_ _
      have := h.contiguous.lastIndex_eq
      omega

-- A snapshot replaces the log in memory. The disk keeps what follows it.
theorem install {data : Command} (h : Mirrors S disk k) (ht : t ≤ k.currentTerm) (hi : k.commitIndex < i)
    (hS : S → ∀ e ∈ disk.logEntries, e.index = i + 1 → t ≤ e.term)
    (hl : k'.log = k.log.installSnapshot { lastIncludedIndex := i, lastIncludedTerm := t })
    (hc : k'.commitIndex = i) (ht' : k'.currentTerm = k.currentTerm) :
    ∃ disk', disk.writeSnapshot { lastIncludedIndex := i, lastIncludedTerm := t } data = some disk' ∧
      Mirrors S disk' k' := by
  obtain ⟨dlog, hs, hcont⟩ := h.log
  have hfirst := hcont.firstIndex_eq
  have hbase := h.base_le
  have hlt : dlog.firstIndex < i := by omega
  obtain ⟨disk', hd, hh⟩ := hs.holds.writeSnapshot_above t data hlt
  have hterm : disk'.currentTerm = disk.currentTerm :=
    congrArg Prod.fst <| StableDisk.writeSnapshot_hardState hd
  refine ⟨disk', hd, ⟨hl ▸ trivial, by rw [hl]; rfl, ?_⟩, ?_, _, ⟨hh, ?_, fun hS' => ?_⟩, ?_⟩
  · rw [hl, hc]
    exact le_rfl
  · rw [hterm, h.term, ht']
  · rw [hterm]
    exact RaftLog.compact_bounded hs.bounded (h.term ▸ ht)
  · -- The first of the entries that follow is not of an earlier term, and neither are the others.
    refine (hs.sorted hS').compact fun _ e he => ?_
    obtain ⟨base, hentries, _⟩ := hs.holds.entries
    have hrest := (hs.holds.contiguous.drop (i - dlog.firstIndex))
    have hsorted := (RaftLog.sorted_iff.mp (hs.sorted hS')).drop (i - dlog.firstIndex)
    cases hdrop : dlog.rest.drop (i - dlog.firstIndex)
    case nil => simp [hdrop] at he
    case cons first after =>
      rw [hdrop] at he hrest hsorted
      have hmem : first ∈ dlog.rest := List.mem_of_mem_drop (hdrop ▸ List.mem_cons_self)
      have hfirst' : t ≤ first.term := by
        refine hS hS' first (hentries ▸ List.mem_cons_of_mem _ hmem) ?_
        have := hrest.left
        omega
      rcases List.mem_cons.mp he with rfl | he
      · exact hfirst'
      · exact hfirst'.trans ((List.pairwise_cons.mp hsorted.right).left e he)
  · rw [hl]
    refine ⟨RaftLog.sentinel_compact hlt, ?_⟩
    rw [RaftLog.compact_of_lt hlt]
    exact ⟨_, rfl⟩

theorem compact {data : Command} (h : Mirrors S disk k) (hbase : k.log.firstIndex ≤ i)
    (ht : t = (k.log.termAt i).getD 0) (hi : i ≤ k.commitIndex) (hl : k'.log = k.log.compact i t)
    (hc : k.commitIndex ≤ k'.commitIndex) (ht' : k'.currentTerm = k.currentTerm) :
    ∃ disk', disk.writeSnapshot { lastIncludedIndex := i, lastIncludedTerm := t } data = some disk' ∧
      Mirrors S disk' k' := by
  obtain ⟨dlog, hs, hcont⟩ := h.log
  have hfirst := hcont.firstIndex_eq
  have hterm : i = k.log.firstIndex → t = k.log.sentinel.term := RaftLog.sentinel_term_of_termAt ht
  obtain ⟨disk', hd, hh⟩ := hs.holds.writeSnapshot (t := t) data (hfirst.trans_le hbase) <| by
    rwa [hfirst, hcont.sentinel]
  have hdisk : disk'.currentTerm = disk.currentTerm :=
    congrArg Prod.fst <| StableDisk.writeSnapshot_hardState hd
  refine ⟨disk', hd, ⟨hl ▸ h.contiguous.compact, hl ▸ RaftLog.command_compact h.command, ?_⟩, ?_, _,
    ⟨hh, ?_, fun hS => ?_⟩, hl ▸ hcont.compact i t⟩
  · rw [hl, RaftLog.firstIndex_compact]
    exact max_le (h.base_le.trans hc) (hi.trans hc)
  · rw [hdisk, h.term, ht']
  · rw [hdisk, ht]
    exact RaftLog.compact_bounded hs.bounded (h.term ▸ RaftLog.termAt_getD_le h.bounded i)
  · refine (hs.sorted hS).compact fun _ e he => ?_
    rw [ht]
    cases hu : k.log.termAt i
    case none   => exact Nat.zero_le _
    case some u => exact ((hs.sorted hS).ascends (hfirst.trans_le hbase) (hcont.termAt hu)).left e he

end Mirrors

-- What is needed of a call. With `S`, a snapshot that the node installs leaves no entry of an earlier
-- term behind on the disk.
structure Permits (S : Prop) (m : Cause) (disk : StableDisk) (k : Kernel) : Prop where
  orderly  : ∀ msg, m = .handle msg → msg.Orderly S
  compact  : ∀ i t, m = .compactLogs i t → i ≤ k.commitIndex →
    k.log.firstIndex ≤ i ∧ t = (k.log.termAt i).getD 0
  snapshot : S → ∀ msg i t o data, m = .handle msg → msg.kind = .installSnapshot i t o data true →
    k.currentTerm ≤ msg.term → k.commitIndex < i → ∀ e ∈ disk.logEntries, e.index = i + 1 → t ≤ e.term

theorem Permits.of_not_handle {S : Prop} {m : Cause} {disk : StableDisk} {k : Kernel}
    (hm : ∀ msg, m ≠ .handle msg)
    (hc : ∀ i t, m = .compactLogs i t → k.log.firstIndex ≤ i ∧ t = (k.log.termAt i).getD 0) :
    Permits S m disk k where
  orderly msg he                    := absurd he (hm msg)
  compact i t he _                  := hc i t he
  snapshot _ msg _ _ _ _ he _ _ _   := absurd he (hm msg)

namespace Mirrors

variable {S : Prop} {disk : StableDisk} {k k' : Kernel} {m : Cause} {as bs : List Action}

theorem quiet (h : Mirrors S disk k) (hl : k'.log = k.log) (hc : k.commitIndex ≤ k'.commitIndex)
    (ht : k'.currentTerm = k.currentTerm) (ha : ∀ a ∈ as, ¬a.writes) :
    ∃ disk', disk.performAll as = some disk' ∧ Mirrors S disk' k' :=
  ⟨disk, StableDisk.performAll_of_not_writes ha, h.of_eq hl hc ht⟩

-- An action that writes the disk is followed by some that do not.
theorem perform_quiet {a : Action}
    (h : ∃ disk', disk.perform a = some disk' ∧ Mirrors S disk' k') (ha : ∀ a ∈ as, ¬a.writes) :
    ∃ disk', disk.performAll (a :: as) = some disk' ∧ Mirrors S disk' k' := by
  obtain ⟨disk', hd, h'⟩ := h
  exact ⟨disk', by rw [StableDisk.performAll_cons hd, StableDisk.performAll_of_not_writes ha], h'⟩

theorem campaign (h : Mirrors S disk k) :
    ∃ disk', disk.performAll k.campaignActions = some disk' ∧ Mirrors S disk' k.campaign := by
  have hraise := h.writeHardState k.campaign (some k.id) rfl le_rfl (Nat.le_succ _)
  exact perform_quiet (a := .persistHardState ..) ⟨_, rfl, hraise⟩ (by simp [Action.writes])

theorem move (h : Mirrors S disk k) (hmove : Move m k k' as) (hp : Permits S m disk k) :
    ∃ disk', disk.performAll as = some disk' ∧ Mirrors S disk' k' := by
  have of_isSend {a : Action} (ha : a.isSend) : ¬a.writes := by
    cases a
    case send => exact Bool.false_ne_true
    all_goals cases ha
  cases hmove
  case idle ha      => exact h.quiet rfl le_rfl rfl fun a hm => of_isSend (ha a hm).isSend
  case campaign     => exact h.campaign
  case vote msg _ _ _ _ _ _ _ =>
    let votedFor := some msg.sender
    have hvote := h.writeHardState { k with votedFor } votedFor rfl le_rfl le_rfl
    exact perform_quiet (a := .persistHardState ..) ⟨_, rfl, hvote⟩ (by simp [Action.writes])
  case collect      => exact h.quiet rfl le_rfl rfl (by simp)
  case skip         => exact h.quiet rfl le_rfl rfl (by simp [Action.writes])
  case replicate ha => exact h.quiet rfl le_rfl rfl fun a hm => of_isSend (ha a hm).isSend
  case confirm ha   =>
    have hl := ha.log_eq
    have hc := ha.commitIndex_le
    have ht := ha.currentTerm_eq
    exact h.quiet hl hc ht <| ha.forall_mem fun _ => Bool.false_ne_true
  case elect he _ ha =>
    subst he
    exact perform_quiet (a := .appendEntries _) (h.append rfl rfl rfl le_rfl rfl)
      fun a hm => of_isSend (ha a hm).isSend
  case lone         =>
    obtain ⟨disk₁, hd₁, h₁⟩ := h.campaign
    obtain ⟨disk₂, hd₂, h₂⟩ : ∃ disk₂, disk₁.appendEntries [k.campaign.noop] = some disk₂ ∧
        Mirrors S disk₂ k.campaign.lead := h₁.append rfl rfl rfl le_rfl rfl
    refine ⟨disk₂, ?_, h₂⟩
    rw [StableDisk.performAll_append hd₁, StableDisk.performAll_cons (a := .appendEntries _) hd₂]
    rfl
  case propose hi ht he ha =>
    subst he
    refine perform_quiet (a := .appendEntries _) (h.append hi ht rfl le_rfl rfl) fun a hm => of_isSend ?_
    exact (ha a hm).elim (·.isSend) (·.isSend)
  case proposeAlone commit sends _ _ hi ht hs ha =>
    have hl := ha.log_eq
    have hc := ha.commitIndex_le
    have ht' := ha.currentTerm_eq
    refine perform_quiet (a := .appendEntries _) (h.append hi ht hl hc ht') fun a hm => ?_
    rcases List.mem_append.mp hm with hm | hm
    · exact ha.forall_mem (P := fun a => ¬a.writes) (fun _ => Bool.false_ne_true) a hm
    · exact of_isSend (hs a hm).isSend
  case accept hm hk ht hti hmerge hf =>
    have hl := hf.log_eq
    have hc := hf.commitIndex_le
    have ht' := congrArg Kernel.currentTerm hf.eq
    obtain ⟨disk', hd, h'⟩ := h.accept (hp.orderly _ hm) hk ht hti hmerge hl hc ht'
    refine ⟨disk', ?_, h'⟩
    rw [List.append_assoc, StableDisk.performAll_append hd]
    refine StableDisk.performAll_of_not_writes ?_
    simp only [List.forall_mem_append, List.forall_mem_singleton]
    exact ⟨hf.forall_mem fun _ => Bool.false_ne_true, Bool.false_ne_true⟩
  case install hm hk ht hi =>
    have hle := (hp.orderly _ hm).snapshot _ _ _ _ _ hk
    have hclean := fun hS => hp.snapshot hS _ _ _ _ _ hm hk ht.ge hi
    refine perform_quiet (a := .persistSnapshot ..) (h.install (ht ▸ hle) hi hclean rfl rfl rfl) ?_
    simp [Action.writes]
  case compact hm hi =>
    obtain ⟨hbase, ht⟩ := hp.compact _ _ hm hi
    exact perform_quiet (a := .persistSnapshot ..) (h.compact hbase ht hi rfl le_rfl rfl) (by simp)

theorem call (h : Mirrors S disk k) (hcall : Call m k k' as) (hp : Permits S m disk k) :
    ∃ disk', disk.performAll as = some disk' ∧ Mirrors S disk' k' := by
  cases hcall
  case same hmove => exact h.move hmove hp
  case later msg _ hm _ hlt hmove =>
    have hbump := h.writeHardState (k.bump msg.term) none rfl le_rfl hlt.le
    obtain ⟨disk', hd, h'⟩ := hbump.move hmove ⟨hp.orderly, hp.compact, fun hS msg i t o data hm' hk _ hi =>
      hp.snapshot hS msg i t o data hm' hk (by cases hm.symm.trans hm'; exact hlt.le) hi⟩
    exact ⟨disk', by rw [StableDisk.performAll_cons (a := .persistHardState ..) rfl]; exact hd, h'⟩

end Mirrors

end RaftRupee
