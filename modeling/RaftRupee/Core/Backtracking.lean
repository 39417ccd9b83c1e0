import Mathlib.Tactic.IntervalCases
import RaftRupee.Core.Agreeing
import RaftRupee.Core.Following
import RaftRupee.Lib.Rounds

namespace RaftRupee

namespace RaftLog

variable {log full : RaftLog} {i j n s t : ℕ}

-- The terms of the log do not decrease.
def Sorted (log : RaftLog) : Prop :=
  log.entries.Pairwise (·.term ≤ ·.term)

theorem Sorted.le (h : log.Sorted) (hij : i ≤ j) (hi : log.termAt i = some s)
    (hj : log.termAt j = some t) : s ≤ t := by
  obtain ⟨a, ha, rfl⟩ := Option.map_eq_some_iff.mp hi
  obtain ⟨b, hb, rfl⟩ := Option.map_eq_some_iff.mp hj
  simp only [entryAt, Option.ite_none_left_eq_some] at ha hb
  rcases hij.eq_or_lt with rfl | hlt
  case inl => exact (Option.some.inj (ha.right.symm.trans hb.right) ▸ le_rfl)
  case inr =>
    obtain ⟨hm, rfl⟩ := List.getElem?_eq_some_iff.mp ha.right
    obtain ⟨hn, rfl⟩ := List.getElem?_eq_some_iff.mp hb.right
    exact List.pairwise_iff_getElem.mp h _ _ hm hn (by omega)

-- The log is a part of that of the leader of any term that it has an entry of, up to this entry. The
-- log of the leader of term `t` holds `line t i` at index `i`.
def Traces (log : RaftLog) (line : ℕ → ℕ → LogEntry) : Prop :=
  ∀ i t, log.termAt i = some t → ∀ j, log.firstIndex ≤ j → j ≤ i →
    log.termAt j = some (line t j).term ∧ (log.firstIndex < j → log.entryAt j = some (line t j))

theorem Traces.matches_full {line : ℕ → ℕ → LogEntry} (h : log.Traces line) (h' : full.Traces line) :
    log.Matches full := by
  intro i t hi hf j hj hj' hle
  obtain ⟨ht, he⟩ := h i t hi j hj hle
  obtain ⟨ht', he'⟩ := h' i t hf j hj' hle
  exact ⟨ht.trans ht'.symm, fun hlt hlt' => (he hlt).trans (he' hlt').symm⟩

-- The first entry of the run of entries of term `t` that ends at index `i`.
theorem firstOfTerm_spec (hf : log.firstIndex ≤ i) (ht : log.termAt i = some t) :
    log.firstIndex ≤ log.firstOfTerm t i ∧ log.firstOfTerm t i ≤ i ∧
      log.termAt (log.firstOfTerm t i) = some t := by
  induction i
  case zero => exact ⟨hf, le_rfl, ht⟩
  case succ i hi =>
    rw [firstOfTerm]
    split
    case isFalse  => exact ⟨hf, le_rfl, ht⟩
    case isTrue h =>
      obtain ⟨hle, hlt, hterm⟩ := hi (by omega) h.right
      exact ⟨hle, by omega, hterm⟩

theorem lastIndexOfTerm_eq_some (h : log.lastIndexOfTerm t = some i) :
    log.termAt i = some t ∧ ∀ j, i < j → j ≤ log.lastIndex → log.termAt j ≠ some t := by
  obtain ⟨hp, later, earlier, happ, hlater⟩ := List.find?_eq_some_iff_append.mp h
  refine ⟨by simpa using hp, fun j hij hj ht => ?_⟩
  have hsorted : (later ++ i :: earlier).Pairwise (· > ·) :=
    happ ▸ List.pairwise_reverse.mpr List.pairwise_lt_range'
  have hb : log.firstIndex ≤ i := by
    have hm : i ∈ later ++ i :: earlier := by simp
    rw [← happ, List.mem_reverse, List.mem_range'_1] at hm
    exact hm.left
  have hm : j ∈ later ++ i :: earlier := by
    rw [← happ, List.mem_reverse, List.mem_range'_1]
    omega
  rcases List.mem_append.mp hm with hm | hm
  case inl => simpa [ht] using hlater j hm
  case inr =>
    rcases List.mem_cons.mp hm with rfl | hm
    · exact lt_irrefl _ hij
    · have := (List.pairwise_cons.mp (List.pairwise_append.mp hsorted).right.left).left j hm
      omega

theorem lastIndexOfTerm_eq_none (h : log.lastIndexOfTerm t = none) (hf : log.firstIndex ≤ i)
    (hl : i ≤ log.lastIndex) : log.termAt i ≠ some t := by
  have := List.find?_eq_none.mp h i <| by
    rw [List.mem_reverse, List.mem_range'_1]
    omega
  simpa using this

/-! ### The probes of a leader -/

-- The logs of a leader and of a follower. The follower's base agrees with the leader's log if the leader
-- holds it.
structure Comparable (full log : RaftLog) (line : ℕ → ℕ → LogEntry) : Prop where
  full_contiguous : full.Contiguous
  log_contiguous  : log.Contiguous
  full_sorted     : full.Sorted
  log_sorted      : log.Sorted
  log_zero        : ∀ i, log.termAt i = some 0 → i = 0
  full_traces     : full.Traces line
  log_traces      : log.Traces line
  base            : ∀ t, full.termAt log.firstIndex = some t → log.termAt log.firstIndex = some t
  base_le         : log.firstIndex ≤ full.lastIndex

-- The follower's log passes the check of a probe that asks for the entries from `next` on.
def Passes (full log : RaftLog) (next : ℕ) : Prop :=
  log.termAt (next - 1) = some ((full.termAt (next - 1)).getD 0)

instance {next : ℕ} : Decidable (Passes full log next) :=
  inferInstanceAs (Decidable (_ = _))

-- Where the leader looks next after the follower's answer to such a probe.
def retreat (full log : RaftLog) (next : ℕ) : ℕ :=
  match log.conflict (next - 1) with
  | (some t, c)    => ((full.lastIndexOfTerm t).map (· + 1)).getD (c.getD 1)
  | (none, some c) => c
  | (none, none)   => next - 1

-- A probe inside of the follower's log is followed by an earlier one inside of it, by one that passes or
-- by a snapshot. A probe outside of it is followed by one at its end.
def probeRank (full log : RaftLog) (next : ℕ) : ℕ :=
  if next ≤ full.firstIndex ∨ Passes full log next then
    0
  else if (log.termAt (next - 1)).isSome then
    next
  else
    log.lastIndex + 2

namespace Comparable

variable {line : ℕ → ℕ → LogEntry} {next : ℕ} (h : Comparable full log line)
include h

-- The term that a leader reports for an index beyond its log is of no entry there.
theorem termAt_of_passes (hn : full.firstIndex < next) (hp : Passes full log next) :
    ∃ t, log.termAt (next - 1) = some t ∧ full.termAt (next - 1) = some t := by
  unfold Passes at hp
  cases hf : full.termAt (next - 1)
  case some t => exact ⟨t, by rw [hp, hf]; rfl, rfl⟩
  case none =>
    rw [hf] at hp
    have hzero : next - 1 = full.firstIndex := by
      have := h.log_zero _ hp
      omega
    rw [hzero, termAt_firstIndex] at hf
    contradiction

-- The leader's last entry of the term that conflicts is one that the follower holds.
theorem passes_of_lastIndexOfTerm (hn : full.firstIndex < next) (hne : ¬Passes full log next)
    (ht : log.termAt (next - 1) = some t) (hi : full.lastIndexOfTerm t = some i) :
    Passes full log (i + 1) := by
  obtain ⟨hterm, hlast⟩ := lastIndexOfTerm_eq_some hi
  have hfull := h.full_contiguous.bounds_of_termAt hterm
  have hlog := h.log_contiguous.bounds_of_termAt ht
  have hlt : i < next - 1 := by
    by_contra hle
    have hf := (h.full_traces i t hterm (next - 1) (by omega) (not_lt.mp hle)).left
    have hl := (h.log_traces (next - 1) t ht (next - 1) hlog.left le_rfl).left
    exact hne <| by rw [Passes, hl, hf]; rfl
  have hbase : log.firstIndex ≤ i := by
    by_contra hb
    obtain ⟨e, he⟩ := Option.isSome_iff_exists.mp <| h.full_contiguous.isSome_entryAt.mpr
      ⟨by omega, h.base_le⟩
    have hs : full.termAt log.firstIndex = some e.term := by simp [termAt, he]
    have hle := h.log_sorted.le hlog.left (h.base _ hs) ht
    have hge := h.full_sorted.le (not_le.mp hb).le hterm hs
    exact hlast log.firstIndex (not_le.mp hb) h.base_le (le_antisymm hle hge ▸ hs)
  have hl := (h.log_traces (next - 1) t ht i hbase hlt.le).left
  have hf := (h.full_traces i t hterm i hfull.left le_rfl).left
  rw [Passes, Nat.add_sub_cancel, hl, hf]
  rfl

-- If the leader has no entry of that term, and the follower nothing but such entries, then the leader
-- has compacted the follower's base.
theorem firstIndex_lt_of_lastIndexOfTerm (ht : log.termAt log.firstIndex = some t)
    (hi : full.lastIndexOfTerm t = none) : log.firstIndex < full.firstIndex := by
  by_contra hle
  obtain ⟨e, he⟩ := Option.isSome_iff_exists.mp <| h.full_contiguous.isSome_entryAt.mpr
    ⟨not_lt.mp hle, h.base_le⟩
  have hs : full.termAt log.firstIndex = some e.term := by simp [termAt, he]
  refine lastIndexOfTerm_eq_none hi (not_lt.mp hle) h.base_le ?_
  rw [hs, ← h.base _ hs, ht]

theorem probeRank_retreat_lt (hn : full.firstIndex < next) (hne : ¬Passes full log next) :
    let n := retreat full log next
    probeRank full log (if n = 0 then 1 else n) < probeRank full log next := by
  intro n
  have hrank : probeRank full log next =
      if (log.termAt (next - 1)).isSome then next else log.lastIndex + 2 := by
    rw [probeRank, if_neg (by simp [hne, hn])]
  rw [hrank]
  cases ht : log.termAt (next - 1)
  case none =>
    have hlast : n = log.lastIndex + 1 := by simp [n, retreat, conflict, ht]
    have hle : probeRank full log (log.lastIndex + 1) ≤ log.lastIndex + 1 := by
      unfold probeRank
      rw [Nat.add_sub_cancel, h.log_contiguous.termAt_lastIndex]
      split <;> simp
    rw [hlast, if_neg (Nat.succ_ne_zero _)]
    exact Nat.lt_succ_of_le hle
  case some t =>
    rw [Option.isSome_some, if_pos rfl]
    cases hi : full.lastIndexOfTerm t
    case some i =>
      have hn' : n = i + 1 := by simp [n, retreat, conflict, ht, hi]
      rw [hn', if_neg (Nat.succ_ne_zero _), probeRank,
        if_pos (.inr <| h.passes_of_lastIndexOfTerm hn hne ht hi)]
      omega
    case none =>
      have hn' : n = log.firstOfTerm t (next - 1) := by simp [n, retreat, conflict, ht, hi]
      have hb := h.log_contiguous.bounds_of_termAt ht
      obtain ⟨hfirst, hle, hterm⟩ := firstOfTerm_spec hb.left ht
      rw [← hn'] at hfirst hle hterm
      rcases hfirst.eq_or_lt with he | hlt
      case inl =>
        rw [← he] at hterm
        have hlt := h.firstIndex_lt_of_lastIndexOfTerm hterm hi
        have hsnap : (if n = 0 then 1 else n) ≤ full.firstIndex := by split <;> omega
        rw [probeRank, if_pos (.inl hsnap)]
        omega
      case inr =>
        have hheld : (log.termAt (n - 1)).isSome := by
          rw [termAt, Option.isSome_map]
          exact h.log_contiguous.isSome_entryAt.mpr (by omega)
        rw [if_neg (by omega), probeRank, if_pos hheld]
        split <;> omega

end Comparable
end RaftLog

/-! ### The exchange -/

namespace RaftNode

variable {leader follower : RaftNode} {next : ℕ}

-- How an exchange of a leader with a follower ends, and what both are then.
inductive Ending
  | snapshot (leader follower : RaftNode) (lastIncludedIndex lastIncludedTerm : ℕ)
  | success (leader follower : RaftNode)

def sent (actions : List Action) : List Message :=
  actions.filterMap fun
    | .send msg => some msg
    | _         => none

-- One round: the leader's message to the follower, the follower's reply and what the leader makes of it.
def exchange (s : RaftNode × RaftNode) : Option ((RaftNode × RaftNode) ⊕ Ending) :=
  match s.1.replicateToPeer s.2.id with
  | .send { kind := .installSnapshot i t .., .. } => some (.inr (.snapshot s.1 s.2 i t))
  | .send { sender, term, kind := .appendEntries i t es c, .. } => do
    let (follower, actions) ← s.2.handleAppendEntries sender term i t es c
    match sent actions with
    | [{ sender, term, kind := .appendEntriesResponse success t i, .. }] =>
      let (leader, _) := s.1.handleAppendEntriesResponse sender term success t i
      some (if success then .inr (.success leader follower) else .inl (leader, follower))
    | _ => none
  | _ => none

theorem sent_filter (actions : List Action) : sent (actions.filter (·.isSend)) = sent actions := by
  induction actions
  case nil => rfl
  case cons a as hi => cases a <;> simpa [sent, Action.isSend] using hi

-- Nothing is sent before the reply.
theorem sent_eq {as bs : List Action} {msg : Message} (h : ∀ a ∈ as, ¬a.isSend)
    (hb : bs.filter (·.isSend) = [.send msg]) : sent (as ++ bs) = [msg] := by
  rw [← sent_filter, List.filter_append, List.filter_eq_nil_iff.mpr h, hb]
  rfl

theorem replicateToPeer_of_lt {peer : NodeId} (h : leader.log.firstIndex < (leader.nextIndex peer).getD 1) :
    leader.replicateToPeer peer = .send (leader.message peer <| .appendEntries
      ((leader.nextIndex peer).getD 1 - 1)
      ((leader.log.termAt ((leader.nextIndex peer).getD 1 - 1)).getD 0)
      (leader.log.entriesFrom ((leader.nextIndex peer).getD 1)) leader.commitIndex) := by
  simp [replicateToPeer, h.not_ge]

theorem backtrack_conflict {sender : NodeId} (log : RaftLog) (hn : (leader.nextIndex sender).getD 1 = next) :
    leader.backtrack sender (log.conflict (next - 1)).1 (log.conflict (next - 1)).2 =
      RaftLog.retreat leader.log log next := by
  unfold backtrack RaftLog.retreat RaftLog.conflict
  rw [hn]
  cases log.termAt (next - 1)
  case none => rfl
  case some t =>
    dsimp only
    cases leader.log.lastIndexOfTerm t <;> rfl

-- What an exchange goes on with after a rejection.
structure Probing (full log : RaftLog) (s : RaftNode × RaftNode) : Prop where
  role_eq     : s.1.role = .leader
  leader_eq   : s.1.log = full
  follower_eq : s.2.log = log
  term_le     : s.2.currentTerm ≤ s.1.currentTerm

def probe (s : RaftNode × RaftNode) : ℕ :=
  (s.1.nextIndex s.2.id).getD 1

variable {full log : RaftLog} {s : RaftNode × RaftNode}

theorem Probing.snapshot (h : Probing full log s) (hn : probe s ≤ full.firstIndex) :
    ∃ i t, exchange s = some (.inr (.snapshot s.1 s.2 i t)) := by
  rw [← h.leader_eq] at hn
  unfold probe at hn
  simp [exchange, replicateToPeer, hn, message]

-- A round consists of what the follower replies, and of what the leader does with the reply.
theorem exchange_of_reply {o : Outcome} {success : Bool} {t i : Option ℕ}
    (hn : s.1.log.firstIndex < probe s) (ht : s.2.currentTerm ≤ s.1.currentTerm) :
    let heard := s.2.becomeFollower s.1.currentTerm (some s.1.id)
    let leader := (s.1.handleAppendEntriesResponse o.1.id o.1.currentTerm success t i).1
    heard.1.receiveEntries s.1.id (probe s - 1) ((s.1.log.termAt (probe s - 1)).getD 0)
      (s.1.log.entriesFrom (probe s)) s.1.commitIndex = some o →
    sent (heard.2 ++ o.2) = [o.1.message s.1.id (.appendEntriesResponse success t i)] →
    exchange s = some (if success then .inr (.success leader o.1) else .inl (leader, o.1)) := by
  intro heard leader ho hs
  have hmsg := replicateToPeer_of_lt hn
  have hheard : s.2.handleAppendEntries s.1.id s.1.currentTerm (probe s - 1)
      ((s.1.log.termAt (probe s - 1)).getD 0) (s.1.log.entriesFrom (probe s)) s.1.commitIndex =
      some (o.1, heard.2 ++ o.2) := by
    rw [handleAppendEntries_of_le _ ht]
    exact congrArg (Option.map _) ho
  unfold probe at hheard
  rw [exchange, hmsg]
  simp only [message]
  rw [hheard]
  simp only [Option.bind_eq_bind, Option.bind_some]
  rw [hs]
  rfl

theorem handleAppendEntriesResponse_rejected {sender : NodeId} {t i : Option ℕ}
    (hr : leader.role = .leader) :
    let n := leader.backtrack sender t i
    (leader.handleAppendEntriesResponse sender leader.currentTerm false t i).1 = { leader with
      nextIndex := Function.update leader.nextIndex sender (some (if n = 0 then 1 else n)) } := by
  simp [handleAppendEntriesResponse, hr]

theorem handleAppendEntriesResponse_log (leader : RaftNode) (sender : NodeId) (term : ℕ) (success : Bool)
    (t i : Option ℕ) : (leader.handleAppendEntriesResponse sender term success t i).1.log = leader.log := by
  unfold handleAppendEntriesResponse
  split
  · rfl
  · split
    · exact (maybeAdvanceCommitIndex_advances _).log_eq
    · rfl

theorem Probing.retry (h : Probing full log s) (hn : full.firstIndex < probe s)
    (hne : ¬RaftLog.Passes full log (probe s)) : ∃ s', exchange s = some (.inl s') ∧ Probing full log s' ∧
      probe s' = let n := RaftLog.retreat full log (probe s); if n = 0 then 1 else n := by
  obtain ⟨leader, follower⟩ := s
  obtain ⟨hr, rfl, rfl, ht⟩ := h
  have hlog := follower.becomeFollower_log leader.currentTerm (some leader.id)
  have hid := follower.becomeFollower_id leader.currentTerm (some leader.id)
  have hterm := follower.becomeFollower_currentTerm leader.currentTerm (some leader.id)
  have hreject := receiveEntries_rejects leader.id (leader.log.entriesFrom (probe (leader, follower)))
    leader.commitIndex (hlog ▸ hne)
  have hround := exchange_of_reply hn ht hreject <|
    sent_eq (follower.becomeFollower_no_send leader.currentTerm (some leader.id)) rfl
  rw [if_neg Bool.false_ne_true, hlog, hid] at hround
  dsimp only at hround
  have hprobe : (leader.nextIndex follower.id).getD 1 = probe (leader, follower) := rfl
  rw [hterm, handleAppendEntriesResponse_rejected hr, backtrack_conflict _ hprobe] at hround
  refine ⟨_, hround, ⟨hr, rfl, hlog, hterm.le⟩, ?_⟩
  simp [probe, hid]

theorem Probing.succeed (h : Probing full log s) (hc : log.Contiguous) (hf : full.Contiguous)
    (hm : log.Matches full) (hn : full.firstIndex < probe s) {t : ℕ}
    (hl : log.termAt (probe s - 1) = some t) (ht : full.termAt (probe s - 1) = some t) :
    ∃ leader follower, exchange s = some (.inr (.success leader follower)) ∧ leader.log = full ∧
      follower.log.firstIndex = log.firstIndex ∧ follower.log.AgreesUpTo full full.lastIndex := by
  obtain ⟨hr, rfl, rfl, hterm⟩ := h
  have hlog := s.2.becomeFollower_log s.1.currentTerm (some s.1.id)
  have hnext : probe s - 1 + 1 = probe s := by omega
  have hcons := hf.entriesFrom hn
  rw [← hnext] at hcons
  obtain ⟨o, ho, ha⟩ := receiveEntries_accepts s.1.id s.1.commitIndex (hlog ▸ hc) (hlog ▸ hl) hcons
  obtain ⟨merge, hmerge⟩ := ha.merges
  rw [hlog] at hmerge
  have hal := hmerge.aligns hc hf ⟨rfl, List.prefix_rfl⟩ hm hl ht
  have hround := exchange_of_reply hn hterm (by rw [ht, Option.getD_some, ← ho, hnext]) <|
    sent_eq (s.2.becomeFollower_no_send s.1.currentTerm (some s.1.id)) ha.sends
  rw [if_pos rfl] at hround
  exact ⟨_, _, hround, handleAppendEntriesResponse_log .., hal.firstIndex_eq, hal.upTo⟩

-- From whatever index the leader starts to probe, it finds within finitely many rounds that the follower
-- needs a snapshot, as it probes at its base, or the follower ends up with all of its log.
theorem backtracking_converges (leader follower : RaftNode) (line : ℕ → ℕ → LogEntry)
    (h : RaftLog.Comparable leader.log follower.log line) (hr : leader.role = .leader)
    (ht : follower.currentTerm ≤ leader.currentTerm) : ∃ n ending,
      Rounds.run exchange n (leader, follower) = some ending ∧
      (∀ leader' follower' i t, ending = .snapshot leader' follower' i t →
        leader'.log = leader.log ∧ probe (leader', follower') ≤ leader.log.firstIndex) ∧
      ∀ leader' follower', ending = .success leader' follower' → leader'.log = leader.log ∧
        follower'.log.firstIndex = follower.log.firstIndex ∧
        follower'.log.AgreesUpTo leader.log leader.log.lastIndex := by
  refine Rounds.run_of_rank (Probing leader.log follower.log)
    (fun s => RaftLog.probeRank leader.log follower.log (probe s)) (fun s hs => ?_) ⟨hr, rfl, rfl, ht⟩
  rcases Nat.lt_or_ge leader.log.firstIndex (probe s) with hn | hn
  case inr =>
    obtain ⟨i, t, hround⟩ := hs.snapshot hn
    refine .inl ⟨_, hround, fun l f i t he => ?_, by simp⟩
    cases he
    exact ⟨hs.leader_eq, hn⟩
  case inl =>
    by_cases hp : RaftLog.Passes leader.log follower.log (probe s)
    case pos =>
      obtain ⟨t, hl, hf⟩ := h.termAt_of_passes hn hp
      obtain ⟨leader', follower', hround, hlog, hfirst, hup⟩ := hs.succeed h.log_contiguous
        h.full_contiguous (h.log_traces.matches_full h.full_traces) hn hl hf
      refine .inl ⟨_, hround, by simp, fun l f he => ?_⟩
      cases he
      exact ⟨hlog, hfirst, hup⟩
    case neg =>
      obtain ⟨s', hround, hs', hprobe⟩ := hs.retry hn hp
      exact .inr ⟨s', hround, hs', hprobe ▸ h.probeRank_retreat_lt hn hp⟩

-- Two logs that differ from index 2 on.
def forked (t : ℕ) : RaftLog :=
  RaftLog.new.append [⟨1, 1, []⟩, ⟨2, t, []⟩]

def fork (t i : ℕ) : LogEntry :=
  if i = 0 then ⟨0, 0, []⟩ else if i = 1 then ⟨1, 1, []⟩ else ⟨2, t, []⟩

theorem forked_contiguous (t : ℕ) : (forked t).Contiguous :=
  ⟨rfl, rfl, trivial⟩

theorem forked_traces (t : ℕ) : (forked t).Traces fork := by
  intro i t' ht j _ hj
  have hi : i ≤ 2 := ((forked_contiguous t).bounds_of_termAt ht).right
  interval_cases i <;> cases ht <;> interval_cases j <;> exact ⟨rfl, fun _ => rfl⟩

theorem forked_sorted {t : ℕ} (h : 0 < t) : (forked t).Sorted := by
  simp [RaftLog.Sorted, RaftLog.entries, forked, RaftLog.append, RaftLog.new, Nat.succ_le_of_lt h]

-- A leader of term 2 that starts to probe behind a conflicting entry.
theorem backtracking_converges_forked : ∃ n ending,
    Rounds.run exchange n
      ({ fresh with
          id := 2, currentTerm := 2, role := .leader, log := forked 2, nextIndex := fun _ => some 3 },
        { fresh with currentTerm := 1, log := forked 1 }) = some ending ∧
    (∀ leader follower i t, ending = .snapshot leader follower i t →
      leader.log = forked 2 ∧ probe (leader, follower) ≤ 0) ∧
    ∀ leader follower, ending = .success leader follower → leader.log = forked 2 ∧
      follower.log.firstIndex = 0 ∧ follower.log.AgreesUpTo (forked 2) 2 := by
  refine backtracking_converges { fresh with
    id := 2, currentTerm := 2, role := .leader, log := forked 2, nextIndex := fun _ => some 3 }
    { fresh with currentTerm := 1, log := forked 1 } fork ?_ rfl (by decide)
  exact {
    full_contiguous := forked_contiguous 2
    log_contiguous  := forked_contiguous 1
    full_sorted     := forked_sorted (by decide)
    log_sorted      := forked_sorted (by decide)
    log_zero i hi   := by
      have hle : i ≤ 2 := ((forked_contiguous 1).bounds_of_termAt hi).right
      interval_cases i <;> first | rfl | cases hi
    full_traces     := forked_traces 2
    log_traces      := forked_traces 1
    base t ht       := ht
    base_le         := by decide }

end RaftNode
end RaftRupee
