import RaftRupee.Core.Contiguous
import RaftRupee.Lib.Prefix

namespace RaftRupee

variable {log log' full sent : RaftLog} {es : List LogEntry} {e : LogEntry} {merge : List Action}
variable {i j k n p t : ℕ}

namespace RaftLog

/-! ### Reading what was sent and merged -/

theorem entriesFrom_getElem? (h : log.firstIndex < i) (j : ℕ) :
    (log.entriesFrom i)[j]? = log.entryAt (i + j) := by
  rw [entriesFrom_of_lt h, entryAt_of_lt (by omega), List.getElem?_drop]
  congr 1
  omega

theorem entryAt_congr (h : log'.sentinel = log.sentinel)
    (hr : log.firstIndex < i → log'.rest[i - log.firstIndex - 1]? = log.rest[i - log.firstIndex - 1]?) :
    log'.entryAt i = log.entryAt i := by
  have hf : log'.firstIndex = log.firstIndex := congrArg LogEntry.index h
  rcases Nat.lt_trichotomy i log.firstIndex with hlt | rfl | hlt
  · simp [entryAt, hf, hlt]
  · rw [entryAt_firstIndex, ← hf, entryAt_firstIndex, h]
  · rw [entryAt_of_lt hlt, entryAt_of_lt (by omega), hf, hr hlt]

-- The entries before the cut stay, and the new ones follow.
theorem Contiguous.entryAt_truncateAndAppend (hc : log.Contiguous) (hl : k ≤ log.lastIndex + 1)
    (h : log.truncateAndAppend k es = some log') :
    log'.entryAt i = if i < k then log.entryAt i else es[i - k]? := by
  unfold RaftLog.truncateAndAppend at h
  split at h
  case isFalse => contradiction
  case isTrue hk =>
    have hs : log'.sentinel = log.sentinel := by
      cases h
      rfl
    have hr : log'.rest = log.rest.take (k - log.firstIndex - 1) ++ es := by
      cases h
      rfl
    have hf : log'.firstIndex = log.firstIndex := congrArg LogEntry.index hs
    rw [hc.lastIndex_eq] at hl
    have hlen : (log.rest.take (k - log.firstIndex - 1)).length = k - log.firstIndex - 1 := by
      rw [List.length_take]
      omega
    split
    case isTrue hi =>
      refine entryAt_congr hs fun hlt => ?_
      rw [hr, List.getElem?_append_left (by omega), List.getElem?_take_of_lt (by omega)]
    case isFalse hi =>
      rw [entryAt_of_lt (by omega), hr, hf, List.getElem?_append_right (by omega), hlen]
      congr 1
      omega

-- The log at an earlier moment of a leader that only appends.
structure GrowsTo (sent full : RaftLog) : Prop where
  sentinel_eq : sent.sentinel = full.sentinel
  rest_prefix : sent.rest <+: full.rest

namespace GrowsTo

theorem firstIndex_eq (h : sent.GrowsTo full) : sent.firstIndex = full.firstIndex :=
  congrArg LogEntry.index h.sentinel_eq

theorem entryAt (h : sent.GrowsTo full) (he : sent.entryAt i = some e) : full.entryAt i = some e := by
  have hf := h.firstIndex_eq
  rcases Nat.lt_trichotomy i sent.firstIndex with hlt | rfl | hlt
  · simp [RaftLog.entryAt, hlt] at he
  · rw [entryAt_firstIndex, h.sentinel_eq] at he
    rw [hf, entryAt_firstIndex, he]
  · rw [entryAt_of_lt hlt] at he
    rw [entryAt_of_lt (hf ▸ hlt), ← hf]
    exact h.rest_prefix.getElem?_eq_some he

theorem termAt (h : sent.GrowsTo full) (ht : sent.termAt i = some t) : full.termAt i = some t := by
  obtain ⟨e, he, rfl⟩ := Option.map_eq_some_iff.mp ht
  simp [RaftLog.termAt, h.entryAt he]

theorem contiguous (h : sent.GrowsTo full) (hc : full.Contiguous) : sent.Contiguous := by
  have hf := h.firstIndex_eq
  obtain ⟨more, hm⟩ := h.rest_prefix
  have hc : Consecutive (full.firstIndex + 1) full.rest := hc
  rw [← hm, ← hf] at hc
  exact (Consecutive.append.mp hc).left

end GrowsTo

/-! ### Agreement -/

-- The logs have the same term at index `i`, and the same entry if neither of them has compacted it.
def AgreesAt (log full : RaftLog) (i : ℕ) : Prop :=
  log.termAt i = full.termAt i ∧
    (log.firstIndex < i → full.firstIndex < i → log.entryAt i = full.entryAt i)

-- The logs agree from the larger of their bases up to index `n`.
def AgreesUpTo (log full : RaftLog) (n : ℕ) : Prop :=
  ∀ i, log.firstIndex ≤ i → full.firstIndex ≤ i → i ≤ n → log.AgreesAt full i

-- Log Matching for two logs.
def Matches (log full : RaftLog) : Prop :=
  ∀ i t, log.termAt i = some t → full.termAt i = some t → log.AgreesUpTo full i

theorem AgreesUpTo.mono (h : log.AgreesUpTo full n) (hk : k ≤ n) : log.AgreesUpTo full k :=
  fun i hi hf hn => h i hi hf (hn.trans hk)

theorem AgreesAt.of_entryAt (h : log.entryAt i = full.entryAt i) : log.AgreesAt full i :=
  ⟨by rw [termAt, h, termAt], fun _ _ => h⟩

-- Agreement below the point from which the log is rewritten.
theorem AgreesUpTo.congr (h : log.AgreesUpTo full n) (hf : log'.firstIndex = log.firstIndex)
    (he : ∀ i ≤ n, log'.entryAt i = log.entryAt i) : log'.AgreesUpTo full n := by
  intro i hi hfull hn
  obtain ⟨ht, hentry⟩ := h i (hf ▸ hi) hfull hn
  rw [AgreesAt, termAt, he i hn, hf]
  exact ⟨ht, hentry⟩

end RaftLog

-- What a log becomes that has merged the entries of a leader, once the check at index `p` has passed:
-- it agrees with the leader's log as far as the message goes, and no agreement is lost.
structure Aligns (log full : RaftLog) (n : ℕ) (log' : RaftLog) : Prop where
  contiguous    : log'.Contiguous
  firstIndex_eq : log'.firstIndex = log.firstIndex
  upTo          : log'.AgreesUpTo full n
  matches_full  : log'.Matches full
  keeps         : ∀ m, log.AgreesUpTo full m → log'.AgreesUpTo full m

theorem Merges.aligns (hm : Merges log (sent.entriesFrom (p + 1)) log' merge) (hc : log.Contiguous)
    (hf : full.Contiguous) (hg : sent.GrowsTo full) (hmatch : log.Matches full)
    (ht : log.termAt p = some t) (hs : sent.termAt p = some t) :
    Aligns log full sent.lastIndex log' := by
  have hsent := hg.contiguous hf
  have hp := hsent.bounds_of_termAt hs
  have hbase := (hc.bounds_of_termAt ht).left
  have hlt : sent.firstIndex < p + 1 := by omega
  have hcons := hsent.entriesFrom hlt
  have hlen : (sent.entriesFrom (p + 1)).length = sent.lastIndex - p := by
    rw [RaftLog.entriesFrom_of_lt hlt, List.length_drop, hsent.lastIndex_eq]
    omega
  -- The log holds, with the same term, the entry that precedes those that are new to it.
  have hheld : ∀ n ≤ sent.lastIndex - p, (∀ j < n, log.termAt (p + 1 + j) =
      ((sent.entriesFrom (p + 1))[j]?).map (·.term)) → log.AgreesUpTo full (p + n) := by
    intro n hn hj
    rcases n with _ | n
    case zero => exact hmatch p t ht (hg.termAt hs)
    case succ =>
      have hterm := hj n (Nat.lt_succ_self n)
      rw [RaftLog.entriesFrom_getElem? hlt] at hterm
      obtain ⟨e, he⟩ := Option.isSome_iff_exists.mp <|
        hsent.isSome_entryAt.mpr (show sent.firstIndex ≤ p + 1 + n ∧ p + 1 + n ≤ sent.lastIndex by omega)
      rw [he] at hterm
      have hfull : full.termAt (p + 1 + n) = some e.term := by simp [RaftLog.termAt, hg.entryAt he]
      exact (hmatch _ _ hterm hfull).mono (by omega)
  rcases hm.spec hcons with ⟨rfl, _, hall⟩ | ⟨n, hn, _, htrunc, hj, hne⟩
  case inl =>
    have hup := hheld _ le_rfl fun j hlt => hall j (hlen ▸ hlt)
    exact ⟨hc, rfl, hup.mono (by omega), hmatch, fun _ h => h⟩
  case inr =>
    have hle := hc.attach_le ht hn.le hj
    have hup := hheld n (by omega) hj
    obtain ⟨hc', hs', hlast⟩ := hc.truncateAndAppend (by omega) (hcons.drop n) htrunc
    have hfirst : log'.firstIndex = log.firstIndex := congrArg LogEntry.index hs'
    rw [List.length_drop, hlen] at hlast
    have hentry := fun i => hc.entryAt_truncateAndAppend (i := i) (by omega) htrunc
    have hbelow : ∀ i ≤ p + n, log'.entryAt i = log.entryAt i := by
      intro i hi
      rw [hentry, if_pos (by omega)]
    have habove : ∀ i, p + n < i → i ≤ sent.lastIndex → log'.entryAt i = full.entryAt i := by
      intro i hi hl
      obtain ⟨e, he⟩ := Option.isSome_iff_exists.mp <|
        hsent.isSome_entryAt.mpr (show sent.firstIndex ≤ i ∧ i ≤ sent.lastIndex by omega)
      rw [hg.entryAt he, hentry, if_neg (by omega), List.getElem?_drop, RaftLog.entriesFrom_getElem? hlt,
        show p + 1 + (n + (i - (p + 1 + n))) = i by omega, he]
    have hupTo : log'.AgreesUpTo full sent.lastIndex := by
      intro i hi hfull hl
      rcases Nat.lt_or_ge (p + n) i with hlt | hge
      · exact .of_entryAt <| habove i hlt hl
      · exact hup.congr hfirst hbelow i hi hfull hge
    refine ⟨hc', hfirst, hupTo, fun i t' hi _ => ?_, fun m hm => ?_⟩
    · have := (hc'.bounds_of_termAt hi).right
      exact hupTo.mono (by omega)
    · rcases Nat.lt_or_ge (p + n) m with hlt' | hge
      · -- The logs differ right after the entries that the log holds.
        have hat := (hm (p + 1 + n) (by omega) (by have := hg.firstIndex_eq; omega) (by omega)).left
        refine absurd ?_ hne
        obtain ⟨e, he⟩ := Option.isSome_iff_exists.mp <|
          hsent.isSome_entryAt.mpr (show sent.firstIndex ≤ p + 1 + n ∧ p + 1 + n ≤ sent.lastIndex by omega)
        rw [RaftLog.entriesFrom_getElem? hlt, he, hat, RaftLog.termAt, hg.entryAt he]
      · exact hm.congr hfirst fun i hi => hbelow i (by omega)

end RaftRupee
