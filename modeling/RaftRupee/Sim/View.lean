import RaftRupee.Core.Contiguous
import RaftRupee.Lib.Replication.Entry

namespace RaftRupee

open Replication

instance : Replication.Entry LogEntry where
  term := LogEntry.term

-- The log of a node is what compaction has left of a complete log, in which the entry with index `i` is
-- at position `i - 1`.
structure View (log : RaftLog) (full : List LogEntry) : Prop where
  contiguous : log.Contiguous
  base_le    : log.firstIndex ≤ full.length
  base_term  : log.sentinel.term = lastTerm (full.take log.firstIndex)
  rest       : log.rest = full.drop log.firstIndex

namespace View

variable {log log' : RaftLog} {full es M : List LogEntry} {as : List Action} {e : LogEntry}
variable {i t n next : ℕ}

theorem new : View .new [] :=
  ⟨trivial, le_rfl, rfl, rfl⟩

/-! ### Reading -/

theorem lastIndex (v : View log full) : log.lastIndex = full.length := by
  have := v.base_le
  rw [v.contiguous.lastIndex_eq, v.rest, List.length_drop]
  omega

theorem entryAt (v : View log full) (h : log.firstIndex < i) : log.entryAt i = full[i - 1]? := by
  rw [RaftLog.entryAt_of_lt h, v.rest, List.getElem?_drop,
    show log.firstIndex + (i - log.firstIndex - 1) = i - 1 by omega]

theorem termAt (v : View log full) (h : log.firstIndex ≤ i) (hl : i ≤ full.length) :
    log.termAt i = some (lastTerm (full.take i)) := by
  rcases h.eq_or_lt with rfl | h
  case inl => rw [RaftLog.termAt_firstIndex, v.base_term]
  case inr =>
    obtain ⟨j, rfl⟩ : ∃ j, i = j + 1 := ⟨i - 1, by omega⟩
    have he : full[j]? = some full[j] := List.getElem?_eq_getElem _
    rw [RaftLog.termAt, v.entryAt h, Nat.add_sub_cancel, he, lastTerm_take he]
    rfl

theorem of_termAt (v : View log full) (h : log.termAt i = some t) :
    log.firstIndex ≤ i ∧ i ≤ full.length ∧ t = lastTerm (full.take i) := by
  obtain ⟨hb, hl⟩ := v.contiguous.bounds_of_termAt h
  rw [v.lastIndex] at hl
  rw [v.termAt hb hl, Option.some.injEq] at h
  exact ⟨hb, hl, h.symm⟩

theorem lastTerm_eq (v : View log full) : log.lastTerm = lastTerm full := by
  have h := v.contiguous.termAt_lastIndex
  rw [v.lastIndex, v.termAt v.base_le le_rfl, List.take_length, Option.some.injEq] at h
  exact h.symm

theorem entriesFrom (v : View log full) (h : log.firstIndex < next) :
    log.entriesFrom next = full.drop (next - 1) := by
  rw [RaftLog.entriesFrom_of_lt h, v.rest, List.drop_drop,
    show log.firstIndex + (next - log.firstIndex - 1) = next - 1 by omega]

theorem getElem?_of_mem (v : View log full) (he : e ∈ log.rest) :
    log.firstIndex < e.index ∧ full[e.index - 1]? = some e := by
  obtain ⟨j, hj⟩ := List.mem_iff_getElem?.mp he
  have hindex := v.contiguous.index_eq hj
  rw [v.rest, List.getElem?_drop] at hj
  refine ⟨by omega, ?_⟩
  rw [← hj, hindex]
  congr 1
  omega

/-! ### Writing -/

theorem append (v : View log full) (he : Consecutive (log.lastIndex + 1) es) :
    View (log.append es) (full ++ es) where
  contiguous := v.contiguous.append he
  base_le    := v.base_le.trans <| by simp
  base_term  := by
    rw [RaftLog.firstIndex_append, List.take_append_of_le_length v.base_le]
    exact v.base_term
  rest       := by
    rw [RaftLog.firstIndex_append, List.drop_append_of_le_length v.base_le, ← v.rest]
    rfl

theorem truncateAndAppend (v : View log full) (hi : log.firstIndex < i) (hl : i ≤ full.length + 1)
    (he : Consecutive i es) (ht : log.truncateAndAppend i es = some log') :
    View log' (full.take (i - 1) ++ es) := by
  have hc := (v.contiguous.truncateAndAppend (by rwa [v.lastIndex]) he ht).left
  rw [RaftLog.truncateAndAppend_eq hi, Option.some.injEq] at ht
  have hlen : (full.take (i - 1)).length = i - 1 := by
    rw [List.length_take]
    omega
  have hfirst : log'.firstIndex = log.firstIndex := ht ▸ rfl
  refine ⟨hc, ?_, ?_, ?_⟩
  · rw [hfirst, List.length_append, hlen]
    omega
  · rw [hfirst, List.take_append_of_le_length (by omega), List.take_take,
      Nat.min_eq_left (by omega), ← v.base_term, ← ht]
  · rw [hfirst, List.drop_append_of_le_length (by omega), ← ht, v.rest, List.drop_take,
      show i - log.firstIndex - 1 = i - 1 - log.firstIndex by omega]

theorem compact (v : View log full) (hi : log.firstIndex ≤ i) (hl : i ≤ full.length)
    (ht : t = lastTerm (full.take i)) : View (log.compact i t) full := by
  rcases hi.eq_or_lt with rfl | hi
  case inl => rwa [RaftLog.compact_of_le le_rfl]
  case inr =>
    have hf := log.firstIndex_compact i t
    rw [max_eq_right hi.le] at hf
    refine ⟨v.contiguous.compact, by rwa [hf], ?_, ?_⟩
    · rw [hf, RaftLog.sentinel_compact hi, ht]
    · rw [hf, RaftLog.rest_compact, v.rest, List.drop_drop,
        show log.firstIndex + (i - log.firstIndex) = i by omega]

theorem installSnapshot (hl : full.length = i) (ht : t = lastTerm full) :
    View (log.installSnapshot { lastIncludedIndex := i, lastIncludedTerm := t }) full := by
  subst hl
  exact ⟨trivial, le_rfl, by simp [RaftLog.installSnapshot, RaftLog.firstIndex, ht],
    by simp [RaftLog.installSnapshot, RaftLog.firstIndex]⟩

/-! ### Sending and receiving -/

-- The sender of a snapshot has the snapshot's log as a prefix of its own.
theorem snapshotMeta (v : View log full) : log.snapshotMeta.getD
    { lastIncludedIndex := 0, lastIncludedTerm := 0 } =
      { lastIncludedIndex := log.firstIndex
        lastIncludedTerm  := lastTerm (full.take log.firstIndex) } := by
  rw [RaftLog.snapshotMeta]
  split
  case isTrue h =>
    have h : log.firstIndex = 0 := h
    simp [h]
  case isFalse => simp [v.base_term, RaftLog.firstIndex]

-- A merge makes the log an extension of the leader's, or replaces it by the leader's.
theorem merge (v : View log full) (h : Merges log es log' as) (ha : Agree full M)
    (ht : log.termAt i = some t) (hi : i ≤ M.length) (hM : t = lastTerm (M.take i))
    (hes : es = M.drop i) (hc : Consecutive (i + 1) es) :
    log' = log ∧ as = [] ∧ M <+: full ∨
      ∃ n, as = [.truncateAndAppend (i + 1 + n) (es.drop n)] ∧ i + n < M.length ∧
        i + n ≤ log.lastIndex ∧
        log.truncateAndAppend (i + 1 + n) (es.drop n) = some log' ∧ View log' M ∧
        (full.length ≤ M.length ∨ ¬M <+: full) := by
  obtain ⟨hb, hl, hti⟩ := v.of_termAt ht
  have hpre : full.take i = M.take i := ha.take_eq_of_lastTerm hl hi <| by rw [← hti, hM]
  have hlen : es.length = M.length - i := by simp [hes]
  -- Matching terms in the log and in the message are matching terms in the complete logs.
  have hterms : ∀ n ≤ es.length,
      (∀ j < n, log.termAt (i + 1 + j) = (es[j]?).map (·.term)) → full.take (i + n) = M.take (i + n) := by
    intro n hn hm
    refine ha.take_add hpre fun j hj => ?_
    have hj := hm j hj
    have hMj : M[i + j]? = some M[i + j] := List.getElem?_eq_getElem (by omega)
    rw [hes, List.getElem?_drop, hMj, RaftLog.termAt, v.entryAt (by omega),
      show i + 1 + j - 1 = i + j by omega] at hj
    obtain ⟨e, he, het⟩ := Option.map_eq_some_iff.mp hj
    exact ⟨e, _, he, hMj, het⟩
  rcases h.spec hc with ⟨rfl, rfl, hm⟩ | ⟨n, hn, rfl, htrunc, hm, hne⟩
  case inl =>
    refine .inl ⟨rfl, rfl, ?_⟩
    have := hterms _ le_rfl hm
    rw [hlen, show i + (M.length - i) = M.length by omega, List.take_length] at this
    exact this ▸ List.take_prefix ..
  case inr =>
    have hle := v.contiguous.attach_le ht hn.le hm
    have hpre' := hterms n hn.le hm
    have hlast := v.lastIndex
    have hv := v.truncateAndAppend (by omega) (by omega) (hc.drop n) htrunc
    rw [show i + 1 + n - 1 = i + n by omega, hpre', hes, List.drop_drop, List.take_append_drop] at hv
    refine .inr ⟨n, rfl, by omega, by omega, htrunc, hv, ?_⟩
    -- If the log went on with the leader's entry, it would not have been replaced there.
    by_contra hc
    obtain ⟨hlen', hp⟩ := not_or.mp hc
    have hp := not_not.mp hp
    refine hne ?_
    have hen : es[n]? = M[i + n]? := by rw [hes, List.getElem?_drop]
    have hMn : M[i + n]? = some M[i + n] := List.getElem?_eq_getElem (by omega)
    rw [hen, RaftLog.termAt, v.entryAt (by omega), show i + 1 + n - 1 = i + n by omega, hMn,
      hp.getElem?_eq_some hMn]

end View
end RaftRupee
