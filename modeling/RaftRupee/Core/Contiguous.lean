import RaftRupee.Core.Moves

namespace RaftRupee

-- Entries whose indices count up from `i`.
def Consecutive : ℕ → List LogEntry → Prop
  | _, []      => True
  | i, e :: es => e.index = i ∧ Consecutive (i + 1) es

namespace Consecutive

variable {i j : ℕ} {es es' : List LogEntry} {e : LogEntry}

theorem append : Consecutive i (es ++ es') ↔ Consecutive i es ∧ Consecutive (i + es.length) es' := by
  induction es generalizing i
  case nil => simp [Consecutive]
  case cons e es hi =>
    simp only [List.cons_append, Consecutive, hi, List.length_cons, and_assoc]
    rw [show i + 1 + es.length = i + (es.length + 1) by omega]

theorem take (h : Consecutive i es) (n : ℕ) : Consecutive i (es.take n) := by
  rw [← List.take_append_drop n es] at h
  exact (append.mp h).left

theorem drop (h : Consecutive i es) (n : ℕ) : Consecutive (i + n) (es.drop n) := by
  rcases Nat.le_total n es.length with hn | hn
  case inr => simp [List.drop_eq_nil_of_le hn, Consecutive]
  case inl =>
    rw [← List.take_append_drop n es] at h
    simpa [hn] using (append.mp h).right

theorem index_eq (h : Consecutive i es) (he : es[j]? = some e) : e.index = i + j := by
  have hj : j < es.length := (List.getElem?_eq_some_iff.mp he).choose
  have hd := h.drop j
  rw [List.drop_eq_getElem?_toList_append, he] at hd
  exact hd.left

theorem index_mem (h : Consecutive i es) (he : e ∈ es) : i ≤ e.index ∧ e.index < i + es.length := by
  obtain ⟨j, hj⟩ := List.mem_iff_getElem?.mp he
  have : j < es.length := (List.getElem?_eq_some_iff.mp hj).choose
  have := h.index_eq hj
  omega

end Consecutive

namespace RaftLog

variable {log log' : RaftLog} {es : List LogEntry} {e : LogEntry} {i t T n : ℕ}

-- What the arithmetic on indices in `log.rs` relies on.
def Contiguous (log : RaftLog) : Prop :=
  Consecutive (log.firstIndex + 1) log.rest

theorem Contiguous.lastIndex_eq (h : log.Contiguous) :
    log.lastIndex = log.firstIndex + log.rest.length := by
  unfold lastIndex last
  rcases List.eq_nil_or_concat log.rest with hr | ⟨es, e, hr⟩
  case inl => simp [hr, firstIndex]
  case inr =>
    rw [List.concat_eq_append] at hr
    have := h.index_eq (j := es.length) (e := e) <| by simp [hr]
    simp [hr, this]
    omega

/-! ### Reading a log -/

@[simp]
theorem entryAt_firstIndex (log : RaftLog) : log.entryAt log.firstIndex = some log.sentinel := by
  simp [entryAt, entries]

theorem entryAt_of_lt (h : log.firstIndex < i) :
    log.entryAt i = log.rest[i - log.firstIndex - 1]? := by
  rw [entryAt, if_neg (by omega), entries, List.getElem?_cons, if_neg (by omega)]

@[simp]
theorem termAt_firstIndex (log : RaftLog) : log.termAt log.firstIndex = some log.sentinel.term := by
  simp [termAt]

theorem Contiguous.isSome_entryAt (h : log.Contiguous) :
    (log.entryAt i).isSome ↔ log.firstIndex ≤ i ∧ i ≤ log.lastIndex := by
  rw [h.lastIndex_eq, entryAt]
  split <;> simp [entries] <;> omega

theorem Contiguous.bounds_of_termAt (h : log.Contiguous) (ht : log.termAt i = some t) :
    log.firstIndex ≤ i ∧ i ≤ log.lastIndex := by
  obtain ⟨_, he, _⟩ := Option.map_eq_some_iff.mp ht
  exact h.isSome_entryAt.mp <| by simp [he]

theorem Contiguous.entryAt_lastIndex (h : log.Contiguous) :
    log.entryAt log.lastIndex = some log.last := by
  have hl := h.lastIndex_eq
  rcases List.eq_nil_or_concat log.rest with hr | ⟨es, e, hr⟩
  case inl =>
    rw [hr, List.length_nil, Nat.add_zero] at hl
    rw [hl, entryAt_firstIndex, last, hr]
    rfl
  case inr =>
    rw [List.concat_eq_append] at hr
    rw [entryAt_of_lt (by simp [hl, hr]), hl]
    simp [last, hr]

theorem Contiguous.termAt_lastIndex (h : log.Contiguous) :
    log.termAt log.lastIndex = some log.lastTerm := by
  simp [termAt, h.entryAt_lastIndex, lastTerm]

theorem entriesFrom_of_lt (h : log.firstIndex < i) :
    log.entriesFrom i = log.rest.drop (i - log.firstIndex - 1) := by
  rw [entriesFrom, if_neg (by omega), entries,
    show i - log.firstIndex = i - log.firstIndex - 1 + 1 by omega, List.drop_succ_cons]
  simp

theorem entriesFrom_of_le (h : i ≤ log.firstIndex) : log.entriesFrom i = log.rest := by
  simp [entriesFrom, h]

theorem entriesFrom_subset (log : RaftLog) (i : ℕ) : log.entriesFrom i ⊆ log.rest := by
  rcases Nat.lt_or_ge log.firstIndex i with h | h
  · exact entriesFrom_of_lt h ▸ List.drop_subset ..
  · exact entriesFrom_of_le h ▸ List.Subset.refl _

theorem Contiguous.entriesFrom (h : log.Contiguous) (hi : log.firstIndex < i) :
    Consecutive i (log.entriesFrom i) := by
  rw [entriesFrom_of_lt hi]
  have := h.drop (i - log.firstIndex - 1)
  rwa [show log.firstIndex + 1 + (i - log.firstIndex - 1) = i by omega] at this

/-! ### Writing a log -/

@[simp]
theorem firstIndex_append : (log.append es).firstIndex = log.firstIndex :=
  rfl

theorem Contiguous.append (h : log.Contiguous) (he : Consecutive (log.lastIndex + 1) es) :
    (log.append es).Contiguous := by
  rw [h.lastIndex_eq] at he
  refine Consecutive.append.mpr ⟨h, ?_⟩
  rwa [show log.firstIndex + log.rest.length + 1 = log.firstIndex + 1 + log.rest.length by omega] at he

theorem Contiguous.lastIndex_append (h : log.Contiguous) (he : Consecutive (log.lastIndex + 1) es) :
    (log.append es).lastIndex = log.lastIndex + es.length := by
  rw [(h.append he).lastIndex_eq, h.lastIndex_eq, firstIndex_append]
  simp [RaftLog.append]
  omega

theorem truncateAndAppend_eq (h : log.firstIndex < i) : log.truncateAndAppend i es =
    some { log with rest := log.rest.take (i - log.firstIndex - 1) ++ es } :=
  if_pos h

theorem Contiguous.truncateAndAppend (h : log.Contiguous) (hl : i ≤ log.lastIndex + 1)
    (he : Consecutive i es) (ht : log.truncateAndAppend i es = some log') :
    log'.Contiguous ∧ log'.sentinel = log.sentinel ∧ log'.lastIndex + 1 = i + es.length := by
  unfold RaftLog.truncateAndAppend at ht
  split at ht
  case isFalse => contradiction
  case isTrue hi =>
    cases ht
    rw [h.lastIndex_eq] at hl
    have hlen : (log.rest.take (i - log.firstIndex - 1)).length = i - log.firstIndex - 1 := by
      simp
      omega
    have hc : Contiguous { log with rest := log.rest.take (i - log.firstIndex - 1) ++ es } := by
      refine Consecutive.append.mpr ⟨Consecutive.take h _, ?_⟩
      rw [hlen]
      change Consecutive (log.firstIndex + 1 + (i - log.firstIndex - 1)) es
      rwa [show log.firstIndex + 1 + (i - log.firstIndex - 1) = i by omega]
    refine ⟨hc, rfl, ?_⟩
    rw [hc.lastIndex_eq, List.length_append, hlen]
    change log.firstIndex + _ + 1 = _
    omega

theorem compact_of_le (h : i ≤ log.firstIndex) : log.compact i t = log := by
  simp [compact, h]

theorem compact_of_lt (h : log.firstIndex < i) : log.compact i t =
    { sentinel := { index := i, term := t, command := [] }
      rest     := log.rest.drop (i - log.firstIndex) } := by
  rw [compact, if_neg (by omega)]
  dsimp only
  split
  case isTrue hl =>
    have hl : log.rest.length + 1 ≤ i - log.firstIndex := by simpa [entries] using hl
    simp
    omega
  case isFalse =>
    obtain ⟨n, hn⟩ : ∃ n, i - log.firstIndex = n + 1 := ⟨i - log.firstIndex - 1, by omega⟩
    simp [entries, hn]

theorem sentinel_compact (h : log.firstIndex < i) :
    (log.compact i t).sentinel = { index := i, term := t, command := [] } := by
  rw [compact_of_lt h]

@[simp]
theorem firstIndex_compact (log : RaftLog) (i t : ℕ) :
    (log.compact i t).firstIndex = max log.firstIndex i := by
  rcases Nat.lt_or_ge log.firstIndex i with hi | hi
  case inl => rw [firstIndex, sentinel_compact hi, max_eq_right hi.le]
  case inr => rw [compact_of_le hi, max_eq_left hi]

@[simp]
theorem rest_compact (log : RaftLog) (i t : ℕ) :
    (log.compact i t).rest = log.rest.drop (i - log.firstIndex) := by
  rcases Nat.lt_or_ge log.firstIndex i with hi | hi
  case inl => rw [compact_of_lt hi]
  case inr => rw [compact_of_le hi, Nat.sub_eq_zero_of_le hi, List.drop_zero]

theorem command_compact (h : log.sentinel.command = []) :
    (log.compact i t).sentinel.command = [] := by
  rcases Nat.lt_or_ge log.firstIndex i with hi | hi
  case inl => rw [sentinel_compact hi]
  case inr => rwa [compact_of_le hi]

theorem sentinel_compact_congr (h : log'.sentinel = log.sentinel) :
    (log'.compact i t).sentinel = (log.compact i t).sentinel := by
  have hf : log'.firstIndex = log.firstIndex := congrArg LogEntry.index h
  rcases Nat.lt_or_ge log.firstIndex i with hi | hi
  case inl => rw [sentinel_compact hi, sentinel_compact (by omega)]
  case inr => rw [compact_of_le hi, compact_of_le (by omega), h]

theorem entryAt_compact {j : ℕ} (hj : (log.compact i t).firstIndex < j) :
    (log.compact i t).entryAt j = log.entryAt j := by
  have hf := log.firstIndex_compact i t
  rw [entryAt_of_lt hj, entryAt_of_lt (by omega), rest_compact, List.getElem?_drop]
  congr 1
  omega

-- The term that the log reports at an index is that of its base, if the index is.
theorem sentinel_term_of_termAt (h : t = (log.termAt i).getD 0) (hi : i = log.firstIndex) :
    t = log.sentinel.term := by
  rw [h, hi, termAt_firstIndex]
  rfl

theorem Contiguous.compact (h : log.Contiguous) : (log.compact i t).Contiguous := by
  have := h.drop (i - log.firstIndex)
  rwa [show log.firstIndex + 1 + (i - log.firstIndex) = max log.firstIndex i + 1 by omega,
    ← log.firstIndex_compact i t, ← log.rest_compact i t] at this

theorem Contiguous.lastIndex_compact (h : log.Contiguous) :
    (log.compact i t).lastIndex = max i log.lastIndex := by
  rw [h.compact.lastIndex_eq, h.lastIndex_eq, firstIndex_compact, rest_compact, List.length_drop]
  omega

-- A snapshot that covers the whole log replaces it.
theorem Contiguous.compact_eq_installSnapshot (h : log.Contiguous) (hi : log.firstIndex < i)
    (hl : log.lastIndex ≤ i) :
    log.compact i t = log.installSnapshot { lastIncludedIndex := i, lastIncludedTerm := t } := by
  rw [h.lastIndex_eq] at hl
  rw [compact_of_lt hi, List.drop_eq_nil_of_le (by omega)]
  rfl

/-! ### Attaching entries -/

-- The loop skips the entries that the log already holds.
theorem attachIndex_eq (log : RaftLog) (he : Consecutive i es) : ∃ n ≤ es.length,
    log.attachIndex i es = i + n ∧
      (∀ j < n, log.termAt (i + j) = (es[j]?).map (·.term)) ∧
      (n < es.length → log.termAt (i + n) ≠ (es[n]?).map (·.term)) := by
  induction es generalizing i
  case nil => exact ⟨0, le_rfl, rfl, by simp, by simp⟩
  case cons e es hi =>
    obtain ⟨hei, hes⟩ := he
    rw [attachIndex]
    split
    case isFalse ht =>
      rw [hei] at ht
      exact ⟨0, Nat.zero_le _, rfl, by simp, fun _ => by simpa using ht⟩
    case isTrue ht =>
      obtain ⟨n, hn, ha, hm, hne⟩ := hi hes
      refine ⟨n + 1, by simpa using hn, by rw [hei, ha]; omega, fun j hj => ?_, fun hl => ?_⟩
      · rcases j with _ | j
        · simpa [hei] using ht
        · simpa [show i + (j + 1) = i + 1 + j by omega] using hm j (by omega)
      · simpa [show i + (n + 1) = i + 1 + n by omega] using hne (by simpa using hl)

end RaftLog

-- What a merge does to the entries that follow index `i`: all of them are held already, or the first
-- `n` are, and the log is replaced from there on.
theorem Merges.spec {log log' : RaftLog} {es : List LogEntry} {as : List Action} {i : ℕ}
    (h : Merges log es log' as) (he : Consecutive (i + 1) es) :
    (log' = log ∧ as = [] ∧ ∀ j < es.length, log.termAt (i + 1 + j) = (es[j]?).map (·.term)) ∨
      ∃ n < es.length, as = [.truncateAndAppend (i + 1 + n) (es.drop n)] ∧
        log.truncateAndAppend (i + 1 + n) (es.drop n) = some log' ∧
        (∀ j < n, log.termAt (i + 1 + j) = (es[j]?).map (·.term)) ∧
        log.termAt (i + 1 + n) ≠ (es[n]?).map (·.term) := by
  obtain ⟨n, hn, ha, hm, hne⟩ := log.attachIndex_eq he
  cases h
  case nil => exact .inl ⟨rfl, rfl, by simp⟩
  case keep e es hk =>
    rw [he.left] at hk
    rw [ha] at hk
    have : n = (e :: es).length := by omega
    exact .inl ⟨rfl, rfl, this ▸ hm⟩
  case splice offset hatt ho hl hs ht =>
    rw [he.left, ha] at hatt
    have hno : n = offset := by
      rw [← hatt, he.left] at ho
      exact Nat.add_left_cancel ho
    subst hatt hs hno
    exact .inr ⟨n, hl, rfl, ht, hm, hne hl⟩

-- The entries that are held already do not reach beyond the log.
theorem RaftLog.Contiguous.attach_le {log : RaftLog} {es : List LogEntry} {i t n : ℕ}
    (h : log.Contiguous) (ht : log.termAt i = some t) (hn : n ≤ es.length)
    (hm : ∀ j < n, log.termAt (i + 1 + j) = (es[j]?).map (·.term)) : i + n ≤ log.lastIndex := by
  rcases n with _ | n
  case zero => exact (h.bounds_of_termAt ht).right
  case succ =>
    have hj := hm n (by omega)
    rw [List.getElem?_eq_getElem (by omega)] at hj
    have := (h.bounds_of_termAt hj).right
    omega

end RaftRupee
