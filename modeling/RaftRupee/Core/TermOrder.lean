import RaftRupee.Core.Backtracking
import RaftRupee.Core.Contacts

namespace RaftRupee

-- Entries whose terms do not decrease, from term `t` on.
def Ascends (t : ℕ) (es : List LogEntry) : Prop :=
  (∀ e ∈ es, t ≤ e.term) ∧ es.Pairwise (·.term ≤ ·.term)

theorem Ascends.drop {t : ℕ} {es : List LogEntry} (h : Ascends t es) (n : ℕ) : Ascends t (es.drop n) :=
  ⟨fun e he => h.left e (List.mem_of_mem_drop he), h.right.drop⟩

-- The entries that follow an entry.
theorem Ascends.drop_of_getElem? {t n : ℕ} {es : List LogEntry} {e : LogEntry} (h : Ascends t es)
    (he : es[n]? = some e) : Ascends e.term (es.drop (n + 1)) := by
  have hd := h.right.drop (i := n)
  rw [List.drop_eq_getElem?_toList_append, he] at hd
  exact List.pairwise_cons.mp hd

namespace RaftLog

variable {log dlog : RaftLog} {es rest : List LogEntry} {e : LogEntry} {i j t T n : ℕ}

/-! ### Logs whose terms do not decrease -/

theorem sorted_iff : log.Sorted ↔ Ascends log.sentinel.term log.rest :=
  List.pairwise_cons

theorem sorted_new : RaftLog.new.Sorted :=
  List.pairwise_singleton ..

-- Entries that follow an index do not come before the term at the index.
theorem Sorted.ascends (h : log.Sorted) (hi : log.firstIndex ≤ i) (ht : log.termAt i = some t) :
    Ascends t (log.rest.drop (i - log.firstIndex)) := by
  obtain ⟨e, he, rfl⟩ := Option.map_eq_some_iff.mp ht
  rw [entryAt, if_neg (by omega)] at he
  have hd := List.Pairwise.drop (i := i - log.firstIndex) h
  rw [List.drop_eq_getElem?_toList_append, he, entries, List.drop_succ_cons] at hd
  exact List.pairwise_cons.mp hd

-- The entries that follow an index are replaced.
theorem Sorted.splice (h : log.Sorted) (hj : log.firstIndex ≤ j) (ht : log.termAt j = some t)
    (hes : Ascends t es) : Sorted { log with rest := log.rest.take (j - log.firstIndex) ++ es } := by
  have htake : log.sentinel :: (log.rest.take (j - log.firstIndex) ++ es) =
      log.entries.take (j - log.firstIndex + 1) ++ es := by
    rw [entries, List.take_succ_cons, List.cons_append]
  change List.Pairwise _ (log.sentinel :: (log.rest.take (j - log.firstIndex) ++ es))
  rw [htake, List.pairwise_append]
  refine ⟨List.Pairwise.take h, hes.right, fun a ha b hb => ?_⟩
  obtain ⟨k, hk⟩ := List.mem_iff_getElem?.mp ha
  have hlt : k < j - log.firstIndex + 1 := by
    have := (List.getElem?_eq_some_iff.mp hk).choose
    rw [List.length_take] at this
    omega
  rw [List.getElem?_take_of_lt hlt] at hk
  -- The last entry that stays has term `t`.
  have hat : a.term ≤ t := by
    refine h.le (i := log.firstIndex + k) (j := j) (by omega) ?_ ht
    rw [termAt, entryAt, if_neg (by omega), Nat.add_sub_cancel_left, hk]
    rfl
  exact hat.trans (hes.left b hb)

theorem Sorted.compact (h : log.Sorted)
    (ht : log.firstIndex < i → ∀ e ∈ log.rest.drop (i - log.firstIndex), t ≤ e.term) :
    (log.compact i t).Sorted := by
  rcases Nat.lt_or_ge log.firstIndex i with hi | hi
  case inr => rwa [compact_of_le hi]
  case inl =>
    rw [compact_of_lt hi]
    exact sorted_iff.mpr ⟨ht hi, (sorted_iff.mp h).right.drop⟩

/-! ### Logs whose terms are bounded -/

theorem last_mem (log : RaftLog) : log.last ∈ log.entries :=
  List.getLastD_mem_cons

theorem termAt_getD_le (hb : ∀ e ∈ log.entries, e.term ≤ T) (i : ℕ) : (log.termAt i).getD 0 ≤ T := by
  rw [termAt, entryAt]
  split
  case isTrue  => exact Nat.zero_le _
  case isFalse =>
    cases he : log.entries[i - log.firstIndex]?
    case none   => exact Nat.zero_le _
    case some e => exact hb e (List.mem_of_getElem? he)

theorem compact_bounded (hb : ∀ e ∈ log.entries, e.term ≤ T) (ht : t ≤ T) :
    ∀ e ∈ (log.compact i t).entries, e.term ≤ T := by
  rcases Nat.lt_or_ge log.firstIndex i with hi | hi
  case inr => rwa [compact_of_le hi]
  case inl =>
    rw [compact_of_lt hi]
    exact List.forall_mem_cons.mpr
      ⟨ht, fun e he => hb e (List.mem_cons_of_mem _ (List.mem_of_mem_drop he))⟩

end RaftLog

/-! ### Logs with the same terms -/

namespace RaftLog

variable {log dlog log' : RaftLog} {es : List LogEntry} {e : LogEntry} {i t T : ℕ}

def terms (log : RaftLog) : List ℕ :=
  log.entries.map (·.term)

theorem termAt_eq (h : log.firstIndex ≤ i) : log.termAt i = log.terms[i - log.firstIndex]? := by
  rw [termAt, entryAt, if_neg (by omega), terms, List.getElem?_map]

theorem Sorted.of_prefix (h : dlog.Sorted) (hp : log.terms <+: dlog.terms) : log.Sorted := by
  have hs : dlog.terms.Pairwise (· ≤ ·) := List.pairwise_map.mpr h
  exact List.pairwise_map.mp <| hs.sublist hp.sublist

-- The log on disk starts like the one in memory, as far as terms go.
structure Continues (dlog log : RaftLog) : Prop where
  sentinel : dlog.sentinel = log.sentinel
  terms    : log.terms <+: dlog.terms

namespace Continues

theorem refl (log : RaftLog) : log.Continues log :=
  ⟨rfl, List.prefix_rfl⟩

variable (h : dlog.Continues log)
include h

theorem firstIndex_eq : dlog.firstIndex = log.firstIndex :=
  congrArg LogEntry.index h.sentinel

theorem termAt (ht : log.termAt i = some t) : dlog.termAt i = some t := by
  have hi : log.firstIndex ≤ i := by
    by_contra hlt
    rw [RaftLog.termAt, entryAt, if_pos (not_le.mp hlt)] at ht
    contradiction
  rw [termAt_eq hi] at ht
  rw [termAt_eq (h.firstIndex_eq.trans_le hi), h.firstIndex_eq]
  exact h.terms.getElem?_eq_some ht

theorem length_le : log.rest.length ≤ dlog.rest.length := by
  have := h.terms.length_le
  simp only [RaftLog.terms, entries, List.length_map, List.length_cons] at this
  omega

theorem lastIndex_le (hc : log.Contiguous) (hd : dlog.Contiguous) : log.lastIndex ≤ dlog.lastIndex := by
  rw [hc.lastIndex_eq, hd.lastIndex_eq, h.firstIndex_eq]
  exact Nat.add_le_add_left h.length_le _

theorem bounded (hb : ∀ e ∈ dlog.entries, e.term ≤ T) : ∀ e ∈ log.entries, e.term ≤ T := by
  have hb : ∀ t ∈ dlog.terms, t ≤ T := List.forall_mem_map.mpr hb
  exact fun e he => hb _ <| h.terms.subset <| List.mem_map_of_mem he

theorem sorted (hs : dlog.Sorted) : log.Sorted :=
  hs.of_prefix h.terms

-- The rest of the terms.
theorem rest_prefix : log.rest.map (·.term) <+: dlog.rest.map (·.term) := by
  have := h.terms
  simp only [RaftLog.terms, entries, List.map_cons] at this
  exact (List.cons_prefix_cons.mp this).right

theorem of_rest {rest rest' : List LogEntry} (hp : rest.map (·.term) <+: rest'.map (·.term)) :
    Continues { dlog with rest := rest' } { log with rest := rest } where
  sentinel := h.sentinel
  terms    := by
    simp only [RaftLog.terms, entries, List.map_cons]
    rw [h.sentinel]
    exact List.cons_prefix_cons.mpr ⟨rfl, hp⟩

-- An entry is appended in memory. On disk an entry of this term may be there already.
theorem append (e : LogEntry) :
    let rest := if (dlog.rest[log.rest.length]?).map (·.term) = some e.term then dlog.rest else
      dlog.rest.take log.rest.length ++ [e]
    Continues { dlog with rest } (log.append [e]) := by
  intro rest
  refine h.of_rest ?_
  obtain ⟨after, hafter⟩ := h.rest_prefix
  rw [List.map_append]
  by_cases hheld : (dlog.rest[log.rest.length]?).map (·.term) = some e.term
  case pos =>
    simp only [rest, if_pos hheld]
    rw [← List.getElem?_map, ← hafter, List.getElem?_append_right (by simp), List.length_map, Nat.sub_self]
      at hheld
    obtain ⟨after', rfl⟩ : ∃ after', after = e.term :: after' := by
      cases after <;> simp_all
    exact ⟨after', by simp [← hafter]⟩
  case neg =>
    simp only [rest, if_neg hheld, List.map_append, List.map_take, ← hafter]
    rw [List.take_left' (by simp)]

-- Both logs are cut at the same index, which the one in memory reaches.
theorem splice {n : ℕ} (hn : n ≤ log.rest.length) (es : List LogEntry) :
    Continues { dlog with rest := dlog.rest.take n ++ es } { log with rest := log.rest.take n ++ es } := by
  refine h.of_rest ?_
  obtain ⟨after, hafter⟩ := h.rest_prefix
  simp only [List.map_append, List.map_take, ← hafter]
  rw [List.take_append_of_le_length (by simpa using hn)]

theorem compact (i t : ℕ) : (dlog.compact i t).Continues (log.compact i t) := by
  have hsent : (dlog.compact i t).sentinel = (log.compact i t).sentinel := sentinel_compact_congr h.sentinel
  refine ⟨hsent, ?_⟩
  simp only [RaftLog.terms, entries, List.map_cons, hsent, rest_compact, h.firstIndex_eq, List.map_drop]
  exact List.cons_prefix_cons.mpr ⟨rfl, h.rest_prefix.drop _⟩

end Continues
end RaftLog

/-! ### Messages -/

-- The entries of a message have no gaps, and their terms are at most that of the message. With `S`,
-- the terms do not decrease.
structure Message.Orderly (S : Prop) (msg : Message) : Prop where
  consecutive : ∀ i t es c, msg.kind = .appendEntries i t es c → Consecutive (i + 1) es
  bounded     : ∀ i t es c, msg.kind = .appendEntries i t es c → ∀ e ∈ es, e.term ≤ msg.term
  ascends     : S → ∀ i t es c, msg.kind = .appendEntries i t es c → Ascends t es
  snapshot    : ∀ i t o data done, msg.kind = .installSnapshot i t o data done → t ≤ msg.term

theorem Message.orderly_of_not_fromLeader {S : Prop} {msg : Message} (h : ¬msg.kind.fromLeader) :
    msg.Orderly S := by
  constructor <;> intros <;> simp_all [MessageKind.fromLeader]

-- What a leader with such a log sends.
theorem Replicates.orderly {S : Prop} {k : Kernel} {msg : Message} (h : Replicates k (.send msg))
    (hc : k.log.Contiguous) (hb : ∀ e ∈ k.log.entries, e.term ≤ k.currentTerm) (hs : S → k.log.Sorted) :
    msg.Orderly S := by
  cases h
  case snapshot snap hsnap =>
    refine ⟨?_, ?_, fun _ => ?_, fun i t o data done hk => ?_⟩
    case refine_1 | refine_2 | refine_3 =>
      intro _ _ _ _ hk
      cases hk
    simp only [Kernel.message, MessageKind.installSnapshot.injEq] at hk
    rw [← hk.right.left, ← hsnap, RaftLog.snapshotMeta]
    split
    case isTrue  => exact Nat.zero_le _
    case isFalse => exact hb _ List.mem_cons_self
  case entries next hn =>
    refine ⟨fun i t es c hk => ?_, fun i t es c hk => ?_, fun hS i t es c hk => ?_,
      fun i t o data done hk => by cases hk⟩
    all_goals
      simp only [Kernel.message, MessageKind.appendEntries.injEq] at hk
      obtain ⟨rfl, rfl, rfl, _⟩ := hk
    · rw [Nat.sub_add_cancel (by omega)]
      exact hc.entriesFrom hn
    · exact fun e he => hb e <| List.mem_cons_of_mem _ <| k.log.entriesFrom_subset next he
    · have hoffset : next - k.log.firstIndex - 1 = next - 1 - k.log.firstIndex := by omega
      rw [RaftLog.entriesFrom_of_lt hn, hoffset]
      cases ht : k.log.termAt (next - 1)
      case some t => exact (hs hS).ascends (by omega) ht
      case none   =>
        -- A leader that probes beyond its log has no entries to send.
        have hlen : k.log.rest.length ≤ next - 1 - k.log.firstIndex := by
          rw [RaftLog.termAt, RaftLog.entryAt, if_neg (by omega), Option.map_eq_none_iff,
            List.getElem?_eq_none_iff, RaftLog.entries, List.length_cons] at ht
          omega
        rw [List.drop_eq_nil_of_le hlen]
        exact ⟨by simp, .nil⟩

end RaftRupee
