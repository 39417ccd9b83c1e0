import RaftRupee.Lib.Replication.Matching

namespace Replication

open Entry

variable {N E : Type*} [Entry E] {Q : QuorumSystem N} {g g' : State N E}
variable {n : N} {T T' k c : ℕ} {log : List E}

namespace State

-- The `k`-th entry of the leader's log in term `T` is of term `T` itself.
def Own (g : State N E) (T k : ℕ) : Prop :=
  0 < k ∧ ∃ e, (g.line T)[k - 1]? = some e ∧ Entry.term e = T

-- A quorum has acknowledged the prefix of length `k` in term `T`, or still can.
def Alive (Q : QuorumSystem N) (g : State N E) (T k : ℕ) : Prop :=
  ∃ q ∈ Q, ∀ n ∈ q, k ≤ g.acked n T ∨ g.term n ≤ T

def Committed (Q : QuorumSystem N) (g : State N E) (T k : ℕ) : Prop :=
  g.Own T k ∧ ∃ q ∈ Q, ∀ n ∈ q, k ≤ g.acked n T

theorem Committed.alive (h : g.Committed Q T k) : g.Alive Q T k :=
  have ⟨_, q, hq, h⟩ := h
  ⟨q, hq, fun n hn => .inl <| h n hn⟩

theorem Own.le_length (h : g.Own T k) : k ≤ (g.line T).length := by
  obtain ⟨h0, _, he, _⟩ := h
  have := (List.getElem?_eq_some_iff.mp he).choose
  omega

theorem Own.of_prefix (hp : g.line T <+: g'.line T) (hk : k ≤ (g.line T).length)
    (h : g'.Own T k) : g.Own T k := by
  obtain ⟨h0, e, he, ht⟩ := h
  have hi := hp.getElem?_eq_of_lt (i := k - 1) (by omega)
  exact ⟨h0, e, hi.symm.trans he, ht⟩

theorem Own.mono (hp : g.line T <+: g'.line T) (h : g.Own T k) : g'.Own T k := by
  obtain ⟨h0, e, he, ht⟩ := h
  exact ⟨h0, e, hp.getElem?_eq_some he, ht⟩

end State

open State

section

variable [DecidableEq N]

namespace Step

-- A prefix that cannot be acknowledged by a quorum any more never will be.
theorem alive (s : Step Q g g') (h : g'.Alive Q T k) : g.Alive Q T k := by
  obtain ⟨q, hq, h⟩ := h
  refine ⟨q, hq, fun n hn => ?_⟩
  rcases h n hn with ha | ht
  case inr => exact .inr <| (s.term_le n).trans ht
  case inl =>
    rcases (s.acked_le n T).eq_or_lt with he | hlt
    · exact .inl <| he ▸ ha
    · exact .inr (s.term_eq_of_acked_lt hlt).left.le

theorem committed (s : Step Q g g') (h : g.Committed Q T k) : g'.Committed Q T k := by
  obtain ⟨ho, q, hq, h⟩ := h
  exact ⟨ho.mono <| s.line_prefix T, q, hq, fun n hn => (h n hn).trans <| s.acked_le n T⟩

end Step
end

/-! ### The invariant -/

structure Safe (Q : QuorumSystem N) (g : State N E) : Prop where
  acked_term  : ∀ {n T}, 0 < g.acked n T → T ≤ g.term n
  acked_le    : ∀ n T, g.acked n T ≤ (g.line T).length
  acked_log   : ∀ n, (g.line (g.term n)).take (g.acked n (g.term n)) <+: g.log n
  backs_term  : ∀ {n T log}, g.backs n T log → T ≤ g.term n
  elected     : ∀ {T}, g.line T ≠ [] → ∃ q ∈ Q, ∀ n ∈ q, T ≤ g.term n
  -- What a node has acknowledged is in its log, in the logs that it backs in later terms, and in the
  -- logs of the leaders of later terms, unless it is too late for it to be committed.
  retained    : ∀ {n T k}, k ≤ g.acked n T → g.Own T k → g.Alive Q T k →
    (g.line T).take k <+: g.log n
  backed      : ∀ {n T T' k log}, g.backs n T' log → T < T' → k ≤ g.acked n T → g.Own T k →
    g.Alive Q T k → (g.line T).take k <+: log
  complete    : ∀ {T T' k}, T < T' → g.line T' ≠ [] → g.Own T k → g.Alive Q T k →
    (g.line T).take k <+: g.line T'

namespace Safe

theorem init : Safe Q (init : State N E) where
  acked_term  := by simp [Replication.init]
  acked_le    := by simp [Replication.init]
  acked_log   := by simp [Replication.init]
  backs_term  := by simp [Replication.init]
  elected     := by simp [Replication.init]
  retained    := by simp [Replication.init, Own]
  backed      := by simp [Replication.init]
  complete    := by simp [Replication.init]

-- The argument behind the election restriction: a log that is at least as up to date as one that
-- contains a prefix which may still be committed contains that prefix as well.
theorem prefix_of_upToDate (s : Safe Q g) (m : Matching g) {voter : List E}
    (hv : Matches g.line voter) (hl : Matches g.line log) (hu : UpToDate log voter)
    (ho : g.Own T k) (ha : g.Alive Q T k) (hp : (g.line T).take k <+: voter) :
    (g.line T).take k <+: log := by
  have hk := ho.le_length
  have h0 := ho.left
  obtain ⟨e, he, het⟩ := ho.right
  have hlen : ((g.line T).take k).length = k := List.length_take_of_le hk
  have hkv : k ≤ voter.length := hlen ▸ hp.length_le
  obtain ⟨v, hv', hvt⟩ := exists_last (show 0 < voter.length by omega)
  have hvline : voter <+: g.line (term v) := by
    have := hv _ _ hv'
    rwa [Nat.sub_add_cancel (by omega), List.take_length] at this
  -- The entry of term `T` is in the log of the leader of the voter's last term.
  have hTv : T ≤ term v := by
    rw [← het]
    refine m.le _ _ <| (hp.trans hvline).subset <| List.mem_of_getElem? (i := k - 1) ?_
    rwa [List.getElem?_take_of_lt (by omega)]
  rcases hu with hlt | ⟨heq, hle⟩
  case inr =>
    obtain ⟨l, hl', hlt⟩ := exists_last (show 0 < log.length by omega)
    have hlline : log <+: g.line (term l) := by
      have := hl _ _ hl'
      rwa [Nat.sub_add_cancel (by omega), List.take_length] at this
    rw [← hlt, ← heq, hvt] at hlline
    exact hp.trans <| List.prefix_of_prefix_length_le hvline hlline hle
  case inl =>
    have hpos : 0 < log.length := by
      rcases Nat.eq_zero_or_pos log.length with h | h
      · simp [List.length_eq_zero_iff.mp h, lastTerm] at hlt
      · exact h
    obtain ⟨l, hl', hlt'⟩ := exists_last hpos
    have hlline : log <+: g.line (term l) := by
      have := hl _ _ hl'
      rwa [Nat.sub_add_cancel (by omega), List.take_length] at this
    have hne : g.line (term l) ≠ [] := by
      intro hc
      rw [hc] at hlline
      simp [List.prefix_nil.mp hlline] at hpos
    have hcomp := s.complete (show T < term l by omega) hne ho ha
    refine List.prefix_of_prefix_length_le hcomp hlline ?_
    -- Otherwise the leader of the later term `term l` would have an entry of term `T` above one of
    -- its own.
    by_contra hc
    have hl'' := hlline.getElem?_eq_some hl'
    have he' : (g.line (term l))[k - 1]? = some e :=
      hcomp.getElem?_eq_some <| (List.getElem?_take_of_lt (by omega)).trans he
    have := m.tail (by omega) hl'' he' rfl
    omega

section

variable [DecidableEq N]

-- A node never loses a prefix that it shares with the leader whose log it takes over.
omit [Entry E] [DecidableEq N] in
theorem prefix_take_of_prefix {L : List E} {k₀ : ℕ}
    (hg : log.length ≤ k ∨ ¬(L.take k <+: log)) (hp : L.take k₀ <+: log) (hk₀ : k₀ ≤ L.length) :
    L.take k₀ <+: L.take k := by
  rcases Nat.lt_or_ge k k₀ with hlt | hge
  case inr => exact List.take_prefix_take_left hge
  case inl =>
    have hlen := hp.length_le
    rw [List.length_take_of_le hk₀] at hlen
    rcases hg with hg | hg
    · omega
    · exact absurd ((List.take_prefix_take_left hlt.le).trans hp) hg

-- The obligations that do not depend on the kind of step.
theorem step_elected (s : Safe Q g) (st : Step Q g g') (h : g'.line T ≠ []) :
    ∃ q ∈ Q, ∀ n ∈ q, T ≤ g'.term n := by
  by_cases hT : g.line T = []
  case neg =>
    obtain ⟨q, hq, hn⟩ := s.elected hT
    exact ⟨q, hq, fun n h => (hn n h).trans <| st.term_le n⟩
  case pos =>
    cases st
    case elect T' _ _ q _ _ _ _ _ hq hb =>
      have hTT : T = T' := by
        by_contra hc
        simp [extend, hc, hT] at h
      subst hTT
      exact ⟨q, hq, fun n hn => s.backs_term <| hb n hn⟩
    case append T' _ hn _ _ =>
      have hTT : T ≠ T' := fun hc => hn <| hc ▸ hT
      simp [extend, hTT, hT] at h
    all_goals exact absurd hT h

theorem acked_le_line (s : Safe Q g) (st : Step Q g g') (n : N) (T : ℕ) :
    g'.acked n T ≤ (g.line T).length := by
  rcases (st.acked_le n T).eq_or_lt with he | hlt
  · exact he ▸ s.acked_le n T
  · exact (st.term_eq_of_acked_lt hlt).right

theorem step_complete (s : Safe Q g) (st : Step Q g g') (hT : T < T') (hne : g'.line T' ≠ [])
    (ho : g'.Own T k) (ha : g'.Alive Q T k) : (g'.line T).take k <+: g'.line T' := by
  have halive := st.alive ha
  obtain ⟨qa, hqa, hqa'⟩ := ha
  -- Every node of the quorum that may still acknowledge and that has reached `T'` has done so.
  have hack : ∀ n ∈ qa, T' ≤ g'.term n → k ≤ g'.acked n T :=
    fun n hn ht => (hqa' n hn).resolve_right (by omega)
  obtain ⟨qe, hqe, hqe'⟩ := s.step_elected st hne
  obtain ⟨n, hna, hne'⟩ := Q.inter hqa hqe
  have hk := (hack n hna <| hqe' n hne').trans <| s.acked_le_line st n T
  have hold := ho.of_prefix (st.line_prefix T) hk
  rw [(st.line_prefix T).take_eq_take hk]
  by_cases hT' : g.line T' = []
  case neg => exact (s.complete hT hT' hold halive).trans <| st.line_prefix T'
  case pos =>
    cases st
    case elect T₁ L e q _ _ _ _ _ hq hb =>
      have hTT : T' = T₁ := by
        by_contra hc
        simp [extend, hc, hT'] at hne
      subst hTT
      obtain ⟨n, hna, hnq⟩ := Q.inter hqa hq
      have hp := s.backed (hb n hnq) hT (hack n hna <| s.backs_term <| hb n hnq) hold halive
      simpa [extend] using hp.trans <| List.prefix_append ..
    case append T₁ _ hn _ _ =>
      have hTT : T' ≠ T₁ := fun hc => hn <| hc ▸ hT'
      simp [extend, hTT, hT'] at hne
    all_goals exact absurd hT' hne

theorem step_acked_log (s : Safe Q g) (st : Step Q g g') (n : N) :
    (g'.line (g'.term n)).take (g'.acked n (g'.term n)) <+: g'.log n := by
  have hline : ∀ T, (g'.line T).take (g.acked n T) = (g.line T).take (g.acked n T) :=
    fun T => (st.line_prefix T).take_eq_take <| s.acked_le n T
  cases st
  case bump m T h =>
    by_cases hn : n = m
    case neg => simpa [State.bump, hn] using s.acked_log n
    case pos =>
      subst hn
      simp only [State.bump, Function.update_self]
      rcases h.eq_or_lt with he | hlt
      · exact he ▸ s.acked_log n
      · have h0 : g.acked n T = 0 := by
          by_contra hc
          have := s.acked_term (Nat.pos_of_ne_zero hc)
          omega
        simp [h0]
  case back => exact s.acked_log n
  case elect => exact (hline _).symm ▸ s.acked_log n
  case append => exact (hline _).symm ▸ s.acked_log n
  case keep m T k ht _ hp =>
    by_cases hn : n = m
    case neg => simpa [State.ack, hn] using s.acked_log n
    case pos =>
      subst hn
      subst ht
      simp only [State.ack, and_self, if_true]
      rcases Nat.le_total (g.acked n (g.term n)) k with h | h
      · exact (Nat.max_eq_right h).symm ▸ hp
      · exact (Nat.max_eq_left h).symm ▸ s.acked_log n
  case replace m T k ht _ hk hg =>
    by_cases hn : n = m
    case neg => simpa [State.ack, State.setLog, hn] using s.acked_log n
    case pos =>
      subst hn
      subst ht
      simp only [State.ack, State.setLog, and_self, if_true, Function.update_self]
      have hp := prefix_take_of_prefix hg (s.acked_log n) (s.acked_le ..)
      rcases Nat.le_total (g.acked n (g.term n)) k with h | h
      · rw [Nat.max_eq_right h]
      · exact (Nat.max_eq_left h).symm ▸ hp

theorem step_retained (s : Safe Q g) (st : Step Q g g') (hk : k ≤ g'.acked n T)
    (ho : g'.Own T k) (ha : g'.Alive Q T k) : (g'.line T).take k <+: g'.log n := by
  have halive := st.alive ha
  have hkl := hk.trans <| s.acked_le_line st n T
  have hold := ho.of_prefix (st.line_prefix T) hkl
  rw [(st.line_prefix T).take_eq_take hkl]
  cases st
  case keep m T' k' ht _ hp =>
    simp only [State.ack] at hk ⊢
    split at hk
    case isFalse => exact s.retained hk hold halive
    case isTrue h =>
      obtain ⟨rfl, rfl⟩ := h
      rcases le_max_iff.mp hk with hk | hk
      · exact s.retained hk hold halive
      · exact (List.take_prefix_take_left hk).trans hp
  case replace m T' k' ht h0 hk' hg =>
    by_cases hn : n = m
    case neg =>
      simp only [State.ack, State.setLog, hn, false_and, if_false, Function.update_of_ne,
        ne_eq, not_false_eq_true] at hk ⊢
      exact s.retained hk hold halive
    case pos =>
      subst hn
      simp only [State.ack, State.setLog, true_and, Function.update_self] at hk ⊢
      by_cases hc : T = T' ∧ k ≤ k'
      case pos => exact hc.left ▸ List.take_prefix_take_left hc.right
      case neg =>
        -- Then the acknowledgement is an old one, and the leader has the prefix as well.
        have hk : k ≤ g.acked n T := by
          split at hk
          case isFalse => exact hk
          case isTrue h => exact (le_max_iff.mp hk).resolve_right fun hk => hc ⟨h, hk⟩
        have hlog := s.retained hk hold halive
        have hTT : T ≤ T' := ht ▸ s.acked_term (hold.left.trans_le hk)
        have hline : (g.line T).take k <+: g.line T' := by
          rcases hTT.eq_or_lt with rfl | hlt
          · exact List.take_prefix ..
          · refine s.complete hlt ?_ hold halive
            intro hc
            simp [hc] at hk'
            omega
        rw [hline.take_eq hkl] at hlog ⊢
        refine prefix_take_of_prefix hg hlog ?_
        have := hline.length_le
        rwa [List.length_take_of_le hkl] at this
  all_goals exact s.retained hk hold halive

theorem step_backed (s : Safe Q g) (m : Matching g) (st : Step Q g g') (hb : g'.backs n T' log)
    (hT : T < T') (hk : k ≤ g'.acked n T) (ho : g'.Own T k) (ha : g'.Alive Q T k) :
    (g'.line T).take k <+: log := by
  have halive := st.alive ha
  have hkl := hk.trans <| s.acked_le_line st n T
  have hold := ho.of_prefix (st.line_prefix T) hkl
  rw [(st.line_prefix T).take_eq_take hkl]
  -- A node that backs a candidate of term `T'` acknowledges nothing in the earlier term `T` any more.
  have hkold : g.backs n T' log → k ≤ g.acked n T := by
    intro hb
    rcases (st.acked_le n T).eq_or_lt with he | hlt
    · exact he ▸ hk
    · have := (st.term_eq_of_acked_lt hlt).left
      have := s.backs_term hb
      omega
  cases st
  case back m' T₁ L ht hm _ hu =>
    rcases hb with hb | ⟨rfl, rfl, rfl⟩
    · exact s.backed hb hT (hkold hb) hold halive
    · exact s.prefix_of_upToDate m (m.logs n) hm hu hold halive <| s.retained hk hold halive
  all_goals exact s.backed hb hT (hkold hb) hold halive

theorem step (s : Safe Q g) (m : Matching g) (st : Step Q g g') : Safe Q g' where
  acked_term {n T} h := by
    rcases (st.acked_le n T).eq_or_lt with he | hlt
    · exact (s.acked_term <| he ▸ h).trans <| st.term_le n
    · exact (st.term_eq_of_acked_lt hlt).left ▸ st.term_le n
  acked_le n T := (s.acked_le_line st n T).trans <| (st.line_prefix T).length_le
  acked_log := s.step_acked_log st
  backs_term {n T log} h := by
    refine le_trans ?_ (st.term_le n)
    cases st
    case back ht _ _ _ =>
      rcases h with h | ⟨rfl, rfl, rfl⟩
      · exact s.backs_term h
      · exact ht.ge
    all_goals exact s.backs_term h
  elected := s.step_elected st
  retained := s.step_retained st
  backed := s.step_backed m st
  complete := s.step_complete st

end
end Safe

/-! ### Commitment -/

section

variable [DecidableEq N]

-- Leader completeness.
omit [DecidableEq N] in
theorem Safe.committed_prefix (s : Safe Q g) (h : g.Committed Q T k) (hT : T ≤ T')
    (hne : g.line T' ≠ []) : (g.line T).take k <+: g.line T' := by
  rcases hT.eq_or_lt with rfl | hlt
  · exact List.take_prefix ..
  · exact s.complete hlt hne h.left h.alive

-- State machine safety: there is one entry that can be committed at an index.
omit [DecidableEq N] in
theorem Safe.committed_unique (s : Safe Q g) {i : ℕ} {e e' : E} (h : g.Committed Q T k)
    (h' : g.Committed Q T' c) (hi : i < k) (hi' : i < c) (he : (g.line T)[i]? = some e)
    (he' : (g.line T')[i]? = some e') : e = e' := by
  wlog hT : T ≤ T'
  · exact (this s h' h hi' hi he' he (by omega)).symm
  have hne : g.line T' ≠ [] := fun hc => by simp [hc] at he'
  have hp := s.committed_prefix h hT hne
  have := hp.getElem?_eq_some <| (List.getElem?_take_of_lt hi).trans he
  rw [this] at he'
  exact Option.some.inj he'

-- A log that follows the leader of a term starts with all that was committed in earlier terms.
omit [DecidableEq N] in
theorem Safe.take_prefix_of_committed (s : Safe Q g) (h : g.Committed Q T k) (hT : T ≤ T')
    (hp : log <+: g.line T') (hc : c ≤ k) (hl : c ≤ log.length) : log.take c <+: g.line T := by
  by_cases hne : g.line T' = []
  case pos => simp [List.prefix_nil.mp (hne ▸ hp)]
  case neg =>
    have hp' := (List.take_prefix_take_left hc).trans <| s.committed_prefix h hT hne
    have hlen := h.left.le_length
    rw [← hp.take_eq_take hl, ← hp'.take_eq (by omega)]
    exact List.take_prefix ..

-- A node never loses what has been committed.
theorem Safe.take_prefix_step (s : Safe Q g) (st : Step Q g g') (h : g.Committed Q T k)
    (hT : T ≤ g.term n) (hp : (g.log n).take c <+: g.line T) (hc : c ≤ k)
    (hl : c ≤ (g.log n).length) : (g.log n).take c <+: g'.log n := by
  cases st
  case replace m T₁ k₁ ht h0 hk hg =>
    by_cases hn : n = m
    case neg => simpa [State.ack, State.setLog, hn] using List.take_prefix ..
    case pos =>
      subst hn
      simp only [State.ack, State.setLog, Function.update_self]
      have hne : g.line T₁ ≠ [] := fun hn => by simp [hn] at hk; omega
      have hline : (g.log n).take c <+: g.line T₁ := by
        rw [hp.take_eq hl]
        exact (List.take_prefix_take_left hc).trans <| s.committed_prefix h (ht ▸ hT) hne
      have hlen := hline.length_le
      rw [List.length_take_of_le hl] at hlen
      rw [hline.take_eq hl] at hp ⊢
      exact Safe.prefix_take_of_prefix hg (hline.take_eq hl ▸ List.take_prefix ..) hlen
  all_goals exact List.take_prefix ..

end
end Replication
