import Mathlib.Tactic.Basic
import RaftRupee.Lib.Replication.State

namespace Replication

open Entry

variable {N E : Type*} [DecidableEq N] [Entry E] {Q : QuorumSystem N} {g g' : State N E}
variable {line line' : ℕ → List E} {log log' : List E}

/-! ### Matching a line -/

namespace Matches

theorem nil : Matches line ([] : List E) :=
  fun _ _ h => by simp at h

theorem mono (h : ∀ T, line T <+: line' T) (m : Matches line log) : Matches line' log :=
  fun k e he => (m k e he).trans (h _)

theorem of_prefix (h : log' <+: log) (m : Matches line log) : Matches line log' := by
  intro k e he
  have hk : k < log'.length := (List.getElem?_eq_some_iff.mp he).choose
  rw [← h.take_eq_take hk]
  exact m k e <| h.getElem?_eq_some he

theorem take {k : ℕ} (m : Matches line log) : Matches line (log.take k) :=
  m.of_prefix <| List.take_prefix _ _

theorem concat {e : E} (m : Matches line log) (h : log ++ [e] <+: line (term e)) :
    Matches line (log ++ [e]) := by
  intro k x hx
  rcases Nat.lt_trichotomy k log.length with hk | hk | hk
  · rw [List.getElem?_append_left hk] at hx
    rw [List.take_append_of_le_length (by omega)]
    exact m k x hx
  · subst hk
    simp only [List.getElem?_append_right le_rfl, Nat.sub_self, List.getElem?_cons_zero,
      Option.some.injEq] at hx
    rw [List.take_of_length_le (by simp), ← hx]
    exact h
  · rw [List.getElem?_eq_none (by simp; omega)] at hx
    contradiction

-- Log matching: entries of the same term at the same index have the same history.
theorem agree (m : Matches line log) (m' : Matches line log') : Agree log log' := by
  intro k e e' h h' ht
  have hp := m k e h
  have hp' := m' k e' h'
  rw [ht] at hp
  have hk : k < log.length := (List.getElem?_eq_some_iff.mp h).choose
  have hk' : k < log'.length := (List.getElem?_eq_some_iff.mp h').choose
  rw [hp.take_eq hk, hp'.take_eq hk']

end Matches

/-! ### What a step can do -/

namespace Step

theorem term_le (s : Step Q g g') (n : N) : g.term n ≤ g'.term n := by
  cases s
  case bump m T h =>
    by_cases hn : n = m
    case pos => subst hn; simpa [State.bump] using h
    case neg => simp [State.bump, hn]
  all_goals exact le_rfl

theorem line_prefix (s : Step Q g g') (T : ℕ) : g.line T <+: g'.line T := by
  cases s
  case elect T' _ _ _ h _ _ _ _ _ _ =>
    by_cases hT : T = T'
    case pos => subst hT; simp [h]
    case neg => simp [State.extend, hT]
  case append T' _ _ _ _ =>
    by_cases hT : T = T'
    case pos => subst hT; simp [State.extend]
    case neg => simp [State.extend, hT]
  all_goals exact List.prefix_rfl

theorem acked_le (s : Step Q g g') (n : N) (T : ℕ) : g.acked n T ≤ g'.acked n T := by
  cases s
  case keep    => simp only [State.ack]; split <;> omega
  case replace => simp only [State.ack, State.setLog]; split <;> omega
  all_goals exact le_rfl

theorem backs_mono (s : Step Q g g') {n : N} {T : ℕ} (h : g.backs n T log) : g'.backs n T log := by
  cases s
  case back => exact .inl h
  all_goals exact h

-- A node only acknowledges in its current term.
theorem term_eq_of_acked_lt (s : Step Q g g') {n : N} {T : ℕ} (h : g.acked n T < g'.acked n T) :
    g.term n = T ∧ g'.acked n T ≤ (g.line T).length := by
  cases s
  case keep m T' k ht hk _ =>
    simp only [State.ack] at h ⊢
    split at h <;> simp_all
    omega
  case replace m T' k ht _ hk _ =>
    simp only [State.ack, State.setLog] at h ⊢
    split at h <;> simp_all
    omega
  all_goals exact absurd h (lt_irrefl _)

end Step

/-! ### The invariant -/

structure Matching (g : State N E) : Prop where
  logs  : ∀ n, Matches g.line (g.log n)
  lines : ∀ T, Matches g.line (g.line T)
  zero  : g.line 0 = []
  le    : ∀ T, ∀ e ∈ g.line T, term e ≤ T
  log   : ∀ n, ∀ e ∈ g.log n, term e ≤ g.term n
  -- The entries of a leader's own term are at the end of its log.
  tail  : ∀ {T i j : ℕ} {a b : E}, i ≤ j → (g.line T)[i]? = some a → (g.line T)[j]? = some b →
    term a = T → term b = T

namespace Matching

omit [DecidableEq N] in
theorem init : Matching (init : State N E) where
  logs _  := .nil
  lines _ := .nil
  zero    := rfl
  le _    := by simp [Replication.init]
  log _   := by simp [Replication.init]
  tail    := by simp [Replication.init]

-- Extending the line of one term by one entry of that term.
omit [DecidableEq N] in
theorem extend {T : ℕ} {e : E} (m : Matching g) (hp : g.line T <+: log ++ [e])
    (hm : Matches g.line log) (ht : term e = T) (h0 : 0 < T)
    (hlog : log = g.line T ∨ ∀ x ∈ log, term x < T) : Matching (g.extend T (log ++ [e])) := by
  have mono : ∀ T', g.line T' <+: (g.extend T (log ++ [e])).line T' := by
    intro T'
    by_cases hT : T' = T
    case pos => subst hT; simpa [State.extend] using hp
    case neg => simp [State.extend, hT]
  have hle : ∀ x ∈ log, term x ≤ T := by
    rcases hlog with rfl | hlog
    · exact m.le T
    · exact fun x hx => (hlog x hx).le
  constructor
  case logs => exact fun n => (m.logs n).mono mono
  case lines =>
    intro T'
    by_cases hT : T' = T
    case pos =>
      subst hT
      simp only [State.extend, Function.update_self] at mono ⊢
      exact (hm.mono mono).concat <| by simp [ht]
    case neg =>
      have := (m.lines T').mono mono
      simpa [State.extend, hT] using this
  case zero => simpa [State.extend, h0.ne] using m.zero
  case le =>
    intro T' x hx
    by_cases hT : T' = T
    case neg => exact m.le T' x <| by simpa [State.extend, hT] using hx
    case pos =>
      subst hT
      simp only [State.extend, Function.update_self, List.mem_append, List.mem_singleton] at hx
      rcases hx with hx | rfl
      · exact hle x hx
      · exact ht.le
  case log => exact m.log
  case tail =>
    intro T' i j a b hij ha hb hta
    by_cases hT : T' = T
    case neg =>
      simp only [State.extend, Function.update_of_ne hT] at ha hb
      exact m.tail hij ha hb hta
    case pos =>
      subst hT
      simp only [State.extend, Function.update_self] at ha hb
      rcases Nat.lt_or_ge j log.length with hj | hj
      · rw [List.getElem?_append_left (by omega)] at ha hb
        rcases hlog with rfl | hlog
        · exact m.tail hij ha hb hta
        · exact absurd hta (hlog a <| List.mem_of_getElem? ha).ne
      · have : b ∈ [e] := by
          rw [List.getElem?_append_right hj] at hb
          exact List.mem_of_getElem? hb
        simp_all

theorem step (m : Matching g) (s : Step Q g g') : Matching g' := by
  cases s
  case bump n T hT =>
    refine ⟨m.logs, m.lines, m.zero, m.le, fun n' e he => (m.log n' e he).trans ?_, m.tail⟩
    exact (Step.bump (Q := Q) hT).term_le n'
  case back => exact ⟨m.logs, m.lines, m.zero, m.le, m.log, m.tail⟩
  case keep => exact ⟨m.logs, m.lines, m.zero, m.le, m.log, m.tail⟩
  case elect hn hm hlt ht h0 _ _ =>
    exact m.extend (by simp [hn]) hm ht h0 (.inr hlt)
  case append T e hn h0 ht =>
    exact m.extend (List.prefix_append ..) (m.lines T) ht h0 (.inl rfl)
  case replace n T k ht _ _ _ =>
    refine ⟨fun n' => ?_, m.lines, m.zero, m.le, fun n' => ?_, m.tail⟩
    all_goals by_cases hn : n' = n
    · subst hn; simpa [State.ack, State.setLog] using (m.lines T).take
    · simpa [State.ack, State.setLog, hn] using m.logs n'
    · subst hn ht
      simpa [State.ack, State.setLog] using fun e he => m.le _ e <| List.mem_of_mem_take he
    · simpa [State.ack, State.setLog, hn] using m.log n'

end Matching
end Replication
