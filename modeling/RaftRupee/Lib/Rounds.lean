import Mathlib.Data.List.Basic

-- Rounds that are repeated until one of them has a result. A round can also fail.
namespace Rounds

variable {σ α : Type*} {round : σ → Option (σ ⊕ α)} {s : σ}

def run (round : σ → Option (σ ⊕ α)) : ℕ → σ → Option α
  | 0, _     => none
  | n + 1, s => (round s).bind (Sum.elim (run round n) some)

-- The rule for termination: a round that has no result keeps the invariant and lowers the rank.
theorem run_of_rank (Inv : σ → Prop) {post : α → Prop} (rank : σ → ℕ)
    (h : ∀ s, Inv s → (∃ a, round s = some (.inr a) ∧ post a) ∨
      ∃ s', round s = some (.inl s') ∧ Inv s' ∧ rank s' < rank s)
    (hs : Inv s) : ∃ n a, run round n s = some a ∧ post a := by
  induction hr : rank s using Nat.strongRecOn generalizing s
  case ind r hi =>
    rcases h s hs with ⟨a, ha, hp⟩ | ⟨s', hs', hinv, hlt⟩
    case inl => exact ⟨1, a, by simp [run, ha], hp⟩
    case inr =>
      obtain ⟨n, a, ha, hp⟩ := hi (rank s') (hr ▸ hlt) hinv rfl
      exact ⟨n + 1, a, by simp [run, hs', ha], hp⟩

-- The number of rounds does not matter.
theorem run_unique {n m : ℕ} {a a' : α} (h : run round n s = some a) (h' : run round m s = some a') :
    a = a' := by
  induction n generalizing s m
  case zero => cases h
  case succ n hi =>
    cases m
    case zero   => cases h'
    case succ m =>
      rw [run] at h h'
      cases hr : round s
      case none => simp [hr] at h
      case some r =>
        cases r
        case inl s' => exact hi (by simpa [hr] using h) (by simpa [hr] using h')
        case inr    => simp_all

end Rounds
