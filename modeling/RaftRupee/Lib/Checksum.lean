import Mathlib.Data.List.Basic

-- Checksums that take in one symbol after the other.
namespace Checksum

variable {σ α : Type*} {step : σ → α → σ} {as : List α} {b : α} {i : ℕ}

-- A step loses neither what was taken in before nor the symbol itself.
structure Faithful (step : σ → α → σ) : Prop where
  state  : ∀ a, Function.Injective (step · a)
  symbol : ∀ s, Function.Injective (step s)

namespace Faithful

theorem foldl_injective (h : Faithful step) (as : List α) :
    Function.Injective fun s => as.foldl step s := by
  induction as
  case nil          => exact fun _ _ h => h
  case cons a as hi => exact hi.comp (h.state a)

-- A change of one symbol always shows in the result.
theorem foldl_set_ne (h : Faithful step) (s : σ) (hi : i < as.length) (hb : as[i] ≠ b) :
    (as.set i b).foldl step s ≠ as.foldl step s := by
  induction as generalizing s i
  case nil => cases hi
  case cons a as hind =>
    cases i
    case zero =>
      intro hf
      rw [List.set_cons_zero, List.foldl_cons, List.foldl_cons] at hf
      exact hb <| h.symbol s (h.foldl_injective as hf).symm
    case succ i =>
      rw [List.set_cons_succ, List.foldl_cons, List.foldl_cons]
      exact hind (step s a) (Nat.lt_of_succ_lt_succ hi) hb

end Faithful

theorem repeat_injective {f : σ → σ} (h : Function.Injective f) (n : ℕ) :
    Function.Injective (Nat.repeat f n) := by
  induction n
  case zero      => exact fun _ _ h => h
  case succ n hi => exact h.comp hi

end Checksum
