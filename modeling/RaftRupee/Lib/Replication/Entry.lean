import Mathlib.Data.List.Basic
import RaftRupee.Lib.Prefix

-- Logs whose entries carry the term in which they were created.
namespace Replication

class Entry (E : Type*) where
  term : E → ℕ

open Entry

variable {E : Type*} [Entry E] {log log' : List E} {k n : ℕ} {e : E}

def lastTerm (log : List E) : ℕ :=
  (log.getLast?.map term).getD 0

@[simp]
theorem lastTerm_nil : lastTerm ([] : List E) = 0 :=
  rfl

-- The last entry of a non-empty log.
theorem exists_last (h : 0 < log.length) :
    ∃ e, log[log.length - 1]? = some e ∧ lastTerm log = term e := by
  have he : log[log.length - 1]? = some log[log.length - 1] := List.getElem?_eq_getElem _
  exact ⟨_, he, by simp [lastTerm, List.getLast?_eq_getElem?, he]⟩

theorem lastTerm_take (h : log[k]? = some e) : lastTerm (log.take (k + 1)) = term e := by
  have hk : k < log.length := (List.getElem?_eq_some_iff.mp h).choose
  have hlen : (log.take (k + 1)).length = k + 1 := List.length_take_of_le hk
  obtain ⟨e', he, ht⟩ := exists_last (show 0 < (log.take (k + 1)).length by omega)
  rw [hlen, Nat.add_sub_cancel, List.getElem?_take_of_lt (Nat.lt_succ_self k), h,
    Option.some.injEq] at he
  exact he ▸ ht

-- Log matching: where two logs hold entries of the same term, they have the same history.
def Agree (log log' : List E) : Prop :=
  ∀ k e e', log[k]? = some e → log'[k]? = some e' → term e = term e' →
    log.take (k + 1) = log'.take (k + 1)

namespace Agree

theorem symm (h : Agree log log') : Agree log' log :=
  fun k e e' he he' ht => (h k e' e he' he ht.symm).symm

-- Two prefixes are the same if they have the same length and the same last term.
theorem take_eq_of_lastTerm (h : Agree log log') (hk : k ≤ log.length) (hk' : k ≤ log'.length)
    (ht : lastTerm (log.take k) = lastTerm (log'.take k)) : log.take k = log'.take k := by
  rcases k with _ | k
  case zero => simp
  case succ =>
    have he : log[k]? = some log[k] := List.getElem?_eq_getElem _
    have he' : log'[k]? = some log'[k] := List.getElem?_eq_getElem _
    exact h _ _ _ he he' <| by rw [← lastTerm_take he, ← lastTerm_take he', ht]

-- Matching terms extend a common prefix.
theorem take_add (h : Agree log log') (hk : log.take k = log'.take k)
    (ht : ∀ j < n, ∃ e e', log[k + j]? = some e ∧ log'[k + j]? = some e' ∧ term e = term e') :
    log.take (k + n) = log'.take (k + n) := by
  rcases n with _ | n
  case zero => exact hk
  case succ =>
    obtain ⟨e, e', he, he', ht⟩ := ht n (Nat.lt_succ_self n)
    exact h _ _ _ he he' ht

end Agree
end Replication
