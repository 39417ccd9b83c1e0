import RaftRupee.Lib.Replication.Entry

namespace Replication

open Entry

-- For the entry of a term at a position, the log that ended with it when it was created.
abbrev Lineage (E : Type*) := ℕ → ℕ → Option (List E)

variable {E : Type*} [Entry E] {lin lin' : Lineage E} {log log' : List E} {T k : ℕ} {e : E}

def Lineage.create (lin : Lineage E) (log : List E) (e : E) : Lineage E :=
  fun T k => if T = term e ∧ k = log.length then some (log ++ [e]) else lin T k

-- Each entry of a log comes with the log that it was created in.
def Traced (lin : Lineage E) (log : List E) : Prop :=
  ∀ k e, log[k]? = some e → lin (term e) k = some (log.take (k + 1))

theorem Lineage.create_of_some (h : lin (term e) log.length = none) {h' : List E}
    (hk : lin T k = some h') : lin.create log e T k = some h' := by
  rw [create, if_neg]
  · exact hk
  · rintro ⟨rfl, rfl⟩
    simp [h] at hk

namespace Traced

theorem nil : Traced lin ([] : List E) :=
  fun _ _ h => by simp at h

theorem agree (h : Traced lin log) (h' : Traced lin log') : Agree log log' := by
  intro k e e' he he' ht
  have := h k e he
  rw [ht, h' k e' he', Option.some.injEq] at this
  exact this.symm

theorem take (h : Traced lin log) (n : ℕ) : Traced lin (log.take n) := by
  intro k e he
  have hk : k < (log.take n).length := (List.getElem?_eq_some_iff.mp he).choose
  have hn : k + 1 ≤ n := by
    rw [List.length_take] at hk
    omega
  rw [List.take_take, Nat.min_eq_left hn]
  exact h k e <| by rwa [List.getElem?_take_of_lt (by omega)] at he

theorem mono (h : Traced lin log) (hm : ∀ {T k l}, lin T k = some l → lin' T k = some l) :
    Traced lin' log :=
  fun k e he => hm (h k e he)

-- A new entry for which there is no lineage yet.
theorem create (h : Traced lin log) (hn : lin (term e) log.length = none) :
    Traced (lin.create log e) (log ++ [e]) := by
  intro k x hx
  rcases Nat.lt_trichotomy k log.length with hk | rfl | hk
  · rw [List.getElem?_append_left hk] at hx
    rw [List.take_append_of_le_length (by omega)]
    exact Lineage.create_of_some hn <| h k x hx
  · obtain rfl : e = x := by simpa using hx
    rw [List.take_of_length_le (by simp), Lineage.create, if_pos ⟨rfl, rfl⟩]
  · rw [List.getElem?_eq_none (by simp; omega)] at hx
    contradiction

end Traced
end Replication
