import Mathlib.Data.Finset.Card

-- A family of sets of nodes any two of which share a node.
structure QuorumSystem (N : Type*) where
  quorums : Set (Finset N)
  inter   : ∀ {q₁ q₂}, q₁ ∈ quorums → q₂ ∈ quorums → ∃ n, n ∈ q₁ ∧ n ∈ q₂

namespace QuorumSystem

variable {N : Type*}

instance : Membership (Finset N) (QuorumSystem N) where
  mem Q q := q ∈ Q.quorums

variable [DecidableEq N]

-- Two sets of members that are too large to be disjoint.
theorem exists_mem_inter_of_card_lt {members q₁ q₂ : Finset N} (h₁ : q₁ ⊆ members)
    (h₂ : q₂ ⊆ members) (h : members.card < q₁.card + q₂.card) : ∃ n, n ∈ q₁ ∧ n ∈ q₂ := by
  have hi : (q₁ ∩ q₂).Nonempty := by
    by_contra hc
    have hd : Disjoint q₁ q₂ := Finset.disjoint_iff_inter_eq_empty.mpr (by simpa using hc)
    have hu := Finset.card_le_card (Finset.union_subset h₁ h₂)
    rw [Finset.card_union_of_disjoint hd] at hu
    omega
  obtain ⟨n, hn⟩ := hi
  exact ⟨n, Finset.mem_inter.mp hn⟩

-- The majorities of a finite set of members.
def majorities (members : Finset N) : QuorumSystem N where
  quorums := { q | q ⊆ members ∧ members.card / 2 + 1 ≤ q.card }
  inter h₁ h₂ := by
    have := h₁.right
    have := h₂.right
    exact exists_mem_inter_of_card_lt h₁.left h₂.left (by omega)

end QuorumSystem

-- Whoever is waiting for the answers of `q` members, and can ask any member that has not answered yet, gets
-- them in the end.
theorem exists_of_gather {σ N : Type*} [DecidableEq N] (run : σ → σ → Prop) (Waiting : σ → Finset N → Prop)
    {Won : σ → Prop} {members V : Finset N} {q : ℕ} {s : σ}
    (trans : ∀ {s s' s''}, run s s' → run s' s'' → run s s'')
    (ask : ∀ s V n, Waiting s V → n ∈ members → n ∉ V →
      ∃ s', run s s' ∧ if q ≤ (insert n V).card then Won s' else Waiting s' (insert n V))
    (h : Waiting s V) (hq : q ≤ members.card) (hlt : V.card < q) : ∃ s', run s s' ∧ Won s' := by
  induction hk : q - V.card generalizing s V
  case zero => omega
  case succ k hi =>
    obtain ⟨n, hn, hv⟩ := Finset.exists_mem_notMem_of_card_lt_card (hlt.trans_le hq)
    obtain ⟨s₁, h₁, hask⟩ := ask s V n h hn hv
    have hcard := Finset.card_insert_of_notMem hv
    split at hask
    case isTrue => exact ⟨s₁, h₁, hask⟩
    case isFalse hc =>
      obtain ⟨s₂, h₂, hw⟩ := hi hask (by omega) (by omega)
      exact ⟨s₂, trans h₁ h₂, hw⟩
