import Mathlib.Data.Finset.Card
import Mathlib.Data.List.Infix

namespace List.IsPrefix

variable {α : Type*} {l l' : List α} {a : α} {i k : ℕ}

theorem getElem?_eq_of_lt (h : l <+: l') (hi : i < l.length) : l'[i]? = l[i]? := by
  obtain ⟨_, h⟩ := h
  rw [← h, getElem?_append_left hi]

theorem getElem?_eq_some (h : l <+: l') (ha : l[i]? = some a) : l'[i]? = some a :=
  (h.getElem?_eq_of_lt (getElem?_eq_some_iff.mp ha).choose).trans ha

theorem take_eq_take (h : l <+: l') (hk : k ≤ l.length) : l'.take k = l.take k := by
  obtain ⟨_, h⟩ := h
  rw [← h, take_append_of_le_length hk]

theorem take_eq (h : l.take k <+: l') (hk : k ≤ l.length) : l.take k = l'.take k := by
  have := prefix_iff_eq_take.mp h
  rwa [length_take_of_le hk] at this

-- There are no more prefixes that end with an element of a kind than there are such elements.
theorem card_le_countP (p : α → Bool) {S : Finset (List α)}
    (h : ∀ q ∈ S, q <+: l ∧ ∃ before a, q = before ++ [a] ∧ p a) : S.card ≤ l.countP p := by
  classical
  induction l using List.reverseRecOn generalizing S
  case nil =>
    rw [Finset.card_eq_zero.mpr, countP_nil]
    refine Finset.eq_empty_of_forall_notMem fun q hq => ?_
    obtain ⟨hpre, before, a, rfl, _⟩ := h q hq
    simpa using prefix_nil.mp hpre
  case append_singleton l a hi =>
    have hS : (S.erase (l ++ [a])).card ≤ l.countP p := hi fun q hq => by
      obtain ⟨hne, hq⟩ := Finset.mem_erase.mp hq
      exact (h q hq).imp_left fun hpre => (prefix_concat_iff.mp hpre).resolve_left hne
    rw [countP_append, countP_singleton]
    by_cases hm : l ++ [a] ∈ S
    case neg => rw [Finset.erase_eq_of_notMem hm] at hS; omega
    case pos =>
      obtain ⟨_, before, b, hb, hp⟩ := h _ hm
      obtain ⟨rfl, rfl⟩ := append_singleton_inj.mp hb
      have := Finset.card_erase_add_one hm
      rw [if_pos hp]
      omega

end List.IsPrefix
