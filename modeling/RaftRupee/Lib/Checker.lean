import Mathlib.Logic.Function.Basic
import Mathlib.Order.Basic

-- Checks that go through a list, remember what they have seen and stop at the first error.
namespace Checker

variable {σ α ε : Type*} {as : List α} {a : α}

theorem bind_ok {β γ : Type _} {x : Except ε β} {f : β → Except ε γ} {c : γ} :
    (x >>= f) = .ok c ↔ ∃ b, x = .ok b ∧ f b = .ok c := by
  cases x <;> simp [bind, Except.bind]

section Stateless

variable {f : α → Except ε PUnit}

theorem forM_ok : as.forM f = .ok ⟨⟩ ↔ ∀ a ∈ as, f a = .ok ⟨⟩ := by
  induction as
  case nil => simp [pure, Except.pure]
  case cons a as hi =>
    rw [List.forall_mem_cons, ← hi]
    cases h : f a <;> simp [List.forM, h, bind, Except.bind]

end Stateless

-- A check that accepts what it is given, as long as its state is as it should be.
theorem foldlM_accepts {f : σ → α → Except ε σ} {P : σ → Prop} {s : σ}
    (h : ∀ a ∈ as, ∀ s, P s → ∃ s', f s a = .ok s' ∧ P s') (hs : P s) :
    ∃ s', as.foldlM f s = .ok s' ∧ P s' := by
  induction as generalizing s
  case nil => exact ⟨s, rfl, hs⟩
  case cons a as hi =>
    rw [List.forall_mem_cons] at h
    obtain ⟨s₁, hf, hs₁⟩ := h.left s hs
    obtain ⟨s', hfold, hs'⟩ := hi h.right hs₁
    refine ⟨s', ?_, hs'⟩
    rw [List.foldlM_cons, hf]
    exact hfold

section Stateful

variable [Preorder σ]

-- An accepted `a` is on record in the new state, and whatever is on record stays so as states grow.
structure Records (f : σ → α → Except ε σ) (seen : α → σ → Prop) : Prop where
  le     : ∀ {s a s'}, f s a = .ok s' → s ≤ s'
  record : ∀ {s a s'}, f s a = .ok s' → seen a s'
  mono   : ∀ {a s s'}, s ≤ s' → seen a s → seen a s'

variable {f : σ → α → Except ε σ} {seen : α → σ → Prop}

-- The run lemma: what is checked one by one is on record at the end.
theorem Records.foldlM (h : Records f seen) :
    Records (fun s (as : List α) => as.foldlM f s) (fun as s => ∀ a ∈ as, seen a s) := by
  have run : ∀ {as : List α} {s s'}, as.foldlM f s = .ok s' → s ≤ s' ∧ ∀ a ∈ as, seen a s' := by
    intro as
    induction as
    case nil =>
      intro s s' hs
      cases hs
      exact ⟨le_refl _, by simp⟩
    case cons a as hi =>
      intro s s' hs
      rw [List.foldlM_cons] at hs
      obtain ⟨_, hf, hs⟩ := bind_ok.mp hs
      obtain ⟨hl, hr⟩ := hi hs
      exact ⟨(h.le hf).trans hl, List.forall_mem_cons.mpr ⟨h.mono hl (h.record hf), hr⟩⟩
  exact {
    le     := fun hs => (run hs).left
    record := fun hs => (run hs).right
    mono   := fun hl hs a ha => h.mono hl (hs a ha) }

end Stateful
end Checker

-- Partial maps that keep the first value they get for a key.
namespace Registry

variable {κ ν : Type*} {m m' m'' : κ → Option ν} {k : κ} {v : ν}

def Extends (m' m : κ → Option ν) : Prop :=
  ∀ k v, m k = some v → m' k = some v

theorem Extends.refl (m : κ → Option ν) : Extends m m :=
  fun _ _ => id

theorem Extends.trans (h' : Extends m'' m') (h : Extends m' m) : Extends m'' m :=
  fun k v hv => h' k v (h k v hv)

theorem extends_update [DecidableEq κ] (v : ν) (h : m k = none) :
    Extends (Function.update m k (some v)) m := by
  intro k' v' hv
  rw [Function.update_of_ne, hv]
  rintro rfl
  simp [h] at hv

end Registry
