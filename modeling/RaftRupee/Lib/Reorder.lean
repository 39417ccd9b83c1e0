import Mathlib.Data.List.Basic

-- Steps that can fail, and that are taken in an order which is not fixed.
namespace Reorder

variable {σ α : Type*}

section Permutations

variable {f : σ → α → Option σ} {P : σ → List α → Prop} {s s' : σ} {as bs : List α}

-- `P s as` says that the steps `as` are still to be taken from `s`, and do not depend on their order.
structure Swappable (f : σ → α → Option σ) (P : σ → List α → Prop) : Prop where
  perm : ∀ {s as bs}, as.Perm bs → P s as → P s bs
  tail : ∀ {s s' a as}, P s (a :: as) → f s a = some s' → P s' as
  swap : ∀ {s a b as}, P s (a :: b :: as) → (f s a).bind (f · b) = (f s b).bind (f · a)

theorem Swappable.foldlM_eq (h : Swappable f P) (hp : as.Perm bs) (hs : P s as) :
    as.foldlM f s = bs.foldlM f s := by
  induction hp generalizing s
  case nil => rfl
  case cons a as bs _ hi =>
    simp only [List.foldlM_cons]
    cases hf : f s a
    case none   => rfl
    case some s' => exact hi <| h.tail hs hf
  case swap a b as =>
    have hw := h.swap hs
    simp only [List.foldlM_cons, ← bind_assoc]
    exact congrArg (· >>= fun s => as.foldlM f s) hw
  case trans _ _ hp _ hi hi' => exact (hi hs).trans <| hi' <| h.perm hp hs

end Permutations

section Loops

variable {f : σ → α → Option σ} {P : σ → Prop} {s : σ} {as : List α}

-- The steps keep the property and do not fail where it holds, so that none of them fails in sequence.
theorem foldlM_total (hf : ∀ a ∈ as, ∀ s, P s → ∃ s', f s a = some s' ∧ P s') (h : P s) :
    ∃ s', as.foldlM f s = some s' ∧ P s' := by
  induction as generalizing s
  case nil => exact ⟨s, rfl, h⟩
  case cons a as hi =>
    obtain ⟨s₁, hs₁, h₁⟩ := hf a List.mem_cons_self s h
    obtain ⟨s', hs, h'⟩ := hi (fun b hb => hf b <| List.mem_cons_of_mem _ hb) h₁
    exact ⟨s', by rwa [List.foldlM_cons, hs₁, Option.bind_eq_bind, Option.bind_some], h'⟩

end Loops

section Search

variable {p : α → Bool} {as bs : List α}

-- An element that is alone in being searched for is found in any order.
theorem find?_eq (hm : ∀ a, a ∈ as ↔ a ∈ bs) (hu : ∀ a ∈ as, ∀ b ∈ as, p a → p b → a = b) :
    as.find? p = bs.find? p := by
  cases h : as.find? p
  case none =>
    refine (List.find?_eq_none.mpr fun b hb => ?_).symm
    exact List.find?_eq_none.mp h b <| (hm b).mpr hb
  case some a =>
    have ha := List.mem_of_find?_eq_some h
    have hp := List.find?_some h
    obtain ⟨b, hb⟩ := Option.isSome_iff_exists.mp <| List.find?_isSome.mpr ⟨a, (hm a).mp ha, hp⟩
    rw [hb, hu a ha b ((hm b).mpr <| List.mem_of_find?_eq_some hb) hp (List.find?_some hb)]

end Search

section Independence

variable {I : σ → Prop} {f g : σ → Option σ} {F : σ → α → Option σ} {as : List α}

-- The order of two steps does not matter where `I` holds.
def Independent (I : σ → Prop) (f g : σ → Option σ) : Prop :=
  ∀ s, I s → (f s).bind g = (g s).bind f

def Preserves (I : σ → Prop) (f : σ → Option σ) : Prop :=
  ∀ s s', I s → f s = some s' → I s'

theorem Independent.symm (h : Independent I f g) : Independent I g f :=
  fun s hs => (h s hs).symm

theorem independent_some (g : σ → Option σ) (h : ∀ s, I s → f s = some s) (hg : Preserves I g) :
    Independent I f g := by
  intro s hs
  rw [h s hs, Option.bind_some]
  cases hgs : g s
  case none    => rfl
  case some s' => exact (h s' <| hg s s' hs hgs).symm

theorem Preserves.foldlM (h : ∀ a ∈ as, Preserves I (F · a)) : Preserves I (as.foldlM F ·) := by
  induction as
  case nil =>
    intro s s' hs hf
    cases hf
    exact hs
  case cons a as hi =>
    rw [List.forall_mem_cons] at h
    intro s s' hs hf
    simp only [List.foldlM_cons] at hf
    obtain ⟨s₁, h₁, hf⟩ := Option.bind_eq_some_iff.mp hf
    exact hi h.right s₁ s' (h.left s s₁ hs h₁) hf

-- A step that can be swapped with each of a sequence can be swapped with all of it.
theorem Independent.foldlM (hf : ∀ a ∈ as, Preserves I (F · a))
    (h : ∀ a ∈ as, Independent I (F · a) g) : Independent I (as.foldlM F ·) g := by
  induction as
  case nil => exact fun s _ => by simp
  case cons a as hi =>
    rw [List.forall_mem_cons] at h hf
    intro s hs
    have ha : (F s a).bind g = (g s).bind (F · a) := h.left s hs
    simp only [List.foldlM_cons]
    cases h₁ : F s a
    case none =>
      rw [h₁, Option.bind_none] at ha
      cases h₂ : g s
      case none => rfl
      case some s₂ =>
        rw [h₂, Option.bind_some] at ha
        simp [← ha]
    case some s₁ =>
      have hr : (as.foldlM F s₁).bind g = (g s₁).bind (as.foldlM F ·) :=
        hi hf.right h.right s₁ (hf.left s s₁ hs h₁)
      rw [h₁, Option.bind_some] at ha
      simp [hr, ha, Option.bind_assoc]

end Independence
end Reorder
