import Mathlib.Data.List.Basic

-- Sequences of actions whose execution can be cut short at any point.
namespace Crash

variable {σ α : Type*} {exec : σ → α → Option σ} {D D' : σ → Prop} {s s' : σ} {as bs : List α}
variable {post post' : σ → Prop}

-- `D` holds wherever the execution of the actions is cut, and `post` holds when all are executed.
def Sound (exec : σ → α → Option σ) (D : σ → Prop) : σ → List α → (σ → Prop) → Prop
  | s, [], post      => D s ∧ post s
  | s, a :: as, post => D s ∧ ∀ s', exec s a = some s' → Sound exec D s' as post

namespace Sound

theorem nil (hd : D s) (hp : post s) : Sound exec D s [] post :=
  ⟨hd, hp⟩

theorem cons {a : α} (hd : D s) (h : ∀ s', exec s a = some s' → Sound exec D s' as post) :
    Sound exec D s (a :: as) post :=
  ⟨hd, h⟩

theorem mono (h : Sound exec D s as post) (hd : ∀ s, D s → D' s)
    (hp : ∀ s, D s → post s → post' s) : Sound exec D' s as post' := by
  induction as generalizing s
  case nil         => exact ⟨hd s h.left, hp s h.left h.right⟩
  case cons a _ hi => exact ⟨hd s h.left, fun s' hs => hi <| h.right s' hs⟩

theorem and (h : Sound exec D s as post) (h' : Sound exec D' s as post') :
    Sound exec (fun s => D s ∧ D' s) s as (fun s => post s ∧ post' s) := by
  induction as generalizing s
  case nil         => exact ⟨⟨h.left, h'.left⟩, h.right, h'.right⟩
  case cons a _ hi => exact ⟨⟨h.left, h'.left⟩, fun s' hs => hi (h.right s' hs) (h'.right s' hs)⟩

theorem append (h : Sound exec D s as fun s => Sound exec D s bs post) :
    Sound exec D s (as ++ bs) post := by
  induction as generalizing s
  case nil         => exact h.right
  case cons a _ hi => exact ⟨h.left, fun s' hs => hi <| h.right s' hs⟩

-- Actions that all keep an invariant.
theorem all {J : σ → Prop} (hd : ∀ s, J s → D s) (h : ∀ s s', ∀ a ∈ as, J s → exec s a = some s' → J s')
    (hj : J s) : Sound exec D s as J := by
  induction as generalizing s
  case nil => exact ⟨hd s hj, hj⟩
  case cons a as hi =>
    refine ⟨hd s hj, fun s' hs => ?_⟩
    exact hi (fun s s' b hb => h s s' b <| List.mem_cons_of_mem _ hb) <| h s s' a List.mem_cons_self hj hs

theorem run (h : Sound exec D s as post) (hs : as.foldlM exec s = some s') : D s' ∧ post s' := by
  induction as generalizing s
  case nil =>
    cases hs
    exact h
  case cons a _ hi =>
    rw [List.foldlM_cons] at hs
    obtain ⟨s₁, h₁, hs⟩ := Option.bind_eq_some_iff.mp hs
    exact hi (h.right s₁ h₁) hs

theorem take (h : Sound exec D s as post) (k : ℕ) :
    Sound exec D s (as.take k) fun _ => True := by
  induction as generalizing s k
  case nil => simpa using ⟨h.left, trivial⟩
  case cons a _ hi =>
    cases k
    case zero   => exact ⟨h.left, trivial⟩
    case succ k => exact ⟨h.left, fun s' hs => hi (h.right s' hs) k⟩

end Sound
end Crash
