import RaftRupee.Lib.Transition

namespace TransitionSystem

variable {σ τ ε ε' α : Type*} {T : TransitionSystem τ ε} {guard guard' : τ → ε → Prop} {R : σ → τ → Prop}
variable {f g : σ → Option σ}

-- Whatever `f` does, the system can follow from a state that it has reached, by steps that satisfy `guard'`:
-- the states stay related.
structure Follows (T : TransitionSystem τ ε) (guard guard' : τ → ε → Prop) (R : σ → τ → Prop)
    (f : σ → Option σ) : Prop where
  run : ∀ {s s' t}, T.Reachable guard t → R s t → f s = some s' →
    ∃ t', (T.goingOn t).Reachable guard' t' ∧ R s' t'

namespace Follows

theorem of_eq {f : σ → σ} (h : ∀ s t, R s t → R (f s) t) : T.Follows guard guard' R fun s => some (f s) where
  run {s s' t} _ hr hs := by
    cases hs
    exact ⟨t, .init, h s t hr⟩

theorem bind (hg : ∀ t e, guard' t e → guard t e) (hf : T.Follows guard guard' R f)
    (hf' : T.Follows guard guard' R g) : T.Follows guard guard' R fun s => (f s).bind g where
  run {s s' t} ht hr hs := by
    obtain ⟨s₁, h₁, hs⟩ := Option.bind_eq_some_iff.mp hs
    obtain ⟨t₁, ht₁, hr₁⟩ := hf.run ht hr h₁
    obtain ⟨t', ht', hr'⟩ := hf'.run (ht.goOn ht₁ hg) hr₁ hs
    exact ⟨t', ht₁.goOn ht' fun _ _ h => h, hr'⟩

-- A loop is followed if its rounds are.
theorem foldlM {f : σ → α → Option σ} {as : List α} (hg : ∀ t e, guard' t e → guard t e)
    (h : ∀ a ∈ as, T.Follows guard guard' R (f · a)) : T.Follows guard guard' R (as.foldlM f) := by
  induction as
  case nil => exact .of_eq fun _ _ hr => hr
  case cons a as hi =>
    rw [List.forall_mem_cons] at h
    have hbind := bind hg h.left (hi h.right)
    exact ⟨fun ht hr hs => hbind.run ht hr (List.foldlM_cons.symm.trans hs)⟩

-- A system whose steps are followed is in a state that is related to one of the other system.
theorem reachable {S : TransitionSystem σ ε'} {allowed : σ → ε' → Prop} {s : σ} {t₀ : τ}
    (hg : ∀ t e, guard' t e → guard t e) (h : ∀ s e, allowed s e → T.Follows guard guard' R (S.step · e))
    (ht : T.Reachable guard t₀) (hr : R S.init t₀) (r : S.Reachable allowed s) :
    ∃ t, (T.goingOn t₀).Reachable guard' t ∧ R s t := by
  induction r
  case init => exact ⟨t₀, .init, hr⟩
  case step _ he hs hi =>
    obtain ⟨t, ht', hr⟩ := hi
    obtain ⟨t', hleads, hr'⟩ := (h _ _ he).run (ht.goOn ht' hg) hr hs
    exact ⟨t', ht'.goOn hleads fun _ _ h => h, hr'⟩

end Follows
end TransitionSystem
