import Mathlib.Data.List.Basic

-- Systems that move from state to state by events, some of which are not enabled.
structure TransitionSystem (σ ε : Type*) where
  init : σ
  step : σ → ε → Option σ

namespace TransitionSystem

variable {σ ε : Type*} {T : TransitionSystem σ ε} {guard guard' : σ → ε → Prop} {s s' : σ}

-- The states reached by runs all of whose steps satisfy `guard`.
inductive Reachable (T : TransitionSystem σ ε) (guard : σ → ε → Prop) : σ → Prop
  | init : Reachable T guard T.init
  | step {s s' : σ} {e : ε} :
    Reachable T guard s → guard s e → T.step s e = some s' → Reachable T guard s'

namespace Reachable

theorem mono (h : ∀ s e, guard s e → guard' s e) (r : T.Reachable guard s) :
    T.Reachable guard' s := by
  induction r
  case init            => exact .init
  case step _ hg hs hi => exact hi.step (h _ _ hg) hs

-- A guard that follows from another one in the states that are reached.
theorem strengthen (h : ∀ s e, T.Reachable guard s → guard s e → guard' s e) (r : T.Reachable guard s) :
    T.Reachable guard' s := by
  induction r
  case init              => exact .init
  case step r hg hs hi => exact hi.step (h _ _ r hg) hs

-- The run lemma: an invariant is what holds initially and is preserved by each step.
theorem invariant {Inv : σ → Prop} (r : T.Reachable guard s) (init : Inv T.init)
    (step : ∀ {s s' e}, T.Reachable guard s → Inv s → guard s e → T.step s e = some s' → Inv s') :
    Inv s := by
  induction r
  case init             => exact init
  case step r hg hs hi => exact step r hi hg hs

end Reachable

-- The same system, as it goes on from another state.
def goingOn (T : TransitionSystem σ ε) (s : σ) : TransitionSystem σ ε :=
  { T with init := s }

theorem Reachable.goOn (r : T.Reachable guard s) (r' : (T.goingOn s).Reachable guard' s')
    (h : ∀ s e, guard' s e → guard s e) : T.Reachable guard s' := by
  induction r'
  case init              => exact r
  case step _ hg hs hi   => exact hi.step (h _ _ hg) hs

theorem Reachable.next {e : ε} (hg : guard s e) (hs : T.step s e = some s') :
    (T.goingOn s).Reachable guard s' :=
  .step .init hg hs

-- The states reached by such runs, with the events that have led there.
inductive Trace (T : TransitionSystem σ ε) (guard : σ → ε → Prop) : List ε → σ → Prop
  | init : Trace T guard [] T.init
  | step {es : List ε} {s s' : σ} {e : ε} :
    Trace T guard es s → guard s e → T.step s e = some s' → Trace T guard (es ++ [e]) s'

namespace Trace

variable {es : List ε}

theorem reachable (t : T.Trace guard es s) : T.Reachable guard s := by
  induction t
  case init             => exact .init
  case step _ hg hs hi => exact hi.step hg hs

theorem mono (h : ∀ s e, guard s e → guard' s e) (t : T.Trace guard es s) : T.Trace guard' es s := by
  induction t
  case init            => exact .init
  case step hg hs hi   => exact hi.step (h _ _ hg) hs

-- A guard that holds at all the steps of one run.
theorem strengthen (t : T.Trace guard es s)
    (h : ∀ es' s e, es' ++ [e] <+: es → T.Trace guard es' s → guard s e → guard' s e) :
    T.Trace guard' es s := by
  induction t
  case init => exact .init
  case step t hg hs hi =>
    refine (hi fun es' s e he => h es' s e (he.trans (List.prefix_append ..))).step ?_ hs
    exact h _ _ _ List.prefix_rfl t hg

theorem last {e : ε} (t : T.Trace guard (es ++ [e]) s') :
    ∃ s, T.Trace guard es s ∧ guard s e ∧ T.step s e = some s' := by
  generalize hes : es ++ [e] = es' at t
  cases t
  case init => simp at hes
  case step t hg hs =>
    obtain ⟨rfl, rfl⟩ := List.append_singleton_inj.mp hes
    exact ⟨_, t, hg, hs⟩

-- A run leads to one state.
theorem unique (t : T.Trace guard es s) (t' : T.Trace guard' es s') : s = s' := by
  induction t generalizing s'
  case init =>
    generalize hes : ([] : List ε) = es at t'
    cases t'
    case init => rfl
    case step => simp at hes
  case step hs hi =>
    obtain ⟨_, t', _, hs'⟩ := t'.last
    cases hi t'
    exact Option.some.inj (hs.symm.trans hs')

theorem of_prefix {es' : List ε} (t : T.Trace guard es s) (h : es' <+: es) : ∃ s', T.Trace guard es' s' := by
  induction t
  case init =>
    cases List.prefix_nil.mp h
    exact ⟨_, .init⟩
  case step t hg hs hi =>
    rcases List.prefix_concat_iff.mp h with rfl | h
    case inl => exact ⟨_, t.step hg hs⟩
    case inr => exact hi h

end Trace

theorem Reachable.trace (r : T.Reachable guard s) : ∃ es, T.Trace guard es s := by
  induction r
  case init            => exact ⟨_, .init⟩
  case step _ hg hs hi => exact hi.imp' (· ++ [_]) fun _ t => t.step hg hs

-- A run of a fixed sequence of events that checks the guard at each step.
def run (T : TransitionSystem σ ε) (guard : σ → ε → Prop) [∀ s e, Decidable (guard s e)] :
    σ → List ε → Option σ
  | s, []      => some s
  | s, e :: es => if guard s e then (T.step s e).bind (T.run guard · es) else none

theorem Trace.run [∀ s e, Decidable (guard s e)] {es es' : List ε} (t : T.Trace guard es s)
    (h : T.run guard s es' = some s') : T.Trace guard (es ++ es') s' := by
  induction es' generalizing es s
  case nil =>
    cases h
    simpa using t
  case cons e es' hi =>
    simp only [TransitionSystem.run] at h
    split at h
    case isFalse => contradiction
    case isTrue hg =>
      obtain ⟨_, hs, h⟩ := Option.bind_eq_some_iff.mp h
      simpa using hi (t.step hg hs) h

theorem Reachable.run [∀ s e, Decidable (guard s e)] {es : List ε} (r : T.Reachable guard s)
    (h : T.run guard s es = some s') : T.Reachable guard s' :=
  have ⟨_, t⟩ := r.trace
  (t.run h).reachable

theorem trace_run (guard : σ → ε → Prop) [∀ s e, Decidable (guard s e)] (es : List ε)
    (h : (T.run guard T.init es).isSome) : T.Trace guard es ((T.run guard T.init es).get h) :=
  .run .init (Option.some_get h).symm

theorem reachable_run (guard : σ → ε → Prop) [∀ s e, Decidable (guard s e)] (es : List ε)
    (h : (T.run guard T.init es).isSome) : T.Reachable guard ((T.run guard T.init es).get h) :=
  .run .init (Option.some_get h).symm

end TransitionSystem
