import TagFilesystem.Library.Outcome
import Mathlib.Tactic.SplitIfs

namespace TagFilesystem

universe u v w

variable {ε : Type v} {σ : Type u} {ι : Type w} {step : σ → ι → Except ε σ}
  {guard : σ → ι → Prop} {s s' s'' : σ} {e : ι}

/-- `s'` is reached from `s` by events each of which meets `guard` in the state it starts in. -/
inductive Reaches (step : σ → ι → Except ε σ) (guard : σ → ι → Prop) : σ → σ → Prop
  | refl (s : σ) : Reaches step guard s s
  | tail {s s' s'' : σ} {e : ι} : Reaches step guard s s' → guard s' e → step s' e = .ok s'' →
      Reaches step guard s s''

/-- The rule of invariants: what holds at the start and is kept by every step holds throughout. -/
theorem Reaches.invariant {I : σ → Prop} (h : Reaches step guard s s') (hs : I s)
    (hstep : ∀ s e s', I s → guard s e → step s e = .ok s' → I s') : I s' := by
  induction h with
  | refl => exact hs
  | tail _ hg he ih => exact hstep _ _ _ ih hg he

theorem Reaches.trans (h : Reaches step guard s s') (h' : Reaches step guard s' s'') :
    Reaches step guard s s'' := by
  induction h' with
  | refl => exact h
  | tail _ hg he ih => exact ih.tail hg he

theorem Reaches.weaken {guard' : σ → ι → Prop} (h : Reaches step guard s s')
    (hg : ∀ s e, guard s e → guard' s e) : Reaches step guard' s s' := by
  induction h with
  | refl => exact .refl _
  | tail _ hge he ih => exact ih.tail (hg _ _ hge) he

/-- A run with the state reached after each event. -/
inductive Trace (step : σ → ι → Except ε σ) : σ → List (ι × σ) → Prop
  | nil (s : σ) : Trace step s []
  | cons {s s' : σ} {e : ι} {tr : List (ι × σ)} : step s e = .ok s' → Trace step s' tr →
      Trace step s ((e, s') :: tr)

/-- Executes the events in order, as long as each meets the guard and none ends in a fault. -/
def execute (step : σ → ι → Except ε σ) (guard : σ → ι → Prop) [∀ s e, Decidable (guard s e)] :
    List ι → σ → Option σ
  | [], s => some s
  | e :: es, s =>
    if guard s e then
      match step s e with
      | .ok s' => execute step guard es s'
      | .error _ => none
    else none

theorem Reaches.head (hg : guard s e) (he : step s e = .ok s') (h : Reaches step guard s' s'') :
    Reaches step guard s s'' := by
  induction h with
  | refl => exact .tail (.refl s) hg he
  | tail _ hg' he' ih => exact ih.tail hg' he'

theorem reaches_of_execute [∀ s e, Decidable (guard s e)] {es : List ι}
    (h : execute step guard es s = some s') : Reaches step guard s s' := by
  induction es generalizing s with
  | nil =>
    cases h
    exact .refl _
  | cons e es ih =>
    simp only [execute] at h
    split_ifs at h with hg
    split at h
    · next s₁ he => exact .head hg he (ih h)
    · cases h

theorem trace_of_execute [∀ s e, Decidable (guard s e)] {es : List ι}
    (h : execute step guard es s = some s') : ∃ tr, Trace step s tr ∧ tr.map Prod.fst = es := by
  induction es generalizing s with
  | nil => exact ⟨[], .nil s, rfl⟩
  | cons e es ih =>
    simp only [execute] at h
    split_ifs at h with hg
    split at h
    · next s₁ he =>
      obtain ⟨tr, htr, hes⟩ := ih h
      exact ⟨(e, s₁) :: tr, .cons he htr, by simp [hes]⟩
    · cases h

end TagFilesystem
