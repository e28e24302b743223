import Rost.Lib.Run

/-!
# Unwinding

Two runs of one machine beside each other, whose inputs need not be the same.  If the states stay related, and related states
give results that look alike, then the two runs look alike (`unwinding`).
-/

namespace Rost.Lib

variable {σ ι ρ ω : Type}

/-- A step of both runs. -/
def pairStep (step : σ → ι → Option (σ × ρ)) (s : σ × σ) (i : ι × ι) : Option ((σ × σ) × (ρ × ρ)) :=
  match step s.1 i.1, step s.2 i.2 with
  | some (t₁, r₁), some (t₂, r₂) => some ((t₁, t₂), (r₁, r₂))
  | _, _ => none

theorem pairStep_eq_some {step : σ → ι → Option (σ × ρ)} {s t : σ × σ} {i : ι × ι} {r : ρ × ρ}
    (h : pairStep step s i = some (t, r)) : step s.1 i.1 = some (t.1, r.1) ∧ step s.2 i.2 = some (t.2, r.2) := by
  unfold pairStep at h
  split at h
  · rename_i h₁ h₂
    cases h
    exact ⟨h₁, h₂⟩
  · cases h

/-- Related states stay related, and all results look alike. -/
theorem unwinding {step : σ → ι → Option (σ × ρ)} {G : σ × σ → ι × ι → Prop} {R : σ × σ → Prop} {look : ρ → ω}
    (hstep : ∀ {s t : σ × σ} {i : ι × ι} {r : ρ × ρ}, R s → G s i → step s.1 i.1 = some (t.1, r.1) →
      step s.2 i.2 = some (t.2, r.2) → R t ∧ look r.1 = look r.2)
    {s t : σ × σ} {es : List ((ι × ι) × (ρ × ρ))} (hrun : Run (pairStep step) G s es t) (hs : R s) :
    R t ∧ ∀ e ∈ es, look e.2.1 = look e.2.2 := by
  refine hrun.history (P := fun es t => R t ∧ ∀ e ∈ es, look e.2.1 = look e.2.2) ?_ ⟨hs, fun e he => nomatch he⟩
  intro es t u i r ih hguard hboth
  obtain ⟨h₁, h₂⟩ := pairStep_eq_some hboth
  obtain ⟨hu, hlook⟩ := hstep ih.1 hguard h₁ h₂
  refine ⟨hu, fun e he => ?_⟩
  rcases List.mem_append.1 he with hold | hnew
  · exact ih.2 e hold
  · cases List.mem_singleton.1 hnew
    exact hlook

end Rost.Lib
