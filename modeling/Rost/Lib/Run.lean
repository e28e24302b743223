import Mathlib.Algebra.Order.Ring.Nat
import Mathlib.Tactic.Common
import Mathlib.Data.List.Basic
import Mathlib.Data.List.Induction

/-!
# Runs of a machine

A machine has states `σ`, inputs `ι` and results `ρ`; a step may fail to return (`none`).  A run is a sequence of
steps whose inputs meet a guard, recorded as the list of inputs with their results.  The rules: an invariant of the
steps is an invariant of the runs (`Run.invariant`), and a relation between the events so far and the state may be
proved by adding one step at the end (`Run.history`).  `exec` computes a run from its inputs, checking the guard.
-/

namespace Rost.Lib

variable {σ ι ρ : Type}

/-- The runs of `step` in which every input `i` meets the guard `G s i` in the state `s` where it is given. -/
inductive Run (step : σ → ι → Option (σ × ρ)) (G : σ → ι → Prop) : σ → List (ι × ρ) → σ → Prop
  | nil (s : σ) : Run step G s [] s
  | snoc {s t u : σ} {es : List (ι × ρ)} {i : ι} {r : ρ} (hrun : Run step G s es t) (hguard : G t i)
      (hstep : step t i = some (u, r)) : Run step G s (es ++ [(i, r)]) u

namespace Run

variable {step : σ → ι → Option (σ × ρ)} {G : σ → ι → Prop} {s t u : σ} {es fs : List (ι × ρ)}

theorem single {i : ι} {r : ρ} (hguard : G s i) (hstep : step s i = some (t, r)) : Run step G s [(i, r)] t :=
  snoc (nil s) hguard hstep

theorem append (h₁ : Run step G s es t) (h₂ : Run step G t fs u) : Run step G s (es ++ fs) u := by
  induction h₂ with
  | nil => rw [List.append_nil]; exact h₁
  | snoc _ hguard hstep ih => rw [← List.append_assoc]; exact snoc ih hguard hstep

/-- What every step preserves holds at the end of every run that starts with it. -/
theorem invariant {P : σ → Prop} (hP : ∀ {t u i r}, P t → G t i → step t i = some (u, r) → P u)
    (h : Run step G s es t) (hs : P s) : P t := by
  induction h with
  | nil => exact hs
  | snoc _ hguard hstep ih => exact hP ih hguard hstep

/-- A relation between the history and the state holds along a run, if every further step keeps it. -/
theorem history {P : List (ι × ρ) → σ → Prop}
    (hP : ∀ {es t u i r}, P es t → G t i → step t i = some (u, r) → P (es ++ [(i, r)]) u)
    (h : Run step G s es t) (hs : P [] s) : P es t := by
  induction h with
  | nil => exact hs
  | snoc _ hguard hstep ih => exact hP ih hguard hstep

/-- A run may be cut at any place. -/
theorem split (h : Run step G s (es ++ fs) u) : ∃ t, Run step G s es t ∧ Run step G t fs u := by
  induction fs using List.reverseRecOn generalizing u with
  | nil =>
    rw [List.append_nil] at h
    exact ⟨u, h, nil u⟩
  | append_singleton fs e ih =>
    rw [← List.append_assoc] at h
    generalize hes : es ++ fs ++ [e] = gs at h
    cases h with
    | nil => simp at hes
    | snoc hrun hguard hstep =>
      obtain ⟨hfst, hlast⟩ := List.append_inj' hes rfl
      obtain ⟨t, ht, ht'⟩ := ih (hfst ▸ hrun)
      cases (List.cons.inj hlast).1
      exact ⟨t, ht, snoc ht' hguard hstep⟩

theorem eq_of_nil (h : Run step G s [] t) : t = s := by
  generalize hes : ([] : List (ι × ρ)) = gs at h
  cases h with
  | nil => rfl
  | snoc => simp at hes

/-- The inputs and results of a run determine where it ends. -/
theorem det {G' : σ → ι → Prop} (h : Run step G s es t) (h' : Run step G' s es u) : t = u := by
  induction h generalizing u with
  | nil => exact (eq_of_nil h').symm
  | snoc hrun hguard hstep ih =>
    obtain ⟨v, hinit, hlast⟩ := h'.split
    cases ih hinit
    generalize hes : [_] = gs at hlast
    cases hlast with
    | nil => cases hes
    | snoc hnil hguard' hstep' =>
      rw [← List.nil_append [_]] at hes
      obtain ⟨hfst, heq⟩ := List.append_inj' hes rfl
      cases (List.cons.inj heq).1
      cases eq_of_nil (hfst ▸ hnil)
      rw [hstep] at hstep'
      cases hstep'
      rfl

/-- The first step of a run. -/
theorem head {i : ι} {r : ρ} (h : Run step G s ((i, r) :: es) u) :
    ∃ t, G s i ∧ step s i = some (t, r) ∧ Run step G t es u := by
  have hcut : Run step G s ([(i, r)] ++ es) u := h
  obtain ⟨t, hone, hrest⟩ := hcut.split
  generalize hes : [(i, r)] = gs at hone
  cases hone with
  | nil => cases hes
  | snoc hrun hguard hstep =>
    rw [← List.nil_append [(i, r)]] at hes
    obtain ⟨hfst, hlast⟩ := List.append_inj' hes rfl
    cases (List.cons.inj hlast).1
    cases eq_of_nil (hfst ▸ hrun)
    exact ⟨t, hguard, hstep, hrest⟩

theorem mono {G' : σ → ι → Prop} (hG : ∀ t i, G t i → G' t i) (h : Run step G s es t) : Run step G' s es t := by
  induction h with
  | nil => exact nil _
  | snoc _ hguard hstep ih => exact snoc ih (hG _ _ hguard) hstep

/-- Under an invariant of the steps that meet both guards, two guards that agree on the steps have the same runs. -/
theorem iff_of_invariant {G' : σ → ι → Prop} {P : σ → Prop} (hs : P s)
    (hG : ∀ {t u i r}, P t → step t i = some (u, r) → (G t i ↔ G' t i))
    (hP : ∀ {t u i r}, P t → G t i → step t i = some (u, r) → P u) : Run step G s es t ↔ Run step G' s es t := by
  constructor
  · intro h
    have hboth : P t ∧ Run step G' s es t := by
      induction h with
      | nil => exact ⟨hs, nil _⟩
      | snoc _ hguard hstep ih => exact ⟨hP ih.1 hguard hstep, snoc ih.2 ((hG ih.1 hstep).1 hguard) hstep⟩
    exact hboth.2
  · intro h
    have hboth : P t ∧ Run step G s es t := by
      induction h with
      | nil => exact ⟨hs, nil _⟩
      | snoc _ hguard hstep ih =>
        have hguard' := (hG ih.1 hstep).2 hguard
        exact ⟨hP ih.1 hguard' hstep, snoc ih.2 hguard' hstep⟩
    exact hboth.2

/-- When a property that is lost stays lost, and a step keeps it exactly if its input meets `H`, the runs at whose end it
holds are those whose inputs all meet `H`; `I` is an invariant of the runs. -/
theorem holds_iff {P I : σ → Prop} {H : σ → ι → Prop}
    (hI : ∀ {t u i r}, I t → G t i → step t i = some (u, r) → I u)
    (hkeep : ∀ {t u i r}, I t → P t → G t i → step t i = some (u, r) → (P u ↔ H t i))
    (hlost : ∀ {t u i r}, I t → ¬ P t → G t i → step t i = some (u, r) → ¬ P u)
    (hrun : Run step G s es t) (hIs : I s) (hs : P s) : P t ↔ Run step (fun s i => G s i ∧ H s i) s es t := by
  constructor
  · intro ht
    induction hrun with
    | nil => exact nil _
    | snoc hrun hguard hstep ih =>
      rename_i t u es i r
      have hinv := hrun.invariant hI hIs
      by_cases hP : P t
      · exact snoc (ih hP) ⟨hguard, (hkeep hinv hP hguard hstep).1 ht⟩ hstep
      · exact absurd ht (hlost hinv hP hguard hstep)
  · intro hrun'
    have hboth : I t ∧ P t := by
      clear hrun
      induction hrun' with
      | nil => exact ⟨hIs, hs⟩
      | snoc _ hguard hstep ih =>
        exact ⟨hI ih.1 hguard.1 hstep, (hkeep ih.1 ih.2 hguard.1 hstep).2 hguard.2⟩
    exact hboth.2

end Run

/-- Run the machine on the given inputs, as long as they meet the guard. -/
def exec (step : σ → ι → Option (σ × ρ)) (G : σ → ι → Prop) [∀ s i, Decidable (G s i)] :
    σ → List ι → Option (σ × List (ι × ρ))
  | s, [] => some (s, [])
  | s, i :: is =>
    if G s i then
      match step s i with
      | none => none
      | some (t, r) => (exec step G t is).map fun out => (out.1, (i, r) :: out.2)
    else none

theorem run_of_exec {step : σ → ι → Option (σ × ρ)} {G : σ → ι → Prop} [∀ s i, Decidable (G s i)] {s t : σ}
    {is : List ι} {es : List (ι × ρ)} (h : exec step G s is = some (t, es)) : Run step G s es t := by
  induction is generalizing s es with
  | nil =>
    simp only [exec, Option.some.injEq, Prod.mk.injEq] at h
    obtain ⟨rfl, rfl⟩ := h
    exact Run.nil _
  | cons i is ih =>
    unfold exec at h
    split at h
    · rename_i hguard
      split at h
      · cases h
      · rename_i u r hstep
        obtain ⟨⟨t', es'⟩, hrest, heq⟩ := Option.map_eq_some_iff.1 h
        simp only [Prod.mk.injEq] at heq
        obtain ⟨rfl, rfl⟩ := heq
        exact (Run.single hguard hstep).append (ih hrest)
    · cases h

end Rost.Lib
