import Mathlib.Tactic.Common
import Mathlib.Data.List.Basic

/-!
# Transducers

A machine with states `σ` reads inputs `ι` one at a time and answers each with an output `ο`.  Reading a list is reading
its parts in order (`feedAll_append`), and what every input of a kind preserves holds after any list of that kind
(`feedAll_invariant`).
-/

namespace Rost.Lib

variable {σ ι ο : Type} (step : σ → ι → σ × ο)

/-- The state after a list of inputs, with one output for each of them. -/
def feedAll (s : σ) : List ι → σ × List ο
  | [] => (s, [])
  | i :: is => ((feedAll (step s i).1 is).1, (step s i).2 :: (feedAll (step s i).1 is).2)

@[simp] theorem feedAll_nil (s : σ) : feedAll step s [] = (s, []) := rfl

@[simp] theorem feedAll_cons (s : σ) (i : ι) (is : List ι) : feedAll step s (i :: is) =
    ((feedAll step (step s i).1 is).1, (step s i).2 :: (feedAll step (step s i).1 is).2) := rfl

theorem feedAll_append (s : σ) (is js : List ι) : feedAll step s (is ++ js) =
    ((feedAll step (feedAll step s is).1 js).1, (feedAll step s is).2 ++ (feedAll step (feedAll step s is).1 js).2) := by
  induction is generalizing s with
  | nil => rfl
  | cons i is ih => simp only [List.cons_append, feedAll_cons, ih]

theorem feedAll_snoc (s : σ) (is : List ι) (i : ι) : feedAll step s (is ++ [i]) =
    ((step (feedAll step s is).1 i).1, (feedAll step s is).2 ++ [(step (feedAll step s is).1 i).2]) := by
  rw [feedAll_append]
  rfl

variable {step}

/-- What the inputs of a kind preserve. -/
theorem feedAll_invariant {P : σ → Prop} {K : ι → Prop} (hP : ∀ s i, P s → K i → P (step s i).1) {s : σ} (hs : P s)
    {is : List ι} (his : ∀ i ∈ is, K i) : P (feedAll step s is).1 := by
  induction is generalizing s with
  | nil => exact hs
  | cons i is ih =>
    obtain ⟨hi, his⟩ := List.forall_mem_cons.1 his
    exact ih (hP s i hs hi) his

end Rost.Lib
