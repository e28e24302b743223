import Mathlib.Algebra.Order.Ring.Nat
import Mathlib.Tactic.Common
import Mathlib.Data.List.FinRange

/-!
# Tables that are searched from the front

A table of `n` slots in which free slots keep their contents.  `first p` is the first slot whose contents satisfy `p`;
one slot is changed by `set`, and several ones by `update`.
-/

namespace Rost.Lib

/-- A table of `n` slots. -/
def Slots (n : Nat) (α : Type) := Fin n → α

namespace Slots

variable {n : Nat} {α : Type}

def replicate (n : Nat) (x : α) : Slots n α := fun _ => x

def get (t : Slots n α) (i : Fin n) : α := t i

def set (t : Slots n α) (i : Fin n) (x : α) : Slots n α := fun j => if j = i then x else t j

/-- Apply `f` to the slots that satisfy `p`. -/
def update (t : Slots n α) (p : α → Bool) (f : α → α) : Slots n α := fun j => if p (t j) then f (t j) else t j

/-- The first slot that satisfies `p`. -/
def first (t : Slots n α) (p : α → Bool) : Option (Fin n) := (List.finRange n).find? fun i => p (t.get i)

@[ext] theorem ext {t u : Slots n α} (h : ∀ i, t.get i = u.get i) : t = u := funext h

@[simp] theorem get_replicate (x : α) (i : Fin n) : (replicate n x).get i = x := rfl

theorem get_set (t : Slots n α) (i j : Fin n) (x : α) : (t.set i x).get j = if j = i then x else t.get j := rfl

@[simp] theorem get_set_self (t : Slots n α) (i : Fin n) (x : α) : (t.set i x).get i = x := by simp [get_set]

theorem get_set_of_ne (t : Slots n α) {i j : Fin n} (h : j ≠ i) (x : α) : (t.set i x).get j = t.get j := by
  simp [get_set, h]

@[simp] theorem set_get_self (t : Slots n α) (i : Fin n) : t.set i (t.get i) = t := by
  ext j
  by_cases h : j = i
  · simp [h]
  · simp [get_set, h]

@[simp] theorem set_set (t : Slots n α) (i : Fin n) (x y : α) : (t.set i x).set i y = t.set i y := by
  ext j
  by_cases h : j = i
  · simp [h]
  · simp [get_set, h]

theorem get_update (t : Slots n α) (p : α → Bool) (f : α → α) (i : Fin n) :
    (t.update p f).get i = if p (t.get i) then f (t.get i) else t.get i := rfl

theorem first_eq_none_iff {t : Slots n α} {p : α → Bool} : t.first p = none ↔ ∀ i, p (t.get i) = false := by
  unfold first
  rw [List.find?_eq_none]
  simp

theorem first_spec {t : Slots n α} {p : α → Bool} {i : Fin n} (h : t.first p = some i) : p (t.get i) = true :=
  List.find?_some (p := fun i => p (t.get i)) h

theorem first_isSome_iff {t : Slots n α} {p : α → Bool} : (t.first p).isSome = true ↔ ∃ i, p (t.get i) = true := by
  constructor
  · intro h
    obtain ⟨i, hi⟩ := Option.isSome_iff_exists.1 h
    exact ⟨i, first_spec hi⟩
  · rintro ⟨i, hi⟩
    cases hfirst : t.first p with
    | none => simp [first_eq_none_iff.1 hfirst i] at hi
    | some j => rfl

/-- A slot that alone satisfies `p` is the first. -/
theorem first_eq_some_of_unique {t : Slots n α} {p : α → Bool} {i : Fin n} (hi : p (t.get i) = true)
    (h : ∀ j, p (t.get j) = true → j = i) : t.first p = some i := by
  cases hfirst : t.first p with
  | none => simp [first_eq_none_iff.1 hfirst i] at hi
  | some j => rw [h j (first_spec hfirst)]

theorem first_congr {t u : Slots n α} {p q : α → Bool} (h : ∀ i, p (t.get i) = q (u.get i)) : t.first p = u.first q := by
  unfold first
  congr 1
  funext i
  exact h i

end Slots

end Rost.Lib
