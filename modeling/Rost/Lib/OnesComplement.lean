import Mathlib.Algebra.Order.Ring.Nat
import Mathlib.Tactic.Common

/-!
# End-around sums

A sum in base `b` is folded by adding what stands above the last digit to that digit.  The fold keeps the residue modulo
`b - 1`, and a positive sum never folds to zero: so a sum with the complement of its fold folds to `b - 1`
(`fold_add_complement`).
-/

namespace Rost.Lib.OnesComplement

/-- Fold until one digit is left; the sum gets smaller in each round. -/
def fold (b : Nat) : Nat → Nat → Nat
  | 0, n => n
  | fuel + 1, n => if n / b = 0 then n else fold b fuel (n % b + n / b)

variable {b n fuel : Nat}

theorem fold_zero (b fuel : Nat) : fold b fuel 0 = 0 := by
  cases fuel with
  | zero => rfl
  | succ fuel =>
    unfold fold
    rw [if_pos (Nat.zero_div b)]

/-- The digit that a positive sum folds to. -/
theorem fold_eq (hb : 2 ≤ b) (hfuel : n ≤ fuel) (hn : 0 < n) : fold b fuel n = (n - 1) % (b - 1) + 1 := by
  induction fuel generalizing n with
  | zero => omega
  | succ fuel ih =>
    unfold fold
    by_cases hlast : n / b = 0
    · have hlt : n < b := (Nat.div_eq_zero_iff.1 hlast).resolve_left (by omega)
      rw [if_pos hlast, Nat.mod_eq_of_lt (by omega)]
      omega
    · rw [if_neg hlast]
      have hsplit := Nat.div_add_mod n b
      generalize n / b = q at hlast hsplit ⊢
      generalize n % b = r at hsplit ⊢
      have hmul : b * q = (b - 1) * q + q := by
        rw [← Nat.succ_mul, Nat.succ_eq_add_one, Nat.sub_add_cancel (by omega)]
      have hpos : 0 < (b - 1) * q := Nat.mul_pos (by omega) (Nat.pos_of_ne_zero hlast)
      rw [ih (by omega) (by omega), show n - 1 = r + q - 1 + (b - 1) * q by omega, Nat.add_mul_mod_self_left]

theorem fold_lt (hb : 2 ≤ b) (hfuel : n ≤ fuel) : fold b fuel n < b := by
  by_cases hn : n = 0
  · rw [hn, fold_zero]
    omega
  · have hlt := Nat.mod_lt (n - 1) (show 0 < b - 1 by omega)
    rw [fold_eq hb hfuel (Nat.pos_of_ne_zero hn)]
    omega

/-- A sum with the complement of its fold. -/
theorem fold_add_complement (hb : 2 ≤ b) (n : Nat) :
    fold b (n + (b - 1 - fold b n n)) (n + (b - 1 - fold b n n)) = b - 1 := by
  have hlt := fold_lt hb (Nat.le_refl n)
  obtain ⟨k, hk⟩ : ∃ k, n + (b - 1 - fold b n n) = b - 1 + (b - 1) * k := by
    by_cases hn : n = 0
    · refine ⟨0, ?_⟩
      rw [hn, fold_zero]
      omega
    · have heq := fold_eq hb (Nat.le_refl n) (Nat.pos_of_ne_zero hn)
      have hsplit := Nat.div_add_mod (n - 1) (b - 1)
      exact ⟨(n - 1) / (b - 1), by omega⟩
  rw [hk, fold_eq hb (Nat.le_refl _) (by omega), show b - 1 + (b - 1) * k - 1 = b - 2 + (b - 1) * k by omega,
    Nat.add_mul_mod_self_left, Nat.mod_eq_of_lt (by omega)]
  omega

end Rost.Lib.OnesComplement
