import Mathlib.Algebra.Order.Ring.Nat
import Mathlib.Tactic.Common

/-!
# Bitmaps

A set of numbers stored as a sequence of 64-bit words, with the operations of a first-fit allocator: set a bit, clear
a bit, find the least bit that is set.
-/

namespace Rost.Lib

/-- A sequence of 64-bit words. -/
def Bitmap := Nat → BitVec 64

namespace Bitmap

def empty : Bitmap := fun _ => 0

def test (b : Bitmap) (i : Nat) : Bool := (b (i / 64)).getLsbD (i % 64)

def set (b : Bitmap) (i : Nat) : Bitmap := fun w => if w = i / 64 then b w ||| 1#64 <<< (i % 64) else b w

def clear (b : Bitmap) (i : Nat) : Bitmap := fun w => if w = i / 64 then b w &&& ~~~(1#64 <<< (i % 64)) else b w

/-- The first word that is not zero, among the `fuel` words from `w` on. -/
def findWord (b : Bitmap) : Nat → Nat → Option Nat
  | 0, _ => none
  | fuel + 1, w => if b w ≠ 0 then some w else b.findWord fuel (w + 1)

/-- The least bit that is set in the first `words` words. -/
def findFirst (b : Bitmap) (words : Nat) : Option Nat :=
  (b.findWord words 0).map fun w => w * 64 + (b w).ctz.toNat

@[simp] theorem test_empty (i : Nat) : empty.test i = false := by simp [test, empty]

private theorem same_bit {i j : Nat} (hw : j / 64 = i / 64) (hb : j % 64 = i % 64) : j = i := by
  have hi := Nat.div_add_mod i 64
  have hj := Nat.div_add_mod j 64
  omega

private theorem getLsbD_one_shiftLeft (i j : Nat) (hj : j < 64) :
    (1#64 <<< i).getLsbD j = decide (j = i) := by
  simp only [BitVec.getLsbD_shiftLeft, BitVec.getLsbD_one]
  by_cases h : j = i
  · subst h; simp [hj]
  · by_cases hlt : j < i
    · simp [hlt, h]
    · have : ¬ (j - i = 0) := by omega
      simp [this, h]

theorem test_set (b : Bitmap) (i j : Nat) : (b.set i).test j = (b.test j || decide (j = i)) := by
  unfold test set
  by_cases hw : j / 64 = i / 64
  · rw [if_pos hw, BitVec.getLsbD_or, getLsbD_one_shiftLeft _ _ (Nat.mod_lt _ (by decide))]
    by_cases hb : j % 64 = i % 64
    · have hji := same_bit hw hb
      subst hji; simp
    · have hji : j ≠ i := fun h => hb (by rw [h])
      simp [hb, hji]
  · have hji : j ≠ i := fun h => hw (by rw [h])
    simp [hw, hji]

/-- Setting the bits of a list. -/
theorem test_foldl_set (b : Bitmap) (is : List Nat) (j : Nat) :
    (is.foldl set b).test j = true ↔ b.test j = true ∨ j ∈ is := by
  induction is generalizing b with
  | nil => simp
  | cons i is ih =>
    rw [List.foldl_cons, ih, test_set, Bool.or_eq_true, decide_eq_true_iff, List.mem_cons, or_assoc]

theorem test_clear (b : Bitmap) (i j : Nat) : (b.clear i).test j = (b.test j && !decide (j = i)) := by
  unfold test clear
  have hlt : j % 64 < 64 := Nat.mod_lt _ (by decide)
  by_cases hw : j / 64 = i / 64
  · rw [if_pos hw, BitVec.getLsbD_and, BitVec.getLsbD_not, getLsbD_one_shiftLeft _ _ hlt]
    by_cases hb : j % 64 = i % 64
    · have hji := same_bit hw hb
      subst hji; simp
    · have hji : j ≠ i := fun h => hb (by rw [h])
      simp [hb, hji, hlt]
  · have hji : j ≠ i := fun h => hw (by rw [h])
    simp [hw, hji]

private theorem findWord_eq_some {b : Bitmap} {fuel w v : Nat} (h : b.findWord fuel w = some v) :
    w ≤ v ∧ v < w + fuel ∧ b v ≠ 0 ∧ ∀ u, w ≤ u → u < v → b u = 0 := by
  induction fuel generalizing w with
  | zero => cases h
  | succ fuel ih =>
    unfold findWord at h
    split at h
    · rename_i hw
      cases h
      exact ⟨Nat.le_refl _, by omega, hw, fun u h₁ h₂ => by omega⟩
    · rename_i hw
      obtain ⟨h₁, h₂, h₃, h₄⟩ := ih h
      refine ⟨by omega, by omega, h₃, fun u hu₁ hu₂ => ?_⟩
      by_cases huw : u = w
      · rw [huw]; exact not_not.1 hw
      · exact h₄ u (by omega) hu₂

private theorem findWord_eq_none {b : Bitmap} {fuel w : Nat} (h : b.findWord fuel w = none) {u : Nat} (h₁ : w ≤ u)
    (h₂ : u < w + fuel) : b u = 0 := by
  induction fuel generalizing w with
  | zero => omega
  | succ fuel ih =>
    unfold findWord at h
    split at h
    · cases h
    · rename_i hw
      by_cases huw : u = w
      · rw [huw]; exact not_not.1 hw
      · exact ih h (by omega) (by omega)

private theorem test_of_word_zero {b : Bitmap} {i : Nat} (h : b (i / 64) = 0) : b.test i = false := by
  unfold test
  rw [h]
  simp

/-- The bit that is found is set, and no smaller one is. -/
theorem findFirst_eq_some {b : Bitmap} {words i : Nat} (h : b.findFirst words = some i) :
    i < words * 64 ∧ b.test i = true ∧ ∀ j < i, b.test j = false := by
  obtain ⟨w, hw, rfl⟩ := Option.map_eq_some_iff.1 h
  obtain ⟨-, hlt, hne, hzero⟩ := findWord_eq_some hw
  have hctz : (b w).ctz.toNat < 64 := by
    have h64 : (64#64).toNat = 64 := rfl
    have := BitVec.ctz_lt_iff_ne_zero.2 hne
    rw [BitVec.lt_def] at this
    simpa using this
  have hdiv : (w * 64 + (b w).ctz.toNat) / 64 = w := by omega
  have hmod : (w * 64 + (b w).ctz.toNat) % 64 = (b w).ctz.toNat := by omega
  refine ⟨by omega, ?_, fun j hj => ?_⟩
  · unfold test
    rw [hdiv, hmod]
    exact BitVec.getLsbD_true_ctz_of_ne_zero hne
  · by_cases hjw : j / 64 = w
    · unfold test
      rw [hjw]
      exact BitVec.getLsbD_false_of_lt_ctz (by omega)
    · exact test_of_word_zero (hzero _ (Nat.zero_le _) (by omega))

/-- Nothing is found when no bit is set. -/
theorem findFirst_eq_none {b : Bitmap} {words : Nat} (h : b.findFirst words = none) {i : Nat} (hi : i < words * 64) :
    b.test i = false := by
  have hw : b.findWord words 0 = none := Option.map_eq_none_iff.1 h
  exact test_of_word_zero (findWord_eq_none hw (Nat.zero_le _) (by omega))

/-! ### The bits in order -/

/-- The bits that are set in the first `words` words, in ascending order. -/
def bits (b : Bitmap) (words : Nat) : List Nat := (List.range (words * 64)).filter b.test

theorem mem_bits {b : Bitmap} {words i : Nat} : i ∈ b.bits words ↔ i < words * 64 ∧ b.test i = true := by
  unfold bits
  rw [List.mem_filter, List.mem_range]

/-- The bit that is found is the first one, and clearing it leaves the others. -/
theorem bits_of_findFirst {b : Bitmap} {words i : Nat} (h : b.findFirst words = some i) :
    b.bits words = i :: (b.clear i).bits words := by
  obtain ⟨hlt, htest, hleast⟩ := findFirst_eq_some h
  have hrange : List.range (words * 64) = List.range i ++ i :: List.range' (i + 1) (words * 64 - (i + 1)) := by
    rw [show words * 64 = i + (words * 64 - i) by omega, List.range_eq_range', List.range_eq_range', ← List.range'_append_1,
      show i + (words * 64 - i) - (i + 1) = words * 64 - i - 1 by omega, Nat.zero_add]
    congr 1
    cases hn : words * 64 - i with
    | zero => omega
    | succ n => exact List.range'_succ
  have hbelow : ∀ {c : Bitmap}, (∀ j, c.test j = true → b.test j = true) → (List.range i).filter c.test = [] := by
    intro c hc
    refine List.filter_eq_nil_iff.2 fun j hj hset => ?_
    have hzero := hleast j (List.mem_range.1 hj)
    rw [hc j hset] at hzero
    cases hzero
  have habove : (List.range' (i + 1) (words * 64 - (i + 1))).filter b.test =
      (List.range' (i + 1) (words * 64 - (i + 1))).filter (b.clear i).test := by
    refine List.filter_congr fun j hj => ?_
    have hne : j ≠ i := by
      have := (List.mem_range'_1.1 hj).1
      omega
    rw [test_clear, decide_eq_false hne, Bool.not_false, Bool.and_true]
  have hself : (b.clear i).test i = false := by
    rw [test_clear]
    simp
  have hclear : ∀ j, (b.clear i).test j = true → b.test j = true := by
    intro j hj
    rw [test_clear] at hj
    exact (Bool.and_eq_true_iff.1 hj).1
  unfold bits
  rw [hrange, List.filter_append, List.filter_append, hbelow fun _ h => h, hbelow hclear,
    List.filter_cons_of_pos htest, List.filter_cons_of_neg (by rw [hself]; decide), habove]
  rfl

/-- The bits of a bitmap that has been set bit by bit. -/
theorem bits_foldl_set {is : List Nat} {words : Nat} (hsorted : is.Pairwise (· < ·)) (hlt : ∀ i ∈ is, i < words * 64) :
    (is.foldl set empty).bits words = is := by
  have hbits : ((is.foldl set empty).bits words).Pairwise (· < ·) := List.pairwise_lt_range.filter _
  have hmem : ∀ i, i ∈ (is.foldl set empty).bits words ↔ i ∈ is := by
    intro i
    rw [mem_bits, test_foldl_set, test_empty]
    simp only [Bool.false_eq_true, false_or]
    exact ⟨And.right, fun h => ⟨hlt i h, h⟩⟩
  have hperm := (List.perm_ext_iff_of_nodup (hbits.imp Nat.ne_of_lt) (hsorted.imp Nat.ne_of_lt)).2 hmem
  exact hperm.eq_of_pairwise (fun a b _ _ h h' => absurd h (Nat.lt_asymm h')) hbits hsorted

end Bitmap

end Rost.Lib
