import Mathlib.Algebra.Order.Ring.Nat
import Mathlib.Data.List.Basic
import Mathlib.Tactic.Common

/-!
# Bytes in words

Eight bytes are packed into a 64-bit word, the first one lowest, and read back from it.
-/

namespace Rost.Lib

/-- Word `k` of the packed bytes; bytes that are missing are zero. -/
def packWord (bytes : List (BitVec 8)) (k : Nat) : BitVec 64 :=
  (List.range 8).foldl (fun w i => w ||| (bytes.getD (8 * k + i) 0).setWidth 64 <<< (8 * i)) 0

/-- Byte `i` of a word. -/
def byteOf (w : BitVec 64) (i : Nat) : BitVec 8 := (w >>> (8 * i)).setWidth 8

/-- The bytes in the words, eight of each. -/
def unpackWords (words : List (BitVec 64)) (n : Nat) : List (BitVec 8) :=
  (List.range n).map fun i => byteOf (words.getD (i / 8) 0) (i % 8)

private theorem getLsbD_pack (bytes : List (BitVec 8)) (k j : Nat) (l : List Nat) (w : BitVec 64) (hj : j < 64) :
    (l.foldl (fun w i => w ||| (bytes.getD (8 * k + i) 0).setWidth 64 <<< (8 * i)) w).getLsbD j =
      (w.getLsbD j || l.any fun i => decide (8 * i ≤ j) && (bytes.getD (8 * k + i) 0).getLsbD (j - 8 * i)) := by
  induction l generalizing w with
  | nil => simp
  | cons i l ih =>
    rw [List.foldl_cons, ih, List.any_cons, BitVec.getLsbD_or, BitVec.getLsbD_shiftLeft, BitVec.getLsbD_setWidth]
    have hlt : j - 8 * i < 64 := by omega
    by_cases hle : 8 * i ≤ j
    · simp [hj, hle, hlt, Nat.not_lt.2 hle, Bool.or_assoc]
    · simp [hj, hle, Nat.lt_of_not_le hle]

/-- What is packed is read back. -/
theorem byteOf_packWord (bytes : List (BitVec 8)) (k : Nat) {i : Nat} (hi : i < 8) :
    byteOf (packWord bytes k) i = bytes.getD (8 * k + i) 0 := by
  apply BitVec.eq_of_getLsbD_eq
  intro j hj
  unfold byteOf packWord
  rw [BitVec.getLsbD_setWidth, BitVec.getLsbD_ushiftRight, getLsbD_pack bytes k _ _ _ (by omega)]
  have hzero : (0 : BitVec 64).getLsbD (8 * i + j) = false := BitVec.getLsbD_zero
  rw [hzero, Bool.false_or, decide_eq_true hj, Bool.true_and, Bool.eq_iff_iff, List.any_eq_true]
  constructor
  · rintro ⟨m, -, hm⟩
    obtain ⟨hle, hbit⟩ := Bool.and_eq_true_iff.1 hm
    have hle := of_decide_eq_true hle
    have hlt : 8 * i + j - 8 * m < 8 := by
      by_contra hge
      rw [BitVec.getLsbD_of_ge _ _ (Nat.not_lt.1 hge)] at hbit
      cases hbit
    have hmi : m = i := by omega
    subst hmi
    rwa [Nat.add_sub_cancel_left] at hbit
  · intro hbit
    refine ⟨i, List.mem_range.2 hi, ?_⟩
    rw [Nat.add_sub_cancel_left, hbit, Bool.and_true]
    exact decide_eq_true (Nat.le_add_right _ _)

/-- A byte of a word is replaced, the others stay. -/
theorem byteOf_setByte (w : BitVec 64) (b : BitVec 8) {k i : Nat} (hk : k < 8) (hi : i < 8) :
    byteOf (w &&& ~~~(0xFF#64 <<< (8 * k)) ||| b.setWidth 64 <<< (8 * k)) i = if i = k then b else byteOf w i := by
  have hmask : ∀ n : Fin 64, (0xFF#64).getLsbD n = decide (n.val < 8) := by decide
  apply BitVec.eq_of_getLsbD_eq
  intro j hj
  unfold byteOf
  have hlt : 8 * i + j < 64 := by omega
  by_cases hik : i = k
  · subst hik
    have hin : 8 * i + j - 8 * i = j := by omega
    rw [if_pos rfl, BitVec.getLsbD_setWidth, BitVec.getLsbD_ushiftRight, BitVec.getLsbD_or, BitVec.getLsbD_and,
      BitVec.getLsbD_not, BitVec.getLsbD_shiftLeft, BitVec.getLsbD_shiftLeft, BitVec.getLsbD_setWidth, hin,
      hmask ⟨j, by omega⟩]
    simp [hj, hlt, show ¬ 8 * i + j < 8 * i by omega, show j < 64 by omega]
  · rw [if_neg hik, BitVec.getLsbD_setWidth, BitVec.getLsbD_setWidth, BitVec.getLsbD_ushiftRight,
      BitVec.getLsbD_ushiftRight, BitVec.getLsbD_or, BitVec.getLsbD_and, BitVec.getLsbD_not, BitVec.getLsbD_shiftLeft,
      BitVec.getLsbD_shiftLeft, BitVec.getLsbD_setWidth]
    by_cases hlow : 8 * i + j < 8 * k
    · simp [hj, hlt, hlow]
    · -- above the byte that is replaced
      have hout : ¬ 8 * i + j - 8 * k < 8 := by omega
      have hb : b.getLsbD (8 * i + j - 8 * k) = false := BitVec.getLsbD_of_ge _ _ (by omega)
      have hm : (0xFF#64).getLsbD (8 * i + j - 8 * k) = false := by
        rw [hmask ⟨8 * i + j - 8 * k, by omega⟩]
        exact decide_eq_false hout
      simp [hj, hlt, hlow, hb, hm]

theorem byteOf_or (a b : BitVec 64) (i : Nat) : byteOf (a ||| b) i = byteOf a i ||| byteOf b i := by
  unfold byteOf
  rw [BitVec.ushiftRight_or_distrib, BitVec.setWidth_or]

theorem byteOf_and (a b : BitVec 64) (i : Nat) : byteOf (a &&& b) i = byteOf a i &&& byteOf b i := by
  unfold byteOf
  rw [BitVec.ushiftRight_and_distrib, BitVec.setWidth_and]

theorem toNat_byteOf (w : BitVec 64) (i : Nat) : (byteOf w i).toNat = w.toNat / 2 ^ (8 * i) % 256 := by
  unfold byteOf
  rw [BitVec.toNat_setWidth, BitVec.toNat_ushiftRight, Nat.shiftRight_eq_div_pow]

/-- The words hold given bytes, as far as these reach, if each byte of them does. -/
theorem take_unpackWords_eq_iff {words : List (BitVec 64)} {bytes : List (BitVec 8)} {n : Nat} (hlen : bytes.length ≤ n) :
    (unpackWords words n).take bytes.length = bytes ↔
      ∀ i < bytes.length, byteOf (words.getD (i / 8) 0) (i % 8) = bytes.getD i 0 := by
  have hget : ∀ i < bytes.length, (unpackWords words n)[i]? = some (byteOf (words.getD (i / 8) 0) (i % 8)) := by
    intro i hi
    unfold unpackWords
    rw [List.getElem?_map, List.getElem?_range (Nat.lt_of_lt_of_le hi hlen), Option.map_some]
  constructor
  · intro heq i hi
    have hbyte := congrArg (fun l => l[i]?) heq
    simp only [List.getElem?_take_of_lt hi, hget i hi] at hbyte
    rw [@List.getD_eq_getElem?_getD _ bytes, ← hbyte, Option.getD_some]
  · intro h
    refine List.ext_getElem? fun i => ?_
    by_cases hi : i < bytes.length
    · rw [List.getElem?_take_of_lt hi, hget i hi, h i hi, List.getD_eq_getElem?_getD, List.getElem?_eq_getElem hi,
        Option.getD_some]
    · rw [List.getElem?_eq_none (by simp [unpackWords]; omega), List.getElem?_eq_none (by omega)]

/-- The words hold the bytes, up to their number. -/
theorem take_unpackWords {bytes : List (BitVec 8)} {n m : Nat} (hn : n ≤ 8 * m) (hlen : bytes.length ≤ n) :
    (unpackWords ((List.range m).map (packWord bytes)) n).take bytes.length = bytes := by
  refine List.ext_getElem? fun i => ?_
  by_cases hi : i < bytes.length
  · have hdiv : i / 8 < m := by omega
    rw [List.getElem?_take_of_lt hi]
    unfold unpackWords
    rw [List.getElem?_map, List.getElem?_range (by omega), List.getElem?_eq_getElem hi, Option.map_some,
      List.getD_eq_getElem?_getD, List.getElem?_map, List.getElem?_range hdiv, Option.map_some, Option.getD_some,
      byteOf_packWord bytes _ (Nat.mod_lt _ (by decide)), Nat.div_add_mod, List.getD_eq_getElem?_getD, List.getElem?_eq_getElem hi, Option.getD_some]
  · rw [List.getElem?_eq_none (by simp; omega), List.getElem?_eq_none (by omega)]

end Rost.Lib
