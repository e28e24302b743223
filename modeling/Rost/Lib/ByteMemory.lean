import Mathlib.Algebra.Order.Ring.Nat
import Mathlib.Tactic.Common

/-!
# Byte-addressed memory

A memory has a byte at each address.  Little-endian numbers and sequences of bytes are read from it and written to it; what
is read depends on the bytes of its own range only.
-/

namespace Rost.Lib

abbrev ByteMemory := Nat → BitVec 8

namespace ByteMemory

variable {m m' : ByteMemory} {a n : Nat}

/-- The number in the `n` bytes from `a` on. -/
def read (m : ByteMemory) (a : Nat) : Nat → Nat
  | 0 => 0
  | n + 1 => (m a).toNat + 256 * read m (a + 1) n

/-- Store the low `n` bytes of `v` from `a` on. -/
def write (m : ByteMemory) (a n v : Nat) : ByteMemory :=
  fun i => if a ≤ i ∧ i < a + n then BitVec.ofNat 8 (v / 256 ^ (i - a)) else m i

/-- Set the `n` bytes from `a` on. -/
def fill (m : ByteMemory) (a n : Nat) (v : BitVec 8) : ByteMemory := fun i => if a ≤ i ∧ i < a + n then v else m i

/-- Copy the `n` bytes from `src` on. -/
def copy (m : ByteMemory) (src dst n : Nat) : ByteMemory :=
  fun i => if dst ≤ i ∧ i < dst + n then m (src + (i - dst)) else m i

/-- The memories are equal outside of the range from `lo` to `hi`. -/
def SameOutside (m m' : ByteMemory) (lo hi : Nat) : Prop := ∀ i, i < lo ∨ hi ≤ i → m' i = m i

theorem SameOutside.refl (m : ByteMemory) (lo hi : Nat) : SameOutside m m lo hi := fun _ _ => rfl

theorem SameOutside.trans {m₁ m₂ m₃ : ByteMemory} {lo hi : Nat} (h : SameOutside m₁ m₂ lo hi) (h' : SameOutside m₂ m₃ lo hi) :
    SameOutside m₁ m₃ lo hi := fun i hi => (h' i hi).trans (h i hi)

theorem SameOutside.mono {lo hi lo' hi' : Nat} (h : SameOutside m m' lo hi) (hlo : lo' ≤ lo) (hhi : hi ≤ hi') :
    SameOutside m m' lo' hi' := by
  intro i hi
  apply h
  omega

theorem read_congr (h : ∀ i, a ≤ i → i < a + n → m' i = m i) : read m' a n = read m a n := by
  induction n generalizing a with
  | zero => rfl
  | succ n ih =>
    unfold read
    rw [h a (by omega) (by omega), ih fun i hi hlt => h i (by omega) (by omega)]

/-- What stands outside of the range is read as before. -/
theorem SameOutside.read_eq {lo hi : Nat} (h : SameOutside m m' lo hi) (hout : a + n ≤ lo ∨ hi ≤ a) :
    read m' a n = read m a n := by
  apply read_congr
  intro i hi hlt
  apply h
  omega

theorem sameOutside_write (m : ByteMemory) (a n v : Nat) : SameOutside m (write m a n v) a (a + n) := by
  intro i hi
  unfold write
  rw [if_neg (by omega)]

theorem sameOutside_fill (m : ByteMemory) (a n : Nat) (v : BitVec 8) : SameOutside m (fill m a n v) a (a + n) := by
  intro i hi
  unfold fill
  rw [if_neg (by omega)]

theorem sameOutside_copy (m : ByteMemory) (src dst n : Nat) : SameOutside m (copy m src dst n) dst (dst + n) := by
  intro i hi
  unfold copy
  rw [if_neg (by omega)]

theorem copy_apply (m : ByteMemory) (src dst : Nat) {n k : Nat} (hk : k < n) : copy m src dst n (dst + k) = m (src + k) := by
  unfold copy
  rw [if_pos (by omega), Nat.add_sub_cancel_left]

private theorem read_of_bytes {v : Nat} (hv : v < 256 ^ n)
    (h : ∀ k, k < n → (m (a + k)).toNat = v / 256 ^ k % 256) : read m a n = v := by
  induction n generalizing a v with
  | zero =>
    unfold read
    simp only [Nat.pow_zero] at hv
    omega
  | succ n ih =>
    have hfirst := h 0 (by omega)
    have hrest : read m (a + 1) n = v / 256 := by
      apply ih
      · rw [Nat.pow_succ] at hv
        omega
      · intro k hk
        have hnext := h (k + 1) (by omega)
        rw [← Nat.add_assoc, Nat.add_right_comm, Nat.pow_succ, Nat.mul_comm, ← Nat.div_div_eq_div_mul] at hnext
        exact hnext
    unfold read
    simp only [Nat.add_zero, Nat.pow_zero, Nat.div_one] at hfirst
    rw [hfirst, hrest]
    omega

theorem read_write_self (m : ByteMemory) (a : Nat) {n v : Nat} (hv : v < 256 ^ n) : read (write m a n v) a n = v := by
  apply read_of_bytes hv
  intro k hk
  unfold write
  rw [if_pos (by omega), Nat.add_sub_cancel_left, BitVec.toNat_ofNat]

/-! ### Sequences of bytes -/

/-- The `n` bytes from `a` on. -/
def load (m : ByteMemory) (a n : Nat) : List (BitVec 8) := (List.range n).map fun i => m (a + i)

/-- Store the bytes from `a` on. -/
def store (m : ByteMemory) (a : Nat) (bs : List (BitVec 8)) : ByteMemory :=
  fun i => if a ≤ i ∧ i < a + bs.length then bs.getD (i - a) 0 else m i

variable {bs f : List (BitVec 8)}

@[simp] theorem length_load (m : ByteMemory) (a n : Nat) : (load m a n).length = n := by simp [load]

theorem sameOutside_store (m : ByteMemory) (a : Nat) (bs : List (BitVec 8)) :
    SameOutside m (store m a bs) a (a + bs.length) := by
  intro i hi
  unfold store
  rw [if_neg (by omega)]

theorem load_congr (h : ∀ i, a ≤ i → i < a + n → m' i = m i) : load m' a n = load m a n := by
  apply List.map_congr_left
  intro i hi
  have hlt := List.mem_range.1 hi
  exact h (a + i) (by omega) (by omega)

theorem SameOutside.load_eq {lo hi : Nat} (h : SameOutside m m' lo hi) (hout : a + n ≤ lo ∨ hi ≤ a) :
    load m' a n = load m a n := by
  apply load_congr
  intro i hi hlt
  apply h
  omega

theorem load_store_self (m : ByteMemory) (a : Nat) (bs : List (BitVec 8)) : load (store m a bs) a bs.length = bs := by
  refine List.ext_getElem (by simp) fun k hk hk' => ?_
  simp only [load, store, List.getElem_map, List.getElem_range]
  rw [if_pos (by omega), Nat.add_sub_cancel_left, List.getD_eq_getElem?_getD, List.getElem?_eq_getElem hk']
  rfl

theorem take_drop_load (m : ByteMemory) (a : Nat) {k l : Nat} (h : k + l ≤ n) :
    ((load m a n).drop k).take l = load m (a + k) l := by
  refine List.ext_getElem (by simp; omega) fun i hi hi' => ?_
  simp [load, Nat.add_assoc]

/-- A part of the bytes that are stored is read back. -/
theorem load_store_inside (m : ByteMemory) (a : Nat) {k l : Nat} (h : k + l ≤ bs.length) :
    load (store m a bs) (a + k) l = (bs.drop k).take l := by
  rw [← take_drop_load _ _ h, load_store_self]

/-- Bytes that are stored over other ones at the same place leave them alone exactly when they are the same as far as both
reach. -/
theorem load_store_iff (h : load m a f.length = f) :
    load (store m a bs) a f.length = f ↔ f.take bs.length = bs.take f.length := by
  have hbyte : ∀ k (hk : k < f.length), store m a bs (a + k) = if hb : k < bs.length then bs[k] else f[k] := by
    intro k hk
    unfold store
    by_cases hb : k < bs.length
    · rw [if_pos (by omega), dif_pos hb, Nat.add_sub_cancel_left, List.getD_eq_getElem?_getD, List.getElem?_eq_getElem hb]
      rfl
    · rw [if_neg (by omega), dif_neg hb]
      have hget := List.getElem_of_eq h (by simpa using hk)
      simpa [load] using hget
  constructor
  · intro heq
    refine List.ext_getElem (by simp [Nat.min_comm]) fun k hk hk' => ?_
    simp only [List.length_take] at hk hk'
    have hget := List.getElem_of_eq heq (i := k) (by simp; omega)
    simp only [load, List.getElem_map, List.getElem_range] at hget
    rw [hbyte k (by omega), dif_pos (by omega)] at hget
    simp only [List.getElem_take]
    exact hget.symm
  · intro heq
    refine List.ext_getElem (by simp) fun k hk hk' => ?_
    simp only [load, List.getElem_map, List.getElem_range]
    rw [hbyte k hk']
    split
    · rename_i hb
      have hget := List.getElem_of_eq heq (i := k) (by simp; omega)
      simpa using hget.symm
    · rfl

end ByteMemory

end Rost.Lib
