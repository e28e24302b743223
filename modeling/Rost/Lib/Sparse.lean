import Mathlib.Algebra.Order.Ring.Nat
import Mathlib.Tactic.Common
import Mathlib.Data.List.Basic

/-!
# Sparse files

A sparse file is the sequence of the writes since it was last emptied.  Its length is the largest end of a write, and
what no write has covered reads as zero.  A buffer that is only cut to length when the file is emptied still holds old
contents behind the end; it stands for the file as long as no write leaves a gap over them (`holds_write_iff`).
-/

namespace Rost.Lib

/-- The writes to a file, with their offsets; the last one is at the front. -/
abbrev Sparse (α : Type) := List (Nat × List α)

namespace Sparse

variable {α : Type} [Zero α]

/-- What stands at `k`: what the last write over it has left, or zero. -/
def byteAt : Sparse α → Nat → α
  | [], _ => 0
  | w :: f, k => if w.1 ≤ k ∧ k < w.1 + w.2.length then w.2.getD (k - w.1) 0 else byteAt f k

/-- The largest end of a write. -/
def size : Sparse α → Nat
  | [] => 0
  | w :: f => max (w.1 + w.2.length) (size f)

def contents (f : Sparse α) : List α := (List.range f.size).map f.byteAt

/-- Behind its end a file reads as zero. -/
theorem byteAt_of_size_le {f : Sparse α} {k : Nat} (h : f.size ≤ k) : f.byteAt k = 0 := by
  induction f with
  | nil => rfl
  | cons w f ih =>
    have hsize : size (w :: f) = max (w.1 + w.2.length) (size f) := rfl
    have hout : ¬ (w.1 ≤ k ∧ k < w.1 + w.2.length) := by omega
    unfold byteAt
    rw [if_neg hout]
    exact ih (by omega)

/-- The first `len` places of the buffer are the file. -/
structure Holds (data : Nat → α) (len : Nat) (f : Sparse α) : Prop where
  size_eq : len = f.size
  byte_eq : ∀ k, k < len → data k = f.byteAt k

theorem holds_nil (data : Nat → α) : Holds data 0 [] := ⟨rfl, fun k hk => by omega⟩

theorem Holds.contents_eq {data : Nat → α} {len : Nat} {f : Sparse α} (h : Holds data len f) :
    (List.range len).map data = f.contents := by
  unfold contents
  rw [← h.size_eq]
  apply List.map_congr_left
  intro k hk
  exact h.byte_eq k (List.mem_range.1 hk)

/-- A write to the buffer. -/
def store (data : Nat → α) (offset : Nat) (src : List α) (k : Nat) : α :=
  if offset ≤ k ∧ k < offset + src.length then src.getD (k - offset) 0 else data k

/-- After a write the buffer still holds the file exactly when there are zeros in the gap before the write. -/
theorem holds_write_iff {data : Nat → α} {len : Nat} {f : Sparse α} (h : Holds data len f) (offset : Nat) (src : List α) :
    Holds (store data offset src) (if len < offset + src.length then offset + src.length else len) ((offset, src) :: f) ↔
      ∀ k, len ≤ k → k < offset → data k = 0 := by
  have hsize := h.size_eq
  have hnew : (if len < offset + src.length then offset + src.length else len) = size ((offset, src) :: f) := by
    have hcons : size ((offset, src) :: f) = max (offset + src.length) (size f) := rfl
    split <;> omega
  constructor
  · intro hw k hk hoff
    have hout : ¬ (offset ≤ k ∧ k < offset + src.length) := by omega
    have hbyte := hw.byte_eq k (by split <;> omega)
    unfold store byteAt at hbyte
    rw [if_neg hout, if_neg hout] at hbyte
    rw [hbyte, byteAt_of_size_le (by omega)]
  · intro hgap
    refine ⟨hnew, fun k hk => ?_⟩
    unfold store byteAt
    by_cases hin : offset ≤ k ∧ k < offset + src.length
    · rw [if_pos hin, if_pos hin]
    · rw [if_neg hin, if_neg hin]
      by_cases hlt : k < len
      · exact h.byte_eq k hlt
      · have hoff : k < offset := by
          split at hk <;> omega
        rw [hgap k (by omega) hoff, byteAt_of_size_le (by omega)]

end Sparse

end Rost.Lib
