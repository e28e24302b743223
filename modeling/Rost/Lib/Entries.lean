import Mathlib.Algebra.Order.Ring.Nat
import Mathlib.Data.List.Basic
import Mathlib.Tactic.Common

/-!
# Entries that carry their length

A list of symbols is cut into entries; each begins with a header of fixed size that says how long the entry is, header
included.  The list ends where no header fits any more, or where a header gives a length that is shorter than itself or
goes beyond the end.  Entries that are put one after the other are cut apart again (`entries_flatten`).
-/

namespace Rost.Lib

/-- How the length of an entry is found. -/
structure EntryFormat (β : Type) where
  headerSize : Nat
  entryLen : List β → Nat
  headerSize_pos : 0 < headerSize
  entryLen_append : ∀ e rest, headerSize ≤ e.length → entryLen (e ++ rest) = entryLen e

namespace EntryFormat

variable {β : Type} (F : EntryFormat β)

/-- An entry whose length is what its header says. -/
def Wf (e : List β) : Prop := F.headerSize ≤ e.length ∧ F.entryLen e = e.length

/-- An entry may begin here. -/
def Fits (bs : List β) : Prop :=
  F.headerSize ≤ bs.length ∧ F.headerSize ≤ F.entryLen bs ∧ F.entryLen bs ≤ bs.length

instance (bs : List β) : Decidable (F.Fits bs) := by
  unfold Fits
  infer_instance

/-- The entries of a list. -/
def entries (bs : List β) : List (List β) :=
  if F.Fits bs then bs.take (F.entryLen bs) :: entries (bs.drop (F.entryLen bs)) else []
termination_by bs.length
decreasing_by
  rename_i h
  have hpos := F.headerSize_pos
  obtain ⟨_, hlen, hle⟩ := h
  rw [List.length_drop]
  omega

variable {F} {bs e rest : List β}

theorem entries_of_fits (h : F.Fits bs) :
    F.entries bs = bs.take (F.entryLen bs) :: F.entries (bs.drop (F.entryLen bs)) := by
  rw [entries, if_pos h]

theorem entries_of_not_fits (h : ¬ F.Fits bs) : F.entries bs = [] := by
  rw [entries, if_neg h]

/-- The entry at the front is as long as it says. -/
theorem wf_take (h : F.Fits bs) : F.Wf (bs.take (F.entryLen bs)) := by
  obtain ⟨hhead, hlen, hle⟩ := h
  have htake : (bs.take (F.entryLen bs)).length = F.entryLen bs := by
    rw [List.length_take]
    omega
  have hsame := F.entryLen_append (bs.take (F.entryLen bs)) (bs.drop (F.entryLen bs)) (by omega)
  rw [List.take_append_drop] at hsame
  exact ⟨by omega, by rw [htake]; exact hsame.symm⟩

theorem entries_append (h : F.Wf e) (rest : List β) : F.entries (e ++ rest) = e :: F.entries rest := by
  obtain ⟨hhead, hlen⟩ := h
  have hsame : F.entryLen (e ++ rest) = e.length := by rw [F.entryLen_append e rest hhead, hlen]
  have hfits : F.Fits (e ++ rest) := by
    unfold Fits
    rw [hsame, List.length_append]
    omega
  rw [entries_of_fits hfits, hsame, List.take_left' rfl, List.drop_left' rfl]

theorem entries_nil : F.entries [] = [] := by
  have hpos := F.headerSize_pos
  refine entries_of_not_fits fun h => ?_
  have hhead : F.headerSize ≤ 0 := h.1
  omega

/-- Well-formed entries are cut apart again. -/
theorem entries_flatten {es : List (List β)} (h : ∀ e ∈ es, F.Wf e) : F.entries es.flatten = es := by
  induction es with
  | nil => exact entries_nil
  | cons e es ih =>
    have hrest := ih fun e' he' => h e' (List.mem_cons_of_mem _ he')
    rw [List.flatten_cons, entries_append (h e List.mem_cons_self), hrest]

end EntryFormat

end Rost.Lib
