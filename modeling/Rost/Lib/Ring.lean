import Mathlib.Algebra.Order.Ring.Nat
import Mathlib.Tactic.Common
import Mathlib.Data.List.Basic

/-!
# Ring buffers

A ring of `n` slots holds a queue: the occupied slots are the `count` slots from `head` on, counted modulo `n`, and
the next write goes to `tail`.  The bookkeeping that relates `head`, `tail`, `count` and the occupied slots is part
of the structure, so a ring always denotes the list `toList`.  The key facts: `push` appends to that list exactly
when it has fewer than `n` elements (`toList_push`), and `pop` removes its first element (`pop_eq`).
-/

namespace Rost.Lib

/-- A queue stored in `n` slots. -/
structure Ring (α : Type) (n : Nat) where
  slots : List (Option α)
  head : Nat
  tail : Nat
  count : Nat
  length_slots : slots.length = n
  head_lt : head < n
  count_le : count ≤ n
  tail_eq : tail = (head + count) % n
  occupied : ∀ k, k < count → ((slots[(head + k) % n]?).join).isSome

namespace Ring

variable {α : Type} {n : Nat}

/-- The slot `k` places after `head`. -/
def get (r : Ring α n) (k : Nat) : Option α := (r.slots[(r.head + k) % n]?).join

/-- The queue a ring stands for. -/
def toList (r : Ring α n) : List α := (List.range r.count).filterMap r.get

/-! ### Positions modulo `n` -/

private theorem wrap_eq {h k : Nat} (hh : h < n) (hk : k < n) :
    (h + k) % n = if h + k < n then h + k else h + k - n := by
  split
  · exact Nat.mod_eq_of_lt ‹_›
  · rw [Nat.mod_eq_sub_mod (by omega), Nat.mod_eq_of_lt (by omega)]

private theorem wrap_lt {h : Nat} (hh : h < n) (k : Nat) : (h + k) % n < n := Nat.mod_lt _ (by omega)

private theorem wrap_inj {h j k : Nat} (hh : h < n) (hj : j < n) (hk : k < n)
    (e : (h + j) % n = (h + k) % n) : j = k := by
  rw [wrap_eq hh hj, wrap_eq hh hk] at e
  split at e <;> split at e <;> omega

private theorem wrap_succ (h k : Nat) : ((h + 1) % n + k) % n = (h + (k + 1)) % n := by
  rw [Nat.mod_add_mod, Nat.add_assoc, Nat.add_comm 1 k]

/-! ### The empty ring -/

/-- The ring with all slots free. -/
def empty (α : Type) (n : Nat) (h : 0 < n) : Ring α n where
  slots := List.replicate n none
  head := 0
  tail := 0
  count := 0
  length_slots := List.length_replicate
  head_lt := h
  count_le := Nat.zero_le n
  tail_eq := (Nat.zero_mod n).symm
  occupied := fun _ hk => absurd hk (Nat.not_lt_zero _)

@[simp] theorem toList_empty (h : 0 < n) : (empty α n h).toList = [] := rfl

theorem length_toList (r : Ring α n) : r.toList.length = r.count := by
  have key : ∀ m, m ≤ r.count → ((List.range m).filterMap r.get).length = m := by
    intro m
    induction m with
    | zero => intro _; rfl
    | succ m ih =>
      intro hm
      obtain ⟨x, hx⟩ := Option.isSome_iff_exists.1 (r.occupied m (by omega))
      have hg : r.get m = some x := hx
      rw [List.range_succ, List.filterMap_append, List.length_append, ih (by omega)]
      simp [hg]
  exact key r.count (Nat.le_refl _)

theorem length_toList_le (r : Ring α n) : r.toList.length ≤ n := by
  rw [length_toList]; exact r.count_le

/-! ### Writing at the tail -/

private theorem slot_set (r : Ring α n) (hc : r.count < n) (x : Option α) {k : Nat} (hk : k < n) :
    ((r.slots.set r.tail x)[(r.head + k) % n]?).join = if k = r.count then x else r.get k := by
  have htail : r.tail < r.slots.length := by
    rw [r.length_slots, r.tail_eq]; exact wrap_lt r.head_lt _
  rw [List.getElem?_set]
  by_cases hkc : k = r.count
  · subst hkc
    simp [r.tail_eq, r.length_slots, wrap_lt r.head_lt]
  · have hne : r.tail ≠ (r.head + k) % n := by
      rw [r.tail_eq]
      intro e
      exact hkc (wrap_inj r.head_lt hc hk e).symm
    simp [hne, hkc, get]

/-- Append `x` unless all slots are occupied; the flag says whether it was appended. -/
def push (r : Ring α n) (x : α) : Ring α n × Bool :=
  if hc : r.count < n then
    ({ slots := r.slots.set r.tail (some x)
       head := r.head
       tail := (r.tail + 1) % n
       count := r.count + 1
       length_slots := by rw [List.length_set]; exact r.length_slots
       head_lt := r.head_lt
       count_le := hc
       tail_eq := by rw [r.tail_eq, Nat.mod_add_mod, Nat.add_assoc]
       occupied := by
         intro k hk
         rw [slot_set r hc (some x) (by omega)]
         split
         · rfl
         · exact r.occupied k (by omega) }, true)
  else (r, false)

theorem push_full {r : Ring α n} {x : α} (h : r.toList.length = n) : r.push x = (r, false) := by
  rw [length_toList] at h
  unfold push
  rw [dif_neg (by omega)]

/-- Below capacity `push` appends to the queue. -/
theorem toList_push {r : Ring α n} {x : α} (h : r.toList.length < n) :
    (r.push x).2 = true ∧ (r.push x).1.toList = r.toList ++ [x] := by
  rw [length_toList] at h
  unfold push
  rw [dif_pos h]
  refine ⟨rfl, ?_⟩
  unfold toList
  rw [List.range_succ, List.filterMap_append]
  congr 1
  · apply List.filterMap_congr
    intro k hk
    have hk := List.mem_range.1 hk
    show ((r.slots.set r.tail (some x))[(r.head + k) % n]?).join = _
    rw [slot_set r h (some x) (by omega), if_neg (by omega)]
  · have : ((r.slots.set r.tail (some x))[(r.head + r.count) % n]?).join = some x := by
      rw [slot_set r h (some x) h, if_pos rfl]
    simp [get, this]

/-! ### Reading at the head -/

private theorem slot_clear (r : Ring α n) {k : Nat} (h0 : 0 < k) (hk : k < n) :
    ((r.slots.set r.head none)[(r.head + k) % n]?).join = r.get k := by
  have hne : r.head ≠ (r.head + k) % n := by
    intro e
    have h := wrap_inj r.head_lt (show 0 < n by omega) hk (by rw [Nat.add_zero, ← e]; exact Nat.mod_eq_of_lt r.head_lt)
    omega
  rw [List.getElem?_set, if_neg hne]
  rfl

/-- Take the element at the head, if there is one. -/
def pop (r : Ring α n) : Ring α n × Option α :=
  if hc : r.count = 0 then (r, none)
  else
    ({ slots := r.slots.set r.head none
       head := (r.head + 1) % n
       tail := r.tail
       count := r.count - 1
       length_slots := by rw [List.length_set]; exact r.length_slots
       head_lt := wrap_lt r.head_lt 1
       count_le := by have := r.count_le; omega
       tail_eq := by
         rw [r.tail_eq, wrap_succ, show r.count - 1 + 1 = r.count by omega]
       occupied := by
         intro k hk
         have := r.count_le
         rw [wrap_succ, slot_clear r (by omega) (by omega)]
         exact r.occupied (k + 1) (by omega) }, (r.slots[r.head]?).join)

/-- `pop` returns and removes the first element of the queue. -/
theorem pop_eq (r : Ring α n) : (r.pop).2 = r.toList.head? ∧ (r.pop).1.toList = r.toList.tail := by
  unfold pop
  split
  · rename_i hc
    have : r.toList = [] := by unfold toList; rw [hc]; rfl
    exact ⟨by rw [this]; rfl, by rw [this]; rfl⟩
  · rename_i hc
    have hcount : r.count = (r.count - 1) + 1 := by omega
    obtain ⟨x, hx⟩ := Option.isSome_iff_exists.1 (r.occupied 0 (by omega))
    have hx' : r.get 0 = some x := hx
    have hhead : (r.slots[r.head]?).join = some x := by
      rw [Nat.add_zero, Nat.mod_eq_of_lt r.head_lt] at hx; exact hx
    have hlist : r.toList = x :: (List.range (r.count - 1)).filterMap (fun k => r.get (k + 1)) := by
      unfold toList
      conv => lhs; rw [hcount]
      rw [List.range_succ_eq_map, List.filterMap_cons, hx', List.filterMap_map]
      rfl
    rw [hlist]
    refine ⟨hhead, ?_⟩
    show (List.range (r.count - 1)).filterMap _ = _
    apply List.filterMap_congr
    intro k hk
    have hk := List.mem_range.1 hk
    have := r.count_le
    show ((r.slots.set r.head none)[((r.head + 1) % n + k) % n]?).join = _
    rw [wrap_succ, slot_clear r (by omega) (by omega)]

end Ring

end Rost.Lib
