import Mathlib.Data.BitVec
import Mathlib.Data.List.Basic
import Mathlib.Data.List.DropRight
import Mathlib.Logic.Function.Basic
import Mathlib.Tactic.Common
import Mathlib.Tactic.Ring

/-!
# Circular arrays with free-running indices

An array of `cap` slots is written at one index of `w` bits and read at another; both only grow, and wrap.  When `cap`
divides `2 ^ w`, the elements between them are a queue: the read index removes the first one (`between_of_ne`), and a write
appends one (`between_push`).

A ring that overwrites its oldest element holds the last `cap` elements of what was recorded in it (`Recent`), whether a
new one goes to a free slot (`Recent.push`) or to the oldest (`Recent.push_full`).
-/

namespace Rost.Lib.Circular

variable {α : Type} {w cap : Nat}

/-- The `n` elements from `start` on. -/
def window (cap : Nat) (f : Nat → α) (start n : Nat) : List α := (List.range n).map fun k => f ((start + k) % cap)

/-- The elements between two indices. -/
def between (cap : Nat) (f : Nat → α) (lo hi : BitVec w) : List α := window cap f lo.toNat (hi - lo).toNat

@[simp] theorem length_window (f : Nat → α) (start n : Nat) : (window cap f start n).length = n := by
  simp [window]

theorem length_between (f : Nat → α) (lo hi : BitVec w) : (between cap f lo hi).length = (hi - lo).toNat :=
  length_window ..

theorem window_succ (f : Nat → α) (start n : Nat) :
    window cap f start (n + 1) = f (start % cap) :: window cap f (start + 1) n := by
  unfold window
  rw [List.range_succ_eq_map, List.map_cons, List.map_map]
  congr 1
  refine List.map_congr_left fun k _ => ?_
  show f ((start + (k + 1)) % cap) = f ((start + 1 + k) % cap)
  rw [Nat.add_assoc, Nat.add_comm 1 k]

/-- The start may be reduced. -/
theorem window_mod {m : Nat} (h : cap ∣ m) (f : Nat → α) (start n : Nat) :
    window cap f (start % m) n = window cap f start n := by
  unfold window
  refine List.map_congr_left fun k _ => ?_
  rw [Nat.add_mod, Nat.mod_mod_of_dvd _ h, ← Nat.add_mod]

/-- A window that is not full gets one element more. -/
theorem window_push (f : Nat → α) (v : α) (start : Nat) {n : Nat} (h : n < cap) :
    window cap (Function.update f ((start + n) % cap) v) start (n + 1) = window cap f start n ++ [v] := by
  unfold window
  rw [List.range_succ, List.map_append, List.map_singleton, Function.update_self]
  congr 1
  refine List.map_congr_left fun k hk => ?_
  have hlt := List.mem_range.1 hk
  refine Function.update_of_ne (fun heq => ?_) _ _
  -- two places of one window are apart
  have hmod : k % cap = n % cap := (Nat.ModEq.refl start).add_left_cancel heq
  rw [Nat.mod_eq_of_lt (by omega), Nat.mod_eq_of_lt h] at hmod
  omega

/-- A full window loses its first element to a new one. -/
theorem window_push_full (h : 0 < cap) (f : Nat → α) (v : α) (start : Nat) :
    window cap (Function.update f (start % cap) v) (start + 1) cap = (window cap f start cap).tail ++ [v] := by
  obtain ⟨n, rfl⟩ : ∃ n, cap = n + 1 := ⟨cap - 1, by omega⟩
  have hlast : (start + 1 + n) % (n + 1) = start % (n + 1) := by
    rw [show start + 1 + n = start + (n + 1) by omega, Nat.add_mod_right]
  rw [← hlast, window_push f v (start + 1) (Nat.lt_succ_self n), window_succ f start n, List.tail_cons]

/-- Only the slots count. -/
theorem window_congr {f g : Nat → α} (h : 0 < cap) (hfg : ∀ i, i < cap → f i = g i) (start n : Nat) :
    window cap f start n = window cap g start n :=
  List.map_congr_left fun _ _ => hfg _ (Nat.mod_lt _ h)

/-- The elements of a vector by slot number. -/
def slots (h : 0 < cap) (v : Vector α cap) (i : Nat) : α := v.get ⟨i % cap, Nat.mod_lt _ h⟩

theorem slots_eq (h : 0 < cap) (v : Vector α cap) (i : Nat) : v[i % cap]? = some (slots h v i) :=
  Vector.getElem?_eq_getElem (Nat.mod_lt _ h)

theorem update_slots (h : 0 < cap) (v : Vector α cap) {idx : Nat} (hidx : idx < cap) (x : α) {i : Nat} (hi : i < cap) :
    Function.update (slots h v) idx x i = slots h (v.set idx x hidx) i := by
  have hset : (v.set idx x hidx)[i] = if idx = i then x else v[i] := Vector.getElem_set hidx hi
  unfold slots
  simp only [Function.update_apply, Nat.mod_eq_of_lt hi]
  show _ = (v.set idx x hidx)[i]
  rw [hset]
  by_cases heq : i = idx
  · rw [if_pos heq, if_pos heq.symm]
  · rw [if_neg heq, if_neg (Ne.symm heq)]
    rfl

/-- The `n` elements from `start` on are the last ones of `l`, as many as there is room for. -/
structure Recent (cap : Nat) (f : Nat → α) (start n : Nat) (l : List α) : Prop where
  count : n = min l.length cap
  window : window cap f start n = l.rtake cap

namespace Recent

variable {f : Nat → α} {start n : Nat} {l : List α}

theorem nil (cap : Nat) (f : Nat → α) (start : Nat) : Recent cap f start 0 [] :=
  ⟨(Nat.zero_min cap).symm, (List.rtake_nil cap).symm⟩

theorem congr {g : Nat → α} (hcap : 0 < cap) (h : Recent cap f start n l) (hfg : ∀ i, i < cap → f i = g i) :
    Recent cap g start n l :=
  ⟨h.count, by rw [← window_congr hcap hfg]; exact h.window⟩

private theorem rtake_snoc_of_lt {l : List α} (h : l.length < cap) (v : α) :
    (l ++ [v]).rtake cap = l.rtake cap ++ [v] := by
  have hall : ∀ m : List α, m.length ≤ cap → m.rtake cap = m := by
    intro m hm
    rw [List.rtake, Nat.sub_eq_zero_of_le hm, List.drop_zero]
  rw [hall l (by omega), hall (l ++ [v]) (by rw [List.length_append, List.length_singleton]; omega)]

private theorem rtake_snoc_of_le {l : List α} (hcap : 0 < cap) (h : cap ≤ l.length) (v : α) :
    (l ++ [v]).rtake cap = (l.rtake cap).tail ++ [v] := by
  have hlen : (l ++ [v]).length - cap = l.length - cap + 1 := by
    rw [List.length_append, List.length_singleton]
    omega
  rw [List.rtake, hlen, List.rtake, List.tail_drop, List.drop_append_of_le_length (by omega)]

/-- A ring with a free slot keeps everything. -/
theorem push (h : Recent cap f start n l) (hn : n < cap) (v : α) :
    Recent cap (Function.update f ((start + n) % cap) v) start (n + 1) (l ++ [v]) := by
  have hlen : n = l.length := by
    have := h.count
    omega
  refine ⟨by rw [List.length_append, List.length_singleton]; omega, ?_⟩
  rw [window_push f v start hn, h.window, rtake_snoc_of_lt (hlen ▸ hn) v]

/-- A full ring forgets its oldest element. -/
theorem push_full (h : Recent cap f start n l) (hcap : 0 < cap) (hn : n = cap) (v : α) :
    Recent cap (Function.update f (start % cap) v) (start + 1) n (l ++ [v]) := by
  have hle : cap ≤ l.length := by
    have := h.count
    omega
  have hwin := h.window
  subst hn
  refine ⟨by rw [List.length_append, List.length_singleton]; omega, ?_⟩
  rw [window_push_full hcap f v start, hwin, rtake_snoc_of_le hcap hle v]

/-- The start may be reduced. -/
theorem mod (h : Recent cap f start n l) : Recent cap f (start % cap) n l :=
  ⟨h.count, by rw [window_mod (Nat.dvd_refl cap)]; exact h.window⟩

end Recent

theorem between_self (f : Nat → α) (lo : BitVec w) : between cap f lo lo = [] := by
  unfold between
  rw [BitVec.sub_self]
  rfl

private theorem toNat_sub_of_ne {lo hi : BitVec w} (h : lo ≠ hi) : (hi - lo).toNat = (hi - (lo + 1)).toNat + 1 := by
  have hsucc : hi - lo = hi - (lo + 1) + 1 := by ring
  have hone : (1 : BitVec w).toNat = 1 % 2 ^ w := BitVec.toNat_ofNat ..
  have hlt := (hi - (lo + 1)).isLt
  rw [hsucc, BitVec.toNat_add, hone, Nat.add_mod_mod]
  refine Nat.mod_eq_of_lt (Nat.lt_of_le_of_ne hlt fun hwrap => h ?_)
  -- the difference would be 0
  have hzero : hi - lo = 0 := by
    apply BitVec.eq_of_toNat_eq
    rw [hsucc, BitVec.toNat_add, hone, Nat.add_mod_mod, hwrap, Nat.mod_self]
    rfl
  exact (sub_eq_zero.1 hzero).symm

/-- The read index removes the first element. -/
theorem between_of_ne (h : cap ∣ 2 ^ w) (f : Nat → α) {lo hi : BitVec w} (hne : lo ≠ hi) :
    between cap f lo hi = f (lo.toNat % cap) :: between cap f (lo + 1) hi := by
  have hone : (1 : BitVec w).toNat = 1 % 2 ^ w := BitVec.toNat_ofNat ..
  unfold between
  rw [toNat_sub_of_ne hne, window_succ, BitVec.toNat_add, hone, Nat.add_mod_mod, window_mod h]

/-- A write appends an element, as long as there is room. -/
theorem between_push (h : cap ∣ 2 ^ w) (hcap : cap < 2 ^ w) (f : Nat → α) (v : α) {lo hi : BitVec w}
    (hroom : (between cap f lo hi).length < cap) :
    between cap (Function.update f (hi.toNat % cap) v) lo (hi + 1) = between cap f lo hi ++ [v] := by
  rw [length_between] at hroom
  have hone : (1 : BitVec w).toNat = 1 % 2 ^ w := BitVec.toNat_ofNat ..
  have hslot : hi.toNat % cap = (lo.toNat + (hi - lo).toNat) % cap := by
    have hsum : hi = lo + (hi - lo) := by ring
    conv_lhs => rw [hsum]
    rw [BitVec.toNat_add, Nat.mod_mod_of_dvd _ h]
  have hcount : (hi + 1 - lo).toNat = (hi - lo).toNat + 1 := by
    have hsucc : hi + 1 - lo = hi - lo + 1 := by ring
    rw [hsucc, BitVec.toNat_add, hone, Nat.add_mod_mod, Nat.mod_eq_of_lt (by omega)]
  unfold between
  rw [hcount, hslot, window_push f v lo.toNat hroom]

end Rost.Lib.Circular
