import Mathlib.Algebra.Order.Ring.Nat
import Mathlib.Tactic.Common
import Mathlib.Logic.Function.Basic

/-!
# Free lists

Singly linked lists of blocks whose links stand in the blocks themselves: `next b` is the block after `b`, and zero ends a
list.  Several lists with different heads share the blocks; no block is on two of them, or twice on one.
-/

namespace Rost.Lib

/-- The blocks of the list that starts at `head`. -/
def Chain (next : Nat → Nat) : Nat → List Nat → Prop
  | head, [] => head = 0
  | head, b :: l => head = b ∧ b ≠ 0 ∧ Chain next (next b) l

theorem Chain.congr {next next' : Nat → Nat} {head : Nat} {l : List Nat} (h : Chain next head l)
    (hnext : ∀ b ∈ l, next' b = next b) : Chain next' head l := by
  induction l generalizing head with
  | nil => exact h
  | cons b l ih =>
    obtain ⟨hhead, hne, hrest⟩ := h
    refine ⟨hhead, hne, ?_⟩
    rw [hnext b List.mem_cons_self]
    exact ih hrest fun c hc => hnext c (List.mem_cons_of_mem b hc)

/-- A list that does not start with zero has a first block. -/
theorem Chain.uncons {next : Nat → Nat} {head : Nat} {l : List Nat} (h : Chain next head l) (hne : head ≠ 0) :
    ∃ rest, l = head :: rest ∧ Chain next (next head) rest := by
  cases l with
  | nil => exact absurd h hne
  | cons b rest =>
    obtain ⟨rfl, -, hrest⟩ := h
    exact ⟨rest, rfl, hrest⟩

/-- The lists `lists i` start at `heads i`, and have no block in common. -/
structure FreeLists {ι : Type} (next : Nat → Nat) (heads : ι → Nat) (lists : ι → List Nat) : Prop where
  chain : ∀ i, Chain next (heads i) (lists i)
  nodup : ∀ i, (lists i).Nodup
  disjoint : ∀ i j, i ≠ j → ∀ b ∈ lists i, b ∉ lists j

namespace FreeLists

variable {ι : Type} {next next' : Nat → Nat} {heads : ι → Nat} {lists : ι → List Nat} {i : ι} {b : Nat}

theorem congr (h : FreeLists next heads lists) (hnext : ∀ i, ∀ b ∈ lists i, next' b = next b) :
    FreeLists next' heads lists :=
  ⟨fun i => (h.chain i).congr (hnext i), h.nodup, h.disjoint⟩

/-- Take the first block of a list. -/
theorem pop [DecidableEq ι] (h : FreeLists next heads lists) (hne : heads i ≠ 0) :
    ∃ rest, lists i = heads i :: rest ∧
      FreeLists next (Function.update heads i (next (heads i))) (Function.update lists i rest) := by
  obtain ⟨rest, hlist, hrest⟩ := (h.chain i).uncons hne
  have hsub : ∀ j, ∀ c ∈ Function.update lists i rest j, c ∈ lists j := by
    intro j c hc
    by_cases hj : j = i
    · subst hj
      rw [Function.update_self] at hc
      rw [hlist]
      exact List.mem_cons_of_mem _ hc
    · rwa [Function.update_of_ne hj] at hc
  refine ⟨rest, hlist, fun j => ?_, fun j => ?_, fun j k hjk c hc hck => h.disjoint j k hjk c (hsub j c hc) (hsub k c hck)⟩
  · by_cases hj : j = i
    · subst hj
      rw [Function.update_self, Function.update_self]
      exact hrest
    · rw [Function.update_of_ne hj, Function.update_of_ne hj]
      exact h.chain j
  · by_cases hj : j = i
    · subst hj
      have hnodup := h.nodup j
      rw [hlist] at hnodup
      rw [Function.update_self]
      exact (List.nodup_cons.1 hnodup).2
    · rw [Function.update_of_ne hj]
      exact h.nodup j

/-- Put a block that is on no list at the front of one. -/
theorem push [DecidableEq ι] (h : FreeLists next heads lists) (hb : b ≠ 0) (hnew : ∀ j, b ∉ lists j) (hnext : next' b = heads i)
    (hkeep : ∀ j, ∀ c ∈ lists j, next' c = next c) :
    FreeLists next' (Function.update heads i b) (Function.update lists i (b :: lists i)) := by
  have hmem : ∀ j, ∀ c ∈ Function.update lists i (b :: lists i) j, (c = b ∧ j = i) ∨ c ∈ lists j := by
    intro j c hc
    by_cases hj : j = i
    · subst hj
      rw [Function.update_self] at hc
      rcases List.mem_cons.1 hc with hc | hc
      · exact .inl ⟨hc, rfl⟩
      · exact .inr hc
    · rw [Function.update_of_ne hj] at hc
      exact .inr hc
  refine ⟨fun j => ?_, fun j => ?_, fun j k hjk c hc hck => ?_⟩
  · by_cases hj : j = i
    · subst hj
      rw [Function.update_self, Function.update_self]
      refine ⟨rfl, hb, ?_⟩
      rw [hnext]
      exact (h.chain j).congr (hkeep j)
    · rw [Function.update_of_ne hj, Function.update_of_ne hj]
      exact (h.chain j).congr (hkeep j)
  · by_cases hj : j = i
    · subst hj
      rw [Function.update_self]
      exact List.nodup_cons.2 ⟨hnew j, h.nodup j⟩
    · rw [Function.update_of_ne hj]
      exact h.nodup j
  · rcases hmem j c hc with ⟨rfl, hj⟩ | hcj
    · rcases hmem k c hck with ⟨-, hk⟩ | hck
      · exact hjk (hj.trans hk.symm)
      · exact hnew k hck
    · rcases hmem k c hck with ⟨rfl, -⟩ | hck
      · exact hnew j hcj
      · exact h.disjoint j k hjk c hcj hck

end FreeLists

/-! ### Spans -/

/-- The spans `(b, n)` lie one behind the other, and fill the range from `lo` to `hi`. -/
def Spans : Nat → Nat → List (Nat × Nat) → Prop
  | lo, hi, [] => lo = hi
  | lo, hi, s :: l => s.1 = lo ∧ 0 < s.2 ∧ Spans (lo + s.2) hi l

namespace Spans

variable {lo hi : Nat} {l : List (Nat × Nat)} {s t : Nat × Nat}

theorem le (h : Spans lo hi l) : lo ≤ hi := by
  induction l generalizing lo with
  | nil => exact Nat.le_of_eq h
  | cons s l ih =>
    obtain ⟨-, -, hrest⟩ := h
    have := ih hrest
    omega

/-- A span behind the last. -/
theorem snoc (h : Spans lo hi l) {n : Nat} (hn : 0 < n) : Spans lo (hi + n) (l ++ [(hi, n)]) := by
  induction l generalizing lo with
  | nil =>
    cases h
    exact ⟨rfl, hn, rfl⟩
  | cons s l ih =>
    obtain ⟨hs, hpos, hrest⟩ := h
    exact ⟨hs, hpos, ih hrest⟩

theorem bounds (h : Spans lo hi l) (hs : s ∈ l) : lo ≤ s.1 ∧ 0 < s.2 ∧ s.1 + s.2 ≤ hi := by
  induction l generalizing lo with
  | nil => cases hs
  | cons t l ih =>
    obtain ⟨ht, hpos, hrest⟩ := h
    rcases List.mem_cons.1 hs with rfl | hs
    · have := hrest.le
      omega
    · have := ih hrest hs
      omega

/-- The spans say where the range ends. -/
theorem unique {hi' : Nat} (h : Spans lo hi l) (h' : Spans lo hi' l) : hi = hi' := by
  induction l generalizing lo with
  | nil => exact h.symm.trans h'
  | cons s l ih => exact ih h.2.2 h'.2.2

/-- Two spans are the same, or do not overlap. -/
theorem apart (h : Spans lo hi l) (hs : s ∈ l) (ht : t ∈ l) : s = t ∨ s.1 + s.2 ≤ t.1 ∨ t.1 + t.2 ≤ s.1 := by
  induction l generalizing lo with
  | nil => cases hs
  | cons u l ih =>
    obtain ⟨hu, hpos, hrest⟩ := h
    rcases List.mem_cons.1 hs with rfl | hsl
    · rcases List.mem_cons.1 ht with rfl | htl
      · exact .inl rfl
      · have := hrest.bounds htl
        omega
    · rcases List.mem_cons.1 ht with rfl | htl
      · have := hrest.bounds hsl
        omega
      · exact ih hrest hsl htl

theorem eq_of_fst_eq (h : Spans lo hi l) (hs : s ∈ l) (ht : t ∈ l) (heq : s.1 = t.1) : s = t := by
  have hspos := h.bounds hs
  have htpos := h.bounds ht
  rcases h.apart hs ht with hst | hst | hst
  · exact hst
  · omega
  · omega

end Spans

/-- The places reached from `lo` by stepping over spans of the given size, below `hi`. -/
inductive Walk (size : Nat → Nat) (hi : Nat) : Nat → Nat → Prop
  | refl {lo : Nat} (hlt : lo < hi) : Walk size hi lo lo
  | step {lo b : Nat} (hlt : lo < hi) (h : Walk size hi (lo + size lo) b) : Walk size hi lo b

/-- The walk meets the starts of the spans. -/
theorem Spans.walk_iff {size : Nat → Nat} {lo hi b : Nat} {l : List (Nat × Nat)} (h : Spans lo hi l)
    (hsize : ∀ s ∈ l, size s.1 = s.2) : Walk size hi lo b ↔ ∃ n, (b, n) ∈ l := by
  induction l generalizing lo with
  | nil =>
    constructor
    · intro hwalk
      have hend : lo = hi := h
      cases hwalk with
      | refl hlt => omega
      | step hlt => omega
    · rintro ⟨n, hn⟩
      cases hn
  | cons s l ih =>
    obtain ⟨rfl, hpos, hrest⟩ := h
    have hnext : size s.1 = s.2 := hsize s List.mem_cons_self
    have hle := hrest.le
    have htail := ih hrest fun t ht => hsize t (List.mem_cons_of_mem s ht)
    constructor
    · intro hwalk
      cases hwalk with
      | refl => exact ⟨s.2, List.mem_cons_self⟩
      | step _ hwalk =>
        rw [hnext, htail] at hwalk
        obtain ⟨n, hn⟩ := hwalk
        exact ⟨n, List.mem_cons_of_mem s hn⟩
    · rintro ⟨n, hn⟩
      rcases List.mem_cons.1 hn with rfl | hn
      · exact .refl (by omega)
      · refine .step (by omega) ?_
        rw [hnext, htail]
        exact ⟨n, hn⟩

end Rost.Lib
