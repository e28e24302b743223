import Mathlib.Data.List.DropRight
import Mathlib.Tactic.Common

/-!
# Batches

Items come one at a time and leave in batches: a batch is complete with `n` items, and a flush completes it before that.
A reader who takes the end of a batch for granted at the first item that is not of a kind gets the items of the kind exactly
if there are none of them behind others in a batch (`takeWhile_batches_iff`), which is a matter of the places of the items
(`pairwise_batches_iff`).
-/

namespace Rost.Lib

variable {α : Type}

inductive Output (α : Type) where
  | item (x : α)
  | flush
deriving DecidableEq

def items : List (Output α) → List α
  | [] => []
  | .item x :: os => x :: items os
  | .flush :: os => items os

/-- The items behind the last flush. -/
def sinceFlush (os : List (Output α)) : List α :=
  os.foldl (fun l o => match o with
    | .item x => l ++ [x]
    | .flush => []) []

/-- The batches that have left, and the items that wait. -/
def batchStep (n : Nat) (c : List (List α) × List α) : Output α → List (List α) × List α
  | .item x => if c.2.length + 1 = n then (c.1 ++ [c.2 ++ [x]], []) else (c.1, c.2 ++ [x])
  | .flush => if c.2 = [] then c else (c.1 ++ [c.2], [])

def batches (n : Nat) (os : List (Output α)) : List (List α) × List α := os.foldl (batchStep n) ([], [])

theorem items_append (os os' : List (Output α)) : items (os ++ os') = items os ++ items os' := by
  induction os with
  | nil => rfl
  | cons o os ih =>
    cases o with
    | item x => exact congrArg (x :: ·) ih
    | flush => exact ih

@[simp] theorem sinceFlush_item (os : List (Output α)) (x : α) : sinceFlush (os ++ [.item x]) = sinceFlush os ++ [x] := by
  simp [sinceFlush]

@[simp] theorem sinceFlush_flush (os : List (Output α)) : sinceFlush (os ++ [.flush]) = [] := by
  simp [sinceFlush]

theorem sinceFlush_append_items (os : List (Output α)) (xs : List α) :
    sinceFlush (os ++ xs.map .item) = sinceFlush os ++ xs := by
  induction xs using List.reverseRecOn with
  | nil => simp
  | append_singleton xs x ih =>
    rw [List.map_append, List.map_singleton, ← List.append_assoc, sinceFlush_item, ih, List.append_assoc]

variable {n : Nat}

@[simp] theorem batches_nil : batches n ([] : List (Output α)) = ([], []) := rfl

theorem batches_snoc (os : List (Output α)) (o : Output α) : batches n (os ++ [o]) = batchStep n (batches n os) o := by
  simp [batches]

theorem batchStep_item (c : List (List α) × List α) (x : α) : batchStep n c (.item x) =
    if c.2.length + 1 = n then (c.1 ++ [c.2 ++ [x]], []) else (c.1, c.2 ++ [x]) := rfl

theorem batchStep_flush (c : List (List α) × List α) :
    batchStep n c .flush = if c.2 = [] then c else (c.1 ++ [c.2], []) := rfl

/-- Nothing is lost. -/
theorem flatten_batches (os : List (Output α)) : (batches n os).1.flatten ++ (batches n os).2 = items os := by
  induction os using List.reverseRecOn with
  | nil => rfl
  | append_singleton os o ih =>
    rw [batches_snoc, items_append, ← ih]
    cases o with
    | item x =>
      rw [batchStep_item]
      split
      · simp [items]
      · simp [items]
    | flush =>
      rw [batchStep_flush]
      split
      · rename_i hempty
        simp [items, hempty]
      · simp [items]

/-- The items that wait are the last outputs, and those before them make up full batches. -/
theorem waiting_eq (hn : 0 < n) (os : List (Output α)) : (batches n os).2.length < n ∧
    ∃ pre, os = pre ++ (batches n os).2.map .item ∧ (sinceFlush pre).length % n = 0 := by
  induction os using List.reverseRecOn with
  | nil => exact ⟨hn, [], rfl, Nat.zero_mod n⟩
  | append_singleton os o ih =>
    obtain ⟨hlt, pre, hpre, hcol⟩ := ih
    have hsince : sinceFlush os = sinceFlush pre ++ (batches n os).2 := by
      rw [← sinceFlush_append_items, ← hpre]
    rw [batches_snoc]
    cases o with
    | item x =>
      rw [batchStep_item]
      split
      · rename_i hfull
        refine ⟨hn, os ++ [.item x], by simp, ?_⟩
        rw [sinceFlush_item, hsince, List.length_append, List.length_append, List.length_singleton, Nat.add_assoc, hfull,
          Nat.add_mod_right]
        exact hcol
      · refine ⟨by simp; omega, pre, ?_, hcol⟩
        rw [List.map_append, ← List.append_assoc, ← hpre, List.map_singleton]
    | flush =>
      have hempty : (batchStep n (batches n os) .flush).2 = [] := by
        rw [batchStep_flush]
        split
        · assumption
        · rfl
      rw [hempty]
      exact ⟨hn, os ++ [.flush], by simp, by simp⟩

theorem length_waiting (hn : 0 < n) (os : List (Output α)) : (batches n os).2.length = (sinceFlush os).length % n := by
  obtain ⟨hlt, pre, hpre, hcol⟩ := waiting_eq hn os
  have hsince : sinceFlush os = sinceFlush pre ++ (batches n os).2 := by
    rw [← sinceFlush_append_items, ← hpre]
  rw [hsince, List.length_append, Nat.add_mod, hcol, Nat.zero_add, Nat.mod_mod, Nat.mod_eq_of_lt hlt]

/-- The items that wait are what the full batches behind the last flush leave. -/
theorem waiting_eq_drop (hn : 0 < n) (os : List (Output α)) :
    (batches n os).2 = (sinceFlush os).drop (n * ((sinceFlush os).length / n)) := by
  obtain ⟨hlt, pre, hpre, hcol⟩ := waiting_eq hn os
  have hsince : sinceFlush os = sinceFlush pre ++ (batches n os).2 := by
    rw [← sinceFlush_append_items, ← hpre]
  have hlen : n * ((sinceFlush os).length / n) = (sinceFlush pre).length := by
    have hmod := Nat.div_add_mod (sinceFlush os).length n
    rw [← length_waiting hn] at hmod
    have hadd := congrArg List.length hsince
    rw [List.length_append] at hadd
    omega
  rw [hlen, hsince, List.drop_left]

/-- Items that do not complete a batch wait. -/
theorem batches_append_items {os : List (Output α)} {xs : List α} (h : (batches n os).2.length + xs.length < n) :
    batches n (os ++ xs.map .item) = ((batches n os).1, (batches n os).2 ++ xs) := by
  induction xs using List.reverseRecOn with
  | nil => simp
  | append_singleton xs x ih =>
    rw [List.length_append, List.length_singleton] at h
    have hlt : (batches n os).2.length + xs.length < n := by omega
    rw [List.map_append, List.map_singleton, ← List.append_assoc, batches_snoc, ih hlt, batchStep_item, if_neg]
    · rw [List.append_assoc]
    · rw [List.length_append]
      omega

/-- The places where an item waits. -/
theorem mem_waiting_iff (hn : 0 < n) {os : List (Output α)} {x : α} : x ∈ (batches n os).2 ↔
    ∃ pre, ∃ mid : List α, os = pre ++ .item x :: mid.map .item ∧ (sinceFlush pre).length % n + mid.length + 1 < n := by
  constructor
  · intro hx
    obtain ⟨hlt, pre, hpre, hcol⟩ := waiting_eq hn os
    obtain ⟨us, vs, huv⟩ := List.append_of_mem hx
    rw [huv] at hlt hpre
    rw [List.length_append, List.length_cons] at hlt
    refine ⟨pre ++ us.map .item, vs, by rw [hpre]; simp, ?_⟩
    rw [sinceFlush_append_items, List.length_append, Nat.add_mod, hcol, Nat.zero_add, Nat.mod_mod,
      Nat.mod_eq_of_lt (by omega)]
    omega
  · rintro ⟨pre, mid, rfl, hlt⟩
    rw [← length_waiting hn] at hlt
    have hbatch : batches n (pre ++ (x :: mid).map .item) = _ :=
      batches_append_items (by rw [List.length_cons]; omega)
    rw [List.map_cons] at hbatch
    rw [hbatch]
    simp

variable {R : α → α → Prop}

/-- A relation holds along every batch, and along the items that wait, if it holds of any two items that neither a flush nor
the end of a full batch separates. -/
theorem pairwise_batches_iff (hn : 0 < n) (os : List (Output α)) :
    ((∀ b ∈ (batches n os).1, b.Pairwise R) ∧ (batches n os).2.Pairwise R) ↔
      ∀ pre x (mid : List α) y post, os = pre ++ .item x :: (mid.map .item ++ .item y :: post) →
        (sinceFlush pre).length % n + mid.length + 1 < n → R x y := by
  induction os using List.reverseRecOn with
  | nil =>
    constructor
    · intro _ pre x mid y post h
      simp at h
    · intro _
      simp
  | append_singleton os o ih =>
    cases o with
    | item z =>
      have hstep : ((∀ b ∈ (batches n (os ++ [.item z])).1, b.Pairwise R) ∧ (batches n (os ++ [.item z])).2.Pairwise R) ↔
          ((∀ b ∈ (batches n os).1, b.Pairwise R) ∧ (batches n os).2.Pairwise R) ∧ ∀ x ∈ (batches n os).2, R x z := by
        rw [batches_snoc, batchStep_item]
        split
        · simp [List.pairwise_append, or_imp, forall_and, and_assoc]
        · simp [List.pairwise_append, and_assoc]
      rw [hstep, ih]
      constructor
      · rintro ⟨hold, hnew⟩ pre x mid y post heq hlt
        rcases List.eq_nil_or_concat' post with rfl | ⟨post, o, rfl⟩
        · -- the second item is the last one
          have heq' : os ++ [.item z] = (pre ++ .item x :: mid.map .item) ++ [.item y] := by simp [heq]
          obtain ⟨hos, hz⟩ := List.append_inj' heq' rfl
          cases hz
          exact hnew x ((mem_waiting_iff hn).2 ⟨pre, mid, hos, hlt⟩)
        · have heq' : os ++ [.item z] = (pre ++ .item x :: (mid.map .item ++ .item y :: post)) ++ [o] := by simp [heq]
          exact hold pre x mid y post (List.append_inj' heq' rfl).1 hlt
      · intro h
        refine ⟨fun pre x mid y post heq hlt => h pre x mid y (post ++ [.item z]) (by simp [heq]) hlt, fun x hx => ?_⟩
        obtain ⟨pre, mid, hos, hlt⟩ := (mem_waiting_iff hn).1 hx
        exact h pre x mid z [] (by simp [hos]) hlt
    | flush =>
      have hstep : ((∀ b ∈ (batches n (os ++ [.flush])).1, b.Pairwise R) ∧ (batches n (os ++ [.flush])).2.Pairwise R) ↔
          ((∀ b ∈ (batches n os).1, b.Pairwise R) ∧ (batches n os).2.Pairwise R) := by
        rw [batches_snoc, batchStep_flush]
        split
        · rfl
        · simp [or_imp, forall_and]
      rw [hstep, ih]
      constructor
      · intro h pre x mid y post heq hlt
        rcases List.eq_nil_or_concat' post with rfl | ⟨post, o, rfl⟩
        · have heq' : os ++ [.flush] = (pre ++ .item x :: mid.map .item) ++ [.item y] := by simp [heq]
          cases (List.append_inj' heq' rfl).2
        · have heq' : os ++ [.flush] = (pre ++ .item x :: (mid.map .item ++ .item y :: post)) ++ [o] := by simp [heq]
          exact h pre x mid y post (List.append_inj' heq' rfl).1 hlt
      · exact fun h pre x mid y post heq hlt => h pre x mid y (post ++ [.flush]) (by simp [heq]) hlt

/-! ### Batches that are read up to their end -/

variable (p : α → Bool)

theorem takeWhile_sublist_filter (l : List α) : (l.takeWhile p).Sublist (l.filter p) := by
  have h := (List.takeWhile_sublist p (l := l)).filter p
  rwa [List.filter_eq_self.2 fun x hx => List.mem_takeWhile_imp hx] at h

theorem takeWhile_eq_filter_iff (l : List α) :
    l.takeWhile p = l.filter p ↔ l.Pairwise fun x y => p x = false → p y = false := by
  induction l with
  | nil => simp
  | cons x l ih =>
    cases hx : p x with
    | true => simp [hx, ih]
    | false =>
      rw [List.takeWhile_cons_of_neg (by simp [hx]), List.filter_cons_of_neg (by simp [hx]), List.pairwise_cons]
      constructor
      · intro h
        have hall : ∀ y ∈ l, p y = false := by
          simpa [eq_comm (a := ([] : List α))] using h
        exact ⟨fun y hy _ => hall y hy, List.pairwise_iff_forall_sublist.2 fun hab _ =>
          hall _ (hab.subset (by simp))⟩
      · rintro ⟨h, -⟩
        exact (List.filter_eq_nil_iff.2 fun y hy => by simp [h y hy hx]).symm

/-- What is read of each batch is what it holds of the kind, and none is left, if it is so for all of them together. -/
theorem takeWhile_flatMap_iff (bs : List (List α)) (rest : List α) :
    bs.flatMap (List.takeWhile p) = (bs.flatten ++ rest).filter p ↔
      (∀ b ∈ bs, b.Pairwise fun x y => p x = false → p y = false) ∧ ∀ x ∈ rest, p x = false := by
  have hlen : ∀ bs : List (List α), (bs.flatMap (List.takeWhile p)).length ≤ (bs.flatten.filter p).length := by
    intro bs
    induction bs with
    | nil => simp
    | cons b bs ih =>
      have hb := (takeWhile_sublist_filter p b).length_le
      simp only [List.flatMap_cons, List.flatten_cons, List.filter_append, List.length_append]
      omega
  induction bs with
  | nil => simp [eq_comm (a := ([] : List α))]
  | cons b bs ih =>
    rw [List.forall_mem_cons, and_assoc]
    refine Iff.trans ?_ (and_congr (takeWhile_eq_filter_iff p b) ih)
    rw [List.flatMap_cons, List.flatten_cons, List.append_assoc, List.filter_append]
    constructor
    · intro h
      -- no part is longer than what it should be, so that each one is as long
      have hb := (takeWhile_sublist_filter p b).length_le
      have hbs := hlen bs
      have hsum := congrArg List.length h
      simp only [List.length_append, List.filter_append] at hsum
      exact List.append_inj h (by omega)
    · rintro ⟨hb, hbs⟩
      rw [hb, hbs]

end Rost.Lib
