import Mathlib.Tactic.Common
import Mathlib.Data.List.Basic
import Mathlib.Data.List.DropRight

/-!
# Moves within an array

The loops that open and close gaps in an array, that fill a part of it, and that walk over the elements of a kind.  An
access outside the array has no result.  Every rule speaks of the array as the concatenation of its parts: the loop that
copies a part down moves the gap before it behind it (`copyDown_append`), the one that copies it up moves the gap after it
in front (`copyUp_append`), and a walk stops where `takeWhile` and `rdropWhile` stop.
-/

namespace Rost.Lib

variable {α : Type}

/-- A difference of two sizes, which must not be negative. -/
def sub? (a b : Nat) : Option Nat := if b ≤ a then some (a - b) else none

/-- `a[i] = x` -/
def set? (a : List α) (i : Nat) (x : α) : Option (List α) := if i < a.length then some (a.set i x) else none

/-- `&a[i..j]` -/
def slice? (a : List α) (i j : Nat) : Option (List α) :=
  if i ≤ j ∧ j ≤ a.length then some ((a.drop i).take (j - i)) else none

/-- `a[i..i + xs.len()].copy_from_slice(xs)` -/
def splice? (a : List α) (i : Nat) (xs : List α) : Option (List α) :=
  if i + xs.length ≤ a.length then some (a.take i ++ xs ++ a.drop (i + xs.length)) else none

/-- `for j in 0..m { a[d + j] = a[s + j] }` -/
def copyDown : Nat → Nat → Nat → List α → Option (List α)
  | _, _, 0, a => some a
  | d, s, m + 1, a => do
    let x ← a[s]?
    let a ← set? a d x
    copyDown (d + 1) (s + 1) m a

/-- `while i >= lo { a[i] = a[i - k]; i -= 1 }`, in `m` rounds from `i = lo + m - 1` down. -/
def copyUp (k : Nat) : Nat → Nat → List α → Option (List α)
  | _, 0, a => some a
  | lo, m + 1, a => do
    let j ← sub? (lo + m) k
    let x ← a[j]?
    let a ← set? a (lo + m) x
    copyUp k lo m a

/-- `for j in 0..m { a[i + j] = x }` -/
def fill (x : α) : Nat → Nat → List α → Option (List α)
  | _, 0, a => some a
  | i, m + 1, a => do
    let a ← set? a i x
    fill x (i + 1) m a

/-- `while i > 0 && p(a[i - 1]) { i -= 1 }` -/
def walkBack (p : α → Bool) (a : List α) : Nat → Option Nat
  | 0 => some 0
  | i + 1 => do
    let x ← a[i]?
    if p x then walkBack p a i else some (i + 1)

/-- `while i < end && p(a[i]) { i += 1 }`, with `m` places to the end. -/
def walkForward (p : α → Bool) (a : List α) : Nat → Nat → Option Nat
  | i, 0 => some i
  | i, m + 1 => do
    let x ← a[i]?
    if p x then walkForward p a (i + 1) m else some i

theorem sub?_of_le {a b : Nat} (h : b ≤ a) : sub? a b = some (a - b) := if_pos h

theorem set?_append_cons (as bs : List α) (b x : α) :
    set? (as ++ b :: bs) as.length x = some (as ++ x :: bs) := by
  simp [set?]

theorem slice?_append (as bs cs : List α) :
    slice? (as ++ bs ++ cs) as.length (as.length + bs.length) = some bs := by
  rw [slice?, if_pos (by simp), Nat.add_sub_cancel_left, List.append_assoc, List.drop_left, List.take_left]

theorem splice?_append (as bs cs xs : List α) (h : xs.length = bs.length) :
    splice? (as ++ bs ++ cs) as.length xs = some (as ++ xs ++ cs) := by
  rw [splice?, if_pos (by simp [h]), h, List.append_assoc as, List.take_left, ← List.append_assoc, ← List.length_append,
    List.drop_left]

/-- Copying a part down moves the gap in front of it behind it, with something else in it. -/
theorem copyDown_append (as gap bs cs : List α) : ∃ gap' : List α, gap'.length = gap.length ∧
    copyDown as.length (as ++ gap).length bs.length (as ++ gap ++ bs ++ cs) = some (as ++ bs ++ gap' ++ cs) := by
  induction bs generalizing as gap with
  | nil => exact ⟨gap, rfl, by simp [copyDown]⟩
  | cons b bs ih =>
    have hget : (as ++ gap ++ b :: bs ++ cs)[(as ++ gap).length]? = some b := by simp
    rw [List.length_cons, copyDown, hget]
    rcases gap with _ | ⟨g, gap⟩
    · have hset : set? (as ++ [] ++ b :: bs ++ cs) as.length b = some (as ++ [b] ++ [] ++ bs ++ cs) := by
        simpa using set?_append_cons as (bs ++ cs) b b
      obtain ⟨gap', hlen, hrest⟩ := ih (as ++ [b]) []
      refine ⟨gap', hlen, ?_⟩
      simp only [Option.bind_eq_bind, Option.bind_some, hset]
      simpa using hrest
    · have hset : set? (as ++ g :: gap ++ b :: bs ++ cs) as.length b =
          some (as ++ [b] ++ (gap ++ [b]) ++ bs ++ cs) := by
        simpa using set?_append_cons as (gap ++ b :: bs ++ cs) g b
      obtain ⟨gap', hlen, hrest⟩ := ih (as ++ [b]) (gap ++ [b])
      refine ⟨gap', by simpa using hlen, ?_⟩
      simp only [Option.bind_eq_bind, Option.bind_some, hset]
      simpa [Nat.add_assoc, Nat.add_comm, Nat.add_left_comm] using hrest

/-- Copying a part up moves the gap behind it in front of it, with something else in it. -/
theorem copyUp_append (as bs gap cs : List α) : ∃ gap' : List α, gap'.length = gap.length ∧
    copyUp gap.length (as.length + gap.length) bs.length (as ++ bs ++ gap ++ cs) = some (as ++ gap' ++ bs ++ cs) := by
  induction bs using List.reverseRecOn generalizing gap cs with
  | nil => exact ⟨gap, rfl, by simp [copyUp]⟩
  | append_singleton bs b ih =>
    have hget : (as ++ (bs ++ [b]) ++ gap ++ cs)[as.length + bs.length]? = some b := by
      simp
    rw [List.length_append, List.length_singleton, copyUp, sub?_of_le (by omega),
      show as.length + gap.length + bs.length - gap.length = as.length + bs.length by omega]
    simp only [Option.bind_eq_bind, Option.bind_some, hget]
    rcases List.eq_nil_or_concat' gap with rfl | ⟨gap, g, rfl⟩
    · have hset : set? (as ++ (bs ++ [b]) ++ [] ++ cs) (as.length + ([] : List α).length + bs.length) b =
          some (as ++ bs ++ [] ++ b :: cs) := by
        simpa using set?_append_cons (as ++ bs) cs b b
      obtain ⟨gap', hlen, hrest⟩ := ih [] (b :: cs)
      refine ⟨gap', hlen, ?_⟩
      rw [hset, Option.bind_some, hrest]
      simp
    · have hset : set? (as ++ (bs ++ [b]) ++ (gap ++ [g]) ++ cs) (as.length + (gap ++ [g]).length + bs.length) b =
          some (as ++ bs ++ (b :: gap) ++ b :: cs) := by
        have := set?_append_cons (as ++ bs ++ b :: gap) cs g b
        simpa [Nat.add_assoc, Nat.add_comm, Nat.add_left_comm] using this
      obtain ⟨gap', hlen, hrest⟩ := ih (b :: gap) (b :: cs)
      refine ⟨gap', by simpa using hlen, ?_⟩
      rw [hset, Option.bind_some]
      simpa using hrest

/-- Filling a part leaves the others as they are. -/
theorem fill_append (x : α) (as bs cs : List α) :
    fill x as.length bs.length (as ++ bs ++ cs) = some (as ++ List.replicate bs.length x ++ cs) := by
  induction bs generalizing as with
  | nil => rfl
  | cons b bs ih =>
    have hset : set? (as ++ b :: bs ++ cs) as.length x = some (as ++ [x] ++ bs ++ cs) := by
      simpa using set?_append_cons as (bs ++ cs) b x
    have hrest := ih (as ++ [x])
    rw [List.length_append, List.length_singleton] at hrest
    rw [List.length_cons, fill, hset, Option.bind_eq_bind, Option.bind_some, hrest, List.replicate_succ]
    simp

theorem length_of_set? {a a' : List α} {i : Nat} {x : α} (h : set? a i x = some a') : a'.length = a.length := by
  unfold set? at h
  split at h
  · cases h
    exact List.length_set
  · cases h

theorem length_of_fill {x : α} {i m : Nat} {a a' : List α} (h : fill x i m a = some a') : a'.length = a.length := by
  induction m generalizing i a with
  | zero =>
    cases h
    rfl
  | succ m ih =>
    obtain ⟨b, hset, hrest⟩ := Option.bind_eq_some_iff.1 h
    rw [ih hrest, length_of_set? hset]

theorem length_of_copyDown {d s m : Nat} {a a' : List α} (h : copyDown d s m a = some a') : a'.length = a.length := by
  induction m generalizing d s a with
  | zero =>
    cases h
    rfl
  | succ m ih =>
    obtain ⟨x, -, hrest⟩ := Option.bind_eq_some_iff.1 h
    obtain ⟨b, hset, hrest⟩ := Option.bind_eq_some_iff.1 hrest
    rw [ih hrest, length_of_set? hset]

theorem length_of_copyUp {k lo m : Nat} {a a' : List α} (h : copyUp k lo m a = some a') : a'.length = a.length := by
  induction m generalizing a with
  | zero =>
    cases h
    rfl
  | succ m ih =>
    obtain ⟨j, -, hrest⟩ := Option.bind_eq_some_iff.1 h
    obtain ⟨x, -, hrest⟩ := Option.bind_eq_some_iff.1 hrest
    obtain ⟨b, hset, hrest⟩ := Option.bind_eq_some_iff.1 hrest
    rw [ih hrest, length_of_set? hset]

theorem walkBack_append (p : α → Bool) (as bs : List α) :
    walkBack p (as ++ bs) as.length = some (as.rdropWhile p).length := by
  induction as using List.reverseRecOn generalizing bs with
  | nil => rfl
  | append_singleton as a ih =>
    have hget : (as ++ [a] ++ bs)[as.length]? = some a := by simp
    rw [List.length_append, List.length_singleton, walkBack, hget, Option.bind_eq_bind, Option.bind_some,
      List.rdropWhile_concat]
    split
    · rw [List.append_assoc]
      exact ih _
    · simp

theorem walkForward_append (p : α → Bool) (as bs cs : List α) :
    walkForward p (as ++ bs ++ cs) as.length bs.length = some (as.length + (bs.takeWhile p).length) := by
  induction bs generalizing as with
  | nil => rfl
  | cons b bs ih =>
    have hget : (as ++ b :: bs ++ cs)[as.length]? = some b := by simp
    rw [List.length_cons, walkForward, hget, Option.bind_eq_bind, Option.bind_some, List.takeWhile_cons]
    split
    · have hrest := ih (as ++ [b])
      rw [List.length_append, List.length_singleton] at hrest
      rw [show as ++ b :: bs ++ cs = as ++ [b] ++ bs ++ cs by simp, hrest, List.length_cons]
      congr 1
      omega
    · rfl

end Rost.Lib
