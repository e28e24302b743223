import Rost.Shell.Compound

/-!
# Words and paths

A command is split into at most 16 words, where quotes hold a word together.  Paths are resolved against the current
directory and cut to 63 bytes, and a request to the VFS carries 48 of them.
-/

namespace Rost.Shell

open Vfs (Bytes ascii slash)

/-! ### Words -/

def equals : Byte := 0x3D
def maxArgs : Nat := 16

/-- The first `n` words of a line. -/
def words : Nat → Bytes → List Bytes
  | 0, _ => []
  | n + 1, s =>
    match s.dropWhile fun b => b == space with
    | [] => []
    | b :: rest =>
      if b = dquote ∨ b = squote then
        (rest.takeWhile fun c => c != b) :: words n ((rest.dropWhile fun c => c != b).drop 1)
      else ((b :: rest).takeWhile fun c => c != space) :: words n ((b :: rest).dropWhile fun c => c != space)

def tokenize (line : Bytes) : List Bytes := words maxArgs line

theorem words_space (n : Nat) (s : Bytes) : words n (space :: s) = words n s := by
  cases n <;> rfl

/-- A word without a quote at its start ends at a space. -/
theorem words_bare {b : Byte} {w rest : Bytes} (n : Nat) (hb : b ≠ space ∧ b ≠ dquote ∧ b ≠ squote) (hw : space ∉ w)
    (hrest : rest = [] ∨ rest.head? = some space) : words (n + 1) (b :: (w ++ rest)) = (b :: w) :: words n rest := by
  have hkeep : ∀ c ∈ b :: w, (c != space) = true := by
    intro c hc
    rw [bne_iff_ne]
    rintro rfl
    rcases List.mem_cons.1 hc with heq | hc
    · exact hb.1 heq.symm
    · exact hw hc
  have hstop : rest.takeWhile (fun c => c != space) = [] ∧ rest.dropWhile (fun c => c != space) = rest := by
    rcases hrest with rfl | hhead
    · exact ⟨rfl, rfl⟩
    · cases rest with
      | nil => exact ⟨rfl, rfl⟩
      | cons c rest =>
        cases hhead
        exact ⟨rfl, rfl⟩
  have htake : (b :: (w ++ rest)).takeWhile (fun c => c != space) = b :: w := by
    rw [← List.cons_append, List.takeWhile_append_of_pos hkeep, hstop.1, List.append_nil]
  have hdrop : (b :: (w ++ rest)).dropWhile (fun c => c != space) = rest := by
    rw [← List.cons_append, List.dropWhile_append_of_pos hkeep, hstop.2]
  conv => lhs; unfold words
  rw [List.dropWhile_cons_of_neg (by simpa using hb.1)]
  dsimp only
  rw [if_neg (by rintro (h | h); exacts [hb.2.1 h, hb.2.2 h]), htake, hdrop]

/-- A quoted word ends at the next quote of its kind, or with the line. -/
theorem words_quoted {q : Byte} {w : Bytes} (n : Nat) (hq : q = dquote ∨ q = squote) (hw : q ∉ w) (rest : Bytes) :
    words (n + 1) (q :: (w ++ q :: rest)) = w :: words n rest ∧ words (n + 1) (q :: w) = [w] := by
  have hspace : (q == space) = false := by rcases hq with rfl | rfl <;> rfl
  have hkeep : ∀ c ∈ w, (c != q) = true := by
    intro c hc
    rw [bne_iff_ne]
    rintro rfl
    exact hw hc
  constructor
  · conv => lhs; unfold words
    rw [List.dropWhile_cons_of_neg (by simp [hspace])]
    dsimp only
    rw [if_pos hq, List.takeWhile_append_of_pos hkeep, List.dropWhile_append_of_pos hkeep]
    simp
  · conv => lhs; unfold words
    rw [List.dropWhile_cons_of_neg (by simp [hspace])]
    dsimp only
    rw [if_pos hq, List.takeWhile_eq_self_iff.2 hkeep, List.dropWhile_eq_nil_iff.2 hkeep]
    cases n <;> rfl

/-- `Args::get`: there is an empty word at every further position. -/
def arg (args : List Bytes) (i : Nat) : Bytes := args.getD i []

def skipFirstToken (s : Bytes) : Bytes := (s.dropWhile fun b => b != space).dropWhile fun b => b == space

/-- `find_assignment`: the name and the value of `NAME=value`. -/
def findAssignment (line : Bytes) : Option (Bytes × Bytes) :=
  match line.dropWhile isIdChar with
  | [] => none
  | b :: val => if b = equals ∧ line.takeWhile isIdChar ≠ [] then some (line.takeWhile isIdChar, val) else none

/-- The parts of a word before and after its first `=`. -/
def splitAtEquals (word : Bytes) : Option (Bytes × Bytes) :=
  match word.dropWhile fun b => b != equals with
  | [] => none
  | _ :: val => some (word.takeWhile fun b => b != equals, val)

/-- A value without the quotes around it. -/
def unquote (q : Byte) (val : Bytes) : Option Bytes :=
  if val.head? = some q ∧ val.getLast? = some q ∧ 1 < val.length then some (val.drop 1).dropLast else none

/-! ### Paths -/

def pathCap : Nat := 63

/-- A path counts up to its first zero byte. -/
def uptoZero (s : Bytes) : Bytes := s.takeWhile fun b => b != 0

/-- `parent_of`: the length of the parent of a path. -/
def parentOf (path : Bytes) : Nat :=
  let stripped := if path.getLast? = some slash ∧ 1 < path.length then path.dropLast else path
  match stripped.reverse.findIdx? fun b => b == slash with
  | none => 1
  | some i => max 1 (stripped.length - 1 - i)

def resolve (cwd input : Bytes) : Bytes :=
  let cwd := uptoZero cwd
  if input.head? = some slash then
    let path := input.take pathCap
    if 1 < path.length ∧ path.getLast? = some slash then path.dropLast else path
  else if input = ascii ".." then cwd.take (parentOf cwd)
  else if input = ascii "." then cwd
  else
    let base := cwd.take pathCap
    let base := if base ≠ [] ∧ base.getLast? ≠ some slash ∧ base.length < pathCap then base ++ [slash] else base
    base ++ input.take (pathCap - base.length)

/-- `path_as_words`: what a request says of a path. -/
def pathAsWords (path : Bytes) : Bytes := (uptoZero path).take 48

end Rost.Shell
