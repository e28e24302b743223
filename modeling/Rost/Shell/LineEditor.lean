import Rost.Lib.Moves
import Rost.Shell.Expand

/-!
# The line editor

The edited line stands in a buffer of 256 bytes, and every edit moves bytes within it.  To a reader it is a zipper, the
text before the cursor and the text after it: no operation leaves the buffer, each does to the zipper what its name says,
and one that fails changes nothing (`EditorOp.exec_zipper`).  What a kill removes can be yanked back, but for the spaces
that Ctrl+W skips (`editor_run_iff`).
-/

namespace Rost.Shell

open Lib (sub? set? slice? splice? copyDown copyUp walkBack walkForward)
open Vfs (Bytes ascii)

/-! ### The buffer -/

structure LineEditor where
  buf : Bytes
  len : Nat
  cursor : Nat
  deriving DecidableEq

namespace LineEditor

def new : LineEditor := ⟨List.replicate lineMax 0, 0, 0⟩

/-- `insert`; false if the line is full. -/
def insert (e : LineEditor) (b : Byte) : Option (LineEditor × Bool) :=
  if lineMax - 1 ≤ e.len then some (e, false)
  else do
    let buf ← copyUp 1 (e.cursor + 1) (e.len - e.cursor) e.buf
    let buf ← set? buf e.cursor b
    some (⟨buf, e.len + 1, e.cursor + 1⟩, true)

/-- `backspace`; false at the start. -/
def backspace (e : LineEditor) : Option (LineEditor × Bool) :=
  if e.cursor = 0 then some (e, false)
  else do
    let last ← sub? e.len 1
    let buf ← copyDown (e.cursor - 1) e.cursor (last - (e.cursor - 1)) e.buf
    some (⟨buf, last, e.cursor - 1⟩, true)

/-- `delete_forward`; false at the end. -/
def deleteForward (e : LineEditor) : Option (LineEditor × Bool) :=
  if e.len ≤ e.cursor then some (e, false)
  else do
    let last ← sub? e.len 1
    let buf ← copyDown e.cursor (e.cursor + 1) (last - e.cursor) e.buf
    some (⟨buf, last, e.cursor⟩, true)

/-- `kill_to_end`: the killed text goes into the ring, and its length is the result. -/
def killToEnd (e : LineEditor) (ring : Bytes) : Option (LineEditor × Bytes × Nat) := do
  let n ← sub? e.len e.cursor
  let killed ← slice? e.buf e.cursor e.len
  let ring ← splice? ring 0 killed
  some ({ e with len := e.cursor }, ring, n)

/-- `kill_to_start` -/
def killToStart (e : LineEditor) (ring : Bytes) : Option (LineEditor × Bytes × Nat) := do
  let killed ← slice? e.buf 0 e.cursor
  let ring ← splice? ring 0 killed
  let rem ← sub? e.len e.cursor
  let buf ← copyDown 0 e.cursor rem e.buf
  some (⟨buf, rem, 0⟩, ring, e.cursor)

/-- `kill_prev_word`: the spaces before the cursor are removed too, but only the word goes into the ring. -/
def killPrevWord (e : LineEditor) (ring : Bytes) : Option (LineEditor × Bytes × Nat) := do
  let stop ← walkBack (fun b => b == space) e.buf e.cursor
  let start ← walkBack (fun b => b != space) e.buf stop
  let n ← sub? stop start
  let killed ← slice? e.buf start stop
  let ring ← splice? ring 0 killed
  let removed ← sub? e.cursor start
  let rem ← sub? e.len e.cursor
  let buf ← copyDown start e.cursor rem e.buf
  let len ← sub? e.len removed
  some (⟨buf, len, start⟩, ring, n)

/-- `yank` of `data[..n]`; false if the line has no room for it. -/
def yank (e : LineEditor) (data : Bytes) (n : Nat) : Option (LineEditor × Bool) :=
  if n = 0 then some (e, true)
  else if lineMax ≤ e.len + n then some (e, false)
  else do
    let buf ← copyUp n (e.cursor + n) (e.len - e.cursor) e.buf
    let src ← slice? data 0 n
    let buf ← splice? buf e.cursor src
    some (⟨buf, e.len + n, e.cursor + n⟩, true)

def moveLeft (e : LineEditor) : LineEditor × Bool :=
  if e.cursor = 0 then (e, false) else ({ e with cursor := e.cursor - 1 }, true)

def moveRight (e : LineEditor) : LineEditor × Bool :=
  if e.len ≤ e.cursor then (e, false) else ({ e with cursor := e.cursor + 1 }, true)

def home (e : LineEditor) : LineEditor := { e with cursor := 0 }

/-- `end` -/
def toEnd (e : LineEditor) : LineEditor := { e with cursor := e.len }

/-- `word_left`, with the number of places moved. -/
def wordLeft (e : LineEditor) : Option (LineEditor × Nat) := do
  let mid ← walkBack (fun b => b == space) e.buf e.cursor
  let cursor ← walkBack (fun b => b != space) e.buf mid
  let n ← sub? e.cursor cursor
  some ({ e with cursor }, n)

/-- `word_right`, with the number of places moved. -/
def wordRight (e : LineEditor) : Option (LineEditor × Nat) := do
  let mid ← walkForward (fun b => b == space) e.buf e.cursor (e.len - e.cursor)
  let cursor ← walkForward (fun b => b != space) e.buf mid (e.len - mid)
  let n ← sub? cursor e.cursor
  some ({ e with cursor }, n)

def clear (e : LineEditor) : LineEditor := { e with len := 0, cursor := 0 }

/-- `as_bytes` -/
def asBytes (e : LineEditor) : Bytes := e.buf.take e.len

/-- `load`: the line is cut to the size of the buffer, and the cursor stands at its end. -/
def load (e : LineEditor) (src : Bytes) : Option LineEditor := do
  let buf ← splice? e.buf 0 (src.take (lineMax - 1))
  some ⟨buf, min src.length (lineMax - 1), min src.length (lineMax - 1)⟩

end LineEditor

/-! ### The zipper -/

/-- A line as it is edited: the text before the cursor and the text after it. -/
structure Zipper where
  before : Bytes
  after : Bytes
  deriving DecidableEq

namespace Zipper

def text (z : Zipper) : Bytes := z.before ++ z.after

/-- What stays before the cursor if the word before it is taken away, with the spaces behind the word. -/
def stem (z : Zipper) : Bytes := (z.before.rdropWhile fun b => b == space).rdropWhile fun b => b != space

/-- The word before the cursor, without the spaces behind it. -/
def word (z : Zipper) : Bytes := (z.before.rdropWhile fun b => b == space).drop z.stem.length

/-- The spaces and the word after the cursor. -/
def nextWord (z : Zipper) : Bytes :=
  z.after.takeWhile (fun b => b == space) ++ (z.after.dropWhile fun b => b == space).takeWhile fun b => b != space

end Zipper

/-! ### Operations -/

inductive EditorOp where
  | insert (b : Byte)
  | backspace | deleteForward
  | killToEnd | killToStart | killPrevWord
  | yank (data : Bytes) (n : Nat) (hn : n ≤ data.length)
  | moveLeft | moveRight | home | toEnd | wordLeft | wordRight
  | load (src : Bytes)
  | clear

/-- What an operation returns. -/
inductive Outcome where
  | done
  | flag (b : Bool)
  | count (n : Nat)
  deriving DecidableEq

/-- An operation on the buffer, and on the ring where it kills. -/
def EditorOp.exec (s : LineEditor × Bytes) : EditorOp → Option ((LineEditor × Bytes) × Outcome)
  | .insert b => (s.1.insert b).map fun r => ((r.1, s.2), .flag r.2)
  | .backspace => s.1.backspace.map fun r => ((r.1, s.2), .flag r.2)
  | .deleteForward => s.1.deleteForward.map fun r => ((r.1, s.2), .flag r.2)
  | .killToEnd => (s.1.killToEnd s.2).map fun r => ((r.1, r.2.1), .count r.2.2)
  | .killToStart => (s.1.killToStart s.2).map fun r => ((r.1, r.2.1), .count r.2.2)
  | .killPrevWord => (s.1.killPrevWord s.2).map fun r => ((r.1, r.2.1), .count r.2.2)
  | .yank data n _ => (s.1.yank data n).map fun r => ((r.1, s.2), .flag r.2)
  | .moveLeft => some ((s.1.moveLeft.1, s.2), .flag s.1.moveLeft.2)
  | .moveRight => some ((s.1.moveRight.1, s.2), .flag s.1.moveRight.2)
  | .home => some ((s.1.home, s.2), .done)
  | .toEnd => some ((s.1.toEnd, s.2), .done)
  | .wordLeft => s.1.wordLeft.map fun r => ((r.1, s.2), .count r.2)
  | .wordRight => s.1.wordRight.map fun r => ((r.1, s.2), .count r.2)
  | .load src => (s.1.load src).map fun e => ((e, s.2), .done)
  | .clear => some ((s.1.clear, s.2), .done)

/-- What an operation is to do to the zipper, with what it returns and the text it kills. -/
def EditorOp.onZipper (z : Zipper) : EditorOp → Zipper × Outcome × Bytes
  | .insert b => if z.text.length < lineMax - 1 then (⟨z.before ++ [b], z.after⟩, .flag true, []) else (z, .flag false, [])
  | .backspace => if z.before = [] then (z, .flag false, []) else (⟨z.before.dropLast, z.after⟩, .flag true, [])
  | .deleteForward => if z.after = [] then (z, .flag false, []) else (⟨z.before, z.after.tail⟩, .flag true, [])
  | .killToEnd => (⟨z.before, []⟩, .count z.after.length, z.after)
  | .killToStart => (⟨[], z.after⟩, .count z.before.length, z.before)
  | .killPrevWord => (⟨z.stem, z.after⟩, .count z.word.length, z.word)
  | .yank data n _ =>
    if n = 0 then (z, .flag true, [])
    else if z.text.length + n < lineMax then (⟨z.before ++ data.take n, z.after⟩, .flag true, []) else (z, .flag false, [])
  | .moveLeft =>
    if z.before = [] then (z, .flag false, [])
    else (⟨z.before.dropLast, z.before.getLast?.toList ++ z.after⟩, .flag true, [])
  | .moveRight =>
    if z.after = [] then (z, .flag false, []) else (⟨z.before ++ z.after.head?.toList, z.after.tail⟩, .flag true, [])
  | .home => (⟨[], z.text⟩, .done, [])
  | .toEnd => (⟨z.text, []⟩, .done, [])
  | .wordLeft => (⟨z.stem, z.before.drop z.stem.length ++ z.after⟩, .count (z.before.length - z.stem.length), [])
  | .wordRight => (⟨z.before ++ z.nextWord, z.after.drop z.nextWord.length⟩, .count z.nextWord.length, [])
  | .load src => (⟨src.take (lineMax - 1), []⟩, .done, [])
  | .clear => (⟨[], []⟩, .done, [])

/-- The state after a sequence of operations. -/
def editorRun (s : LineEditor × Bytes) : List EditorOp → Option (LineEditor × Bytes)
  | [] => some s
  | op :: ops => (op.exec s).bind fun r => editorRun r.1 ops

/-! ### The buffer as a zipper -/

/-- The zipper of a buffer. -/
def LineEditor.zipper (e : LineEditor) : Zipper := ⟨e.buf.take e.cursor, (e.buf.take e.len).drop e.cursor⟩

/-- The cursor lies in the line and the line in the buffer, with a byte to spare. -/
structure LineEditor.Wf (e : LineEditor) : Prop where
  size : e.buf.length = lineMax
  cursor_le : e.cursor ≤ e.len
  len_le : e.len ≤ lineMax - 1

/-- The buffer holds the zipper, and whatever behind it. -/
private def Holds (e : LineEditor) (z : Zipper) : Prop :=
  ∃ rest, e.buf = z.before ++ z.after ++ rest ∧ e.buf.length = lineMax ∧ e.len = (z.before ++ z.after).length ∧
    e.cursor = z.before.length ∧ e.len ≤ lineMax - 1

private theorem holds_iff {e : LineEditor} {z : Zipper} : Holds e z ↔ e.Wf ∧ e.zipper = z := by
  constructor
  · rintro ⟨rest, hbuf, hsize, hlen, hcursor, hle⟩
    refine ⟨⟨hsize, by rw [hlen, hcursor]; simp, hle⟩, ?_⟩
    have hbefore : e.buf.take e.cursor = z.before := by
      rw [hbuf, hcursor, List.append_assoc, List.take_left]
    have hafter : (e.buf.take e.len).drop e.cursor = z.after := by
      rw [hbuf, hcursor, hlen, List.take_left, List.drop_left]
    rw [LineEditor.zipper, hbefore, hafter]
  · rintro ⟨⟨hsize, hcursor, hle⟩, rfl⟩
    have htake : e.buf.take e.cursor ++ (e.buf.take e.len).drop e.cursor = e.buf.take e.len := by
      have hcut : e.buf.take e.cursor = (e.buf.take e.len).take e.cursor := by
        rw [List.take_take, Nat.min_eq_left hcursor]
      rw [hcut, List.take_append_drop]
    have hlt : e.len ≤ e.buf.length := by rw [hsize]; exact Nat.le_trans hle (Nat.sub_le _ _)
    refine ⟨e.buf.drop e.len, ?_, hsize, ?_, ?_, hle⟩
    · rw [LineEditor.zipper, htake, List.take_append_drop]
    · rw [LineEditor.zipper, htake, List.length_take, Nat.min_eq_left hlt]
    · rw [LineEditor.zipper, List.length_take, Nat.min_eq_left (Nat.le_trans hcursor hlt)]

/-- A buffer that holds a zipper, in its parts. -/
private theorem Holds.parts {e : LineEditor} {z : Zipper} (h : Holds e z) : ∃ rest,
    e = ⟨z.before ++ z.after ++ rest, z.before.length + z.after.length, z.before.length⟩ ∧
      z.before.length + z.after.length + rest.length = lineMax ∧ z.before.length + z.after.length ≤ lineMax - 1 := by
  obtain ⟨rest, hbuf, hsize, hlen, hcursor, hle⟩ := h
  rcases e with ⟨buf, len, cursor⟩
  simp only at hbuf hsize hlen hcursor hle
  subst hbuf hlen hcursor
  exact ⟨rest, by simp, by simpa [Nat.add_assoc] using hsize, by simpa using hle⟩

private theorem holds_mk {before after rest : Bytes} {len cursor : Nat}
    (hsize : before.length + after.length + rest.length = lineMax) (hle : before.length + after.length ≤ lineMax - 1)
    (hlen : len = before.length + after.length) (hcursor : cursor = before.length) :
    Holds ⟨before ++ after ++ rest, len, cursor⟩ ⟨before, after⟩ :=
  ⟨rest, rfl, by simpa [Nat.add_assoc] using hsize, by simpa using hlen, hcursor, by rw [hlen]; exact hle⟩

private theorem insert_holds {e : LineEditor} {z : Zipper} (h : Holds e z) (hroom : z.text.length < lineMax - 1) (x : Byte) :
    ∃ e', e.insert x = some (e', true) ∧ Holds e' ⟨z.before ++ [x], z.after⟩ := by
  obtain ⟨rest, rfl, hsize, hle⟩ := h.parts
  rw [Zipper.text, List.length_append] at hroom
  rcases rest with _ | ⟨r, rest⟩
  · rw [List.length_nil] at hsize
    simp only [lineMax] at hsize hroom
    omega
  obtain ⟨gap, hgap, hcopy⟩ := Lib.copyUp_append z.before z.after [r] rest
  obtain ⟨g, rfl⟩ := List.length_eq_one_iff.1 hgap
  have hcopy' : copyUp 1 (z.before.length + 1) (z.before.length + z.after.length - z.before.length)
      (z.before ++ z.after ++ r :: rest) = some (z.before ++ g :: (z.after ++ rest)) := by
    rw [Nat.add_sub_cancel_left]
    simpa using hcopy
  refine ⟨⟨z.before ++ [x] ++ z.after ++ rest, z.before.length + z.after.length + 1, z.before.length + 1⟩, ?_, ?_⟩
  · rw [LineEditor.insert, if_neg (by simp only; omega)]
    simp only [hcopy', Lib.set?_append_cons, Option.bind_eq_bind, Option.bind_some]
    simp
  · simp only [List.length_cons] at hsize
    refine holds_mk ?_ ?_ ?_ ?_ <;> simp only [List.length_append, List.length_singleton] <;> omega

private theorem backspace_holds {e : LineEditor} {before after : Bytes} {x : Byte} (h : Holds e ⟨before ++ [x], after⟩) :
    ∃ e', e.backspace = some (e', true) ∧ Holds e' ⟨before, after⟩ := by
  obtain ⟨rest, rfl, hsize, hle⟩ := h.parts
  simp only [List.length_append, List.length_singleton] at hsize hle
  obtain ⟨gap, hgap, hcopy⟩ := Lib.copyDown_append before [x] after rest
  rw [List.length_append, List.length_singleton] at hcopy
  refine ⟨⟨before ++ after ++ (gap ++ rest), before.length + after.length, before.length⟩, ?_, ?_⟩
  · rw [LineEditor.backspace, if_neg (by simp)]
    simp only [List.length_append, List.length_singleton, Nat.add_sub_cancel]
    rw [Lib.sub?_of_le (by omega)]
    simp only [Option.bind_eq_bind, Option.bind_some]
    rw [show before.length + 1 + after.length - 1 - before.length = after.length by omega, hcopy, Option.bind_some]
    simp only [List.append_assoc]
    congr 4
    omega
  · rw [List.length_singleton] at hgap
    refine holds_mk ?_ (by omega) rfl rfl
    rw [List.length_append]
    omega

private theorem deleteForward_holds {e : LineEditor} {before after : Bytes} {x : Byte}
    (h : Holds e ⟨before, x :: after⟩) : ∃ e', e.deleteForward = some (e', true) ∧ Holds e' ⟨before, after⟩ := by
  obtain ⟨rest, rfl, hsize, hle⟩ := h.parts
  simp only [List.length_cons] at hsize hle
  obtain ⟨gap, hgap, hcopy⟩ := Lib.copyDown_append before [x] after rest
  rw [List.length_append, List.length_singleton] at hcopy
  refine ⟨⟨before ++ after ++ (gap ++ rest), before.length + after.length, before.length⟩, ?_, ?_⟩
  · rw [LineEditor.deleteForward, if_neg (by simp)]
    simp only [List.length_cons]
    rw [Lib.sub?_of_le (by omega)]
    simp only [Option.bind_eq_bind, Option.bind_some]
    rw [show before.length + (after.length + 1) - 1 - before.length = after.length by omega,
      show before ++ x :: after ++ rest = before ++ [x] ++ after ++ rest by simp, hcopy, Option.bind_some]
    simp only [List.append_assoc]
    rfl
  · rw [List.length_singleton] at hgap
    refine holds_mk ?_ (by omega) rfl rfl
    rw [List.length_append]
    omega

private theorem splice_ring {ring killed : Bytes} (hring : ring.length = lineMax) (hle : killed.length ≤ lineMax) :
    splice? ring 0 killed = some (killed ++ ring.drop killed.length) := by
  rw [splice?, if_pos (by omega)]
  simp

private theorem killToEnd_holds {e : LineEditor} {z : Zipper} (h : Holds e z) {ring : Bytes}
    (hring : ring.length = lineMax) : ∃ e', e.killToEnd ring = some (e', z.after ++ ring.drop z.after.length, z.after.length) ∧
      Holds e' ⟨z.before, []⟩ := by
  obtain ⟨rest, rfl, hsize, hle⟩ := h.parts
  refine ⟨⟨z.before ++ [] ++ (z.after ++ rest), z.before.length, z.before.length⟩, ?_, ?_⟩
  · rw [LineEditor.killToEnd]
    simp only [Lib.sub?_of_le (Nat.le_add_right _ _), Lib.slice?_append, Option.bind_eq_bind, Option.bind_some]
    rw [splice_ring hring (by omega), Nat.add_sub_cancel_left, Option.bind_some]
    simp
  · refine holds_mk ?_ (by simp only [List.length_nil]; omega) rfl rfl
    simp only [List.length_nil, List.length_append]
    omega

private theorem killToStart_holds {e : LineEditor} {z : Zipper} (h : Holds e z) {ring : Bytes}
    (hring : ring.length = lineMax) :
    ∃ e', e.killToStart ring = some (e', z.before ++ ring.drop z.before.length, z.before.length) ∧
      Holds e' ⟨[], z.after⟩ := by
  obtain ⟨rest, rfl, hsize, hle⟩ := h.parts
  obtain ⟨gap, hgap, hcopy⟩ := Lib.copyDown_append [] z.before z.after rest
  have hslice : slice? (z.before ++ z.after ++ rest) 0 z.before.length = some z.before := by
    have := Lib.slice?_append [] z.before (z.after ++ rest)
    simpa using this
  simp only [List.nil_append, List.length_nil] at hcopy
  refine ⟨⟨[] ++ z.after ++ (gap ++ rest), z.after.length, 0⟩, ?_, ?_⟩
  · rw [LineEditor.killToStart]
    simp only [hslice, Option.bind_eq_bind, Option.bind_some]
    rw [splice_ring hring (by omega), Option.bind_some, Lib.sub?_of_le (Nat.le_add_right _ _), Option.bind_some,
      Nat.add_sub_cancel_left, hcopy, Option.bind_some]
    simp
  · refine holds_mk ?_ (by simp only [List.length_nil]; omega) (by simp) rfl
    simp only [List.length_nil, List.length_append]
    omega

/-- The text before the cursor is the stem, the word and the spaces behind it. -/
private theorem Zipper.before_eq (z : Zipper) :
    ∃ spaces, z.before = z.stem ++ z.word ++ spaces ∧ (z.before.rdropWhile fun b => b == space) = z.stem ++ z.word := by
  obtain ⟨word, hword⟩ := List.rdropWhile_prefix (fun b => b != space) (z.before.rdropWhile fun b => b == space)
  obtain ⟨spaces, hspaces⟩ := List.rdropWhile_prefix (fun b => b == space) z.before
  have hz : z.word = word := by
    rw [Zipper.word, ← hword]
    exact List.drop_left
  rw [hz]
  exact ⟨spaces, by rw [Zipper.stem, hword, hspaces], by rw [Zipper.stem, hword]⟩

/-- The walks back over the spaces and the word before the cursor. -/
private theorem walks_back (z : Zipper) (rest : Bytes) :
    walkBack (fun b => b == space) (z.before ++ z.after ++ rest) z.before.length = some (z.stem ++ z.word).length ∧
      walkBack (fun b => b != space) (z.before ++ z.after ++ rest) (z.stem ++ z.word).length = some z.stem.length := by
  obtain ⟨spaces, hbefore, htrim⟩ := z.before_eq
  constructor
  · rw [List.append_assoc, Lib.walkBack_append, htrim]
  · have hbuf : z.before ++ z.after ++ rest = z.stem ++ z.word ++ (spaces ++ z.after ++ rest) := by
      rw [hbefore]
      simp
    rw [hbuf, Lib.walkBack_append, ← htrim, Zipper.stem]

private theorem killPrevWord_holds {e : LineEditor} {z : Zipper} (h : Holds e z) {ring : Bytes}
    (hring : ring.length = lineMax) :
    ∃ e', e.killPrevWord ring = some (e', z.word ++ ring.drop z.word.length, z.word.length) ∧ Holds e' ⟨z.stem, z.after⟩ := by
  obtain ⟨rest, rfl, hsize, hle⟩ := h.parts
  obtain ⟨spaces, hbefore, -⟩ := z.before_eq
  obtain ⟨hback, hback'⟩ := walks_back z rest
  have hlen : z.before.length = z.stem.length + z.word.length + spaces.length := by
    rw [hbefore]
    simp [Nat.add_assoc]
  have hslice : slice? (z.before ++ z.after ++ rest) z.stem.length (z.stem ++ z.word).length = some z.word := by
    rw [hbefore, List.length_append]
    have := Lib.slice?_append z.stem z.word (spaces ++ z.after ++ rest)
    simpa using this
  obtain ⟨gap, hgap, hcopy⟩ := Lib.copyDown_append z.stem (z.word ++ spaces) z.after rest
  have hcopy' : copyDown z.stem.length z.before.length z.after.length (z.before ++ z.after ++ rest) =
      some (z.stem ++ z.after ++ gap ++ rest) := by
    rw [hbefore]
    simpa using hcopy
  rw [List.length_append] at hgap
  refine ⟨⟨z.stem ++ z.after ++ (gap ++ rest), z.stem.length + z.after.length, z.stem.length⟩, ?_, ?_⟩
  · rw [LineEditor.killPrevWord]
    simp only [hback, hback', hslice, Option.bind_eq_bind, Option.bind_some]
    rw [List.length_append, Lib.sub?_of_le (Nat.le_add_right _ _), Option.bind_some, splice_ring hring (by omega),
      Option.bind_some, Lib.sub?_of_le (by omega), Option.bind_some, Lib.sub?_of_le (Nat.le_add_right _ _),
      Option.bind_some, Nat.add_sub_cancel_left, hcopy', Option.bind_some, Lib.sub?_of_le (by omega), Option.bind_some,
      Nat.add_sub_cancel_left, List.append_assoc _ gap rest]
    congr 4
    omega
  · refine holds_mk ?_ (by omega) rfl rfl
    rw [List.length_append]
    omega

private theorem yank_holds {e : LineEditor} {z : Zipper} (h : Holds e z) {data : Bytes} {n : Nat} (hn : n ≤ data.length)
    (h0 : n ≠ 0) (hroom : z.text.length + n < lineMax) :
    ∃ e', e.yank data n = some (e', true) ∧ Holds e' ⟨z.before ++ data.take n, z.after⟩ := by
  obtain ⟨rest, rfl, hsize, hle⟩ := h.parts
  rw [Zipper.text, List.length_append] at hroom
  -- the room for the text is taken from what lies behind the line
  obtain ⟨gap, hgap, hcopy⟩ := Lib.copyUp_append z.before z.after (rest.take n) (rest.drop n)
  have hlen : (rest.take n).length = n := by
    rw [List.length_take]
    omega
  have htake : (data.take n).length = n := by
    rw [List.length_take]
    omega
  rw [hlen, List.append_assoc _ (rest.take n), List.take_append_drop] at hcopy
  have hslice : slice? data 0 n = some (data.take n) := by
    rw [slice?, if_pos ⟨Nat.zero_le n, hn⟩]
    rfl
  have hsplice : splice? (z.before ++ gap ++ z.after ++ rest.drop n) z.before.length (data.take n) =
      some (z.before ++ data.take n ++ z.after ++ rest.drop n) := by
    have := Lib.splice?_append z.before gap (z.after ++ rest.drop n) (data.take n) (by omega)
    simpa using this
  refine ⟨⟨z.before ++ data.take n ++ z.after ++ rest.drop n, z.before.length + z.after.length + n, z.before.length + n⟩,
    ?_, ?_⟩
  · rw [LineEditor.yank, if_neg h0, if_neg (by simp only; omega)]
    simp only [Nat.add_sub_cancel_left, hcopy, hslice, hsplice, Option.bind_eq_bind, Option.bind_some]
  · refine holds_mk ?_ ?_ ?_ ?_ <;> simp only [List.length_append, htake, List.length_drop] <;> omega

private theorem wordLeft_holds {e : LineEditor} {z : Zipper} (h : Holds e z) :
    ∃ e', e.wordLeft = some (e', z.before.length - z.stem.length) ∧
      Holds e' ⟨z.stem, z.before.drop z.stem.length ++ z.after⟩ := by
  obtain ⟨rest, rfl, hsize, hle⟩ := h.parts
  obtain ⟨spaces, hbefore, -⟩ := z.before_eq
  obtain ⟨hback, hback'⟩ := walks_back z rest
  have hlen : z.before.length = z.stem.length + (z.word ++ spaces).length := by
    rw [← List.length_append, ← List.append_assoc, ← hbefore]
  have hdrop : z.before.drop z.stem.length = z.word ++ spaces := by
    conv_lhs => rw [hbefore, List.append_assoc]
    exact List.drop_left
  refine ⟨⟨z.stem ++ (z.word ++ spaces ++ z.after) ++ rest, z.before.length + z.after.length, z.stem.length⟩, ?_, ?_⟩
  · rw [LineEditor.wordLeft]
    simp only [hback, hback', Option.bind_eq_bind, Option.bind_some]
    rw [Lib.sub?_of_le (by omega), Option.bind_some]
    congr 3
    rw [hbefore]
    simp
  · rw [hdrop]
    refine holds_mk ?_ ?_ ?_ rfl <;> rw [@List.length_append _ _ z.after] <;> omega

/-- The text after the cursor is the next word with the spaces before it, and what follows. -/
private theorem Zipper.after_eq (z : Zipper) :
    z.after = z.nextWord ++ (z.after.dropWhile fun b => b == space).dropWhile fun b => b != space := by
  rw [Zipper.nextWord, List.append_assoc, List.takeWhile_append_dropWhile, List.takeWhile_append_dropWhile]

private theorem wordRight_holds {e : LineEditor} {z : Zipper} (h : Holds e z) :
    ∃ e', e.wordRight = some (e', z.nextWord.length) ∧
      Holds e' ⟨z.before ++ z.nextWord, z.after.drop z.nextWord.length⟩ := by
  obtain ⟨rest, rfl, hsize, hle⟩ := h.parts
  have hafter := z.after_eq
  generalize htail : (z.after.dropWhile fun b => b == space).dropWhile (fun b => b != space) = tail at hafter
  have hlen : z.after.length = z.nextWord.length + tail.length := by
    rw [← List.length_append, ← hafter]
  have hdrop : z.after.drop z.nextWord.length = tail := by
    conv_lhs => rw [hafter]
    exact List.drop_left
  have hspaces : z.after.takeWhile (fun b => b == space) ++ z.after.dropWhile (fun b => b == space) = z.after :=
    List.takeWhile_append_dropWhile
  have hmid := Lib.walkForward_append (fun b => b == space) z.before z.after rest
  have hend := Lib.walkForward_append (fun b => b != space) (z.before ++ z.after.takeWhile fun b => b == space)
    (z.after.dropWhile fun b => b == space) rest
  have hmidlen := congrArg List.length hspaces
  rw [List.length_append] at hmidlen
  rw [List.append_assoc z.before, hspaces, List.length_append] at hend
  have hnext : z.before.length + (z.after.takeWhile fun b => b == space).length +
      ((z.after.dropWhile fun b => b == space).takeWhile fun b => b != space).length =
        z.before.length + z.nextWord.length := by
    rw [Zipper.nextWord, List.length_append, Nat.add_assoc]
  refine ⟨⟨z.before ++ z.nextWord ++ tail ++ rest, z.before.length + z.after.length, z.before.length + z.nextWord.length⟩,
    ?_, ?_⟩
  · rw [LineEditor.wordRight]
    simp only [Nat.add_sub_cancel_left, hmid, Option.bind_eq_bind, Option.bind_some]
    rw [show z.before.length + z.after.length - (z.before.length + (z.after.takeWhile fun b => b == space).length) =
        (z.after.dropWhile fun b => b == space).length by omega, hend, Option.bind_some, hnext,
      Lib.sub?_of_le (Nat.le_add_right _ _), Option.bind_some, Nat.add_sub_cancel_left,
      List.append_assoc z.before z.nextWord, ← hafter]
  · rw [hdrop]
    refine holds_mk ?_ ?_ ?_ ?_ <;> rw [List.length_append] <;> omega

private theorem load_holds {e : LineEditor} {z : Zipper} (h : Holds e z) (src : Bytes) :
    ∃ e', e.load src = some e' ∧ Holds e' ⟨src.take (lineMax - 1), []⟩ := by
  obtain ⟨rest, rfl, hsize, hle⟩ := h.parts
  have hlen : (src.take (lineMax - 1)).length = min src.length (lineMax - 1) := by
    rw [List.length_take, Nat.min_comm]
  have hbuf : (z.before ++ z.after ++ rest).length = lineMax := by
    rw [List.length_append, List.length_append]
    exact hsize
  refine ⟨⟨src.take (lineMax - 1) ++ [] ++ (z.before ++ z.after ++ rest).drop (src.take (lineMax - 1)).length,
    min src.length (lineMax - 1), min src.length (lineMax - 1)⟩, ?_, ?_⟩
  · rw [LineEditor.load, splice_ring hbuf (by omega), Option.bind_eq_bind, Option.bind_some, List.append_nil]
  · refine holds_mk ?_ ?_ ?_ ?_ <;> simp only [List.length_drop, hbuf, hlen, List.length_nil] <;> omega

/-! ### Every operation -/

/-- What an operation does to a buffer that holds a zipper. -/
private theorem exec_holds {s : LineEditor × Bytes} {z : Zipper} (h : Holds s.1 z) (hring : s.2.length = lineMax)
    (op : EditorOp) : ∃ e, op.exec s =
        some ((e, (op.onZipper z).2.2 ++ s.2.drop (op.onZipper z).2.2.length), (op.onZipper z).2.1) ∧
      Holds e (op.onZipper z).1 ∧ ((op.onZipper z).2.1 = .flag false → e = s.1) := by
  have hlen : s.1.len = z.text.length := h.choose_spec.2.2.1
  have hcursor : s.1.cursor = z.before.length := h.choose_spec.2.2.2.1
  have hfull : z.text.length ≤ lineMax - 1 := hlen ▸ h.choose_spec.2.2.2.2
  have htext : z.text.length = z.before.length + z.after.length := List.length_append
  cases op with
  | insert b =>
    by_cases hroom : z.text.length < lineMax - 1
    · obtain ⟨e, hexec, he⟩ := insert_holds h hroom b
      exact ⟨e, by simp [EditorOp.exec, EditorOp.onZipper, hexec, hroom], by simpa [EditorOp.onZipper, hroom] using he,
        by simp [EditorOp.onZipper, hroom]⟩
    · refine ⟨s.1, ?_, by simpa [EditorOp.onZipper, hroom] using h, fun _ => rfl⟩
      simp [EditorOp.exec, EditorOp.onZipper, hroom, LineEditor.insert, hlen, Nat.le_of_not_lt hroom]
  | backspace =>
    rcases z with ⟨before, after⟩
    rcases List.eq_nil_or_concat' before with rfl | ⟨before, x, rfl⟩
    · refine ⟨s.1, ?_, by simpa [EditorOp.onZipper] using h, fun _ => rfl⟩
      have h0 : s.1.cursor = 0 := hcursor
      simp [EditorOp.exec, EditorOp.onZipper, LineEditor.backspace, h0]
    · obtain ⟨e, hexec, he⟩ := backspace_holds h
      exact ⟨e, by simp [EditorOp.exec, EditorOp.onZipper, hexec], by simpa [EditorOp.onZipper] using he,
        by simp [EditorOp.onZipper]⟩
  | deleteForward =>
    rcases z with ⟨before, _ | ⟨x, after⟩⟩
    · -- nothing behind the cursor
      refine ⟨s.1, ?_, by simpa [EditorOp.onZipper] using h, fun _ => rfl⟩
      have hle : s.1.len ≤ s.1.cursor := by rw [hlen, hcursor]; simp [Zipper.text]
      simp [EditorOp.exec, EditorOp.onZipper, LineEditor.deleteForward, hle]
    · obtain ⟨e, hexec, he⟩ := deleteForward_holds h
      exact ⟨e, by simp [EditorOp.exec, EditorOp.onZipper, hexec], by simpa [EditorOp.onZipper] using he,
        by simp [EditorOp.onZipper]⟩
  | killToEnd =>
    obtain ⟨e, hexec, he⟩ := killToEnd_holds h hring
    exact ⟨e, by simp [EditorOp.exec, EditorOp.onZipper, hexec], he, by simp [EditorOp.onZipper]⟩
  | killToStart =>
    obtain ⟨e, hexec, he⟩ := killToStart_holds h hring
    exact ⟨e, by simp [EditorOp.exec, EditorOp.onZipper, hexec], he, by simp [EditorOp.onZipper]⟩
  | killPrevWord =>
    obtain ⟨e, hexec, he⟩ := killPrevWord_holds h hring
    exact ⟨e, by simp [EditorOp.exec, EditorOp.onZipper, hexec], he, by simp [EditorOp.onZipper]⟩
  | yank data n hn =>
    by_cases h0 : n = 0
    · refine ⟨s.1, ?_, by simpa [EditorOp.onZipper, h0] using h, fun _ => rfl⟩
      simp [EditorOp.exec, EditorOp.onZipper, LineEditor.yank, h0]
    · by_cases hroom : z.text.length + n < lineMax
      · obtain ⟨e, hexec, he⟩ := yank_holds h hn h0 hroom
        exact ⟨e, by simp [EditorOp.exec, EditorOp.onZipper, hexec, h0, hroom],
          by simpa [EditorOp.onZipper, h0, hroom] using he, by simp [EditorOp.onZipper, h0, hroom]⟩
      · refine ⟨s.1, ?_, by simpa [EditorOp.onZipper, h0, hroom] using h, fun _ => rfl⟩
        simp [EditorOp.exec, EditorOp.onZipper, LineEditor.yank, h0, hroom, hlen, Nat.le_of_not_lt hroom]
  | moveLeft =>
    rcases z with ⟨before, after⟩
    rcases List.eq_nil_or_concat' before with rfl | ⟨before, x, rfl⟩
    · refine ⟨s.1, ?_, by simpa [EditorOp.onZipper] using h, fun _ => rfl⟩
      have h0 : s.1.cursor = 0 := hcursor
      simp [EditorOp.exec, EditorOp.onZipper, LineEditor.moveLeft, h0]
    · have h0 : s.1.cursor ≠ 0 := by rw [hcursor]; simp
      refine ⟨{ s.1 with cursor := s.1.cursor - 1 }, ?_, ?_, by simp [EditorOp.onZipper]⟩
      · simp [EditorOp.exec, EditorOp.onZipper, LineEditor.moveLeft, h0]
      · obtain ⟨rest, hbuf, hsize, -, -, hle⟩ := h
        refine ⟨rest, ?_, hsize, ?_, ?_, hle⟩ <;> simp [EditorOp.onZipper, hbuf, hlen, hcursor, Zipper.text]
  | moveRight =>
    rcases z with ⟨before, _ | ⟨x, after⟩⟩
    · refine ⟨s.1, ?_, by simpa [EditorOp.onZipper] using h, fun _ => rfl⟩
      have hle : s.1.len ≤ s.1.cursor := by rw [hlen, hcursor]; simp [Zipper.text]
      simp [EditorOp.exec, EditorOp.onZipper, LineEditor.moveRight, hle]
    · have hlt : ¬s.1.len ≤ s.1.cursor := by rw [hlen, hcursor]; simp [Zipper.text]
      refine ⟨{ s.1 with cursor := s.1.cursor + 1 }, ?_, ?_, by simp [EditorOp.onZipper]⟩
      · simp [EditorOp.exec, EditorOp.onZipper, LineEditor.moveRight, hlt]
      · obtain ⟨rest, hbuf, hsize, -, -, hle⟩ := h
        refine ⟨rest, ?_, hsize, ?_, ?_, hle⟩ <;> simp [EditorOp.onZipper, hbuf, hlen, hcursor, Zipper.text]
  | home =>
    refine ⟨s.1.home, by simp [EditorOp.exec, EditorOp.onZipper], ?_, by simp [EditorOp.onZipper]⟩
    obtain ⟨rest, hbuf, hsize, -, -, hle⟩ := h
    exact ⟨rest, hbuf, hsize, hlen, rfl, hle⟩
  | toEnd =>
    refine ⟨s.1.toEnd, by simp [EditorOp.exec, EditorOp.onZipper], ?_, by simp [EditorOp.onZipper]⟩
    obtain ⟨rest, hbuf, hsize, -, -, hle⟩ := h
    exact ⟨rest, by simpa [EditorOp.onZipper, Zipper.text, LineEditor.toEnd] using hbuf, hsize,
      by simpa [EditorOp.onZipper, LineEditor.toEnd] using hlen, hlen, hle⟩
  | wordLeft =>
    obtain ⟨e, hexec, he⟩ := wordLeft_holds h
    exact ⟨e, by simp [EditorOp.exec, EditorOp.onZipper, hexec], he, by simp [EditorOp.onZipper]⟩
  | wordRight =>
    obtain ⟨e, hexec, he⟩ := wordRight_holds h
    exact ⟨e, by simp [EditorOp.exec, EditorOp.onZipper, hexec], he, by simp [EditorOp.onZipper]⟩
  | load src =>
    obtain ⟨e, hexec, he⟩ := load_holds h src
    exact ⟨e, by simp [EditorOp.exec, EditorOp.onZipper, hexec], he, by simp [EditorOp.onZipper]⟩
  | clear =>
    refine ⟨s.1.clear, by simp [EditorOp.exec, EditorOp.onZipper], ?_, by simp [EditorOp.onZipper]⟩
    obtain ⟨rest, hbuf, hsize, -⟩ := h
    exact ⟨s.1.buf, rfl, hsize, rfl, rfl, Nat.zero_le _⟩

private theorem killed_length_le (z : Zipper) (op : EditorOp) : (op.onZipper z).2.2.length ≤ z.text.length := by
  have htext : z.text.length = z.before.length + z.after.length := List.length_append
  obtain ⟨spaces, hbefore, -⟩ := z.before_eq
  have hbefore := congrArg List.length hbefore
  simp only [List.length_append] at hbefore
  cases op with
  | killToEnd => simp only [EditorOp.onZipper]; omega
  | killToStart => simp only [EditorOp.onZipper]; omega
  | killPrevWord => simp only [EditorOp.onZipper]; omega
  | _ =>
    simp only [EditorOp.onZipper]
    try split_ifs
    all_goals exact Nat.zero_le _

/-- A failure kills nothing. -/
private theorem killed_of_failure (z : Zipper) (op : EditorOp) (h : (op.onZipper z).2.1 = .flag false) :
    (op.onZipper z).2.2 = [] := by
  cases op with
  | killToEnd => simp [EditorOp.onZipper] at h
  | killToStart => simp [EditorOp.onZipper] at h
  | killPrevWord => simp [EditorOp.onZipper] at h
  | _ =>
    simp only [EditorOp.onZipper]
    try split_ifs <;> rfl

/-- Every operation does to the zipper what its name says, and one that fails changes nothing. -/
theorem EditorOp.exec_zipper {s : LineEditor × Bytes} (h : s.1.Wf) (hring : s.2.length = lineMax) (op : EditorOp) :
    ∃ s', op.exec s = some (s', (op.onZipper s.1.zipper).2.1) ∧ s'.1.Wf ∧ s'.2.length = lineMax ∧
      s'.1.zipper = (op.onZipper s.1.zipper).1 ∧ ((op.onZipper s.1.zipper).2.1 = .flag false → s' = s) := by
  obtain ⟨e, hexec, hholds, hfail⟩ := exec_holds (holds_iff.2 ⟨h, rfl⟩) hring op
  have hkilled := killed_length_le s.1.zipper op
  have htext : s.1.zipper.text.length ≤ lineMax - 1 := by
    obtain ⟨rest, -, -, hlen, -, hle⟩ := holds_iff.2 ⟨h, rfl⟩
    rw [Zipper.text, ← hlen]
    exact hle
  refine ⟨_, hexec, (holds_iff.1 hholds).1, ?_, (holds_iff.1 hholds).2, fun hflag => ?_⟩
  · rw [List.length_append, List.length_drop, hring]
    omega
  · rw [hfail hflag, killed_of_failure _ _ hflag]
    rfl

theorem LineEditor.new_wf : LineEditor.new.Wf := ⟨List.length_replicate .., Nat.le_refl 0, Nat.zero_le _⟩

/-- The zipper after a sequence of operations. -/
def zipperRun (z : Zipper) (ops : List EditorOp) : Zipper := ops.foldl (fun z op => (op.onZipper z).1) z

theorem editorRun_zipper {s : LineEditor × Bytes} (h : s.1.Wf) (hring : s.2.length = lineMax) (ops : List EditorOp) :
    ∃ s', editorRun s ops = some s' ∧ s'.1.Wf ∧ s'.2.length = lineMax ∧ s'.1.zipper = zipperRun s.1.zipper ops := by
  induction ops generalizing s with
  | nil => exact ⟨s, rfl, h, hring, rfl⟩
  | cons op ops ih =>
    obtain ⟨t, hexec, hwf, hlen, hz, -⟩ := EditorOp.exec_zipper h hring op
    obtain ⟨u, hrun, hwf', hlen', hz'⟩ := ih hwf hlen
    refine ⟨u, ?_, hwf', hlen', ?_⟩
    · rw [editorRun, hexec, Option.bind_some, hrun]
    · rw [hz', hz]
      rfl

theorem LineEditor.Wf.asBytes_eq {e : LineEditor} (h : e.Wf) : e.asBytes = e.zipper.text := by
  obtain ⟨rest, hbuf, -, hlen, -⟩ := holds_iff.2 ⟨h, rfl⟩
  rw [LineEditor.asBytes, hlen]
  conv_lhs => rw [hbuf]
  rw [List.take_left, Zipper.text]

theorem LineEditor.Wf.length_asBytes {e : LineEditor} (h : e.Wf) : e.asBytes.length = e.len := by
  have hsize := h.size
  have hle := h.len_le
  rw [LineEditor.asBytes, List.length_take]
  omega

/-! ### Kill and yank -/

/-- The keys that kill. -/
inductive KillKey where
  | ctrlK | ctrlU | ctrlW
  deriving DecidableEq

/-- A kill key: the line, the kill ring and `kill_len` after it. -/
def KillKey.handle (e : LineEditor) (ring : Bytes) : KillKey → Option (LineEditor × Bytes × Nat)
  | .ctrlK => e.killToEnd ring
  | .ctrlU => e.killToStart ring
  | .ctrlW => e.killPrevWord ring

/-- Ctrl+Y -/
def handleCtrlY (e : LineEditor) (ring : Bytes) (killLen : Nat) : Option LineEditor :=
  if 0 < killLen then (e.yank ring killLen).map Prod.fst else some e

/-- The text of the line after a kill and Ctrl+Y. -/
def killAndYank (e : LineEditor) (ring : Bytes) (k : KillKey) : Option Bytes := do
  let r ← k.handle e ring
  let e ← handleCtrlY r.1 r.2.1 r.2.2
  some e.asBytes

private theorem Holds.asBytes {e : LineEditor} {z : Zipper} (h : Holds e z) : e.asBytes = z.text := by
  obtain ⟨hwf, rfl⟩ := holds_iff.1 h
  exact hwf.asBytes_eq

/-- Ctrl+Y puts the text at the start of the ring in front of the cursor. -/
private theorem ctrlY_holds {e : LineEditor} {z : Zipper} (h : Holds e z) (killed rest : Bytes)
    (hroom : z.text.length + killed.length < lineMax) :
    ∃ e', handleCtrlY e (killed ++ rest) killed.length = some e' ∧ e'.asBytes = z.before ++ killed ++ z.after := by
  by_cases h0 : killed.length = 0
  · rw [List.length_eq_zero_iff] at h0
    subst h0
    exact ⟨e, rfl, by rw [h.asBytes, Zipper.text, List.append_nil]⟩
  · obtain ⟨e', hyank, he'⟩ := yank_holds h (show killed.length ≤ (killed ++ rest).length by simp) h0 hroom
    refine ⟨e', ?_, ?_⟩
    · rw [handleCtrlY, if_pos (Nat.pos_of_ne_zero h0), hyank]
      rfl
    · rw [he'.asBytes, List.take_left, Zipper.text]

/-- A kill key always returns, and the ring takes what it kills. -/
theorem KillKey.handle_wf {e : LineEditor} (h : e.Wf) {ring : Bytes} (hring : ring.length = lineMax) (k : KillKey) :
    ∃ e' ring' n, k.handle e ring = some (e', ring', n) ∧ e'.Wf ∧ ring'.length = lineMax ∧ n ≤ lineMax := by
  have hholds : Holds e e.zipper := holds_iff.2 ⟨h, rfl⟩
  obtain ⟨rest, -, -, hlen, -, hle⟩ := hholds
  have hkilled := killed_length_le e.zipper
  rw [← Zipper.text] at hlen
  have hcap : ∀ killed : Bytes, killed.length ≤ e.zipper.text.length →
      (killed ++ ring.drop killed.length).length = lineMax ∧ killed.length ≤ lineMax := by
    intro killed hkill
    rw [List.length_append, List.length_drop, hring]
    omega
  cases k with
  | ctrlK =>
    obtain ⟨e', hkill, he'⟩ := killToEnd_holds (holds_iff.2 ⟨h, rfl⟩) hring
    exact ⟨e', _, _, hkill, (holds_iff.1 he').1, hcap _ (hkilled .killToEnd)⟩
  | ctrlU =>
    obtain ⟨e', hkill, he'⟩ := killToStart_holds (holds_iff.2 ⟨h, rfl⟩) hring
    exact ⟨e', _, _, hkill, (holds_iff.1 he').1, hcap _ (hkilled .killToStart)⟩
  | ctrlW =>
    obtain ⟨e', hkill, he'⟩ := killPrevWord_holds (holds_iff.2 ⟨h, rfl⟩) hring
    exact ⟨e', _, _, hkill, (holds_iff.1 he').1, hcap _ (hkilled .killPrevWord)⟩

/-- Ctrl+Y always returns. -/
theorem handleCtrlY_wf {e : LineEditor} (h : e.Wf) {ring : Bytes} {n : Nat} (hn : n ≤ ring.length) :
    ∃ e', handleCtrlY e ring n = some e' ∧ e'.Wf := by
  have hholds : Holds e e.zipper := holds_iff.2 ⟨h, rfl⟩
  have hlen : e.len = e.zipper.text.length := by rw [← h.length_asBytes, h.asBytes_eq]
  rw [handleCtrlY]
  split
  · next hpos =>
    by_cases hroom : e.zipper.text.length + n < lineMax
    · obtain ⟨e', hyank, he'⟩ := yank_holds hholds hn (Nat.ne_of_gt hpos) hroom
      exact ⟨e', by rw [hyank]; rfl, (holds_iff.1 he').1⟩
    · refine ⟨e, ?_, h⟩
      rw [LineEditor.yank, if_neg (Nat.ne_of_gt hpos), if_pos (by omega)]
      rfl
  · exact ⟨e, rfl, h⟩

/-- A line is always loaded, with the cursor at its end. -/
theorem LineEditor.Wf.load_eq {e : LineEditor} (h : e.Wf) (src : Bytes) :
    ∃ e', e.load src = some e' ∧ e'.Wf ∧ e'.zipper = ⟨src.take (lineMax - 1), []⟩ := by
  obtain ⟨e', hload, he'⟩ := load_holds (holds_iff.2 ⟨h, rfl⟩) src
  exact ⟨e', hload, holds_iff.1 he'⟩

/-- The line of another editor is loaded as it is. -/
theorem LineEditor.Wf.load_asBytes {e f : LineEditor} (h : e.Wf) (hf : f.Wf) :
    ∃ e', e.load f.asBytes = some e' ∧ e'.Wf ∧ e'.asBytes = f.asBytes := by
  obtain ⟨e', hload, hwf, hz⟩ := h.load_eq f.asBytes
  refine ⟨e', hload, hwf, ?_⟩
  rw [hwf.asBytes_eq, hz, Zipper.text, List.append_nil]
  exact List.take_of_length_le (by rw [hf.length_asBytes]; exact hf.len_le)

theorem LineEditor.Wf.clear {e : LineEditor} (h : e.Wf) : e.clear.Wf := ⟨h.size, Nat.le_refl 0, Nat.zero_le _⟩

/-- What a kill and Ctrl+Y leave: only Ctrl+W loses something, the spaces before the cursor. -/
private theorem killAndYank_eq {e : LineEditor} {z : Zipper} (h : Holds e z) {ring : Bytes} (hring : ring.length = lineMax)
    (k : KillKey) : killAndYank e ring k = some (if k = .ctrlW then z.stem ++ z.word ++ z.after else z.text) := by
  have hfull : z.before.length + z.after.length < lineMax := by
    obtain ⟨rest, -, -, hlen, -, hle⟩ := h
    rw [hlen, List.length_append] at hle
    simp only [lineMax] at hle ⊢
    omega
  cases k with
  | ctrlK =>
    obtain ⟨e', hkill, he'⟩ := killToEnd_holds h hring
    obtain ⟨e'', hyank, htext⟩ := ctrlY_holds he' z.after (ring.drop z.after.length)
      (by simpa [Zipper.text] using hfull)
    simp [killAndYank, KillKey.handle, hkill, hyank, htext, Zipper.text]
  | ctrlU =>
    obtain ⟨e', hkill, he'⟩ := killToStart_holds h hring
    obtain ⟨e'', hyank, htext⟩ := ctrlY_holds he' z.before (ring.drop z.before.length)
      (by simpa [Zipper.text, Nat.add_comm] using hfull)
    simp [killAndYank, KillKey.handle, hkill, hyank, htext, Zipper.text]
  | ctrlW =>
    obtain ⟨spaces, hbefore, -⟩ := z.before_eq
    have hlen := congrArg List.length hbefore
    simp only [List.length_append] at hlen
    obtain ⟨e', hkill, he'⟩ := killPrevWord_holds h hring
    obtain ⟨e'', hyank, htext⟩ := ctrlY_holds he' z.word (ring.drop z.word.length)
      (by rw [Zipper.text, List.length_append]; simp only; omega)
    simp [killAndYank, KillKey.handle, hkill, hyank, htext]

/-- Nothing is lost by Ctrl+W exactly if no space stands right before the cursor. -/
private theorem stem_word_iff (z : Zipper) :
    z.stem ++ z.word ++ z.after = z.text ↔ z.before.getLast? ≠ some space := by
  obtain ⟨spaces, -, htrim⟩ := z.before_eq
  rw [Zipper.text, List.append_left_inj, ← htrim, List.rdropWhile_eq_self_iff]
  constructor
  · intro h hlast
    obtain ⟨before, hbefore⟩ := List.getLast?_eq_some_iff.1 hlast
    exact h (by simp [hbefore]) (by simp [hbefore])
  · intro h hne hx
    exact h (by rw [List.getLast?_eq_some_getLast hne, eq_of_beq hx])

/-- After any sequence of operations the cursor lies in the line and the line in the buffer, the buffer is the zipper that
the operations build, and so is what any further operation leaves; a kill followed by Ctrl+Y restores the text exactly if
it is not Ctrl+W behind a space. -/
theorem editor_run_iff (ops : List EditorOp) :
    ∃ s, editorRun (.new, List.replicate lineMax 0) ops = some s ∧ s.1.zipper = zipperRun ⟨[], []⟩ ops ∧
      s.1.cursor ≤ s.1.len ∧ s.1.len ≤ 255 ∧
      (∀ op : EditorOp, ∃ s', op.exec s = some (s', (op.onZipper s.1.zipper).2.1) ∧
        s'.1.zipper = (op.onZipper s.1.zipper).1 ∧ ((op.onZipper s.1.zipper).2.1 = .flag false → s' = s)) ∧
      ∀ k, ∃ text, killAndYank s.1 s.2 k = some text ∧
        (text = s.1.asBytes ↔ ¬(k = .ctrlW ∧ s.1.zipper.before.getLast? = some space)) := by
  obtain ⟨s, hrun, hwf, hring, hz⟩ :=
    editorRun_zipper (s := (.new, List.replicate lineMax 0)) LineEditor.new_wf (List.length_replicate ..) ops
  refine ⟨s, hrun, hz, hwf.cursor_le, hwf.len_le, fun op => ?_, fun k => ?_⟩
  · obtain ⟨s', hexec, -, -, hz', hfail⟩ := EditorOp.exec_zipper hwf hring op
    exact ⟨s', hexec, hz', hfail⟩
  · have hholds : Holds s.1 s.1.zipper := holds_iff.2 ⟨hwf, rfl⟩
    refine ⟨_, killAndYank_eq hholds hring k, ?_⟩
    rw [hholds.asBytes]
    by_cases hk : k = .ctrlW
    · rw [if_pos hk, stem_word_iff]
      simp [hk]
    · rw [if_neg hk]
      simp [hk]

/-- `a` and a space, Ctrl+W and Ctrl+Y: the space is gone. -/
theorem ctrlW_loses_space :
    ((editorRun (.new, List.replicate lineMax 0) [.insert 0x61, .insert space]).bind fun s =>
      (killAndYank s.1 s.2 .ctrlW).map fun text => (text, s.1.asBytes)) = some ([0x61], [0x61, space]) := by
  decide +kernel

end Rost.Shell
