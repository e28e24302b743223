import Rost.Shell.Vars

/-!
# Expansions

A line is expanded twice before it is split: references to the history, then variables and the tilde.  Each output is cut
to 255 bytes.  A line without `!` refers to nothing in the history, and one without `$` and without a tilde at the start
of a word is only cut (`expandHistory_of_plain`, `expandVars_of_plain`).
-/

namespace Rost.Shell

open Vfs (Bytes ascii)

/-! ### Characters -/

def bang : Byte := 0x21
def dquote : Byte := 0x22
def dollar : Byte := 0x24
def squote : Byte := 0x27
def space : Byte := 0x20
def tilde : Byte := 0x7E

def isDigit (b : Byte) : Bool := decide (0x30 ≤ b.toNat) && decide (b.toNat ≤ 0x39)

def isIdChar (b : Byte) : Bool :=
  (decide (0x61 ≤ b.toNat) && decide (b.toNat ≤ 0x7A)) || (decide (0x41 ≤ b.toNat) && decide (b.toNat ≤ 0x5A)) ||
    isDigit b || b == 0x5F

/-- `parse_uint`: the value of the leading digits, at most `u64::MAX`. -/
def parseUint (s : Bytes) : Nat :=
  (s.takeWhile isDigit).foldl (fun n b => min (min (n * 10) u64Max + (b.toNat - 0x30)) u64Max) 0

/-- `emit_u64` -/
def decimal (n : Nat) : Bytes := (Nat.toDigits 10 n).map fun c => BitVec.ofNat 8 c.toNat

/-! ### History -/

/-- What a reference that starts after the `!` stands for, whether it was found, and how many bytes it takes. -/
def historyRef (h : History) (rest : Bytes) : Bytes × Bool × Nat :=
  match rest with
  | [] => ([bang], false, 0)
  | c :: tail =>
    if c = bang then
      match h.get 0 with
      | some e => (e, true, 1)
      | none => ([bang, bang], false, 1)
    -- !-n
    else if c = 0x2D then
      let digits := tail.takeWhile isDigit
      let n := parseUint digits
      match if 0 < n then h.get (n - 1) else none with
      | some e => (e, true, 1 + digits.length)
      | none => ([], false, 1 + digits.length)
    else if isDigit c then
      let digits := rest.takeWhile isDigit
      let n := parseUint digits
      match if 0 < n ∧ n ≤ h.count then h.get (h.count - n) else none with
      | some e => (e, true, digits.length)
      | none => ([], false, digits.length)
    else
      let pre := rest.takeWhile fun b => b != space && b != 0x3B
      match (List.range h.count).findSome? fun age => (h.get age).filter fun e => pre.isPrefixOf e with
      | some e => (e, true, pre.length)
      | none => (bang :: pre, false, pre.length)

/-- The loop of `expand_history`; the first `skip` bytes belong to a reference that has been replaced. -/
def historyLoop (h : History) : Nat → Bytes → Bytes × Bool
  | _, [] => ([], false)
  | skip, b :: rest =>
    if 0 < skip then historyLoop h (skip - 1) rest
    else if b ≠ bang then (b :: (historyLoop h 0 rest).1, (historyLoop h 0 rest).2)
    else
      match historyRef h rest with
      | (text, found, n) => (text ++ (historyLoop h n rest).1, found || (historyLoop h n rest).2)

/-- The expanded line, if anything was expanded. -/
def expandHistory (input : Bytes) (h : History) : Option Bytes :=
  let out := (historyLoop h 0 input).1.take (lineMax - 1)
  if (historyLoop h 0 input).2 && !out.isEmpty then some out else none

private theorem historyLoop_of_plain {h : History} {input : Bytes} (hplain : bang ∉ input) :
    historyLoop h 0 input = (input, false) := by
  induction input with
  | nil => rfl
  | cons b rest ih =>
    rw [List.mem_cons, not_or] at hplain
    obtain ⟨hb, hrest⟩ := hplain
    unfold historyLoop
    rw [if_neg (by decide), if_pos (Ne.symm hb), ih hrest]

/-- A line without `!` is not expanded. -/
theorem expandHistory_of_plain {input : Bytes} (h : History) (hplain : bang ∉ input) : expandHistory input h = none := by
  unfold expandHistory
  rw [historyLoop_of_plain hplain]
  rfl

/-! ### Variables -/

/-- What stands for `$` followed by `rest`, and how many bytes of `rest` it takes. -/
def dollarRef (vars : VarStore) (pid lastExit : Nat) (rest : Bytes) : Bytes × Nat :=
  match rest with
  | [] => ([], 0)
  | c :: tail =>
    if c = dollar then (decimal pid, 1)
    -- $?
    else if c = 0x3F then (decimal lastExit, 1)
    -- $0
    else if c = 0x30 then (ascii "rost-shell", 1)
    -- ${name}; the closing brace may be missing
    else if c = 0x7B then
      let name := tail.takeWhile fun b => b != 0x7D
      ((vars.get name).getD [], 1 + name.length + if name.length < tail.length then 1 else 0)
    else if isIdChar c then
      let name := rest.takeWhile isIdChar
      ((vars.get name).getD [], name.length)
    else ([dollar], 0)

/-- The loop of `expand_vars`; `prev` is the byte before, and the first `skip` bytes have been replaced. -/
def varLoop (vars : VarStore) (pid lastExit : Nat) : Option Byte → Nat → Bytes → Bytes
  | _, _, [] => []
  | prev, skip, b :: rest =>
    if 0 < skip then varLoop vars pid lastExit (some b) (skip - 1) rest
    else if b = tilde ∧ (prev = none ∨ prev = some space) then
      (vars.get (ascii "HOME")).getD (ascii "/home/user") ++ varLoop vars pid lastExit (some b) 0 rest
    else if b ≠ dollar then b :: varLoop vars pid lastExit (some b) 0 rest
    else
      (dollarRef vars pid lastExit rest).1 ++ varLoop vars pid lastExit (some b) (dollarRef vars pid lastExit rest).2 rest

def expandVars (input : Bytes) (vars : VarStore) (pid lastExit : Nat) : Bytes :=
  (varLoop vars pid lastExit none 0 input).take (lineMax - 1)

/-- No tilde stands at the start of a word. -/
def noTilde : Option Byte → Bytes → Bool
  | _, [] => true
  | prev, b :: rest => !decide (b = tilde ∧ (prev = none ∨ prev = some space)) && noTilde (some b) rest

private theorem varLoop_of_plain (vars : VarStore) (pid lastExit : Nat) {prev : Option Byte} {input : Bytes}
    (hdollar : dollar ∉ input) (htilde : noTilde prev input = true) :
    varLoop vars pid lastExit prev 0 input = input := by
  induction input generalizing prev with
  | nil => rfl
  | cons b rest ih =>
    rw [List.mem_cons, not_or] at hdollar
    obtain ⟨hb, hrest⟩ := hdollar
    unfold noTilde at htilde
    obtain ⟨hword, htilde⟩ := Bool.and_eq_true_iff.1 htilde
    have hword : ¬ (b = tilde ∧ (prev = none ∨ prev = some space)) := by
      exact of_decide_eq_false (Bool.not_eq_true' _ ▸ hword)
    unfold varLoop
    rw [if_neg (by decide), if_neg hword, if_pos (Ne.symm hb), ih hrest htilde]

/-- A line without `$` and without a tilde at the start of a word is only cut. -/
theorem expandVars_of_plain (vars : VarStore) (pid lastExit : Nat) {input : Bytes} (hdollar : dollar ∉ input)
    (htilde : noTilde none input = true) : expandVars input vars pid lastExit = input.take (lineMax - 1) := by
  unfold expandVars
  rw [varLoop_of_plain vars pid lastExit hdollar htilde]

/-- Neither of the expansions finds anything in the line. -/
def ExpansionFree (line : Bytes) : Prop := bang ∉ line ∧ dollar ∉ line ∧ noTilde none line = true

instance (line : Bytes) : Decidable (ExpansionFree line) := inferInstanceAs (Decidable (_ ∧ _))

private theorem noTilde_append {prev : Option Byte} {a b : Bytes} (ha : noTilde prev a = true)
    (hb : noTilde none b = true) : noTilde prev (a ++ b) = true := by
  induction a generalizing prev with
  | nil =>
    cases b with
    | nil => rfl
    | cons c b =>
      unfold noTilde at hb
      rw [List.nil_append]
      unfold noTilde
      obtain ⟨hword, hrest⟩ := Bool.and_eq_true_iff.1 hb
      have hc : c ≠ tilde := by
        intro heq
        rw [Bool.not_eq_true', decide_eq_false_iff_not] at hword
        exact hword ⟨heq, Or.inl rfl⟩
      rw [hrest, Bool.and_true, Bool.not_eq_true', decide_eq_false_iff_not]
      rintro ⟨heq, -⟩
      exact hc heq
  | cons c a ih =>
    unfold noTilde at ha
    obtain ⟨hword, hrest⟩ := Bool.and_eq_true_iff.1 ha
    rw [List.cons_append]
    unfold noTilde
    rw [hword, ih hrest]
    rfl

/-- Nothing is found in a line that is put together from two in which nothing is found. -/
theorem ExpansionFree.append {a b : Bytes} (ha : ExpansionFree a) (hb : ExpansionFree b) : ExpansionFree (a ++ b) := by
  obtain ⟨hbang, hdollar, htilde⟩ := ha
  obtain ⟨hbang', hdollar', htilde'⟩ := hb
  refine ⟨?_, ?_, noTilde_append htilde htilde'⟩
  · rw [List.mem_append, not_or]
    exact ⟨hbang, hbang'⟩
  · rw [List.mem_append, not_or]
    exact ⟨hdollar, hdollar'⟩

/-- Such a line is handed on as it is. -/
theorem expansions_of_free {line : Bytes} (hfree : ExpansionFree line) (hlen : line.length < lineMax) (h : History)
    (vars : VarStore) (pid lastExit : Nat) : expandVars ((expandHistory line h).getD line) vars pid lastExit = line := by
  obtain ⟨hbang, hdollar, htilde⟩ := hfree
  rw [expandHistory_of_plain h hbang, Option.getD_none, expandVars_of_plain vars pid lastExit hdollar htilde]
  exact List.take_of_length_le (Nat.le_sub_one_of_lt hlen)

end Rost.Shell
