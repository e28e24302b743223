import Rost.Shell.Expand

/-!
# Compound lines

`execute_line` expands a line, splits it at the operators `;`, `&&` and `||` outside quotes, and runs the parts one after
the other.  What a part does is a parameter, the dispatcher.  The splitter keeps at most seven parts that end at an
operator, and the one after the last operator.
-/

namespace Rost.Shell

open Vfs (Bytes ascii)

/-! ### Parts of a line -/

/-- A slice of the line: where it starts, and its bytes. -/
structure Slice where
  start : Nat
  bytes : Bytes
deriving DecidableEq

inductive Joiner where
  | seq
  | and
  | or
deriving DecidableEq

structure CompoundPart where
  cmd : Slice
  joiner : Joiner
deriving DecidableEq

def semicolon : Byte := 0x3B
def ampersand : Byte := 0x26
def bar : Byte := 0x7C

def isBlank (b : Byte) : Bool := b == 0x20 || b == 0x09

def trim (s : Bytes) : Bytes := ((s.dropWhile isBlank).reverse.dropWhile isBlank).reverse

def Slice.trim (s : Slice) : Slice := ⟨s.start + (s.bytes.takeWhile isBlank).length, Shell.trim s.bytes⟩

/-- The number of bytes of an operator. -/
def Joiner.width : Joiner → Nat
  | .seq => 1
  | .and | .or => 2

/-- The operator that starts at `b`, when `rest` follows. -/
def joinerAt (b : Byte) (rest : Bytes) : Option Joiner :=
  if b = semicolon then some .seq
  else if b = ampersand ∧ rest.head? = some ampersand then some .and
  else if b = bar ∧ rest.head? = some bar then some .or
  else none

/-- A part that ends at an operator is kept while fewer than seven are. -/
def pushPart (out : List CompoundPart) (part : CompoundPart) : List CompoundPart :=
  if out.length < 7 then out ++ [part] else out

/-- The loop of `split_compound`: `q` is the open quote, `skip` counts the bytes of an operator that are still to be
passed, and `seg` is what has been read since `start`. -/
def splitLoop (q : Option Byte) (skip start : Nat) (seg : Bytes) (out : List CompoundPart) :
    Bytes → List CompoundPart × Slice
  | [] => (out, ⟨start, seg⟩)
  | b :: rest =>
    if 0 < skip then splitLoop q (skip - 1) start seg out rest
    else
      match q with
      | some qch => splitLoop (if b = qch then none else q) 0 start (seg ++ [b]) out rest
      | none =>
        if b = dquote ∨ b = squote then splitLoop (some b) 0 start (seg ++ [b]) out rest
        else
          match joinerAt b rest with
          | some j =>
            splitLoop none (j.width - 1) (start + seg.length + j.width) [] (pushPart out ⟨⟨start, seg⟩, j⟩) rest
          | none => splitLoop none 0 start (seg ++ [b]) out rest

/-- `split_compound` -/
def splitCompound (line : Bytes) : List CompoundPart :=
  match splitLoop none 0 0 [] [] line with
  | (out, last) => if last.trim.bytes = [] then out else if out.length < 8 then out ++ [⟨last.trim, .seq⟩] else out

/-! ### Execution -/

/-- The shell state a command works on; `world` is what the other processes keep. -/
structure Ctx (ω : Type) where
  history : History
  vars : VarStore
  aliases : AliasStore
  cwd : Bytes
  pid : Nat
  lastExit : Nat
  world : ω

/-- The state with which the shell starts, `Shell::new`. -/
def Ctx.start {ω : Type} (pid : Nat) (world : ω) : Ctx ω :=
  { history := History.new
    vars := VarStore.initDefaults
    aliases := AliasStore.initDefaults
    cwd := ascii "/"
    pid := pid
    lastExit := 0
    world := world }

/-- `Action`; `cont` is `Continue`. -/
inductive Action where
  | cont
  | exit (code : Nat)
  | cd (path : Bytes)
deriving DecidableEq

/-- What a command does: the new state, what the shell has to do, and the exit status; `none` when it does not return. -/
abbrev Dispatcher (ω : Type) := Ctx ω → Slice → Option (Ctx ω × Action × Nat)

/-- The part after an operator is skipped at this status. -/
def stops (j : Joiner) (code : Nat) : Bool :=
  match j with
  | .seq => false
  | .and => code != 0
  | .or => code == 0

/-- The action of the line, after one more part. -/
def Action.after (final : Action) : Action → Action
  | .cd path => .cd path
  | _ => final

/-- The variables of the loop in `execute_line`. -/
structure Progress (ω : Type) where
  ctx : Ctx ω
  exitCode : Nat
  finalAction : Action
  skip : Bool
  skipReason : Joiner

variable {ω : Type}

/-- The loop of `execute_line` over the parts. -/
def executeParts (d : Dispatcher ω) (p : Progress ω) : List CompoundPart → Option (Ctx ω × Action × Nat)
  | [] => some (p.ctx, p.finalAction, p.exitCode)
  | part :: rest =>
    if p.skip && stops p.skipReason p.exitCode then executeParts d p rest
    else
      match d p.ctx part.cmd.trim with
      | none => none
      | some (ctx, .exit c, code) => some ({ ctx with lastExit := code }, .exit c, code)
      | some (ctx, action, code) =>
        executeParts d
          { ctx := { ctx with lastExit := code }
            exitCode := code
            finalAction := p.finalAction.after action
            skip := stops part.joiner code
            skipReason := if stops part.joiner code then part.joiner else p.skipReason } rest

/-- `execute_line` -/
def executeLine (d : Dispatcher ω) (raw : Bytes) (ctx : Ctx ω) : Option (Ctx ω × Action × Nat) :=
  let line := (expandHistory raw ctx.history).getD raw
  let line := expandVars line ctx.vars ctx.pid ctx.lastExit
  executeParts d ⟨ctx, ctx.lastExit, .cont, false, .seq⟩ (splitCompound line)

end Rost.Shell
