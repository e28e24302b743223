import Rost.Shell.Words

/-!
# Commands

`dispatch_single` binds a variable or expands an alias and runs the command.  The commands change the variables, the
aliases and, through an action, the directory; what the other processes answer is the `Outside`.  Scripts run their lines
through `execute_line` again, so that the dispatcher is given how deep they may be nested.
-/

namespace Rost.Shell

open Vfs (Bytes ascii)

/-! ### The other processes -/

/-- What comes of a read request: an answer of the VFS, or none that `cmd_source` can use. -/
inductive ReadReply where
  | data (total : Nat) (bytes : Bytes)
  | done
  | error
  | other

structure Outside (ω : Type) where
  /-- The effect of a command that returns 0 in any case; it knows the directory, the aliases and its words. -/
  exchange : ω → Bytes → AliasStore → List Bytes → ω
  /-- The effect of a command that can fail, and whether it succeeded. -/
  attempt : ω → Bytes → List Bytes → ω × Bool
  /-- The flags of a file, if there is one. -/
  stat : ω → Bytes → ω × Option Word
  read : ω → Bytes → Nat → ω × ReadReply

variable {ω : Type}

/-! ### Commands on the stores -/

def cmdAlias (args : List Bytes) (aliases : AliasStore) : AliasStore :=
  match splitAtEquals (arg args 1) with
  | none => aliases
  | some (name, val) => (aliases.set name ((unquote squote val).getD ((unquote dquote val).getD val))).1

def cmdExport (args : List Bytes) (vars : VarStore) : VarStore :=
  if arg args 1 = [] then vars
  else
    match splitAtEquals (arg args 1) with
    | some (name, val) => (vars.set name val).1
    | none => if vars.get (arg args 1) = none then (vars.set (arg args 1) []).1 else vars

def cmdUnset (args : List Bytes) (vars : VarStore) : VarStore :=
  if arg args 1 = [] then vars else vars.remove (arg args 1)

def cmdUnalias (args : List Bytes) (aliases : AliasStore) : AliasStore :=
  if arg args 1 = [] then aliases else aliases.remove (arg args 1)

/-- `cmd_cd`: the new directory. -/
def cmdCd (args : List Bytes) (cwd : Bytes) : Bytes :=
  if arg args 1 = [] ∨ arg args 1 = [tilde] then ascii "/home/user" else resolve cwd (arg args 1)

/-! ### Tests -/

/-- The status of a test. -/
def verdict (holds : Bool) : Nat := if holds then 0 else 1

def cmpNum (f : Nat → Nat → Bool) (a b : Bytes) : Nat := verdict (f (parseUint a) (parseUint b))

/-- `test A op B` -/
def compare (lhs op rhs : Bytes) : Nat :=
  if op = ascii "=" ∨ op = ascii "==" then verdict (lhs == rhs)
  else if op = ascii "!=" then verdict (lhs != rhs)
  else if op = ascii "-eq" then cmpNum (fun a b => a == b) lhs rhs
  else if op = ascii "-ne" then cmpNum (fun a b => a != b) lhs rhs
  else if op = ascii "-lt" then cmpNum (fun a b => decide (a < b)) lhs rhs
  else if op = ascii "-le" then cmpNum (fun a b => decide (a ≤ b)) lhs rhs
  else if op = ascii "-gt" then cmpNum (fun a b => decide (b < a)) lhs rhs
  else if op = ascii "-ge" then cmpNum (fun a b => decide (b ≤ a)) lhs rhs
  else 1

def evalTest (out : Outside ω) (world : ω) (cwd : Bytes) (args : List Bytes) : ω × Nat :=
  if args.length = 3 ∧ (arg args 1).head? = some 0x2D then
    let path := pathAsWords (resolve cwd (arg args 2))
    if arg args 1 = ascii "-f" then
      ((out.stat world path).1, verdict (out.stat world path).2.isSome)
    else if arg args 1 = ascii "-d" then
      ((out.stat world path).1, verdict ((out.stat world path).2.any fun flags => flags &&& 1 != 0))
    else if arg args 1 = ascii "-z" then (world, verdict (arg args 2).isEmpty)
    else if arg args 1 = ascii "-n" then (world, verdict (!(arg args 2).isEmpty))
    else (world, 1)
  else if args.length = 4 then (world, compare (arg args 1) (arg args 2) (arg args 3))
  else (world, 1)

/-- `cmd_test_bracket`: a closing bracket at the end does not count. -/
def withoutBracket (args : List Bytes) : List Bytes :=
  if args.getLast? = some (ascii "]") then args.dropLast else args

/-! ### Scripts -/

def bufCap : Nat := 2048

/-- The read loop of `cmd_source`; every turn reads at least one byte, so that `bufCap` turns fill the buffer. -/
def readLoop (out : Outside ω) (path : Bytes) : Nat → ω → Option Nat → Nat → Bytes → ω × Option Bytes
  | 0, world, _, _, buf => (world, some buf)
  | n + 1, world, total, offset, buf =>
    match out.read world path offset with
    | (world, .data announced chunk) =>
      let total := total.getD announced
      if chunk = [] then (world, some buf)
      else
        let buf := buf ++ chunk.take (bufCap - buf.length)
        if bufCap ≤ buf.length ∨ total ≤ offset + chunk.length then (world, some buf)
        else readLoop out path n world (some total) (offset + chunk.length) buf
    | (world, .error) => (world, none)
    | (world, _) => (world, some buf)

def readScript (out : Outside ω) (path : Bytes) (world : ω) : ω × Option Bytes :=
  readLoop out path bufCap world none 0 []

def isNewline (b : Byte) : Bool := b == 0x0A || b == 0x0D

/-- The lines of a script that are executed: blanks around them, empty lines and comments are left out. -/
def scriptLines (script : Bytes) : List Bytes :=
  ((script.splitOnP isNewline).map trim).filter fun line => line != [] && line.head? != some 0x23

/-- What the shell takes over from the context in which a line has been executed: the stores are borrowed by it. -/
def Ctx.absorb (ctx sub : Ctx ω) : Ctx ω :=
  { ctx with vars := sub.vars, aliases := sub.aliases, world := sub.world }

/-- The loop of `cmd_source` over the lines. -/
def runLines (d : Dispatcher ω) (ctx : Ctx ω) (lastExit : Nat) : List Bytes → Option (Ctx ω × Action × Nat)
  | [] => some (ctx, .cont, lastExit)
  | line :: rest =>
    match executeLine d line { ctx with lastExit := lastExit } with
    | none => none
    | some (sub, .cont, code) => runLines d (ctx.absorb sub) code rest
    | some (sub, action, code) => some (ctx.absorb sub, action, code)

def cmdSource (out : Outside ω) (d : Dispatcher ω) (ctx : Ctx ω) (args : List Bytes) : Option (Ctx ω × Action × Nat) :=
  if arg args 1 = [] then some (ctx, .cont, 1)
  else
    match readScript out (pathAsWords (resolve ctx.cwd (arg args 1))) ctx.world with
    | (world, none) => some ({ ctx with world := world }, .cont, 1)
    | (world, some script) => runLines d { ctx with world := world } 0 (scriptLines script)

/-! ### Dispatch -/

inductive Builtin where
  | alias
  | cd
  | exit
  | export
  | halt
  | source
  | test
  | bracket
  | unalias
  | unset
  | write
  /-- `true` and `false` -/
  | status (code : Nat)
  /-- Prints what the shell or the kernel knows. -/
  | prints
  /-- Talks with another process and returns 0. -/
  | exchanges
  /-- Needs a word, and may fail. -/
  | attempts

def builtins : List (String × Builtin) :=
  [("alias", .alias), ("cat", .exchanges), ("cd", .cd), ("clear", .prints), ("date", .prints), ("echo", .prints),
    ("env", .prints), ("exec", .exchanges), ("exit", .exit), ("export", .export), ("false", .status 1), ("halt", .halt),
    ("help", .prints), ("history", .prints), ("kill", .attempts), ("log", .prints), ("ls", .exchanges),
    ("mem", .prints), ("mkdir", .attempts), ("mount", .exchanges), ("ping", .exchanges), ("ps", .prints),
    ("pwd", .prints), ("rm", .attempts), ("set", .prints), ("sleep", .exchanges), ("source", .source), (".", .source),
    ("touch", .attempts), ("true", .status 0), ("type", .prints), ("unalias", .unalias), ("unset", .unset),
    ("uptime", .prints), ("which", .exchanges), ("write", .write), ("[", .bracket), ("test", .test)]

def builtin? (name : Bytes) : Option Builtin := (builtins.find? fun e => ascii e.1 == name).map Prod.snd

/-- `dispatch`; `source` is how a script is run. -/
def dispatch (out : Outside ω) (source : Ctx ω → List Bytes → Option (Ctx ω × Action × Nat)) (ctx : Ctx ω)
    (line : Bytes) : Option (Ctx ω × Action × Nat) :=
  let args := tokenize line
  let attempt := fun ready : Bool =>
    if ready then
      let r := out.attempt ctx.world ctx.cwd args
      some ({ ctx with world := r.1 }, Action.cont, verdict r.2)
    else some (ctx, .cont, 1)
  if arg args 0 = [] then some (ctx, .cont, 0)
  else
    match builtin? (arg args 0) with
    | none => some (ctx, .cont, 127)
    | some .alias => some ({ ctx with aliases := cmdAlias args ctx.aliases }, .cont, 0)
    | some .cd => some (ctx, .cd (cmdCd args ctx.cwd), 0)
    | some .exit => some (ctx, .exit (parseUint (arg args 1)), 0)
    | some .export => some ({ ctx with vars := cmdExport args ctx.vars }, .cont, 0)
    | some .halt => some (ctx, .exit 0, 0)
    | some .source => source ctx args
    | some .test =>
      let r := evalTest out ctx.world ctx.cwd args
      some ({ ctx with world := r.1 }, .cont, r.2)
    | some .bracket =>
      let r := evalTest out ctx.world ctx.cwd (withoutBracket args)
      some ({ ctx with world := r.1 }, .cont, r.2)
    | some .unalias => some ({ ctx with aliases := cmdUnalias args ctx.aliases }, .cont, 0)
    | some .unset => some ({ ctx with vars := cmdUnset args ctx.vars }, .cont, 0)
    | some .write => attempt (decide (2 ≤ args.length))
    | some (.status code) => some (ctx, .cont, code)
    | some .prints => some (ctx, .cont, 0)
    | some .exchanges => some ({ ctx with world := out.exchange ctx.world ctx.cwd ctx.aliases args }, .cont, 0)
    | some .attempts => attempt (arg args 1 != [])

/-- The line in which an alias has been expanded once. -/
def expandAlias (aliases : AliasStore) (line : Bytes) : Bytes :=
  match aliases.get (arg (tokenize line) 0) with
  | none => line
  | some repl =>
    let repl := repl.take (lineMax - 1)
    let rest := skipFirstToken line
    if rest ≠ [] ∧ repl.length + 1 + rest.length < lineMax then repl ++ space :: rest else repl

/-- `dispatch_single` -/
def dispatchSingle (out : Outside ω) (source : Ctx ω → List Bytes → Option (Ctx ω × Action × Nat)) : Dispatcher ω :=
  fun ctx s =>
    if s.bytes = [] then some (ctx, .cont, 0)
    else
      match findAssignment s.bytes with
      | some (name, val) => some ({ ctx with vars := (ctx.vars.set name val).1 }, .cont, 0)
      | none =>
        if arg (tokenize s.bytes) 0 = [] then some (ctx, .cont, 0)
        else dispatch out source ctx (expandAlias ctx.aliases s.bytes)

/-- The dispatcher of the shell, for scripts nested less than `depth` times. -/
def shellDispatch (out : Outside ω) : (depth : Nat) → Dispatcher ω
  | 0 => dispatchSingle out fun _ _ => none
  | depth + 1 => dispatchSingle out (cmdSource out (shellDispatch out depth))

end Rost.Shell
