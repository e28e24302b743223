import Rost.Lib.Calls
import Rost.Shell.Script

/-!
# Nested scripts

`execute_line` and `cmd_source` call each other, as the files say.  Here a line and a script are computations that call
`cmd_source` (`lineCalls`, `sourceCalls`); they do what `execute_line` does with scripts nested at most `depth` deep
(`executeLine_eq_run`).  A line returns exactly if at most `depth` scripts are ever open (`returns_iff_open`), and exactly
if the calls of `cmd_source` have levels that go down from a script to those that it sources (`nesting_iff`).  Nothing
gives them levels: a script that sources itself never ends.
-/

namespace Rost.Shell

open Lib (Calling)
open Lib.Calling (Step Meets Descends within)
open Relation (ReflTransGen)
open Vfs (Bytes ascii)

/-- A line or a script, which calls `cmd_source` with a context and the words of the command. -/
abbrev Sourcing (ω : Type) := Calling (Ctx ω × List Bytes) (Ctx ω × Action × Nat)

variable {ω : Type}

/-- A command calls `cmd_source`, or it does what it does in any case. -/
def commandCalls (out : Outside ω) (ctx : Ctx ω) (s : Slice) : Sourcing ω :=
  match dispatchSingle out (fun _ _ => none) ctx s with
  | some r => .ret r
  | none => .call (ctx, tokenize (expandAlias ctx.aliases s.bytes)) .ret

/-- The parts of a line. -/
def partsCalls (out : Outside ω) (p : Progress ω) : List CompoundPart → Sourcing ω
  | [] => .ret (p.ctx, p.finalAction, p.exitCode)
  | part :: rest =>
    if p.skip && stops p.skipReason p.exitCode then partsCalls out p rest
    else
      (commandCalls out p.ctx part.cmd.trim).bind fun
        | (ctx, .exit c, code) => .ret ({ ctx with lastExit := code }, .exit c, code)
        | (ctx, action, code) =>
          partsCalls out
            { ctx := { ctx with lastExit := code }
              exitCode := code
              finalAction := p.finalAction.after action
              skip := stops part.joiner code
              skipReason := if stops part.joiner code then part.joiner else p.skipReason } rest

/-- A line. -/
def lineCalls (out : Outside ω) (raw : Bytes) (ctx : Ctx ω) : Sourcing ω :=
  let line := (expandHistory raw ctx.history).getD raw
  let line := expandVars line ctx.vars ctx.pid ctx.lastExit
  partsCalls out ⟨ctx, ctx.lastExit, .cont, false, .seq⟩ (splitCompound line)

/-- The lines of a script. -/
def linesCalls (out : Outside ω) (ctx : Ctx ω) (lastExit : Nat) : List Bytes → Sourcing ω
  | [] => .ret (ctx, .cont, lastExit)
  | line :: rest =>
    (lineCalls out line { ctx with lastExit := lastExit }).bind fun
      | (sub, .cont, code) => linesCalls out (ctx.absorb sub) code rest
      | (sub, action, code) => .ret (ctx.absorb sub, action, code)

/-- What a call of `cmd_source` does. -/
def sourceCalls (out : Outside ω) (call : Ctx ω × List Bytes) : Sourcing ω :=
  if arg call.2 1 = [] then .ret (call.1, .cont, 1)
  else
    match readScript out (pathAsWords (resolve call.1.cwd (arg call.2 1))) call.1.world with
    | (world, none) => .ret ({ call.1 with world := world }, .cont, 1)
    | (world, some script) => linesCalls out { call.1 with world := world } 0 (scriptLines script)

/-! ### Lines and scripts do what these computations do -/

/-- A command that does nothing without `cmd_source` calls it, with the words of the line. -/
theorem dispatchSingle_of_none {out : Outside ω} {ctx : Ctx ω} {s : Slice}
    (h : dispatchSingle out (fun _ _ => none) ctx s = none)
    (source : Ctx ω → List Bytes → Option (Ctx ω × Action × Nat)) :
    dispatchSingle out source ctx s = source ctx (tokenize (expandAlias ctx.aliases s.bytes)) := by
  rcases dispatchSingle_cases out ctx s with ⟨args, hargs, heq⟩ | ⟨vars, aliases, world, action, code, heq⟩
  · rw [← hargs]
    exact heq source ctx.history
  · rw [heq _ ctx.history] at h
    cases h

section

variable (out : Outside ω) (source : Ctx ω → List Bytes → Option (Ctx ω × Action × Nat))

theorem run_commandCalls (ctx : Ctx ω) (s : Slice) :
    (commandCalls out ctx s).run (fun call => source call.1 call.2) = dispatchSingle out source ctx s := by
  unfold commandCalls
  cases h : dispatchSingle out (fun _ _ => none) ctx s with
  | none =>
    rw [dispatchSingle_of_none h source, Calling.run_call]
    exact Option.bind_fun_some _
  | some r =>
    -- a command that returns without `cmd_source` returns the same with any
    rcases dispatchSingle_cases out ctx s with ⟨args, -, heq⟩ | ⟨vars, aliases, world, action, code, heq⟩
    · have hnone : dispatchSingle out (fun _ _ => none) ctx s = none := heq _ ctx.history
      rw [hnone] at h
      cases h
    · have hany : dispatchSingle out (fun _ _ => none) ctx s = dispatchSingle out source ctx s :=
        (heq _ ctx.history).trans (heq source ctx.history).symm
      rw [← hany, h]
      rfl

theorem run_partsCalls (p : Progress ω) (parts : List CompoundPart) :
    (partsCalls out p parts).run (fun call => source call.1 call.2) =
      executeParts (dispatchSingle out source) p parts := by
  induction parts generalizing p with
  | nil => rfl
  | cons part rest ih =>
    unfold partsCalls executeParts
    split
    · exact ih p
    · rw [Calling.run_bind, run_commandCalls]
      cases dispatchSingle out source p.ctx part.cmd.trim with
      | none => rfl
      | some r =>
        obtain ⟨ctx, action, code⟩ := r
        cases action with
        | exit c => rfl
        | cont | cd path => exact ih _

theorem run_lineCalls (line : Bytes) (ctx : Ctx ω) :
    (lineCalls out line ctx).run (fun call => source call.1 call.2) =
      executeLine (dispatchSingle out source) line ctx := run_partsCalls out source _ _

theorem run_linesCalls (ctx : Ctx ω) (lastExit : Nat) (lines : List Bytes) :
    (linesCalls out ctx lastExit lines).run (fun call => source call.1 call.2) =
      runLines (dispatchSingle out source) ctx lastExit lines := by
  induction lines generalizing ctx lastExit with
  | nil => rfl
  | cons line rest ih =>
    unfold linesCalls runLines
    rw [Calling.run_bind, run_lineCalls]
    cases executeLine (dispatchSingle out source) line { ctx with lastExit := lastExit } with
    | none => rfl
    | some r =>
      obtain ⟨sub, action, code⟩ := r
      cases action with
      | cont => exact ih _ _
      | exit c | cd path => rfl

theorem run_sourceCalls (call : Ctx ω × List Bytes) :
    (sourceCalls out call).run (fun call => source call.1 call.2) =
      cmdSource out (dispatchSingle out source) call.1 call.2 := by
  unfold sourceCalls cmdSource
  split
  · rfl
  · rcases readScript out (pathAsWords (resolve call.1.cwd (arg call.2 1))) call.1.world with ⟨world, _ | script⟩
    · rfl
    · exact run_linesCalls out source _ _ _

end

/-- The commands of the shell call `cmd_source`, with at most `depth` scripts open. -/
theorem shellDispatch_eq_within (out : Outside ω) (depth : Nat) :
    shellDispatch out depth = dispatchSingle out fun ctx args => within (sourceCalls out) depth (ctx, args) := by
  induction depth with
  | zero => rfl
  | succ depth ih =>
    have hsource : cmdSource out (shellDispatch out depth) =
        fun ctx args => within (sourceCalls out) (depth + 1) (ctx, args) := by
      funext ctx args
      rw [ih]
      exact (run_sourceCalls out (fun ctx args => within (sourceCalls out) depth (ctx, args)) (ctx, args)).symm
    unfold shellDispatch
    rw [hsource]

theorem executeLine_eq_run (out : Outside ω) (depth : Nat) (line : Bytes) (ctx : Ctx ω) :
    executeLine (shellDispatch out depth) line ctx = (lineCalls out line ctx).run (within (sourceCalls out) depth) := by
  rw [shellDispatch_eq_within]
  exact (run_lineCalls out (fun ctx args => within (sourceCalls out) depth (ctx, args)) line ctx).symm

/-! ### How deep scripts are nested -/

/-- A line returns exactly if at most `depth` scripts are ever open. -/
theorem returns_iff_open (out : Outside ω) (depth : Nat) (line : Bytes) (ctx : Ctx ω) :
    (∃ r, executeLine (shellDispatch out depth) line ctx = some r) ↔
      ∀ s, ReflTransGen (Step (sourceCalls out)) (lineCalls out line ctx, []) s → s.2.length ≤ depth := by
  rw [executeLine_eq_run]
  exact Calling.returns_iff_height _ _

/-- A line returns with scripts nested at most `depth` deep exactly if the calls of `cmd_source` have levels, such that a
script makes calls at lower levels than the call that runs it, and the line makes calls at levels below `depth`. -/
theorem nesting_iff (out : Outside ω) (depth : Nat) (line : Bytes) (ctx : Ctx ω) :
    (∃ r, executeLine (shellDispatch out depth) line ctx = some r) ↔
      ∃ level : Ctx ω × List Bytes → ℕ∞, Descends (sourceCalls out) level ∧
        ∀ call, Meets (sourceCalls out) (lineCalls out line ctx) call → level call + 1 ≤ depth := by
  rw [executeLine_eq_run]
  exact Calling.returns_iff_level _ _

/-! ### A script that sources itself -/

private def selfCall : Ctx Unit × List Bytes := (Ctx.start 5 (), [ascii "source", ascii "f"])

/-- The line `source f` calls `cmd_source`. -/
private theorem lineCalls_self (out : Outside Unit) :
    ∃ k, lineCalls out (ascii "source f") (Ctx.start 5 ()) = .call selfCall k := by
  have hsplit : splitCompound (expandVars ((expandHistory (ascii "source f") History.new).getD (ascii "source f"))
      VarStore.initDefaults 5 0) = [⟨⟨0, ascii "source f"⟩, .seq⟩] := by decide +kernel
  have htrim : (⟨0, ascii "source f"⟩ : Slice).trim = ⟨0, ascii "source f"⟩ := by decide +kernel
  have hwords : tokenize (expandAlias AliasStore.initDefaults (ascii "source f")) = [ascii "source", ascii "f"] := by
    decide +kernel
  have hcommand : commandCalls out (Ctx.start 5 ()) ⟨0, ascii "source f"⟩ = .call selfCall .ret := by
    have hnone : dispatchSingle out (fun _ _ => none) (Ctx.start 5 ()) ⟨0, ascii "source f"⟩ = none := by rfl
    unfold commandCalls
    rw [hnone]
    exact congrArg (fun args => Calling.call (Ctx.start 5 (), args) Calling.ret) hwords
  have hpart : ∃ k, partsCalls out ⟨Ctx.start 5 (), 0, .cont, false, .seq⟩ [⟨⟨0, ascii "source f"⟩, .seq⟩] =
      .call selfCall k := by
    unfold partsCalls
    rw [if_neg (by decide), htrim, hcommand]
    exact ⟨_, rfl⟩
  obtain ⟨k, hk⟩ := hpart
  exact ⟨k, (congrArg (partsCalls out ⟨Ctx.start 5 (), 0, .cont, false, .seq⟩) hsplit).trans hk⟩

/-- The file `f` holds `source f`: `source f` does not return, however deep scripts may be nested. -/
theorem self_sourcing_never_ends :
    readScript (oneFile (ascii "source f")) (pathAsWords (resolve (ascii "/") (ascii "f"))) () =
        ((), some (ascii "source f")) ∧
      ∀ depth, executeLine (shellDispatch (oneFile (ascii "source f")) depth) (ascii "source f") (Ctx.start 5 ()) =
        none := by
  have hread : readScript (oneFile (ascii "source f")) (pathAsWords (resolve (ascii "/") (ascii "f"))) () =
      ((), some (ascii "source f")) := by decide +kernel
  refine ⟨hread, fun depth => ?_⟩
  obtain ⟨k, hline⟩ := lineCalls_self (oneFile (ascii "source f"))
  have hlines : scriptLines (ascii "source f") = [ascii "source f"] := by decide +kernel
  -- the script is run in the context in which it has been called, so it comes to the same call
  have hbody : ∃ k', sourceCalls (oneFile (ascii "source f")) selfCall = .call selfCall k' := by
    have hpath : ¬ arg selfCall.2 1 = [] := by decide
    have hscript : readScript (oneFile (ascii "source f")) (pathAsWords (resolve selfCall.1.cwd (arg selfCall.2 1)))
        selfCall.1.world = ((), some (ascii "source f")) := hread
    have hagain : lineCalls (oneFile (ascii "source f")) (ascii "source f")
        { selfCall.1 with world := (), lastExit := 0 } = .call selfCall k := hline
    unfold sourceCalls
    rw [if_neg hpath, hscript]
    dsimp only
    rw [hlines]
    unfold linesCalls
    rw [hagain]
    exact ⟨_, rfl⟩
  obtain ⟨k', hbody⟩ := hbody
  have hself : Meets (sourceCalls (oneFile (ascii "source f"))) (sourceCalls (oneFile (ascii "source f")) selfCall)
      selfCall := by
    rw [hbody]
    exact Calling.meets_call k'
  rw [executeLine_eq_run, hline, Calling.run_call, Calling.within_eq_none_of_meets_self hself]
  rfl

end Rost.Shell
